import MSP430.Condition
import MSP430.FlagRule
import MSP430.IL.Expr

/-!
# Flags as expressions

The flag rules and the jump conditions once more, as expressions over the
operands and the result of an operation.  The operands are mentioned several
times, so they have to be expressions that can be read again.
-/

namespace MSP430

open IL (Expr)

namespace FlagRule

/-- What a flag expression may mention. -/
structure Operands where
  a : Expr
  b : Expr
  /-- The carry that enters the operation. -/
  carry : Expr
  result : Expr
  deriving DecidableEq, Repr

def isNegativeExpr (width : Width) (value : Expr) : Expr :=
  .compare .signedLessThan width value (.int width 0)

def isZeroExpr (width : Width) (value : Expr) : Expr :=
  .compare .equal width value (.int width 0)

def isNonzeroExpr (width : Width) (value : Expr) : Expr :=
  .compare .notEqual width value (.int width 0)

def bitSetExpr (width : Width) (value : Expr) (bit : Nat) : Expr :=
  isNonzeroExpr width (.and width value (.int width (1 <<< bit)))

def carryExpr (rule : FlagRule) (width : Width) (operands : Operands) : Expr :=
  let a := operands.a
  let b := operands.b
  let result := operands.result
  match rule with
  | add => .compare .unsignedLessThan width result a
  | addc =>
      .logic .or
        (.compare .unsignedLessThan width result a)
        (.logic .and operands.carry (.compare .equal width result a))
  | sub => .compare .unsignedGreaterEqual width a b
  | subc =>
      .logic .or
        (.compare .unsignedGreaterThan width a b)
        (.logic .and operands.carry (.compare .equal width a b))
  | and | xor | sxt => isNonzeroExpr width result
  | rra count | rrc count | rru count => bitSetExpr width a (max count 1 - 1)
  | rla count => bitSetExpr width a (width.bits - max count 1)

def overflowExpr (rule : FlagRule) (width : Width) (operands : Operands) : Expr :=
  let a := operands.a
  let b := operands.b
  let result := operands.result
  match rule with
  | add | addc =>
      isNegativeExpr width
        (.and width (.xor width a result) (.xor width b result))
  | sub | subc =>
      isNegativeExpr width (.and width (.xor width a b) (.xor width a result))
  | xor => .logic .and (isNegativeExpr width a) (isNegativeExpr width b)
  | and | rra _ | rrc _ | rru _ | rla _ | sxt => .bool false

def flagExpr (rule : FlagRule) (width : Width) (operands : Operands) :
    Flag -> Expr
  | .c => rule.carryExpr width operands
  | .z => isZeroExpr width operands.result
  | .n => isNegativeExpr width operands.result
  | .v => rule.overflowExpr width operands

/-- An expression for every flag the rule sets, in the order in which they are
written. -/
def flagExprs (rule : FlagRule) (width : Width) (operands : Operands) :
    List (Flag × Expr) :=
  rule.group.flags.map fun flag => (flag, rule.flagExpr width operands flag)

end FlagRule

namespace Condition

/-- A truth value over the flags that holds when the jump is taken. -/
def expr : Condition -> Expr
  | notZero => .not (.flag .z)
  | zero => .flag .z
  | noCarry => .not (.flag .c)
  | carry => .flag .c
  | negative => .flag .n
  | greaterEqual => .not (.logic .xor (.flag .n) (.flag .v))
  | less => .logic .xor (.flag .n) (.flag .v)
  | always => .bool true

end Condition

end MSP430
