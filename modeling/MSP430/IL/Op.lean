import MSP430.IL.Expr

/-!
# Operations of the intermediate language

An operation sets a place, transfers control, or marks a label.  Labels are
numbers.
-/

namespace MSP430
namespace IL

abbrev Label : Type :=
  Nat

inductive Op where
  | setReg (width : Width) (register : Register) (value : Expr)
  | setTemp (width : Width) (index : Nat) (value : Expr)
  | setFlag (flag : Flag) (value : Expr)
  | store (width : Width) (address value : Expr)
  | jump (target : Expr)
  | goto (label : Label)
  | branch (condition : Expr) (ifTrue ifFalse : Label)
  | call (target : Expr)
  | ret (target : Expr)
  | nop
  | label (label : Label)
  | unimplemented
  deriving DecidableEq, Repr

namespace Op

def text : Op -> String
  | setReg width register value =>
      register.name ++ "." ++ width.suffix ++ " = " ++ value.text
  | setTemp width index value =>
      "temp" ++ toString index ++ "." ++ width.suffix ++ " = " ++ value.text
  | setFlag flag value => flag.name ++ " = " ++ value.text
  | store width address value =>
      "[" ++ address.text ++ "]." ++ width.suffix ++ " = " ++ value.text
  | jump target => "jump(" ++ target.text ++ ")"
  | goto target => "goto " ++ toString target
  | branch condition ifTrue ifFalse =>
      "if (" ++ condition.text ++ ") then " ++ toString ifTrue ++
        " else " ++ toString ifFalse
  | call target => "call(" ++ target.text ++ ")"
  | ret target => "return " ++ target.text
  | nop => "nop"
  | label number => toString number ++ ":"
  | unimplemented => "unimplemented"

end Op

end IL
end MSP430
