import MSP430.Flag

/-!
# Jump conditions

The eight conditions of the jump format in the order of their three-bit field,
the flags each one looks at, and when it holds.
-/

namespace MSP430

/-- A condition on the flags that a host can name. -/
inductive FlagCondition where
  | e | ne
  | ult | uge
  | slt | sge
  | neg | pos
  deriving DecidableEq, Repr

namespace FlagCondition

def all : List FlagCondition :=
  [e, ne, ult, uge, slt, sge, neg, pos]

def name : FlagCondition -> String
  | e => "e"
  | ne => "ne"
  | ult => "ult"
  | uge => "uge"
  | slt => "slt"
  | sge => "sge"
  | neg => "neg"
  | pos => "pos"

def flagsRequired : FlagCondition -> List Flag
  | e | ne => [.z]
  | ult | uge => [.c]
  | slt | sge => [.n, .v]
  | neg | pos => [.n]

end FlagCondition

inductive Condition where
  | notZero
  | zero
  | noCarry
  | carry
  | negative
  | greaterEqual
  | less
  | always
  deriving DecidableEq, Repr

namespace Condition

def bits : Condition -> Nat
  | notZero => 0
  | zero => 1
  | noCarry => 2
  | carry => 3
  | negative => 4
  | greaterEqual => 5
  | less => 6
  | always => 7

/-- The condition a field names; bits above the low three are ignored. -/
def ofBits (field : Nat) : Condition :=
  match field % 8 with
  | 0 => notZero
  | 1 => zero
  | 2 => noCarry
  | 3 => carry
  | 4 => negative
  | 5 => greaterEqual
  | 6 => less
  | _ => always

def mnemonic : Condition -> String
  | notZero => "jnz"
  | zero => "jz"
  | noCarry => "jlo"
  | carry => "jhs"
  | negative => "jn"
  | greaterEqual => "jge"
  | less => "jl"
  | always => "jmp"

def isUnconditional : Condition -> Bool
  | always => true
  | _ => false

/-- The flag condition under which the jump is taken, if it has one. -/
def flagCondition? : Condition -> Option FlagCondition
  | notZero => some .ne
  | zero => some .e
  | noCarry => some .ult
  | carry => some .uge
  | negative => some .neg
  | greaterEqual => some .sge
  | less => some .slt
  | always => none

def flagsRequired (condition : Condition) : List Flag :=
  match condition.flagCondition? with
  | some required => required.flagsRequired
  | none => []

/-- Whether the jump is taken under the given flags. -/
def holds (condition : Condition) (flags : Flag -> Bool) : Bool :=
  match condition with
  | notZero => !flags .z
  | zero => flags .z
  | noCarry => !flags .c
  | carry => flags .c
  | negative => flags .n
  | greaterEqual => flags .n == flags .v
  | less => flags .n != flags .v
  | always => true

@[simp] theorem ofBits_bits (condition : Condition) :
    ofBits condition.bits = condition := by
  cases condition <;> rfl

end Condition

end MSP430
