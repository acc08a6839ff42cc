import MSP430.Flag
import MSP430.Width

/-!
# Flag rules

How each family of operations computes its result and its flags, as arithmetic
on numbers.  A subtraction adds the complement of the source and one, so its
carry is set when nothing was borrowed.
-/

namespace MSP430

/-!
# Flags of a result

The functions of this section truncate their operands to the width.
-/

def isZero (width : Width) (result : Nat) : Bool :=
  decide (width.truncate result = 0)

/-- The top bit of a value of the given width. -/
def isNegative (width : Width) (result : Nat) : Bool :=
  decide (width.signBit ≤ width.truncate result)

/-- Whether a sum and an incoming carry leave the width. -/
def carryOfAddCarry (width : Width) (a b : Nat) (carry : Bool) : Bool :=
  decide (width.modulus ≤ width.truncate a + width.truncate b + carry.toNat)

def carryOfAdd (width : Width) (a b : Nat) : Bool :=
  carryOfAddCarry width a b false

/-- The carry of adding a complement and an incoming carry. -/
def carryOfSubCarry (width : Width) (a b : Nat) (carry : Bool) : Bool :=
  carryOfAddCarry width a (width.complement b) carry

def carryOfSub (width : Width) (a b : Nat) : Bool :=
  carryOfSubCarry width a b true

/-- Both operands differ from the result in sign. -/
def overflowOfAdd (width : Width) (a b result : Nat) : Bool :=
  (isNegative width a != isNegative width result) &&
    (isNegative width b != isNegative width result)

/-- The operands differ in sign, and the first differs from the result. -/
def overflowOfSub (width : Width) (a b result : Nat) : Bool :=
  (isNegative width a != isNegative width b) &&
    (isNegative width a != isNegative width result)

/-- The low byte of a value, sign-extended. -/
def signExtendByte (width : Width) (value : Nat) : Nat :=
  width.ofInt (Width.byte.toInt value)

/-!
# Steps of shifts

Each step takes a value that fits the width to another one.
-/

/-- One step to the right that keeps the top bit. -/
def arithmeticStep (width : Width) (value : Nat) : Nat :=
  value / 2 + (if isNegative width value then width.signBit else 0)

/-- One step to the right in which the carry enters at the top and the lowest
bit becomes the carry. -/
def rotateStep (width : Width) (state : Nat × Bool) : Nat × Bool :=
  (state.1 / 2 + (if state.2 then width.signBit else 0), decide (state.1 % 2 = 1))

/-- Applies a step a number of times. -/
def iterate {state : Type} (step : state -> state) : Nat -> state -> state
  | 0, start => start
  | count + 1, start => iterate step count (step start)

/-- The last bit that `count` steps to the right shift out. -/
def shiftedOutRight (value count : Nat) : Bool :=
  decide (0 < count ∧ value >>> (count - 1) % 2 = 1)

/-- The last bit that `count` steps to the left shift out of the width. -/
def shiftedOutLeft (width : Width) (value count : Nat) : Bool :=
  decide (0 < count ∧ value >>> (width.bits - count) % 2 = 1)

/-!
# Rules
-/

/-- The families of operations that set flags.  Two-operand families take the
destination first and the source second; the others look at the first value
only. -/
inductive FlagRule where
  | add | addc
  | sub | subc
  | and | xor
  /-- An arithmetic shift right. -/
  | rra (count : Nat)
  /-- A rotation to the right through the carry. -/
  | rrc (count : Nat)
  /-- A logical shift right. -/
  | rru (count : Nat)
  /-- A shift left. -/
  | rla (count : Nat)
  | sxt
  deriving DecidableEq, Repr

/-- The result of an operation and the flags it sets; the others are left
alone. -/
structure FlagOutcome where
  value : Nat
  flag? : Flag -> Option Bool

namespace FlagRule

/-- Shifts by several bits leave the overflow flag undefined, all other
operations set it. -/
def group : FlagRule -> FlagWrite
  | rra count | rrc count | rru count | rla count =>
      if 1 < count then .cnz else .all
  | _ => .all

/-- The result for operands that fit the width. -/
def result (rule : FlagRule) (width : Width) (a b : Nat) (carry : Bool) : Nat :=
  match rule with
  | add => width.truncate (a + b)
  | addc => width.truncate (a + b + carry.toNat)
  | sub => width.truncate (a + width.complement b + 1)
  | subc => width.truncate (a + width.complement b + carry.toNat)
  | and => a &&& b
  | xor => a ^^^ b
  | rra count => iterate (arithmeticStep width) count a
  | rrc count => (iterate (rotateStep width) count (a, carry)).1
  | rru count => a >>> count
  | rla count => width.truncate (a <<< count)
  | sxt => signExtendByte width a

/-- The carry for operands that fit the width. -/
def carryOut (rule : FlagRule) (width : Width) (a b : Nat) (carry : Bool) : Bool :=
  match rule with
  | add => carryOfAdd width a b
  | addc => carryOfAddCarry width a b carry
  | sub => carryOfSub width a b
  | subc => carryOfSubCarry width a b carry
  | and | xor | sxt => decide (rule.result width a b carry ≠ 0)
  | rra count | rru count => shiftedOutRight a count
  | rrc count => (iterate (rotateStep width) count (a, carry)).2
  | rla count => shiftedOutLeft width a count

/-- The overflow for operands that fit the width. -/
def overflow (rule : FlagRule) (width : Width) (a b : Nat) (carry : Bool) : Bool :=
  let value := rule.result width a b carry
  match rule with
  | add | addc => overflowOfAdd width a b value
  | sub | subc => overflowOfSub width a b value
  | xor => isNegative width a && isNegative width b
  | and | rra _ | rrc _ | rru _ | rla _ | sxt => false

/-- The value of one flag after an operation on operands that fit the width. -/
def flagValue (rule : FlagRule) (width : Width) (a b : Nat) (carry : Bool) :
    Flag -> Bool
  | .c => rule.carryOut width a b carry
  | .z => isZero width (rule.result width a b carry)
  | .n => isNegative width (rule.result width a b carry)
  | .v => rule.overflow width a b carry

/-- Result and flags of an operation, whose operands are truncated first. -/
def evaluate (rule : FlagRule) (width : Width) (a b : Nat) (carry : Bool) :
    FlagOutcome :=
  let a := width.truncate a
  let b := width.truncate b
  { value := rule.result width a b carry
    flag? := fun flag =>
      if flag ∈ rule.group.flags then
        some (rule.flagValue width a b carry flag)
      else
        none }

end FlagRule

end MSP430
