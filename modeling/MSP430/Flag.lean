/-!
# Status flags

The four flags the arithmetic sets, where each stands in the status register,
and the groups in which operations write them.
-/

namespace MSP430

inductive Flag where
  | c | z | n | v
  deriving DecidableEq, Repr

inductive FlagRole where
  | carry
  | zero
  | negativeSign
  | overflow
  deriving DecidableEq, Repr

namespace Flag

def all : List Flag :=
  [c, z, n, v]

def name : Flag -> String
  | c => "c"
  | z => "z"
  | n => "n"
  | v => "v"

def role : Flag -> FlagRole
  | c => .carry
  | z => .zero
  | n => .negativeSign
  | v => .overflow

/-- The bit of the status register the flag occupies, which is also its
identifier. -/
def bit : Flag -> Nat
  | c => 0
  | z => 1
  | n => 2
  | v => 8

/-- The weight of the flag's bit in the status register. -/
def mask (flag : Flag) : Nat :=
  1 <<< flag.bit

def ofBit? : Nat -> Option Flag
  | 0 => some c
  | 1 => some z
  | 2 => some n
  | 8 => some v
  | _ => none

@[simp] theorem ofBit?_bit (flag : Flag) : ofBit? flag.bit = some flag := by
  cases flag <;> rfl

end Flag

/-- A group of flags that one operation writes together. -/
inductive FlagWrite where
  | untouched
  | all
  | cnz
  deriving DecidableEq, Repr

namespace FlagWrite

def name : FlagWrite -> String
  | untouched => ""
  | all => "*"
  | cnz => "cnz"

def id : FlagWrite -> Nat
  | untouched => 0
  | all => 1
  | cnz => 2

def ofId? : Nat -> Option FlagWrite
  | 0 => some untouched
  | 1 => some all
  | 2 => some cnz
  | _ => none

/-- The flags of the group, in the order in which they are written. -/
def flags : FlagWrite -> List Flag
  | untouched => []
  | all => [.c, .z, .n, .v]
  | cnz => [.c, .n, .z]

@[simp] theorem ofId?_id (group : FlagWrite) : ofId? group.id = some group := by
  cases group <;> rfl

end FlagWrite

end MSP430
