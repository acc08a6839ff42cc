/-!
# Operation widths

A value of a given width is a natural number below the width's modulus.  All
arithmetic of the library is arithmetic of natural numbers reduced by that
modulus; the two's complement reading is a function from such numbers to the
integers.
-/

namespace MSP430

inductive Width where
  | byte
  | word
  /-- The twenty bits of an address on the extended processor. -/
  | address
  deriving DecidableEq, Repr

namespace Width

/-- The width the byte bit of an opcode word selects. -/
def ofByteBit (byteBit : Bool) : Width :=
  if byteBit then byte else word

def bits : Width -> Nat
  | byte => 8
  | word => 16
  | address => 20

def modulus : Width -> Nat
  | byte => 0x100
  | word => 0x10000
  | address => 0x100000

/-- The largest value, which has every bit set. -/
def mask (width : Width) : Nat :=
  width.modulus - 1

/-- The weight of the top bit. -/
def signBit : Width -> Nat
  | byte => 0x80
  | word => 0x8000
  | address => 0x80000

/-- The letter that marks the width in a mnemonic. -/
def suffix : Width -> String
  | byte => "b"
  | word => "w"
  | address => "a"

def truncate (width : Width) (value : Nat) : Nat :=
  value % width.modulus

/-- Every bit of the truncated value inverted. -/
def complement (width : Width) (value : Nat) : Nat :=
  width.mask - value % width.modulus

/-- The representative of an integer modulo the width. -/
def ofInt (width : Width) (value : Int) : Nat :=
  (value % (width.modulus : Int)).toNat

/-- The two's complement reading of the truncated value. -/
def toInt (width : Width) (value : Nat) : Int :=
  if value % width.modulus < width.signBit then
    (value % width.modulus : Nat)
  else
    (value % width.modulus : Nat) - (width.modulus : Int)

theorem modulus_eq_shift (width : Width) : width.modulus = 1 <<< width.bits := by
  cases width <;> rfl

theorem modulus_eq_two_mul_signBit (width : Width) :
    width.modulus = 2 * width.signBit := by
  cases width <;> rfl

theorem modulus_pos (width : Width) : 0 < width.modulus := by
  cases width <;> decide

theorem truncate_lt (width : Width) (value : Nat) :
    width.truncate value < width.modulus :=
  Nat.mod_lt _ width.modulus_pos

theorem ofInt_lt (width : Width) (value : Int) :
    width.ofInt value < width.modulus := by
  cases width <;> simp only [ofInt, modulus] <;> omega

end Width

end MSP430
