import Mathlib.Data.Nat.Bitwise
import MSP430.Width

/-!
# Checked arithmetic

The integers of a machine have a size.  A sum, a difference, a product or a negation has
to stay within it, a shift has to go by less, and an index has to stay within its table.
A checked computation takes every such step under its check, and what fails a check is
a fault.  Conversions, comparisons and bitwise operations check nothing: a conversion
reads the low bits that it has room for.
-/

namespace MSP430

inductive Fault where
  /-- A result does not fit its type. -/
  | overflow
  /-- A shift goes by all bits of its type or by more. -/
  | shift
  | index
  | assertion
  deriving DecidableEq, Repr

abbrev Checked : Type -> Type :=
  Except Fault

namespace Checked

variable {value first second : Type}

@[simp] theorem ok_bind (result : first) (next : first -> Checked second) :
    ((Except.ok result : Checked first) >>= next) = next result := rfl

@[simp] theorem pure_eq_ok (result : value) :
    (pure result : Checked value) = Except.ok result := rfl

/-- The entry of a table. -/
def index (table : List value) (position : Nat) : Checked value :=
  match table[position]? with
  | some entry => .ok entry
  | none => .error .index

def assert (claim : Prop) [Decidable claim] : Checked Unit :=
  if claim then .ok () else .error .assertion

theorem mapM_eq {step : first -> Checked second} {result : first -> second}
    {list : List first} (h : forall entry, entry ∈ list -> step entry = .ok (result entry)) :
    list.mapM step = .ok (list.map result) := by
  induction list with
  | nil => rfl
  | cons head rest ih =>
      rw [List.mapM_cons, h head List.mem_cons_self, ok_bind,
        ih fun entry hentry => h entry (List.mem_cons_of_mem head hentry), ok_bind,
        pure_eq_ok, List.map_cons]

theorem index_eq {table : List value} {position : Nat} {entry : value}
    (h : table[position]? = some entry) : index table position = .ok entry := by
  unfold index
  rw [h]

theorem assert_eq {claim : Prop} [Decidable claim] (h : claim) : assert claim = .ok () :=
  if_pos h

end Checked

/-!
# Unsigned integers
-/

inductive Unsigned where
  | u8 | u16 | u32 | u64
  /-- Sizes and positions.  On every machine they have sixteen bits or more, and what fits
  into sixteen fits into all. -/
  | size
  deriving DecidableEq, Repr

namespace Unsigned

def bits : Unsigned -> Nat
  | u8 => 8
  | u16 | size => 16
  | u32 => 32
  | u64 => 64

def fit (kind : Unsigned) (result : Nat) : Checked Nat :=
  if result < 2 ^ kind.bits then .ok result else .error .overflow

def add (kind : Unsigned) (left right : Nat) : Checked Nat :=
  kind.fit (left + right)

def mul (kind : Unsigned) (left right : Nat) : Checked Nat :=
  kind.fit (left * right)

/-- A difference of numbers that fit is too small or fits. -/
def sub (_ : Unsigned) (left right : Nat) : Checked Nat :=
  if right ≤ left then .ok (left - right) else .error .overflow

/-- Bits that are shifted out are lost, and no fault. -/
def shiftLeft (kind : Unsigned) (value amount : Nat) : Checked Nat :=
  if amount < kind.bits then
    .ok ((value <<< amount) % 2 ^ kind.bits)
  else
    .error .shift

def shiftRight (kind : Unsigned) (value amount : Nat) : Checked Nat :=
  if amount < kind.bits then .ok (value >>> amount) else .error .shift

/-- The low bits of a number. -/
def truncate (kind : Unsigned) (value : Nat) : Nat :=
  value % 2 ^ kind.bits

/-- The low bits of a number in two's complement. -/
def ofInt (kind : Unsigned) (value : Int) : Nat :=
  (value % (2 ^ kind.bits : Nat)).toNat

/-- Every bit inverted. -/
def complement (kind : Unsigned) (value : Nat) : Nat :=
  2 ^ kind.bits - 1 - kind.truncate value

/-- So many bits of a word, from a position on. -/
def field (kind : Unsigned) (word position count : Nat) : Checked Nat := do
  let high <- kind.shiftRight word position
  return high &&& (2 ^ count - 1)

variable {kind : Unsigned} {left right value amount : Nat}

theorem add_of_lt (h : left + right < 2 ^ kind.bits) :
    kind.add left right = .ok (left + right) :=
  if_pos h

theorem mul_of_lt (h : left * right < 2 ^ kind.bits) :
    kind.mul left right = .ok (left * right) :=
  if_pos h

theorem u8_add (h : left + right < 0x100) : u8.add left right = .ok (left + right) :=
  add_of_lt h

theorem size_add (h : left + right < 0x10000) : size.add left right = .ok (left + right) :=
  add_of_lt h

/-- The bytes of so many words. -/
theorem size_double {words : Nat} (h : words < 0x8000) : size.mul words 2 = .ok (2 * words) := by
  have hbytes : words * 2 < 0x10000 := by omega
  rw [Nat.mul_comm 2 words]
  exact mul_of_lt hbytes

theorem sub_of_le (h : right ≤ left) : kind.sub left right = .ok (left - right) :=
  if_pos h

theorem shiftLeft_of_lt (h : amount < kind.bits) :
    kind.shiftLeft value amount = .ok (value * 2 ^ amount % 2 ^ kind.bits) := by
  rw [← Nat.shiftLeft_eq]
  exact if_pos h

theorem shiftRight_of_lt (h : amount < kind.bits) :
    kind.shiftRight value amount = .ok (value / 2 ^ amount) := by
  rw [← Nat.shiftRight_eq_div_pow]
  exact if_pos h

theorem field_of_lt {word position : Nat} (h : position < kind.bits) (count : Nat) :
    kind.field word position count = .ok (word / 2 ^ position % 2 ^ count) := by
  unfold field
  rw [shiftRight_of_lt h, Checked.ok_bind, Nat.and_two_pow_sub_one_eq_mod,
    Checked.pure_eq_ok]

end Unsigned

/-- A bit of a word, picked by its mask. -/
theorem and_two_pow_ne_zero_iff (word bit : Nat) :
    word &&& 2 ^ bit ≠ 0 ↔ word / 2 ^ bit % 2 = 1 := by
  have htest := @Nat.testBit_eq_decide_div_mod_eq bit word
  rw [Nat.and_two_pow, htest]
  by_cases h : word / 2 ^ bit % 2 = 1
  · simp [h]
  · simp [h]

/-!
# Signed integers
-/

inductive Signed where
  | i16 | i32 | i64
  deriving DecidableEq, Repr

namespace Signed

def bits : Signed -> Nat
  | i16 => 16
  | i32 => 32
  | i64 => 64

/-- One more than the largest number, and the magnitude of the smallest one. -/
def half (kind : Signed) : Nat :=
  2 ^ (kind.bits - 1)

def fit (kind : Signed) (result : Int) : Checked Int :=
  if -(kind.half : Int) ≤ result ∧ result < kind.half then
    .ok result
  else
    .error .overflow

def add (kind : Signed) (left right : Int) : Checked Int :=
  kind.fit (left + right)

def mul (kind : Signed) (left right : Int) : Checked Int :=
  kind.fit (left * right)

def neg (kind : Signed) (value : Int) : Checked Int :=
  kind.fit (-value)

def abs (kind : Signed) (value : Int) : Checked Int :=
  if value < 0 then kind.neg value else .ok value

/-- The sign stays. -/
def shiftRight (kind : Signed) (value : Int) (amount : Nat) : Checked Int :=
  if amount < kind.bits then .ok (value >>> amount) else .error .shift

/-- The low bits of a number, read in two's complement. -/
def ofUnsigned (kind : Signed) (value : Nat) : Int :=
  Int.bmod value (2 ^ kind.bits)

variable {kind : Signed} {left right value : Int} {amount : Nat}

theorem add_of_bounds
    (h : -(kind.half : Int) ≤ left + right ∧ left + right < kind.half) :
    kind.add left right = .ok (left + right) :=
  if_pos h

theorem mul_of_bounds
    (h : -(kind.half : Int) ≤ left * right ∧ left * right < kind.half) :
    kind.mul left right = .ok (left * right) :=
  if_pos h

theorem neg_of_bounds (h : -(kind.half : Int) ≤ -value ∧ -value < kind.half) :
    kind.neg value = .ok (-value) :=
  if_pos h

theorem shiftRight_of_lt (h : amount < kind.bits) :
    kind.shiftRight value amount = .ok (value / (2 ^ amount : Nat)) := by
  rw [← Int.shiftRight_eq_div_pow]
  exact if_pos h

end Signed

/-!
# Masks
-/

namespace Width

/-- The mask of a width, as a shifted bit less one. -/
def checkedMask (width : Width) : Checked Nat := do
  let power <- Unsigned.u64.shiftLeft 1 width.bits
  Unsigned.u64.sub power 1

@[simp] theorem checkedMask_eq (width : Width) : width.checkedMask = .ok width.mask := by
  cases width <;> rfl

theorem and_mask (width : Width) (value : Nat) :
    value &&& width.mask = width.truncate value := by
  have hmask : width.mask = 2 ^ width.bits - 1 := by cases width <;> rfl
  have hmodulus : width.modulus = 2 ^ width.bits := by cases width <;> rfl
  rw [hmask, Nat.and_two_pow_sub_one_eq_mod]
  unfold truncate
  rw [hmodulus]

/-- A number that is read as unsigned keeps the low bits it had. -/
theorem truncate_ofInt (width : Width) (value : Int) :
    width.truncate (Unsigned.u64.ofInt value) = width.ofInt value := by
  cases width <;>
    simp only [truncate, modulus, Unsigned.ofInt, Unsigned.bits, ofInt, Nat.reducePow] <;>
    omega

end Width

end MSP430
