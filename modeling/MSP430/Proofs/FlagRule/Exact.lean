import MSP430.Proofs.FlagRule.Shift

/-!
# Additions and subtractions as integer arithmetic

The value of an addition or a subtraction is the exact result reduced to the
width.  The carry tells whether the exact result of the unsigned operands leaves
the width, the overflow whether that of the signed operands does.  A subtraction
is the addition of a complement, so one sum of three terms serves all four.
-/

namespace MSP430

namespace Width

theorem two_pow_bits (width : Width) : (2 : Int) ^ width.bits = width.modulus := by
  rw [width.modulus_eq_two_pow]
  norm_cast

theorem two_pow_signBit (width : Width) :
    (2 : Int) ^ (width.bits - 1) = width.signBit := by
  rw [width.signBit_eq_two_pow]
  norm_cast

end Width

/-!
# Sums
-/

section Sums

variable {width : Width} {a b : Nat}

/-- A sum of two values and a carry leaves the width at most once. -/
theorem truncate_sum (ha : a < width.modulus) (hb : b < width.modulus)
    (carry : Bool) :
    width.truncate (a + b + carry.toNat) = a + b + carry.toNat ∨
      width.truncate (a + b + carry.toNat) + width.modulus =
        a + b + carry.toNat := by
  have hcarry := carry.toNat_le
  unfold Width.truncate
  by_cases hlt : a + b + carry.toNat < width.modulus
  · exact .inl (Nat.mod_eq_of_lt hlt)
  · right
    rw [Nat.mod_eq_sub_mod (Nat.le_of_not_lt hlt), Nat.mod_eq_of_lt (by omega)]
    omega

theorem isNegative_of_lt (ha : a < width.modulus) :
    isNegative width a = decide (width.signBit ≤ a) := by
  unfold isNegative
  rw [Width.truncate_of_lt ha]

/-- The overflow tells that the sum of the signed readings is not the reading of
any value: the operands have one sign, and the result has the other. -/
theorem overflowOfAdd_eq_exact (ha : a < width.modulus) (hb : b < width.modulus)
    (carry : Bool) :
    overflowOfAdd width a b (width.truncate (a + b + carry.toNat)) =
      decide (width.toInt a + width.toInt b + carry.toNat < -width.signBit ∨
        width.signBit ≤ width.toInt a + width.toInt b + carry.toNat) := by
  have hmodulus := width.modulus_eq_two_mul_signBit
  have hcarry := carry.toNat_le
  have hsum := truncate_sum ha hb carry
  have hlt := width.truncate_lt (a + b + carry.toNat)
  generalize width.truncate (a + b + carry.toNat) = result at hsum hlt ⊢
  unfold overflowOfAdd
  rw [isNegative_of_lt ha, isNegative_of_lt hb, isNegative_of_lt hlt,
    Bool.eq_iff_iff]
  simp only [Bool.and_eq_true, bne_iff_ne, ne_eq, decide_eq_decide,
    decide_eq_true_iff]
  rcases Nat.lt_or_ge a width.signBit with hasign | hasign <;>
    rcases Nat.lt_or_ge b width.signBit with hbsign | hbsign
  · rw [toInt_of_lt hasign, toInt_of_lt hbsign]
    omega
  · rw [toInt_of_lt hasign, toInt_of_ge hbsign hb]
    omega
  · rw [toInt_of_ge hasign ha, toInt_of_lt hbsign]
    omega
  · rw [toInt_of_ge hasign ha, toInt_of_ge hbsign hb]
    omega

end Sums

/-!
# Complements
-/

section Complements

variable {width : Width} {b : Nat}

theorem complement_eq (hb : b < width.modulus) :
    (width.complement b : Int) = width.modulus - 1 - b := by
  unfold Width.complement Width.mask
  rw [Nat.mod_eq_of_lt hb]
  omega

theorem toInt_complement (hb : b < width.modulus) :
    width.toInt (width.complement b) = -1 - width.toInt b := by
  have hmodulus := width.modulus_eq_two_mul_signBit
  have hcomplement := complement_eq hb
  rcases Nat.lt_or_ge b width.signBit with hsign | hsign
  · rw [toInt_of_ge (by omega) (width.complement_lt b), toInt_of_lt hsign]
    omega
  · rw [toInt_of_lt (by omega), toInt_of_ge hsign hb]
    omega

theorem isNegative_complement (hb : b < width.modulus) :
    isNegative width (width.complement b) = !isNegative width b := by
  have hmodulus := width.modulus_eq_two_mul_signBit
  have hcomplement := complement_eq hb
  rw [isNegative_of_lt (width.complement_lt b), isNegative_of_lt hb,
    ← decide_not, decide_eq_decide]
  omega

/-- A difference overflows as the sum with the complement does. -/
theorem overflowOfSub_eq_complement (hb : b < width.modulus) (a result : Nat) :
    overflowOfSub width a b result =
      overflowOfAdd width a (width.complement b) result := by
  unfold overflowOfSub overflowOfAdd
  rw [isNegative_complement hb]
  cases isNegative width a <;> cases isNegative width b <;>
    cases isNegative width result <;> rfl

end Complements

/-!
# Exact results
-/

/-- The additions, with the subtractions among them. -/
inductive Addition where
  | add | addc | sub | subc
  deriving DecidableEq, Repr

namespace Addition

def rule : Addition -> FlagRule
  | add => .add
  | addc => .addc
  | sub => .sub
  | subc => .subc

/-- The result without a bound.  The carry of a subtraction stands for one that
is not borrowed. -/
def exact (sum : Addition) (a b : Int) (carry : Bool) : Int :=
  match sum with
  | add => a + b
  | addc => a + b + carry.toNat
  | sub => a - b
  | subc => a - b - 1 + carry.toNat

/-- Whether a result of unsigned operands carries: a sum does when it leaves the
width, a difference when it is not negative. -/
def carries (sum : Addition) (width : Width) (result : Int) : Bool :=
  match sum with
  | add | addc => decide (2 ^ width.bits ≤ result)
  | sub | subc => decide (0 ≤ result)

/-- The second term of the sum that the operation comes to. -/
def term (sum : Addition) (width : Width) (b : Nat) : Nat :=
  match sum with
  | add | addc => b
  | sub | subc => width.complement b

/-- The carry into the sum that the operation comes to. -/
def carryIn (sum : Addition) (carry : Bool) : Bool :=
  match sum with
  | add => false
  | sub => true
  | addc | subc => carry

theorem twoOperand (sum : Addition) : sum.rule.TwoOperand := by
  cases sum <;> constructor

variable {width : Width} {a b : Nat}

theorem term_lt (sum : Addition) (hb : b < width.modulus) :
    sum.term width b < width.modulus := by
  cases sum with
  | add | addc => exact hb
  | sub | subc => exact width.complement_lt b

theorem result_eq_truncate (sum : Addition) (width : Width) (a b : Nat) (carry : Bool) :
    sum.rule.result width a b carry =
      width.truncate (a + sum.term width b + (sum.carryIn carry).toNat) := by
  cases sum <;> rfl

theorem carryOut_eq_carryOfAddCarry (sum : Addition) (width : Width) (a b : Nat)
    (carry : Bool) :
    sum.rule.carryOut width a b carry =
      carryOfAddCarry width a (sum.term width b) (sum.carryIn carry) := by
  cases sum <;> rfl

theorem overflow_eq_overflowOfAdd (sum : Addition) (hb : b < width.modulus) (a : Nat)
    (carry : Bool) :
    sum.rule.overflow width a b carry =
      overflowOfAdd width a (sum.term width b)
        (sum.rule.result width a b carry) := by
  cases sum with
  | add | addc => rfl
  | sub | subc => exact overflowOfSub_eq_complement hb a _

/-- The terms come to the exact result, a difference to one modulus more. -/
theorem exact_eq_terms (sum : Addition) (hb : b < width.modulus) (a : Nat) (carry : Bool) :
    sum.exact a b carry =
      (a + sum.term width b + (sum.carryIn carry).toNat : Nat) -
        match sum with
        | add | addc => 0
        | sub | subc => (width.modulus : Int) := by
  have hcomplement := complement_eq hb
  cases sum <;> simp only [exact, term, carryIn, Bool.toNat_false, Bool.toNat_true] <;>
    omega

theorem exact_toInt_eq_terms (sum : Addition) (hb : b < width.modulus) (a : Nat)
    (carry : Bool) :
    sum.exact (width.toInt a) (width.toInt b) carry =
      width.toInt a + width.toInt (sum.term width b) +
        (sum.carryIn carry).toNat := by
  have hcomplement := toInt_complement hb
  cases sum <;> simp only [exact, term, carryIn, Bool.toNat_false, Bool.toNat_true] <;>
    omega

theorem result_eq_exact (sum : Addition) (hb : b < width.modulus) (a : Nat) (carry : Bool) :
    (sum.rule.result width a b carry : Int) =
      sum.exact a b carry % (width.modulus : Int) := by
  rw [sum.result_eq_truncate, sum.exact_eq_terms hb, Width.truncate,
    Int.natCast_emod]
  cases sum with
  | add | addc => rw [Int.sub_zero]
  | sub | subc => rw [Int.sub_emod_right]

theorem carryOut_eq_carries (sum : Addition) (ha : a < width.modulus)
    (hb : b < width.modulus) (carry : Bool) :
    sum.rule.carryOut width a b carry =
      sum.carries width (sum.exact a b carry) := by
  rw [sum.carryOut_eq_carryOfAddCarry, sum.exact_eq_terms hb, carryOfAddCarry,
    Width.truncate_of_lt ha, Width.truncate_of_lt (sum.term_lt hb)]
  cases sum <;> simp only [carries, width.two_pow_bits, decide_eq_decide] <;> omega

end Addition

/-- Every value, carry and overflow of an addition or a subtraction is that of
integer arithmetic, and the other two flags describe the value. -/
theorem Addition.evaluate_eq_exact (sum : Addition) (width : Width) (a b : Nat)
    (carry : Bool) :
    let outcome := sum.rule.evaluate width a b carry
    let unsigned := sum.exact (a % 2 ^ width.bits) (b % 2 ^ width.bits) carry
    let signed := sum.exact (width.toInt a) (width.toInt b) carry
    (outcome.value : Int) = unsigned % 2 ^ width.bits ∧
      outcome.flag? .c = some (sum.carries width unsigned) ∧
      outcome.flag? .v =
        some (decide (signed < -2 ^ (width.bits - 1) ∨
          2 ^ (width.bits - 1) ≤ signed)) ∧
      outcome.flag? .n = some (decide (width.toInt outcome.value < 0)) ∧
      outcome.flag? .z = some (decide (outcome.value = 0)) := by
  have ha := width.truncate_lt a
  have hb := width.truncate_lt b
  have hflag := sum.twoOperand.evaluate_flag ha hb carry
  have hvalue := sum.twoOperand.result_lt ha hb carry
  have hread (value : Nat) :
      ((value : Int) % width.modulus) = (width.truncate value : Nat) := rfl
  dsimp only
  rw [width.two_pow_bits, width.two_pow_signBit, hread, hread,
    ← toInt_truncate width a, ← toInt_truncate width b,
    ← sum.rule.evaluate_truncate, sum.rule.evaluate_value ha hb]
  refine ⟨sum.result_eq_exact hb _ carry, ?carries, ?overflow, ?negative, ?zero⟩
  case carries =>
    rw [hflag, ← sum.carryOut_eq_carries ha hb]
    rfl
  case overflow =>
    rw [hflag, sum.exact_toInt_eq_terms hb,
      ← overflowOfAdd_eq_exact ha (sum.term_lt hb), ← sum.result_eq_truncate,
      ← sum.overflow_eq_overflowOfAdd hb]
    rfl
  case negative =>
    rw [hflag, Option.some_inj, Bool.eq_iff_iff, decide_eq_true_iff, toInt_neg_iff]
    rfl
  case zero =>
    rw [hflag, ← Width.truncate_of_lt hvalue]
    rfl

end MSP430
