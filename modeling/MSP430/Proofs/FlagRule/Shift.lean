import Mathlib.Data.Nat.Bitwise
import MSP430.Proofs.FlagRule.Expr
import MSP430.Proofs.Lift.Status

/-!
# Rules of shifts

A shift by several bits is the shift by one bit, as often as there are bits: the value
is that of the last step, and so is the carry.  A rotation takes the carry through all
steps, the other shifts make their own.  Shifting left is adding a value to itself, and
shifting zeros in from the left is rotating with the carry cleared before each step.
-/

namespace MSP430

open IL (Expr State)

/-- What an operation makes of a value and the carry, with the value as both of its
operands. -/
def FlagRule.step (rule : FlagRule) (width : Width) (state : Nat × Bool) : Nat × Bool :=
  (rule.result width state.1 state.1 state.2,
    rule.carryOut width state.1 state.1 state.2)

/-!
# Iteration
-/

/-- Steps that make their own carry leave that of the last one. -/
theorem iterate_ownCarry {step : Nat × Bool -> Nat × Bool} {next : Nat -> Nat}
    {out : Nat -> Bool}
    (h : forall value carry, step (value, carry) = (next value, out value))
    (count value : Nat) (carry : Bool) :
    iterate step (count + 1) (value, carry) =
      (iterate next (count + 1) value, out (iterate next count value)) := by
  induction count generalizing value carry with
  | zero => exact h value carry
  | succ count ih =>
      have hfirst : iterate step (count + 2) (value, carry) =
          iterate step (count + 1) (next value, out value) := by
        rw [← h value carry]
        rfl
      rw [hfirst, ih]
      rfl

/-!
# Bits
-/

namespace Width

theorem modulus_eq_two_pow (width : Width) : width.modulus = 2 ^ width.bits := by
  cases width <;> rfl

theorem signBit_eq_two_pow (width : Width) :
    width.signBit = 2 ^ (width.bits - 1) := by
  cases width <;> rfl

theorem bits_pos (width : Width) : 0 < width.bits := by
  cases width <;> decide

theorem bits_lt_modulus (width : Width) : width.bits + 1 < width.modulus := by
  cases width <;> decide

theorem testBit_of_lt {width : Width} {value bit : Nat} (h : value < width.modulus)
    (hbit : width.bits ≤ bit) : value.testBit bit = false := by
  rw [width.modulus_eq_two_pow] at h
  exact Nat.testBit_lt_two_pow
    (Nat.lt_of_lt_of_le h (Nat.pow_le_pow_right (by decide) hbit))

/-- Values of a width are equal when their bits are. -/
theorem eq_of_testBit {width : Width} {first second : Nat}
    (hfirst : first < width.modulus) (hsecond : second < width.modulus)
    (h : forall bit, bit < width.bits -> first.testBit bit = second.testBit bit) :
    first = second := by
  apply Nat.eq_of_testBit_eq
  intro bit
  by_cases hbit : bit < width.bits
  · exact h bit hbit
  · rw [testBit_of_lt hfirst (Nat.le_of_not_lt hbit),
      testBit_of_lt hsecond (Nat.le_of_not_lt hbit)]

end Width

theorem testBit_zero_eq (value : Nat) : decide (value % 2 = 1) = value.testBit 0 := by
  rw [Nat.testBit_zero]

theorem shiftedOutRight_succ (value count : Nat) :
    shiftedOutRight value (count + 1) = value.testBit count := by
  unfold shiftedOutRight
  rw [Nat.testBit_eq_decide_div_mod_eq, Nat.shiftRight_eq_div_pow]
  simp

theorem shiftedOutLeft_succ (width : Width) (value count : Nat) :
    shiftedOutLeft width value (count + 1) =
      value.testBit (width.bits - (count + 1)) := by
  unfold shiftedOutLeft
  rw [Nat.testBit_eq_decide_div_mod_eq, Nat.shiftRight_eq_div_pow]
  simp

/-!
# Rotations

A value with the carry above it is one bit longer than the value.  Rotating through the
carry moves all of these bits around.
-/

section Rotation

variable {width : Width} {state : Nat × Bool}

/-- The bits of a value, and above them the carry. -/
def carriedBit (width : Width) (state : Nat × Bool) (bit : Nat) : Bool :=
  if bit = width.bits then state.2 else state.1.testBit bit

theorem rotateStep_lt (h : state.1 < width.modulus) :
    (rotateStep width state).1 < width.modulus := by
  unfold rotateStep
  rw [width.modulus_eq_two_mul_signBit] at h ⊢
  dsimp only
  split <;> omega

theorem testBit_rotateStep (h : state.1 < width.modulus) {bit : Nat}
    (hbit : bit < width.bits) :
    (rotateStep width state).1.testBit bit = carriedBit width state (bit + 1) := by
  have hhalf : state.1 / 2 < 2 ^ (width.bits - 1) := by
    rw [← width.signBit_eq_two_pow]
    rw [width.modulus_eq_two_mul_signBit] at h
    omega
  have hshifted : (state.1 / 2).testBit bit = state.1.testBit (bit + 1) :=
    Nat.testBit_div_two state.1 bit
  unfold rotateStep carriedBit
  dsimp only
  by_cases htop : bit + 1 = width.bits
  · have hbit' : bit = width.bits - 1 := by omega
    rw [if_pos htop, hbit', width.signBit_eq_two_pow]
    cases state.2 with
    | true =>
        rw [if_pos rfl, Nat.add_comm, Nat.testBit_two_pow_add_eq,
          Nat.testBit_lt_two_pow hhalf]
        rfl
    | false => exact Nat.testBit_lt_two_pow hhalf
  · have hlow : bit < width.bits - 1 := by omega
    rw [if_neg htop, width.signBit_eq_two_pow]
    cases state.2 with
    | true => rw [if_pos rfl, Nat.add_comm, Nat.testBit_two_pow_add_gt hlow, hshifted]
    | false => exact hshifted

theorem carriedBit_rotateStep (h : state.1 < width.modulus) {bit : Nat}
    (hbit : bit ≤ width.bits) :
    carriedBit width (rotateStep width state) bit =
      carriedBit width state ((bit + 1) % (width.bits + 1)) := by
  rcases Nat.lt_or_eq_of_le hbit with hlow | rfl
  · rw [Nat.mod_eq_of_lt (Nat.succ_lt_succ hlow), ← testBit_rotateStep h hlow]
    exact if_neg (Nat.ne_of_lt hlow)
  · have hzero : (0 : Nat) ≠ width.bits := Nat.ne_of_lt width.bits_pos
    rw [Nat.mod_self]
    unfold carriedBit
    rw [if_pos rfl, if_neg hzero]
    exact testBit_zero_eq state.1

/-- Several steps move the bits by as many places. -/
theorem carriedBit_iterate (h : state.1 < width.modulus) (count : Nat) {bit : Nat}
    (hbit : bit ≤ width.bits) :
    carriedBit width (iterate (rotateStep width) count state) bit =
      carriedBit width state ((bit + count) % (width.bits + 1)) := by
  induction count generalizing state with
  | zero => rw [Nat.add_zero, Nat.mod_eq_of_lt (Nat.lt_succ_of_le hbit)]; rfl
  | succ count ih =>
      have hmoved : (bit + count) % (width.bits + 1) ≤ width.bits :=
        Nat.le_of_lt_succ (Nat.mod_lt _ (Nat.succ_pos _))
      rw [iterate, ih (rotateStep_lt h), carriedBit_rotateStep h hmoved,
        Nat.mod_add_mod]
      rfl

theorem iterate_rotateStep_lt (h : state.1 < width.modulus) (count : Nat) :
    (iterate (rotateStep width) count state).1 < width.modulus := by
  induction count generalizing state with
  | zero => exact h
  | succ count ih => exact ih (rotateStep_lt h)

/-- The bits of a rotated value: those above the lowest ones, then the carry, then the
lowest ones without the last that left. -/
theorem testBit_iterate_rotateStep (h : state.1 < width.modulus) (count : Nat)
    {bit : Nat} (hbit : bit < width.bits) :
    (iterate (rotateStep width) count state).1.testBit bit =
      carriedBit width state ((bit + count) % (width.bits + 1)) := by
  rw [← carriedBit_iterate h count (Nat.le_of_lt hbit)]
  exact (if_neg (Nat.ne_of_lt hbit)).symm

theorem carry_iterate_rotateStep (h : state.1 < width.modulus) {count : Nat}
    (hcount : count < width.bits) :
    (iterate (rotateStep width) (count + 1) state).2 = state.1.testBit count := by
  have hmoved : (width.bits + (count + 1)) % (width.bits + 1) = count := by
    have hsum : width.bits + (count + 1) = count + (width.bits + 1) := by omega
    rw [hsum, Nat.add_mod_right]
    exact Nat.mod_eq_of_lt (Nat.lt_succ_of_lt hcount)
  have hcarry := carriedBit_iterate h (count + 1) (Nat.le_refl width.bits)
  rw [hmoved] at hcarry
  unfold carriedBit at hcarry
  rw [if_pos rfl, if_neg (Nat.ne_of_lt hcount)] at hcarry
  exact hcarry

end Rotation

/-!
# Arithmetic shifts
-/

section ArithmeticShift

variable {width : Width} {value : Nat}

/-- The sign enters at the top. -/
theorem arithmeticStep_eq (width : Width) (value : Nat) :
    arithmeticStep width value =
      (rotateStep width (value, isNegative width value)).1 :=
  rfl

theorem arithmeticStep_lt (h : value < width.modulus) :
    arithmeticStep width value < width.modulus := by
  rw [arithmeticStep_eq]
  exact rotateStep_lt h

theorem iterate_arithmeticStep_lt (h : value < width.modulus) (count : Nat) :
    iterate (arithmeticStep width) count value < width.modulus := by
  induction count generalizing value with
  | zero => exact h
  | succ count ih => exact ih (arithmeticStep_lt h)

theorem testBit_arithmeticStep (h : value < width.modulus) {bit : Nat}
    (hbit : bit < width.bits) :
    (arithmeticStep width value).testBit bit =
      value.testBit (min (bit + 1) (width.bits - 1)) := by
  rw [arithmeticStep_eq, testBit_rotateStep h hbit]
  unfold carriedBit
  by_cases htop : bit + 1 = width.bits
  · have hmin : min (bit + 1) (width.bits - 1) = width.bits - 1 := by omega
    rw [if_pos htop, hmin]
    exact isNegative_eq_testBit width value
  · have hmin : min (bit + 1) (width.bits - 1) = bit + 1 := by omega
    rw [if_neg htop, hmin]

theorem testBit_iterate_arithmeticStep (h : value < width.modulus) (count : Nat)
    {bit : Nat} (hbit : bit < width.bits) :
    (iterate (arithmeticStep width) count value).testBit bit =
      value.testBit (min (bit + count) (width.bits - 1)) := by
  induction count generalizing value with
  | zero =>
      have hmin : min (bit + 0) (width.bits - 1) = bit := by omega
      rw [hmin]
      rfl
  | succ count ih =>
      have hlow : min (bit + count) (width.bits - 1) < width.bits := by omega
      have hmin : min (min (bit + count) (width.bits - 1) + 1) (width.bits - 1) =
          min (bit + (count + 1)) (width.bits - 1) := by
        omega
      rw [iterate, ih (arithmeticStep_lt h), testBit_arithmeticStep h hlow, hmin]

theorem toInt_of_lt (h : value < width.signBit) : width.toInt value = value := by
  have hlt : value < width.modulus := by
    rw [width.modulus_eq_two_mul_signBit]
    omega
  unfold Width.toInt
  rw [Nat.mod_eq_of_lt hlt, if_pos h]

theorem toInt_of_ge (hlow : width.signBit ≤ value) (h : value < width.modulus) :
    width.toInt value = (value : Int) - width.modulus := by
  unfold Width.toInt
  rw [Nat.mod_eq_of_lt h, if_neg (Nat.not_lt.mpr hlow)]

/-- In two's complement a step halves the number, rounding down. -/
theorem toInt_arithmeticStep (h : value < width.modulus) :
    width.toInt (arithmeticStep width value) = width.toInt value / 2 := by
  have hstep := arithmeticStep_lt h
  unfold arithmeticStep isNegative at hstep ⊢
  rw [Width.truncate_of_lt h] at hstep ⊢
  have hmodulus := width.modulus_eq_two_mul_signBit
  by_cases hsign : width.signBit ≤ value
  · rw [if_pos (decide_eq_true hsign)] at hstep ⊢
    rw [toInt_of_ge (Nat.le_add_left _ _) hstep, toInt_of_ge hsign h]
    omega
  · rw [if_neg (by rwa [decide_eq_true_iff])]
    rw [toInt_of_lt (by omega), toInt_of_lt (Nat.lt_of_not_le hsign)]
    omega

theorem ofInt_toInt (h : value < width.modulus) :
    width.ofInt (width.toInt value) = value := by
  by_cases hsign : width.signBit ≤ value
  · rw [toInt_of_ge hsign h]
    cases width <;> simp only [Width.ofInt, Width.modulus] at h ⊢ <;> omega
  · rw [toInt_of_lt (Nat.lt_of_not_le hsign)]
    cases width <;> simp only [Width.ofInt, Width.modulus] at h ⊢ <;> omega

theorem iterate_arithmeticStep_eq (h : value < width.modulus) (count : Nat) :
    iterate (arithmeticStep width) count value =
      width.ofInt (width.toInt value >>> count) := by
  have htoInt : width.toInt (iterate (arithmeticStep width) count value) =
      width.toInt value >>> count := by
    induction count generalizing value with
    | zero => simp [iterate]
    | succ count ih =>
        have hhalf : width.toInt value >>> (1 : Nat) = width.toInt value / 2 :=
          Int.shiftRight_eq_div_pow _ 1
        rw [iterate, ih (arithmeticStep_lt h), toInt_arithmeticStep h,
          Nat.add_comm, Int.shiftRight_add, hhalf]
  rw [← htoInt, ofInt_toInt (iterate_arithmeticStep_lt h count)]

end ArithmeticShift

/-!
# Shifts that shift zeros in
-/

theorem iterate_half (count value : Nat) :
    iterate (fun value => value / 2) count value = value >>> count := by
  induction count generalizing value with
  | zero => rfl
  | succ count ih =>
      rw [iterate, ih, Nat.add_comm, Nat.shiftRight_add]
      rfl

theorem iterate_double (width : Width) (count : Nat) {value : Nat}
    (h : value < width.modulus) :
    iterate (fun value => width.truncate (value + value)) count value =
      width.truncate (value <<< count) := by
  induction count generalizing value with
  | zero => exact (Width.truncate_of_lt h).symm
  | succ count ih =>
      rw [iterate, ih (width.truncate_lt _)]
      simp only [Width.truncate, Nat.shiftLeft_eq, Nat.pow_succ, ← Nat.two_mul]
      rw [Nat.mod_mul_mod, Nat.mul_comm 2, Nat.mul_assoc, Nat.mul_comm 2]

/-- What leaves at the top when a value is doubled is its sign. -/
theorem carryOfAdd_self (width : Width) (value : Nat) :
    carryOfAdd width value value = value.testBit (width.bits - 1) := by
  rw [← isNegative_eq_testBit]
  unfold carryOfAdd carryOfAddCarry isNegative
  rw [decide_eq_decide, width.modulus_eq_two_mul_signBit]
  show 2 * width.signBit ≤ width.truncate value + width.truncate value + 0 ↔ _
  omega

namespace FlagRule

/-!
# Steps of rules
-/

/-- The rules that shift a value by a number of bits. -/
inductive ShiftsBy (count : Nat) : FlagRule -> Prop where
  | rra : ShiftsBy count (.rra count)
  | rrc : ShiftsBy count (.rrc count)
  | rru : ShiftsBy count (.rru count)
  | rla : ShiftsBy count (.rla count)

section

variable {width : Width} {value count : Nat} (h : value < width.modulus)

include h

theorem iterate_step_rra (hcount : count < width.bits) (carry : Bool) :
    iterate ((rra 1).step width) (count + 1) (value, carry) =
      (rra (count + 1)).step width (value, carry) := by
  have hstep : forall value carry, (rra 1).step width (value, carry) =
      (arithmeticStep width value, shiftedOutRight value 1) :=
    fun _ _ => rfl
  have hmin : min (0 + count) (width.bits - 1) = count := by omega
  rw [iterate_ownCarry hstep, shiftedOutRight_succ,
    testBit_iterate_arithmeticStep h count width.bits_pos, hmin,
    ← shiftedOutRight_succ]
  rfl

omit h in
theorem iterate_step_rrc (carry : Bool) :
    iterate ((rrc 1).step width) count (value, carry) =
      (rrc count).step width (value, carry) :=
  rfl

omit h in
/-- With the carry cleared before each step, rotating shifts zeros in. -/
theorem iterate_step_rru (carry : Bool) :
    iterate (fun state => (rrc 1).step width (state.1, false)) (count + 1)
        (value, carry) =
      (rru (count + 1)).step width (value, carry) := by
  have hstep : forall value (carry : Bool), (rrc 1).step width (value, false) =
      (value / 2, shiftedOutRight value 1) := by
    intro value carry
    rw [shiftedOutRight_succ, ← testBit_zero_eq]
    rfl
  rw [iterate_ownCarry hstep, iterate_half, iterate_half, shiftedOutRight_succ,
    Nat.testBit_shiftRight]
  show (value >>> (count + 1), value.testBit count) =
    (value >>> (count + 1), shiftedOutRight value (count + 1))
  rw [shiftedOutRight_succ]

/-- Shifting left is adding a value to itself. -/
theorem iterate_step_rla (hcount : count < width.bits) (carry : Bool) :
    iterate (add.step width) (count + 1) (value, carry) =
      (rla (count + 1)).step width (value, carry) := by
  have hstep : forall value carry, add.step width (value, carry) =
      (width.truncate (value + value), carryOfAdd width value value) :=
    fun _ _ => rfl
  have htop : width.bits - 1 < width.bits := by
    have hpos := width.bits_pos
    omega
  have hshifted : width.bits - 1 ≥ count := by omega
  have hbit : width.bits - 1 - count = width.bits - (count + 1) := by omega
  rw [iterate_ownCarry hstep, iterate_double width (count + 1) h,
    iterate_double width count h, carryOfAdd_self, width.testBit_truncate,
    Nat.testBit_shiftLeft, decide_eq_true htop, decide_eq_true hshifted, hbit,
    ← shiftedOutLeft_succ]
  rfl

end

/-!
# Flags of shifts
-/

theorem holds_bitSetExpr (state : State) {width : Width} (value : Expr) {bit : Nat}
    (hbit : bit < width.bits) :
    (bitSetExpr width value bit).holds state = (value.eval state).testBit bit := by
  have hmask : width.truncate (1 <<< bit) = 2 ^ bit := by
    rw [Nat.one_shiftLeft]
    apply Width.truncate_of_lt
    rw [width.modulus_eq_two_pow]
    exact Nat.pow_lt_pow_right (by decide) hbit
  have heval : (Expr.and width value (.int width (1 <<< bit))).eval state =
      width.truncate (width.truncate (value.eval state) &&& 2 ^ bit) := by
    rw [← hmask]
    rfl
  have htest : (width.truncate (value.eval state)).testBit bit =
      (value.eval state).testBit bit := by
    rw [width.testBit_truncate, decide_eq_true hbit, Bool.true_and]
  unfold bitSetExpr
  rw [holds_isNonzeroExpr, heval, Nat.and_two_pow, htest]
  cases (value.eval state).testBit bit with
  | false => simp [isZero]
  | true =>
      rw [Nat.one_shiftLeft] at hmask
      simp [isZero, hmask]

namespace ShiftsBy

variable {rule : FlagRule} {width : Width} {value count : Nat}
  (h : value < width.modulus)

include h

theorem result_lt (hrule : rule.ShiftsBy count) (other : Nat) (carry : Bool) :
    rule.result width value other carry < width.modulus := by
  cases hrule with
  | rra => exact iterate_arithmeticStep_lt h count
  | rrc => exact @iterate_rotateStep_lt width (value, carry) h count
  | rru => exact Nat.lt_of_le_of_lt (Nat.shiftRight_le value count) h
  | rla => exact width.truncate_lt _

/-- The expressions of a shift come to its flags, up to the width. -/
theorem sound (hrule : rule.ShiftsBy (count + 1)) (hcount : count < width.bits)
    (other : Nat) (carry : Bool) : rule.Sound width value other carry where
  result_lt := hrule.result_lt h other carry
  holds := by
    intro operands state hstand flag
    have hmax : max (count + 1) 1 = count + 1 := Nat.max_eq_left (Nat.succ_pos count)
    have htop : width.bits - (count + 1) < width.bits := by omega
    cases flag with
    | z =>
        unfold flagExpr flagValue
        rw [holds_isZeroExpr, hstand.result]
    | n =>
        unfold flagExpr flagValue
        rw [holds_isNegativeExpr, hstand.result]
    | v => cases hrule <;> exact Expr.holds_bool state false
    | c =>
        unfold flagExpr carryExpr flagValue carryOut
        cases hrule with
        | rra | rru =>
            dsimp only
            rw [hmax, Nat.add_sub_cancel, holds_bitSetExpr state _ hcount, hstand.a,
              shiftedOutRight_succ]
        | rrc =>
            dsimp only
            rw [hmax, Nat.add_sub_cancel, holds_bitSetExpr state _ hcount, hstand.a]
            exact (@carry_iterate_rotateStep width (value, carry) h count hcount).symm
        | rla =>
            dsimp only
            rw [hmax, holds_bitSetExpr state _ htop, hstand.a, shiftedOutLeft_succ]

end ShiftsBy

end FlagRule
end MSP430
