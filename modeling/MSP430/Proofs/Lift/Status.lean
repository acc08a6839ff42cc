import MSP430.Lift.Place
import MSP430.Proofs.IL.Value

/-!
# The status register

The flags have no storage in the status register.  What programs see there is
the register with the flags in their bits, and that is what reading it yields.
-/

namespace MSP430

open IL (Expr State)

/-!
# Bits
-/

namespace Width

theorem testBit_truncate (width : Width) (value bit : Nat) :
    (width.truncate value).testBit bit =
      (decide (bit < width.bits) && value.testBit bit) := by
  unfold truncate
  rw [width.modulus_eq_shift, Nat.one_shiftLeft, Nat.testBit_mod_two_pow]

theorem testBit_complement (width : Width) (value bit : Nat) :
    (width.complement value).testBit bit =
      (decide (bit < width.bits) && !value.testBit bit) := by
  have hlt := width.truncate_lt value
  have heq : width.complement value =
      2 ^ width.bits - (width.truncate value + 1) := by
    rw [← Nat.one_shiftLeft, ← width.modulus_eq_shift]
    unfold complement mask truncate
    omega
  rw [width.modulus_eq_shift, Nat.one_shiftLeft] at hlt
  rw [heq, Nat.testBit_two_pow_sub_succ hlt, width.testBit_truncate]
  cases decide (bit < width.bits) <;> rfl

end Width

/-- A number with one bit set or cleared. -/
def withBit (value bit : Nat) (on : Bool) : Nat :=
  if value.testBit bit = on then value else value ^^^ 1 <<< bit

theorem testBit_withBit (value bit : Nat) (on : Bool) (other : Nat) :
    (withBit value bit on).testBit other =
      if other = bit then on else value.testBit other := by
  unfold withBit
  split
  · next hon =>
      split
      · next heq => rw [heq, hon]
      · rfl
  · next hoff =>
      rw [Nat.testBit_xor, Nat.one_shiftLeft, Nat.testBit_two_pow]
      split
      · next heq =>
          rw [heq, decide_eq_true rfl]
          cases on <;> simpa using hoff
      · next hne =>
          rw [decide_eq_false (Ne.symm hne)]
          exact Bool.xor_false _

/-!
# The status register
-/

/-- The status register as programs see it: the flags stand in their bits. -/
def IL.State.status (state : State) : Nat :=
  Flag.all.foldl
    (fun value flag => withBit value flag.bit (state.flags flag))
    (state.regs .sr)

theorem Flag.ofBit?_eq_some_iff {bit : Nat} {flag : Flag} :
    Flag.ofBit? bit = some flag ↔ bit = flag.bit := by
  constructor
  · intro h
    unfold Flag.ofBit? at h
    split at h <;> cases h <;> rfl
  · intro h
    rw [h]
    exact Flag.ofBit?_bit flag

/-- A bit of no flag is none of the four flag bits. -/
theorem Flag.ne_bit_of_ofBit?_eq_none {bit : Nat} (h : Flag.ofBit? bit = none)
    (flag : Flag) : bit ≠ flag.bit := by
  intro heq
  rw [heq, Flag.ofBit?_bit] at h
  cases h

theorem testBit_status (state : State) (bit : Nat) :
    state.status.testBit bit =
      match Flag.ofBit? bit with
      | some flag => state.flags flag
      | none => (state.regs .sr).testBit bit := by
  simp only [State.status, Flag.all, List.foldl, testBit_withBit]
  cases hbit : Flag.ofBit? bit with
  | some flag =>
      rw [Flag.ofBit?_eq_some_iff.mp hbit]
      cases flag <;> rfl
  | none =>
      have hne := Flag.ne_bit_of_ofBit?_eq_none hbit
      simp only [hne, if_false]

namespace Lift

theorem testBit_flagBits (bit : Nat) :
    flagBits.testBit bit = (Flag.ofBit? bit).isSome := by
  have hbits : flagBits = (2 ^ 0 ||| 2 ^ 1) ||| (2 ^ 2 ||| 2 ^ 8) := rfl
  rw [hbits]
  simp only [Nat.testBit_or, Nat.testBit_two_pow]
  cases hbit : Flag.ofBit? bit with
  | some flag =>
      rw [Flag.ofBit?_eq_some_iff.mp hbit]
      cases flag <;> rfl
  | none =>
      have hne := Flag.ne_bit_of_ofBit?_eq_none hbit
      have hc := hne .c
      have hz := hne .z
      have hn := hne .n
      have hv := hne .v
      simp only [Flag.bit] at hc hz hn hv
      simp [hc.symm, hz.symm, hn.symm, hv.symm]

theorem testBit_eval_flagBit (width : Width) (flag : Flag) (state : State)
    (bit : Nat) :
    ((flagBit width flag).eval state).testBit bit =
      (decide (bit < width.bits) &&
        (decide (bit = flag.bit) && state.flags flag)) := by
  have hone : forall on : Bool, width.truncate on.toNat = on.toNat := by
    intro on
    cases on <;> cases width <;> rfl
  have hshift : width.truncate flag.bit = flag.bit := by
    cases flag <;> cases width <;> rfl
  unfold flagBit Expr.lsl
  rw [Expr.eval, Expr.eval_ofBool, Expr.holds_flag, Expr.eval_int, hshift]
  simp only [IL.BinaryOp.apply, hone]
  rw [width.testBit_truncate]
  cases state.flags flag with
  | false => simp
  | true =>
      rw [Bool.toNat_true, Nat.one_shiftLeft, Nat.testBit_two_pow, Bool.and_true,
        decide_eq_decide.mpr eq_comm]

theorem testBit_eval_or (width : Width) (left right : Expr) (state : State)
    (bit : Nat) :
    ((Expr.or width left right).eval state).testBit bit =
      (decide (bit < width.bits) &&
        ((left.eval state).testBit bit || (right.eval state).testBit bit)) := by
  simp only [Expr.or, Expr.eval, IL.BinaryOp.apply, width.testBit_truncate,
    Nat.testBit_or]
  cases decide (bit < width.bits) <;> rfl

theorem testBit_eval_rest (width : Width) (state : State) (bit : Nat) :
    ((Expr.and width (.reg width .sr)
      (.int width (width.complement flagBits))).eval state).testBit bit =
      (decide (bit < width.bits) &&
        ((state.regs .sr).testBit bit && !(Flag.ofBit? bit).isSome)) := by
  simp only [Expr.and, Expr.eval, Expr.int, IL.BinaryOp.apply,
    width.testBit_truncate, Nat.testBit_and, width.testBit_complement,
    testBit_flagBits]
  cases decide (bit < width.bits) <;> rfl

/-- Reading the status register puts the flags in their bits. -/
theorem eval_statusRegister (width : Width) (state : State) :
    (statusRegister width).eval state = width.truncate state.status := by
  apply Nat.eq_of_testBit_eq
  intro bit
  rw [width.testBit_truncate, testBit_status]
  simp only [statusRegister, Flag.all, List.foldl, testBit_eval_or,
    testBit_eval_flagBit, testBit_eval_rest]
  cases decide (bit < width.bits) with
  | false => rfl
  | true =>
      simp only [Bool.true_and]
      cases hbit : Flag.ofBit? bit with
      | some flag =>
          rw [Flag.ofBit?_eq_some_iff.mp hbit]
          cases flag <;> simp [Flag.bit]
      | none =>
          have hne := Flag.ne_bit_of_ofBit?_eq_none hbit
          simp [hne]

end Lift
end MSP430
