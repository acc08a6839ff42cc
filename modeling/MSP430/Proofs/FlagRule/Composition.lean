import MSP430.Proofs.Lift.Shift

/-!
# Shifts one after the other

A shift by several bits is a step taken that many times, so two shifts of one kind are
the shift by the sum of their counts.  The second one starts from the value and the
carry of the first; in a rotation that carry is the next bit to enter.
-/

namespace MSP430

open Lift.Context (shiftRule shiftsBy_shiftRule)

theorem iterate_add {state : Type} (step : state -> state) (first second : Nat)
    (start : state) :
    iterate step (first + second) start =
      iterate step second (iterate step first start) := by
  induction first generalizing start with
  | zero =>
      rw [Nat.zero_add]
      rfl
  | succ first ih =>
      rw [Nat.succ_add]
      exact ih (step start)

namespace FlagRule

/-!
# What a shift leaves
-/

/-- A flag as the value and the carry of a shift tell it. -/
def shiftedFlag (width : Width) (state : Nat × Bool) : Flag -> Bool
  | .c => state.2
  | .z => isZero width state.1
  | .n => isNegative width state.1
  | .v => false

namespace ShiftsBy

variable {rule : FlagRule} {count : Nat} (hrule : rule.ShiftsBy count) (width : Width)
  (value other : Nat) (carry : Bool)

include hrule

theorem evaluate_value :
    (rule.evaluate width value other carry).value =
      (rule.step width (width.truncate value, carry)).1 := by
  cases hrule <;> rfl

theorem flagValue_eq (flag : Flag) :
    rule.flagValue width value other carry flag =
      shiftedFlag width (rule.step width (value, carry)) flag := by
  cases hrule <;> cases flag <;> rfl

/-- All flags but the overflow are set, however long the shift. -/
theorem evaluate_flag {flag : Flag} (hflag : flag ≠ .v) :
    (rule.evaluate width value other carry).flag? flag =
      some (shiftedFlag width (rule.step width (width.truncate value, carry)) flag) := by
  rw [← hrule.flagValue_eq width _ (width.truncate other)]
  exact if_pos (rule.mem_group_of_ne_overflow hflag)

end ShiftsBy
end FlagRule

/-!
# Two shifts
-/

theorem ShiftOpcode.step_add (opcode : ShiftOpcode) {width : Width} {value : Nat}
    (hvalue : value < width.modulus) {first second : Nat} (hfirst : 1 ≤ first)
    (hsecond : 1 ≤ second) (hfits : first + second ≤ width.bits) (carry : Bool) :
    (shiftRule opcode (first + second)).step width (value, carry) =
      (shiftRule opcode second).step width
        ((shiftRule opcode first).step width (value, carry)) := by
  have hbetween : ((shiftRule opcode first).step width (value, carry)).1 < width.modulus :=
    (shiftsBy_shiftRule opcode first).result_lt hvalue value carry
  rw [← opcode.iterate_singleStep hvalue (by omega) hfits,
    ← opcode.iterate_singleStep hbetween hsecond (by omega), iterate_add,
    opcode.iterate_singleStep hvalue hfirst (by omega)]

/-- Shifting by two counts one after the other, with the carry of the first shift
entering the second, is shifting by their sum, up to the overflow flag.  The second
operand plays no part. -/
theorem shifts_compose (opcode : ShiftOpcode) (width : Width) (value other : Nat)
    (carry : Bool) {first second : Nat} (hfirst : 1 ≤ first) (hsecond : 1 ≤ second)
    (hfits : first + second ≤ width.bits) :
    let before := (shiftRule opcode first).evaluate width value other carry
    exists between, before.flag? .c = some between ∧
      let after := (shiftRule opcode second).evaluate width before.value other between
      let whole := (shiftRule opcode (first + second)).evaluate width value other carry
      whole.value = after.value ∧
        forall flag, flag ≠ .v ->
          (whole.flag? flag).isSome ∧ whole.flag? flag = after.flag? flag := by
  have hvalue := width.truncate_lt value
  have hstep := opcode.step_add hvalue hfirst hsecond hfits carry
  have hbefore := shiftsBy_shiftRule opcode first
  have hafter := shiftsBy_shiftRule opcode second
  have hwhole := shiftsBy_shiftRule opcode (first + second)
  have hstart : width.truncate
        ((shiftRule opcode first).evaluate width value other carry).value =
      ((shiftRule opcode first).step width (width.truncate value, carry)).1 := by
    rw [hbefore.evaluate_value]
    exact Width.truncate_of_lt (hbefore.result_lt hvalue _ carry)
  refine ⟨_, hbefore.evaluate_flag width value other carry nofun, ?_, ?_⟩
  · rw [hwhole.evaluate_value, hafter.evaluate_value, hstart, hstep]
    rfl
  · intro flag hflag
    rw [hwhole.evaluate_flag width value other carry hflag,
      hafter.evaluate_flag width _ other _ hflag, hstart, hstep]
    exact ⟨rfl, rfl⟩

/-- A rotation by three bits and one by two more bring the carry and the lowest bits in
at the top. -/
theorem shifts_compose_rotation :
    1 ≤ 3 ∧ 1 ≤ 2 ∧ 3 + 2 ≤ Width.byte.bits ∧
      ((FlagRule.rrc 3).evaluate .byte 0x15 0 true).flag? .c = some true ∧
      ((FlagRule.rrc 5).evaluate .byte 0x15 0 true).value =
        ((FlagRule.rrc 2).evaluate .byte 0x62 0 true).value := by
  rcases @shifts_compose .rrcm .byte 0x15 0 true 3 2 (by decide) (by decide)
      (by decide) with ⟨between, hbetween, hvalue, _⟩
  cases hbetween
  exact ⟨by decide, by decide, by decide, rfl, hvalue⟩

end MSP430
