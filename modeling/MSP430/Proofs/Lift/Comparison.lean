import MSP430.Proofs.Lift.Arithmetic
import MSP430.Proofs.Lift.Sequence

/-!
# Comparisons and the jumps behind them

After a comparison each jump condition says how the two values compare, as
unsigned numbers or in two's complement.  A conditional jump that follows goes to
its target exactly when they do.
-/

namespace MSP430

open IL (Exit KnownLabels RunsTo State)

/-- What a condition says about two values that were compared. -/
def Condition.Relates (width : Width) (a b : Nat) : Condition -> Prop
  | .notZero => a ≠ b
  | .zero => a = b
  | .noCarry => a < b
  | .carry => b ≤ a
  | .negative => (width.ofInt ((a : Int) - b)).testBit (width.bits - 1) = true
  | .greaterEqual => width.toInt b ≤ width.toInt a
  | .less => width.toInt a < width.toInt b
  | .always => True

instance (width : Width) (a b : Nat) :
    (condition : Condition) -> Decidable (condition.Relates width a b)
  | .notZero => inferInstanceAs (Decidable (a ≠ b))
  | .zero => inferInstanceAs (Decidable (a = b))
  | .noCarry => inferInstanceAs (Decidable (a < b))
  | .carry => inferInstanceAs (Decidable (b ≤ a))
  | .negative =>
      inferInstanceAs (Decidable
        ((width.ofInt ((a : Int) - b)).testBit (width.bits - 1) = true))
  | .greaterEqual => inferInstanceAs (Decidable (width.toInt b ≤ width.toInt a))
  | .less => inferInstanceAs (Decidable (width.toInt a < width.toInt b))
  | .always => inferInstanceAs (Decidable True)

/-!
# The flags of a subtraction
-/

section Subtraction

variable {width : Width} {a b : Nat}

theorem result_sub (ha : a < width.modulus) (hb : b < width.modulus)
    (carry : Bool) :
    FlagRule.sub.result width a b carry = width.ofInt ((a : Int) - b) := by
  cases width <;>
    simp only [FlagRule.result, Width.truncate, Width.complement, Width.mask,
      Width.ofInt, Width.modulus] at ha hb ⊢ <;>
    omega

/-- A difference is exact, or the width was added to it once. -/
theorem ofInt_sub_cases (ha : a < width.modulus) (hb : b < width.modulus) :
    (b ≤ a ∧ width.ofInt ((a : Int) - b) + b = a) ∨
      (a < b ∧ width.ofInt ((a : Int) - b) + b = a + width.modulus) := by
  cases width <;>
    simp only [Width.ofInt, Width.modulus] at ha hb ⊢ <;>
    omega

theorem isZero_difference_iff (ha : a < width.modulus) (hb : b < width.modulus) :
    isZero width (width.ofInt ((a : Int) - b)) = true ↔ a = b := by
  have hcases := ofInt_sub_cases ha hb
  unfold isZero
  rw [decide_eq_true_iff, Width.truncate_of_lt (width.ofInt_lt _)]
  omega

/-- The sign of a difference, corrected by its overflow, is the order of the
two's complement readings. -/
theorem sign_ne_overflow_iff (ha : a < width.modulus) (hb : b < width.modulus) :
    (isNegative width (width.ofInt ((a : Int) - b)) !=
      overflowOfSub width a b (width.ofInt ((a : Int) - b))) = true ↔
        width.toInt a < width.toInt b := by
  have hcases := ofInt_sub_cases ha hb
  have hmodulus := width.modulus_eq_two_mul_signBit
  have hlt := width.ofInt_lt ((a : Int) - b)
  unfold overflowOfSub isNegative Width.toInt Width.truncate
  rw [Nat.mod_eq_of_lt ha, Nat.mod_eq_of_lt hb, Nat.mod_eq_of_lt hlt]
  generalize width.ofInt ((a : Int) - b) = difference at hcases hlt ⊢
  -- Once the three signs are known, what is left is linear.
  by_cases hfirst : width.signBit ≤ a <;>
    by_cases hsecond : width.signBit ≤ b <;>
    by_cases hsign : width.signBit ≤ difference <;>
    simp only [hfirst, hsecond, hsign, decide_true, decide_false, Nat.not_lt.mpr,
      Nat.lt_of_not_le, if_true, if_false, not_false_eq_true] <;>
    simp <;>
    omega

/-- After a subtraction a condition holds exactly when the values compare as it
says. -/
theorem Condition.holds_sub_iff (condition : Condition) (ha : a < width.modulus)
    (hb : b < width.modulus) (carry : Bool) :
    condition.holds (FlagRule.sub.flagValue width a b carry) = true ↔
      condition.Relates width a b := by
  have hresult := result_sub ha hb carry
  have hzero := isZero_difference_iff ha hb
  have horder := sign_ne_overflow_iff ha hb
  have hcarry := carryOfSub_eq ha hb
  cases condition with
  | notZero =>
      show (!isZero width (FlagRule.sub.result width a b carry)) = true ↔ a ≠ b
      rw [hresult, ne_eq, ← hzero, Bool.not_eq_true', Bool.not_eq_true]
  | zero =>
      show isZero width (FlagRule.sub.result width a b carry) = true ↔ a = b
      rw [hresult, hzero]
  | noCarry =>
      show (!carryOfSub width a b) = true ↔ a < b
      rw [hcarry, ← decide_not, decide_eq_true_iff, Nat.not_le]
  | carry =>
      show carryOfSub width a b = true ↔ b ≤ a
      rw [hcarry, decide_eq_true_iff]
  | negative =>
      show isNegative width (FlagRule.sub.result width a b carry) = true ↔
        (width.ofInt ((a : Int) - b)).testBit (width.bits - 1) = true
      rw [hresult, isNegative_eq_testBit]
  | greaterEqual =>
      show (isNegative width (FlagRule.sub.result width a b carry) ==
        overflowOfSub width a b (FlagRule.sub.result width a b carry)) = true ↔
          width.toInt b ≤ width.toInt a
      rw [hresult, ← Int.not_lt, ← horder, bne, Bool.not_eq_true',
        Bool.not_eq_false]
  | less =>
      show (isNegative width (FlagRule.sub.result width a b carry) !=
        overflowOfSub width a b (FlagRule.sub.result width a b carry)) = true ↔
          width.toInt a < width.toInt b
      rw [hresult]
      exact horder
  | always => exact ⟨fun _ => trivial, fun _ => rfl⟩

end Subtraction

namespace Lift

/-!
# Running a comparison
-/

theorem meaning_compare (options : Options) (known : KnownLabels)
    {compare : Instruction} (hdecoded : compare.Decoded) (honce : compare.RunsOnce)
    (hopcode : compare.opcode = .double .cmp ∨ compare.opcode = .address .cmpa)
    {source destination : Operand} (hsource : compare.source? = some source)
    (hdestination : compare.destination? = some destination) (state : State) :
    let a := compare.operandValue state destination
    let b := compare.operandValue state source
    exists last,
      meaning options known compare state = (.fallThrough, last) ∧
        last.flags = FlagRule.sub.flagValue compare.width a b (state.flags .c) := by
  have hrule : compare.opcode.flagRule? = some .sub := by
    rcases hopcode with hopcode | hopcode <;> rw [hopcode] <;> rfl
  have hkeeps : compare.opcode.writesDestination = false := by
    rcases hopcode with hopcode | hopcode <;> rw [hopcode] <;> rfl
  have hstored : compare.opcode.writesDestination = true ->
      destination ≠ .register .pc ∧ destination ≠ .register .sr := by
    intro hstore
    rw [hkeeps] at hstore
    cases hstore
  rcases meaning_arithmetic options known hdecoded honce hrule hsource hdestination
      hstored state with ⟨after, _, _, hflags, hmeaning⟩
  rw [hkeeps] at hmeaning
  refine ⟨source.advanced after, hmeaning, ?_⟩
  rw [Operand.advanced_flags]
  exact hflags

theorem meaning_jump (options : Options) (known : KnownLabels)
    {jump : Instruction} (hdecoded : jump.Decoded) {condition : Condition}
    {target : Nat} (hcondition : jump.condition? = some condition)
    (htarget : jump.jumpTarget? = some target) (state : State) :
    meaning options known jump state =
      (if condition.holds state.flags then exitTo known target
        else exitPast known jump.nextAddress, state) := by
  rcases jump with ⟨address, width, extension, body, length⟩
  cases body with
  | jump condition' offset =>
      cases hcondition
      cases htarget
      cases extension with
      | none => exact (apply_ite (fun exit => (exit, state)) _ _ _).symm
      | some extension =>
          exact absurd rfl (hdecoded.body_ne_jump rfl _ offset)
  | _ => cases hcondition

/-- After a comparison each condition says how the values compare, also as an
expression, and a jump that follows goes to its target exactly when they do. -/
theorem compare_then_jump (options : Options) (start : UInt64)
    (known : KnownLabels) {compare : Instruction} (hdecoded : compare.Decoded)
    (honce : compare.RunsOnce)
    (hopcode : compare.opcode = .double .cmp ∨ compare.opcode = .address .cmpa)
    {source destination : Operand} (hsource : compare.source? = some source)
    (hdestination : compare.destination? = some destination) (state : State) :
    let a := compare.operandValue state destination
    let b := compare.operandValue state source
    let buffer := IL.Buffer.withLabels start known
    exists last,
      RunsTo (intoAll buffer options [compare]).ops state .fallThrough last ∧
        (forall condition : Condition,
          (condition.expr.holds last = true ↔
            condition.Relates compare.width a b) ∧
          (condition.holds last.flags = true ↔
            condition.Relates compare.width a b)) ∧
        forall (jump : Instruction) (condition : Condition) (target : Nat),
          jump.Decoded -> jump.condition? = some condition ->
          jump.jumpTarget? = some target ->
          exists exit,
            RunsTo (intoAll buffer options [compare, jump]).ops state exit last ∧
              (condition.Relates compare.width a b -> exit = exitTo known target) ∧
              (¬condition.Relates compare.width a b ->
                exit = exitPast known jump.nextAddress) := by
  dsimp only
  rcases meaning_compare options known hdecoded honce hopcode hsource hdestination
      state with ⟨last, hmeaning, hflags⟩
  have hholds : forall condition : Condition,
      condition.holds last.flags = true ↔
        condition.Relates compare.width (compare.operandValue state destination)
          (compare.operandValue state source) := by
    intro condition
    rw [hflags]
    exact condition.holds_sub_iff (compare.operandValue_lt state destination)
      (compare.operandValue_lt state source) (state.flags .c)
  refine ⟨last, ?_, ?_, ?_⟩
  · have hrun := runsTo_intoAll options start known
      (List.forall_mem_singleton.mpr hdecoded) state
    simp only [meaningAll, hmeaning, IL.Outcome.fallThrough_andThen] at hrun
    exact hrun
  · intro condition
    rw [holds_conditionExpr]
    exact ⟨hholds condition, hholds condition⟩
  · intro jump condition target hjump hcondition htarget
    have hrun := runsTo_intoAll options start known
      (List.forall_mem_cons.mpr ⟨hdecoded, List.forall_mem_singleton.mpr hjump⟩)
      state
    simp only [meaningAll, hmeaning, IL.Outcome.fallThrough_andThen,
      IL.Outcome.andThen_fallThrough,
      meaning_jump options known hjump hcondition htarget] at hrun
    refine ⟨_, hrun, ?_, ?_⟩
    · intro hrelates
      exact if_pos ((hholds condition).mpr hrelates)
    · intro hrelates
      apply if_neg
      intro htaken
      exact hrelates ((hholds condition).mp htaken)

def compareRegisters : Instruction where
  address := 0x4400
  width := .word
  extension := none
  body := .double .cmp (.register .r5) (.register .r4)
  length := 2

/-- A jump over one word if the first value was less. -/
def jumpIfLess : Instruction where
  address := 0x4402
  width := .word
  extension := none
  body := .jump .less 1
  length := 2

/-- The least word is less than one, though the difference is positive. -/
theorem compare_then_jump_least :
    exists last,
      RunsTo (intoAll (.withLabels 0x4400 []) .standard
          [compareRegisters, jumpIfLess]).ops
          ⟨fun r => if r = .r4 then 0x8000 else 1, fun _ => false, fun _ => 0,
            fun _ => 0⟩ (.jump 0x4406) last ∧
        Condition.less.expr.holds last = true ∧
        Condition.negative.expr.holds last = false := by
  rcases @compare_then_jump .standard 0x4400 [] compareRegisters
      ⟨.msp430x, [0x04, 0x95], 0x4400, rfl⟩ (.inl rfl) (.inl rfl)
      (.register .r5) (.register .r4) rfl rfl
      ⟨fun r => if r = .r4 then 0x8000 else 1, fun _ => false, fun _ => 0,
        fun _ => 0⟩ with
    ⟨last, _, hconditions, hjumps⟩
  rcases hjumps jumpIfLess .less 0x4406 ⟨.msp430x, [0x01, 0x38], 0x4402, rfl⟩ rfl
    rfl with ⟨exit, hrun, htaken, _⟩
  rw [htaken (by decide)] at hrun
  refine ⟨last, hrun, (hconditions .less).1.mpr (by decide), ?_⟩
  rw [Bool.eq_false_iff, ne_eq, (hconditions .negative).1]
  decide

end Lift
end MSP430
