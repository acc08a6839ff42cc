import MSP430.FlagRule.Expr
import MSP430.Proofs.IL.Value

/-!
# Flag rules and flag expressions

The flag expressions of a two-operand rule come to the flags that the rule gives
for the values of its operands.
-/

namespace MSP430

open IL (Expr State)

/-!
# Signs
-/

theorem isNegative_eq_testBit (width : Width) (value : Nat) :
    isNegative width value = value.testBit (width.bits - 1) := by
  rw [Nat.testBit_eq_decide_div_mod_eq]
  unfold isNegative
  rw [decide_eq_decide]
  cases width <;>
    simp only [Width.signBit, Width.truncate, Width.modulus, Width.bits,
      Nat.add_one_sub_one, Nat.reducePow] <;>
    omega

theorem isNegative_truncate (width : Width) (value : Nat) :
    isNegative width (width.truncate value) = isNegative width value := by
  unfold isNegative
  rw [Width.truncate_truncate]

theorem isNegative_and (width : Width) (left right : Nat) :
    isNegative width (left &&& right) =
      (isNegative width left && isNegative width right) := by
  simp only [isNegative_eq_testBit, Nat.testBit_and]

theorem isNegative_xor (width : Width) (left right : Nat) :
    isNegative width (left ^^^ right) =
      (isNegative width left != isNegative width right) := by
  simp only [isNegative_eq_testBit, Nat.testBit_xor]

theorem toInt_neg_iff (width : Width) (value : Nat) :
    width.toInt value < 0 ↔ isNegative width value = true := by
  have hlt := width.truncate_lt value
  unfold isNegative Width.toInt
  unfold Width.truncate at hlt ⊢
  rw [decide_eq_true_iff]
  by_cases hsign : value % width.modulus < width.signBit
  · rw [if_pos hsign]
    omega
  · rw [if_neg hsign]
    omega

theorem toInt_truncate (width : Width) (value : Nat) :
    width.toInt (width.truncate value) = width.toInt value := by
  unfold Width.toInt Width.truncate
  rw [Nat.mod_mod]

/-!
# Carries

A carry shows in the result: a sum that leaves the width is less than its
operands.  Nothing is borrowed when the first operand is not the smaller one.
-/

section Carries

variable {width : Width} {a b : Nat}

theorem carryOfAddCarry_eq (ha : a < width.modulus) (hb : b < width.modulus)
    (carry : Bool) :
    carryOfAddCarry width a b carry =
      (decide (width.truncate (a + b + carry.toNat) < a) ||
        (carry && decide (width.truncate (a + b + carry.toNat) = a))) := by
  have hsum : width.modulus ≤ a + b + carry.toNat ↔
      width.truncate (a + b + carry.toNat) < a ∨
        (carry = true ∧ width.truncate (a + b + carry.toNat) = a) := by
    cases carry <;> cases width <;>
      simp only [Width.truncate, Width.modulus, Bool.toNat_false,
        Bool.toNat_true, Bool.false_eq_true, false_and, true_and,
        or_false] at ha hb ⊢ <;>
      omega
  unfold carryOfAddCarry
  rw [Width.truncate_of_lt ha, Width.truncate_of_lt hb, Bool.eq_iff_iff,
    decide_eq_true_iff, hsum]
  simp only [Bool.or_eq_true, Bool.and_eq_true, decide_eq_true_iff]

theorem carryOfAdd_eq (ha : a < width.modulus) (hb : b < width.modulus) :
    carryOfAdd width a b = decide (width.truncate (a + b) < a) := by
  unfold carryOfAdd
  rw [carryOfAddCarry_eq ha hb]
  exact Bool.or_false _

theorem carryOfSubCarry_eq (ha : a < width.modulus) (hb : b < width.modulus)
    (carry : Bool) :
    carryOfSubCarry width a b carry =
      (decide (b < a) || (carry && decide (a = b))) := by
  have hsum : width.modulus ≤ a + width.complement b + carry.toNat ↔
      b < a ∨ (carry = true ∧ a = b) := by
    cases carry <;> cases width <;>
      simp only [Width.complement, Width.mask, Width.modulus, Bool.toNat_false,
        Bool.toNat_true, Bool.false_eq_true, false_and, true_and,
        or_false] at ha hb ⊢ <;>
      omega
  unfold carryOfSubCarry carryOfAddCarry
  rw [Width.truncate_of_lt ha, Width.truncate_of_lt (width.complement_lt b),
    Bool.eq_iff_iff, decide_eq_true_iff, hsum]
  simp only [Bool.or_eq_true, Bool.and_eq_true, decide_eq_true_iff]

theorem carryOfSub_eq (ha : a < width.modulus) (hb : b < width.modulus) :
    carryOfSub width a b = decide (b ≤ a) := by
  unfold carryOfSub
  rw [carryOfSubCarry_eq ha hb, Bool.eq_iff_iff]
  simp only [Bool.true_and, Bool.or_eq_true, decide_eq_true_iff]
  omega

end Carries

namespace FlagRule

/-!
# Tests of a value
-/

section Tests

variable (state : State) (width : Width) (value : Expr)

theorem holds_isZeroExpr :
    (isZeroExpr width value).holds state = isZero width (value.eval state) := by
  unfold isZeroExpr isZero
  rw [Expr.holds_compare, Expr.eval_int]
  simp only [IL.CompareOp.apply, Width.truncate_zero]

theorem holds_isNonzeroExpr :
    (isNonzeroExpr width value).holds state =
      !isZero width (value.eval state) := by
  unfold isNonzeroExpr isZero
  rw [Expr.holds_compare, Expr.eval_int]
  simp only [IL.CompareOp.apply, Width.truncate_zero, ne_eq, decide_not]

theorem holds_isNegativeExpr :
    (isNegativeExpr width value).holds state =
      isNegative width (value.eval state) := by
  have hzero : width.toInt 0 = 0 := by
    cases width <;> rfl
  unfold isNegativeExpr
  rw [Expr.holds_compare, Expr.eval_int]
  simp only [IL.CompareOp.apply, toInt_truncate, Width.truncate_zero, hzero,
    toInt_neg_iff]
  exact Bool.decide_coe _

variable (left right : Expr)

theorem isNegative_eval_and :
    isNegative width ((Expr.and width left right).eval state) =
      (isNegative width (left.eval state) &&
        isNegative width (right.eval state)) := by
  simp only [Expr.and, Expr.eval, IL.BinaryOp.apply, isNegative_truncate,
    isNegative_and]

theorem isNegative_eval_xor :
    isNegative width ((Expr.xor width left right).eval state) =
      (isNegative width (left.eval state) !=
        isNegative width (right.eval state)) := by
  simp only [Expr.xor, Expr.eval, IL.BinaryOp.apply, isNegative_truncate,
    isNegative_xor]

end Tests

/-!
# Two operands
-/

/-- The rules that combine two operands. -/
inductive TwoOperand : FlagRule -> Prop where
  | add : TwoOperand .add
  | addc : TwoOperand .addc
  | sub : TwoOperand .sub
  | subc : TwoOperand .subc
  | and : TwoOperand .and
  | xor : TwoOperand .xor

theorem TwoOperand.result_lt {rule : FlagRule} (h : rule.TwoOperand)
    {width : Width} {a b : Nat} (ha : a < width.modulus) (hb : b < width.modulus)
    (carry : Bool) : rule.result width a b carry < width.modulus := by
  cases h with
  | and => exact Nat.lt_of_le_of_lt Nat.and_le_left ha
  | xor =>
      rw [width.modulus_eq_shift, Nat.one_shiftLeft] at ha hb ⊢
      exact Nat.xor_lt_two_pow ha hb
  | _ => exact width.truncate_lt _

theorem evaluate_value (rule : FlagRule) {width : Width} {a b : Nat}
    (ha : a < width.modulus) (hb : b < width.modulus) (carry : Bool) :
    (rule.evaluate width a b carry).value = rule.result width a b carry := by
  unfold evaluate
  rw [Width.truncate_of_lt ha, Width.truncate_of_lt hb]

theorem evaluate_truncate (rule : FlagRule) (width : Width) (a b : Nat)
    (carry : Bool) :
    rule.evaluate width (width.truncate a) (width.truncate b) carry =
      rule.evaluate width a b carry := by
  unfold evaluate
  rw [Width.truncate_truncate, Width.truncate_truncate]

/-- A rule for two operands sets every flag. -/
theorem TwoOperand.evaluate_flag {rule : FlagRule} (h : rule.TwoOperand)
    {width : Width} {a b : Nat} (ha : a < width.modulus) (hb : b < width.modulus)
    (carry : Bool) (flag : Flag) :
    (rule.evaluate width a b carry).flag? flag =
      some (rule.flagValue width a b carry flag) := by
  have hmem : flag ∈ rule.group.flags := by
    cases h <;> cases flag <;> decide
  unfold evaluate
  rw [Width.truncate_of_lt ha, Width.truncate_of_lt hb]
  exact if_pos hmem

/-- What the expressions in a flag expression come to. -/
structure Operands.StandFor (operands : Operands) (state : State) (a b : Nat)
    (carry : Bool) (result : Nat) : Prop where
  a : operands.a.eval state = a
  b : operands.b.eval state = b
  carry : operands.carry.holds state = carry
  result : operands.result.eval state = result

section TwoOperand

variable {rule : FlagRule} {width : Width} {operands : Operands} {state : State}
  {a b : Nat} {carry : Bool}

theorem holds_carryExpr (hrule : rule.TwoOperand) (ha : a < width.modulus)
    (hb : b < width.modulus)
    (h : operands.StandFor state a b carry (rule.result width a b carry)) :
    (rule.carryExpr width operands).holds state =
      rule.carryOut width a b carry := by
  have hresult := Width.truncate_of_lt (hrule.result_lt ha hb carry)
  have ha' := Width.truncate_of_lt ha
  have hb' := Width.truncate_of_lt hb
  cases hrule with
  | add =>
      unfold carryExpr carryOut
      rw [Expr.holds_compare, h.a, h.result, carryOfAdd_eq ha hb]
      simp only [IL.CompareOp.apply, hresult, ha']
      rfl
  | addc =>
      unfold carryExpr carryOut
      simp only [Expr.holds_logic, Expr.holds_compare, h.a, h.result, h.carry,
        carryOfAddCarry_eq ha hb, IL.LogicOp.apply, IL.CompareOp.apply, hresult,
        ha']
      rfl
  | sub =>
      unfold carryExpr carryOut
      rw [Expr.holds_compare, h.a, h.b, carryOfSub_eq ha hb]
      simp only [IL.CompareOp.apply, ha', hb']
  | subc =>
      unfold carryExpr carryOut
      simp only [Expr.holds_logic, Expr.holds_compare, h.a, h.b, h.carry,
        carryOfSubCarry_eq ha hb, IL.LogicOp.apply, IL.CompareOp.apply, ha', hb']
  | and | xor =>
      unfold carryExpr carryOut
      rw [holds_isNonzeroExpr, h.result]
      unfold isZero
      rw [hresult, ← decide_not]

theorem holds_overflowExpr (hrule : rule.TwoOperand)
    (h : operands.StandFor state a b carry (rule.result width a b carry)) :
    (rule.overflowExpr width operands).holds state =
      rule.overflow width a b carry := by
  cases hrule with
  | add | addc | sub | subc =>
      unfold overflowExpr overflow
      simp only [holds_isNegativeExpr, isNegative_eval_and, isNegative_eval_xor,
        h.a, h.b, h.result]
      rfl
  | and => exact Expr.holds_bool state false
  | xor =>
      unfold overflowExpr overflow
      simp only [Expr.holds_logic, holds_isNegativeExpr, h.a, h.b]
      rfl

/-- A flag expression comes to the flag that its rule gives for the values of
its operands. -/
theorem holds_flagExpr (hrule : rule.TwoOperand) (ha : a < width.modulus)
    (hb : b < width.modulus)
    (h : operands.StandFor state a b carry (rule.result width a b carry))
    (flag : Flag) :
    (rule.flagExpr width operands flag).holds state =
      rule.flagValue width a b carry flag := by
  cases flag with
  | c => exact holds_carryExpr hrule ha hb h
  | z =>
      unfold flagExpr flagValue
      rw [holds_isZeroExpr, h.result]
  | n =>
      unfold flagExpr flagValue
      rw [holds_isNegativeExpr, h.result]
  | v => exact holds_overflowExpr hrule h

end TwoOperand

/-- The result fits the width, and the expressions come to the flags, for operands that
are worth this much. -/
structure Sound (rule : FlagRule) (width : Width) (a b : Nat) (carry : Bool) :
    Prop where
  result_lt : rule.result width a b carry < width.modulus
  holds : forall {operands : Operands} {state : State},
    operands.StandFor state a b carry (rule.result width a b carry) ->
    forall flag, (rule.flagExpr width operands flag).holds state =
      rule.flagValue width a b carry flag

theorem TwoOperand.sound {rule : FlagRule} (hrule : rule.TwoOperand) {width : Width}
    {a b : Nat} (ha : a < width.modulus) (hb : b < width.modulus) (carry : Bool) :
    rule.Sound width a b carry where
  result_lt := hrule.result_lt ha hb carry
  holds := holds_flagExpr hrule ha hb

/-- The flags after an operation: those of its group are as the rule says. -/
def flagsAfter (rule : FlagRule) (width : Width) (a b : Nat) (flags : Flag -> Bool) :
    Flag -> Bool :=
  fun flag =>
    if flag ∈ rule.group.flags then
      rule.flagValue width a b (flags .c) flag
    else
      flags flag

theorem mem_group_of_ne_overflow (rule : FlagRule) {flag : Flag} (h : flag ≠ .v) :
    flag ∈ rule.group.flags := by
  have hcnz : flag ∈ FlagWrite.cnz.flags := by
    cases flag with
    | v => exact absurd rfl h
    | _ => decide
  have hall : flag ∈ FlagWrite.all.flags := by
    cases flag <;> decide
  cases rule with
  | rra count | rrc count | rru count | rla count =>
      unfold group
      dsimp only
      split
      · exact hcnz
      · exact hall
  | _ => exact hall

/-- Every rule sets the carry and the flags of its result. -/
theorem flagsAfter_of_ne_overflow (rule : FlagRule) (width : Width) (a b : Nat)
    (flags : Flag -> Bool) {flag : Flag} (h : flag ≠ .v) :
    rule.flagsAfter width a b flags flag =
      rule.flagValue width a b (flags .c) flag :=
  if_pos (rule.mem_group_of_ne_overflow h)

theorem TwoOperand.flagsAfter_eq {rule : FlagRule} (hrule : rule.TwoOperand)
    (width : Width) (a b : Nat) (flags : Flag -> Bool) :
    rule.flagsAfter width a b flags = rule.flagValue width a b (flags .c) := by
  funext flag
  apply if_pos
  cases hrule <;> cases flag <;> decide

end FlagRule

end MSP430
