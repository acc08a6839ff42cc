import MSP430.Proofs.FlagRule.Shift

/-!
# Two forms of the flag rules

Every rule comes in two forms, as arithmetic on numbers and as expressions.  Over
operands of the same value both set the same flags to the same values.
-/

namespace MSP430

open IL (Expr State)

namespace FlagRule

/-- A sign extension leaves the carry and the overflow to its result alone. -/
theorem sound_sxt {width : Width} {a b : Nat} {carry : Bool} :
    FlagRule.sxt.Sound width a b carry where
  result_lt := width.ofInt_lt _
  holds := by
    intro operands state h flag
    have hresult := Width.truncate_of_lt (width.ofInt_lt (Width.byte.toInt a))
    cases flag with
    | z =>
        unfold flagExpr flagValue
        rw [holds_isZeroExpr, h.result]
    | n =>
        unfold flagExpr flagValue
        rw [holds_isNegativeExpr, h.result]
    | v => exact Expr.holds_bool state false
    | c =>
        unfold flagExpr carryExpr flagValue carryOut
        dsimp only
        rw [holds_isNonzeroExpr, h.result]
        unfold isZero result signExtendByte
        rw [hresult, ← decide_not]

/-- A shift takes at least one step, and no more than the value has bits. -/
def CountFits (rule : FlagRule) (width : Width) : Prop :=
  match rule with
  | rra count | rrc count | rru count | rla count =>
      1 ≤ count ∧ count ≤ width.bits
  | _ => True

/-- The expressions of every rule come to its flags. -/
theorem CountFits.sound {rule : FlagRule} {width : Width} (h : rule.CountFits width)
    {a b : Nat} (ha : a < width.modulus) (hb : b < width.modulus) (carry : Bool) :
    rule.Sound width a b carry := by
  cases rule with
  | add | addc | sub | subc | and | xor =>
      exact TwoOperand.sound (by constructor) ha hb carry
  | sxt => exact sound_sxt
  | rra count | rrc count | rru count | rla count =>
      rcases count with _ | count
      · exact absurd h.1 (Nat.not_succ_le_zero 0)
      · exact ShiftsBy.sound ha (by constructor) h.2 b carry

theorem map_fst_flagExprs (rule : FlagRule) (width : Width) (operands : Operands) :
    (rule.flagExprs width operands).map Prod.fst = rule.group.flags := by
  unfold flagExprs
  rw [List.map_map]
  exact List.map_id _

theorem isSome_evaluate_flag (rule : FlagRule) (width : Width) (a b : Nat)
    (carry : Bool) (flag : Flag) :
    ((rule.evaluate width a b carry).flag? flag).isSome ↔
      flag ∈ rule.group.flags := by
  unfold evaluate
  dsimp only
  by_cases hmem : flag ∈ rule.group.flags
  · rw [if_pos hmem]
    exact iff_of_true rfl hmem
  · rw [if_neg hmem]
    exact iff_of_false Bool.false_ne_true hmem

/-- The flags listed with an expression are those the rule sets, in its order, and
each expression comes to the flag of the rule. -/
theorem flagExprs_agree_evaluate (rule : FlagRule) (width : Width)
    (hcount : rule.CountFits width) (a b : Nat) (carry : Bool) (operands : Operands)
    (state : State)
    (h : operands.StandFor state (width.truncate a) (width.truncate b) carry
      (rule.evaluate width a b carry).value) :
    let outcome := rule.evaluate width a b carry
    let listed := rule.flagExprs width operands
    listed.map Prod.fst = rule.group.flags ∧
      (forall flag, (outcome.flag? flag).isSome ↔ flag ∈ listed.map Prod.fst) ∧
      forall flag expr, (flag, expr) ∈ listed ->
        outcome.flag? flag = some (expr.holds state) := by
  have hsound := hcount.sound (width.truncate_lt a) (width.truncate_lt b) carry
  dsimp only
  rw [map_fst_flagExprs]
  refine ⟨rfl, rule.isSome_evaluate_flag width a b carry, ?_⟩
  intro flag expr hmem
  rcases List.mem_map.mp hmem with ⟨listed, hlisted, hpair⟩
  cases hpair
  rw [hsound.holds h]
  exact if_pos hlisted

/-- A rotation by three bits, over constants. -/
theorem flagExprs_agree_evaluate_rotation :
    let operands : Operands :=
      ⟨.int .word 0x2345, .int .word 0, .bool true, .int .word 0x6468⟩
    let state : State := ⟨fun _ => 0, fun _ => false, fun _ => 0, fun _ => 0⟩
    (FlagRule.rrc 3).CountFits .word ∧
      operands.StandFor state (Width.word.truncate 0x12345) (Width.word.truncate 0)
        true ((FlagRule.rrc 3).evaluate .word 0x12345 0 true).value ∧
      forall flag expr, (flag, expr) ∈ (FlagRule.rrc 3).flagExprs .word operands ->
        ((FlagRule.rrc 3).evaluate .word 0x12345 0 true).flag? flag =
          some (expr.holds state) := by
  have hcount : (FlagRule.rrc 3).CountFits .word := by
    unfold CountFits
    decide
  refine ⟨hcount, ⟨rfl, rfl, rfl, rfl⟩, ?_⟩
  exact (flagExprs_agree_evaluate (.rrc 3) .word hcount 0x12345 0 true _ _
    ⟨rfl, rfl, rfl, rfl⟩).2.2

end FlagRule

end MSP430
