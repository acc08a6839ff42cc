import MSP430.Proofs.IL.Scope

/-!
# Temporaries with other numbers

Code whose temporaries are all numbered higher by the same amount does the same to
registers, flags and memory, and to its own temporaries under their other numbers.
-/

namespace MSP430
namespace IL

/-- The expression with its temporaries numbered on from a count. -/
def Expr.shifted (count : Nat) : Expr -> Expr
  | temp width index => .temp width (index + count)
  | reg width register => .reg width register
  | const width value => .const width value
  | pointer width value => .pointer width value
  | flag f => .flag f
  | bool value => .bool value
  | load width address => .load width (address.shifted count)
  | binary op width left right =>
      .binary op width (left.shifted count) (right.shifted count)
  | addCarry width left right carry =>
      .addCarry width (left.shifted count) (right.shifted count) (carry.shifted count)
  | rotateCarry width value carry =>
      .rotateCarry width (value.shifted count) (carry.shifted count)
  | unary op width value => .unary op width (value.shifted count)
  | compare op width left right =>
      .compare op width (left.shifted count) (right.shifted count)
  | logic op left right => .logic op (left.shifted count) (right.shifted count)
  | not value => .not (value.shifted count)
  | ofBool width value => .ofBool width (value.shifted count)

def Op.shifted (count : Nat) : Op -> Op
  | setReg width register value => .setReg width register (value.shifted count)
  | setTemp width index value => .setTemp width (index + count) (value.shifted count)
  | setFlag flag value => .setFlag flag (value.shifted count)
  | store width address value =>
      .store width (address.shifted count) (value.shifted count)
  | jump target => .jump (target.shifted count)
  | goto target => .goto target
  | branch condition ifTrue ifFalse => .branch (condition.shifted count) ifTrue ifFalse
  | call target => .call (target.shifted count)
  | ret target => .ret (target.shifted count)
  | nop => .nop
  | label number => .label number
  | unimplemented => .unimplemented

/-- The state with the first temporaries dropped. -/
def State.dropTemps (state : State) (count : Nat) : State :=
  { state with temps := fun index => state.temps (index + count) }

theorem State.dropTemps_sameVisible (state : State) (count : Nat) :
    (state.dropTemps count).SameVisible state :=
  ⟨rfl, rfl, rfl⟩

theorem State.dropTemps_setTemp (state : State) (count index value : Nat) :
    (state.setTemp (index + count) value).dropTemps count =
      (state.dropTemps count).setTemp index value := by
  unfold dropTemps setTemp
  simp only [Nat.add_right_cancel_iff]

/-!
# Expressions
-/

namespace Expr

variable (count : Nat) (expr : Expr)

theorem constant?_shifted : (expr.shifted count).constant? = expr.constant? := by
  cases expr <;> rfl

theorem isPureLeaf_shifted : (expr.shifted count).isPureLeaf = expr.isPureLeaf := by
  cases expr <;> rfl

theorem width?_shifted : (expr.shifted count).width? = expr.width? := by
  cases expr <;> rfl

theorem eval_shifted (state : State) :
    (expr.shifted count).eval state = expr.eval (state.dropTemps count) := by
  induction expr with
  | reg _ _ | temp _ _ | const _ _ | pointer _ _ | flag _ | bool _ => rfl
  | load width address ih =>
      simp only [shifted, eval, ih]
      rfl
  | binary _ _ _ _ ihl ihr | compare _ _ _ _ ihl ihr | logic _ _ _ ihl ihr
  | rotateCarry _ _ _ ihl ihr => simp only [shifted, eval, ihl, ihr]
  | addCarry _ _ _ _ ihl ihr ihc => simp only [shifted, eval, ihl, ihr, ihc]
  | unary _ _ _ ih => simp only [shifted, eval, ih, width?_shifted]
  | not _ ih | ofBool _ _ ih => simp only [shifted, eval, ih]

theorem holds_shifted (state : State) :
    (expr.shifted count).holds state = expr.holds (state.dropTemps count) := by
  unfold holds
  rw [eval_shifted]

variable {expr}

/-- An expression without temporaries stays as it is. -/
theorem shifted_of_scopedIn (h : expr.ScopedIn []) : expr.shifted count = expr := by
  induction expr with
  | temp _ _ => cases h
  | reg _ _ | const _ _ | pointer _ _ | flag _ | bool _ => rfl
  | load _ _ ih | unary _ _ _ ih | not _ ih | ofBool _ _ ih =>
      simp only [shifted, ih h]
  | binary _ _ _ _ ihl ihr | compare _ _ _ _ ihl ihr | logic _ _ _ ihl ihr
  | rotateCarry _ _ _ ihl ihr => simp only [shifted, ihl h.1, ihr h.2]
  | addCarry _ _ _ _ ihl ihr ihc => simp only [shifted, ihl h.1, ihr h.2.1, ihc h.2.2]

end Expr

/-- Numbering on from zero changes nothing. -/
theorem Expr.shifted_zero (expr : Expr) : expr.shifted 0 = expr := by
  induction expr with
  | reg _ _ | temp _ _ | const _ _ | pointer _ _ | flag _ | bool _ => rfl
  | load _ _ ih | unary _ _ _ ih | not _ ih | ofBool _ _ ih =>
      simp only [shifted, ih]
  | binary _ _ _ _ ihl ihr | compare _ _ _ _ ihl ihr | logic _ _ _ ihl ihr
  | rotateCarry _ _ _ ihl ihr => simp only [shifted, ihl, ihr]
  | addCarry _ _ _ _ ihl ihr ihc => simp only [shifted, ihl, ihr, ihc]

theorem Op.shifted_zero (op : Op) : op.shifted 0 = op := by
  cases op <;> simp only [shifted, Expr.shifted_zero, Nat.add_zero]

/-!
# Code
-/

/-- The outcome under the other numbers. -/
def Outcome.dropTemps (result : Outcome) (count : Nat) : Outcome :=
  (result.1, result.2.dropTemps count)

theorem outcome_shifted (count : Nat) (code : List Op) (state : State) :
    (outcome (code.map (Op.shifted count)) state).dropTemps count =
      outcome code (state.dropTemps count) := by
  induction code generalizing state with
  | nil => rfl
  | cons op rest ih =>
      rw [List.map_cons]
      cases op with
      | setReg width register value =>
          rw [Op.shifted, outcome_setReg, outcome_setReg, ih, Expr.eval_shifted]
          rfl
      | setTemp width index value =>
          rw [Op.shifted, outcome_setTemp, outcome_setTemp, ih, Expr.eval_shifted,
            State.dropTemps_setTemp]
      | setFlag flag value =>
          rw [Op.shifted, outcome_setFlag, outcome_setFlag, ih, Expr.holds_shifted]
          rfl
      | store width address value =>
          rw [Op.shifted, outcome_store, outcome_store, ih, Expr.eval_shifted,
            Expr.eval_shifted]
          rfl
      | jump target =>
          exact congrArg (fun value => (Exit.jump value, _))
            (Expr.eval_shifted count target state)
      | call target =>
          exact congrArg (fun value => (Exit.call value, _))
            (Expr.eval_shifted count target state)
      | ret target =>
          exact congrArg (fun value => (Exit.ret value, _))
            (Expr.eval_shifted count target state)
      | branch condition ifTrue ifFalse =>
          exact congrArg
            (fun taken => (Exit.label (if taken then ifTrue else ifFalse), _))
            (Expr.holds_shifted count condition state)
      | nop | label _ => exact ih state
      | goto _ | unimplemented => rfl

/-- Code that reads no temporary of an outer scope does the same under other
numbers. -/
theorem Scoped.shifted_agree {bound : Label} {last : Scope} {code : List Op}
    (h : Scoped bound [] code last) (count : Nat) {state other : State}
    (hstate : state.SameVisible other) :
    Outcome.AgreeBelow 0 (outcome (code.map (Op.shifted count)) state)
      (outcome code other) := by
  have hdropped := (state.dropTemps_sameVisible count).trans hstate
  have hagree := h.outcome_agree hdropped.agreeBelow
  rw [← outcome_shifted] at hagree
  have hvisible := State.dropTemps_sameVisible
    (outcome (code.map (Op.shifted count)) state).2 count
  refine ⟨hagree.exit, State.SameVisible.agreeBelow ?_⟩
  exact hvisible.symm.trans hagree.state.toSameVisible

end IL
end MSP430
