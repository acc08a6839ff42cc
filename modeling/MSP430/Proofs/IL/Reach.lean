import MSP430.IL.Emit
import MSP430.Proofs.IL.Scope
import MSP430.Proofs.IL.Value

/-!
# Code that reaches its end

What an emission does where nothing leaves its code.  Such emissions compose: a
later one starts in the state that the earlier ones reach, with the results they
yield.  A result is settled when setting flags and further temporaries cannot
change what it is worth.
-/

namespace MSP430
namespace IL

/-- An expression is worth a number in every state with the same registers and
the same first temporaries. -/
def Expr.Settled (expr : Expr) (state : State) (count value : Nat) : Prop :=
  forall later : State, later.regs = state.regs ->
    (forall index, index < count -> later.temps index = state.temps index) ->
      expr.eval later = value

namespace Expr.Settled

variable {expr : Expr} {state : State} {count value : Nat}

theorem eval_eq (h : expr.Settled state count value) : expr.eval state = value :=
  h state rfl fun _ _ => rfl

theorem later {after : State} {more : Nat} (h : expr.Settled state count value)
    (hmore : count ≤ more) (hagree : after.AgreeBelow count state) :
    expr.Settled after more value := by
  intro last hregs htemps
  apply h last (hregs.trans hagree.regs)
  intro index hindex
  rw [htemps index (Nat.lt_of_lt_of_le hindex hmore)]
  exact hagree.temps index hindex

end Expr.Settled

theorem State.AgreeBelow.refl (count : Nat) (state : State) :
    AgreeBelow count state state :=
  ⟨.refl state, fun _ _ => rfl⟩

theorem State.agreeBelow_setTemp (state : State) (index value : Nat) :
    (state.setTemp index value).AgreeBelow index state where
  regs := rfl
  flags := rfl
  memory := rfl
  temps := fun _ hother => if_neg (Nat.ne_of_lt hother)

namespace Emit

/-- From a supply and a state, the code of the emission reaches its end in the
last state. -/
def Reaches {value : Type} (emit : Emit value) (supply : Supply)
    (state last : State) : Prop :=
  outcome (emit supply).code state = (.fallThrough, last)

namespace Reaches

variable {supply : Supply} {state middle last : State}

theorem pure {value : Type} (result : value) :
    Reaches (Pure.pure result) supply state state :=
  rfl

theorem bind {first second : Type} {emit : Emit first}
    {next : first -> Emit second} (hfirst : emit.Reaches supply state middle)
    (hnext : (next (emit supply).result).Reaches (emit supply).supply middle last) :
    (emit >>= next).Reaches supply state last := by
  unfold Reaches at hfirst hnext ⊢
  rw [bind_apply, outcome_append, hfirst]
  exact hnext

theorem ops {code : List Op} (h : outcome code state = (.fallThrough, last)) :
    (Emit.ops code).Reaches supply state last :=
  h

/-- A new temporary keeps a value as long as nothing else is kept there. -/
theorem exists_kept {width : Width} {value : Expr} {number : Nat}
    (hvalue : value.eval state = number) (hnumber : number < width.modulus) :
    let emission := Emit.save width value
    exists kept,
      emission.Reaches supply state kept ∧
        kept.AgreeBelow supply.temp state ∧
        forall later : State, later.temps supply.temp = kept.temps supply.temp ->
          (emission supply).result.eval later = number := by
  refine ⟨state.setTemp supply.temp (width.truncate (value.eval state)), rfl,
    state.agreeBelow_setTemp _ _, ?_⟩
  intro later htemp
  simp only [State.setTemp, if_true, hvalue, Width.truncate_of_lt hnumber] at htemp
  rw [save_apply, Expr.eval, htemp, Width.truncate_of_lt hnumber]

/-- A new temporary keeps a value, and is settled from then on. -/
theorem exists_save {width : Width} {value : Expr} {number : Nat}
    (hvalue : value.eval state = number) (hnumber : number < width.modulus) :
    let emission := Emit.save width value
    exists after,
      emission.Reaches supply state after ∧
        after.AgreeBelow supply.temp state ∧
        (emission supply).result.Settled after (supply.temp + 1) number := by
  rcases @exists_kept supply _ _ _ _ hvalue hnumber with
    ⟨kept, hreaches, hagree, hresult⟩
  refine ⟨kept, hreaches, hagree, ?_⟩
  intro later _ htemps
  exact hresult later (htemps supply.temp (Nat.lt_succ_self _))

/-- After a snapshot its result is settled: either it was so all along, or a new
temporary keeps it. -/
theorem exists_snapshot {width : Width} {value : Expr} {number : Nat}
    (hleaf : value.isPureLeaf = true -> value.Settled state supply.temp number)
    (hvalue : value.eval state = number) (hnumber : number < width.modulus) :
    let emission := Emit.snapshot width value
    exists after,
      emission.Reaches supply state after ∧
        after.AgreeBelow supply.temp state ∧
        supply.temp ≤ (emission supply).supply.temp ∧
        (emission supply).result.Settled after (emission supply).supply.temp
          number := by
  dsimp only
  unfold Emit.snapshot
  cases hpure : value.isPureLeaf with
  | true => exact ⟨state, rfl, .refl _ state, Nat.le_refl _, hleaf hpure⟩
  | false =>
      rcases @exists_save supply _ _ _ _ hvalue hnumber with
        ⟨after, hreaches, hagree, hsettled⟩
      exact ⟨after, hreaches, hagree, Nat.le_succ _, hsettled⟩

end Reaches

end Emit

end IL
end MSP430
