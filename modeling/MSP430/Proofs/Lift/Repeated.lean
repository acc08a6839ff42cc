import MSP430.Proofs.IL.Frame
import MSP430.Proofs.Lift.Meaning

/-!
# Repeated runs

What holds of the outcome of a single run, from every state on, holds of a repeated
instruction as well, unless it does not run at all: the last run that is made decides.
-/

namespace MSP430

open IL (Composes Emit GoesOn KnownLabels Op Outcome State outcome)
open IL.Emit (Emits)

namespace IL

/-- From every state on the outcome has the property. -/
def Always (P : Outcome -> Prop) (means : State -> Outcome) : Prop :=
  forall state, P (means state)

namespace Always

variable {P : Outcome -> Prop}

/-- What comes after has to keep the property only where it is reached. -/
theorem andThen {first next : State -> Outcome} (hfirst : Always P first)
    (hnext : forall after, P (.fallThrough, after) -> P (next after)) :
    Always P fun state => (first state).andThen next := by
  intro state
  have hstate := hfirst state
  dsimp only
  revert hstate
  rcases first state with ⟨exit, after⟩
  intro hstate
  cases exit with
  | fallThrough => exact hnext after hstate
  | _ => exact hstate

theorem append {code rest : List Op} (h : Always P (outcome code))
    (hrest : forall after, P (.fallThrough, after) -> P (outcome rest after)) :
    Always P (outcome (code ++ rest)) := by
  intro state
  rw [outcome_append]
  exact h.andThen hrest state

theorem after {before code : List Op} (hbefore : GoesOn before)
    (h : Always P (outcome code)) : Always P (outcome (before ++ code)) := by
  intro state
  rcases hbefore.exists_outcome state with ⟨middle, hmiddle⟩
  rw [outcome_append, hmiddle]
  exact h middle

theorem bind {value : Type} {fits : value -> Prop} {emit : Emit value}
    {next : value -> Emit Unit} (hfirst : Emits GoesOn fits emit)
    (hnext : forall result supply, Always P (outcome (next result supply).code))
    (supply : Supply) : Always P (outcome ((emit >>= next) supply).code) :=
  (hnext _ _).after (hfirst.code supply)

theorem replicate {emission : Emit Unit}
    (h : forall supply, Always P (outcome (emission supply).code)) (count : Nat)
    (supply : Supply) :
    Always P (outcome (Emit.replicate (count + 1) emission supply).code) := by
  induction count generalizing supply with
  | zero => exact (h supply).append fun _ => id
  | succ count ih => exact (h supply).append fun after _ => ih _ after

theorem repeatDown {body : State -> Outcome} (h : Always P body) (counter : Nat)
    (hcounter : forall after value, P (.fallThrough, after) ->
      P (.fallThrough, after.setTemp counter value))
    (count : Nat) : Always P (repeatDown body counter (count + 1)) := by
  induction count with
  | zero => exact h.andThen fun after => hcounter after 0
  | succ count ih =>
      exact h.andThen fun after _ => ih (after.setTemp counter (count + 1))

end Always
end IL

open IL (Always)

namespace Lift

section

variable {options : Options} {known : KnownLabels} {inst : Instruction}
  {P : Outcome -> Prop}

theorem always_once {context : Context}
    (h : forall supply, Always P (outcome (context.run inst supply).code))
    (zeroCarry : Bool) (supply : IL.Supply) :
    Always P (outcome (context.once zeroCarry inst supply).code) := by
  have hcarry : GoesOn (clearedCarry zeroCarry) := by
    cases zeroCarry with
    | true => exact GoesOn.single trivial
    | false => exact Composes.nil
  exact (h supply).after hcarry

/-- An instruction does what each of its runs does, unless it does not run at all. -/
theorem always_meaning
    (hjump : forall condition offset, inst.body ≠ .jump condition offset)
    (hcounter : forall after index value, P (.fallThrough, after) ->
      P (.fallThrough, after.setTemp index value))
    (hrun : forall supply,
      Always P (outcome ((Context.of options known inst).run inst supply).code))
    (hruns : forall zeroCarry,
      inst.extension ≠ some { repetition := .times 0, zeroCarry := zeroCarry }) :
    Always P (meaning options known inst) := by
  have honce := fun zeroCarry => always_once hrun zeroCarry
  unfold meaning
  dsimp only
  split
  · next condition offset hbody _ => exact absurd hbody (hjump condition offset)
  · next counter zeroCarry _ =>
      intro state
      exact (honce zeroCarry _).repeatDown 0 (fun after => hcounter after 0)
        (state.regs counter % 16) _
  · next hloop _ =>
      unfold emit
      cases hextension : inst.extension with
      | none => exact hrun _
      | some extension =>
          rcases extension with ⟨repetition, zeroCarry⟩
          cases repetition with
          | register counter => exact absurd hextension (hloop counter zeroCarry)
          | times count =>
              cases count with
              | zero => exact absurd hextension (hruns zeroCarry)
              | succ count => exact Always.replicate (honce zeroCarry) count _

end

end Lift
end MSP430
