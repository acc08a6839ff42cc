import MSP430.IL.Op
import MSP430.IL.State

/-!
# Running code

A run goes through the operations in order.  A transfer to a label goes on
behind the first mark of that label in the whole program.  A run ends at the end
of the code, at an operation that leaves it, or at a label that is not there.
-/

namespace MSP430
namespace IL

/-- How a run ends. -/
inductive Exit where
  /-- The end of the code. -/
  | fallThrough
  | jump (target : Nat)
  | call (target : Nat)
  | ret (target : Nat)
  /-- A label that the code does not mark. -/
  | label (label : Label)
  | unimplemented
  deriving DecidableEq, Repr

/-- What one operation does. -/
inductive Effect where
  | next (state : State)
  | goto (label : Label)
  | leave (exit : Exit)

namespace Op

def effect (state : State) : Op -> Effect
  | setReg width register value =>
      .next (state.setReg register (width.truncate (value.eval state)))
  | setTemp width index value =>
      .next (state.setTemp index (width.truncate (value.eval state)))
  | setFlag flag value => .next (state.setFlag flag (value.holds state))
  | store width address value =>
      .next (state.store width (address.eval state) (value.eval state))
  | jump target => .leave (.jump (target.eval state))
  | goto target => .goto target
  | branch condition ifTrue ifFalse =>
      .goto (if condition.holds state then ifTrue else ifFalse)
  | call target => .leave (.call (target.eval state))
  | ret target => .leave (.ret (target.eval state))
  | nop | label _ => .next state
  | unimplemented => .leave .unimplemented

end Op

/-- The code behind the first mark of a label. -/
def codeAfter? (target : Label) : List Op -> Option (List Op)
  | [] => none
  | op :: rest =>
      if op = .label target then some rest else codeAfter? target rest

/-- The remaining code of a program leads from one state to an exit in
another. -/
inductive Runs (program : List Op) : List Op -> State -> Exit -> State -> Prop where
  | done (state : State) : Runs program [] state .fallThrough state
  | next {op : Op} {rest : List Op} {state after last : State} {exit : Exit} :
      op.effect state = .next after ->
      Runs program rest after exit last ->
      Runs program (op :: rest) state exit last
  | goto {op : Op} {rest code : List Op} {state last : State} {exit : Exit}
      {target : Label} :
      op.effect state = .goto target ->
      codeAfter? target program = some code ->
      Runs program code state exit last ->
      Runs program (op :: rest) state exit last
  | missing {op : Op} {rest : List Op} {state : State} {target : Label} :
      op.effect state = .goto target ->
      codeAfter? target program = none ->
      Runs program (op :: rest) state (.label target) state
  | leave {op : Op} {rest : List Op} {state : State} {exit : Exit} :
      op.effect state = .leave exit ->
      Runs program (op :: rest) state exit state

/-- A program in a state has at most one exit and one last state. -/
theorem Runs.deterministic {program code : List Op} {state : State}
    {exit other : Exit} {last final : State}
    (first : Runs program code state exit last)
    (second : Runs program code state other final) :
    exit = other ∧ last = final := by
  induction first with
  | done state =>
      cases second
      exact ⟨rfl, rfl⟩
  | next heffect _ ih =>
      cases second with
      | next heffect' hrest =>
          rw [heffect] at heffect'
          cases heffect'
          exact ih hrest
      | goto heffect' _ _ => rw [heffect] at heffect'; cases heffect'
      | missing heffect' _ => rw [heffect] at heffect'; cases heffect'
      | leave heffect' => rw [heffect] at heffect'; cases heffect'
  | goto heffect hcode _ ih =>
      cases second with
      | next heffect' _ => rw [heffect] at heffect'; cases heffect'
      | goto heffect' hcode' hrest =>
          rw [heffect] at heffect'
          cases heffect'
          rw [hcode] at hcode'
          cases hcode'
          exact ih hrest
      | missing heffect' hcode' =>
          rw [heffect] at heffect'
          cases heffect'
          rw [hcode] at hcode'
          cases hcode'
      | leave heffect' => rw [heffect] at heffect'; cases heffect'
  | missing heffect hcode =>
      cases second with
      | next heffect' _ => rw [heffect] at heffect'; cases heffect'
      | goto heffect' hcode' _ =>
          rw [heffect] at heffect'
          cases heffect'
          rw [hcode] at hcode'
          cases hcode'
      | missing heffect' _ =>
          rw [heffect] at heffect'
          cases heffect'
          exact ⟨rfl, rfl⟩
      | leave heffect' => rw [heffect] at heffect'; cases heffect'
  | leave heffect =>
      cases second with
      | next heffect' _ => rw [heffect] at heffect'; cases heffect'
      | goto heffect' _ _ => rw [heffect] at heffect'; cases heffect'
      | missing heffect' _ => rw [heffect] at heffect'; cases heffect'
      | leave heffect' =>
          rw [heffect] at heffect'
          cases heffect'
          exact ⟨rfl, rfl⟩

/-- A program, run from its start. -/
def RunsTo (program : List Op) (state : State) (exit : Exit) (last : State) : Prop :=
  Runs program program state exit last

end IL
end MSP430
