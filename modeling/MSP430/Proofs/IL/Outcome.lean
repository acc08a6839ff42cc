import MSP430.IL.Machine

/-!
# Outcomes of straight-line code

Code that marks no label can only be left, never be entered again.  What it does
is then a function of the state, the outcome, and this module says how the
outcome of a piece of code becomes a part of a run of a whole program.
-/

namespace MSP430
namespace IL

/-- How code was left, and the state in which it was left. -/
abbrev Outcome : Type :=
  Exit × State

namespace Outcome

/-- Goes on where the first part reached its end. -/
def andThen (first : Outcome) (next : State -> Outcome) : Outcome :=
  match first with
  | (.fallThrough, state) => next state
  | left => left

@[simp] theorem fallThrough_andThen (state : State) (next : State -> Outcome) :
    andThen (.fallThrough, state) next = next state := rfl

theorem andThen_of_ne {first : Outcome} (next : State -> Outcome)
    (h : first.1 ≠ .fallThrough) : first.andThen next = first := by
  rcases first with ⟨exit, state⟩
  cases exit with
  | fallThrough => exact absurd rfl h
  | _ => rfl

@[simp] theorem andThen_fallThrough (first : Outcome) :
    (first.andThen fun state => (.fallThrough, state)) = first := by
  rcases first with ⟨exit, state⟩
  cases exit <;> rfl

end Outcome

/-- What code does that is run alone; a transfer to a label leaves it. -/
def outcome : List Op -> State -> Outcome
  | [], state => (.fallThrough, state)
  | op :: rest, state =>
      match op.effect state with
      | .next after => outcome rest after
      | .goto target => (.label target, state)
      | .leave exit => (exit, state)

namespace Op

/-- No operation leaves the code by reaching its end. -/
theorem effect_leave_ne {op : Op} {state : State} {exit : Exit}
    (h : op.effect state = .leave exit) : exit ≠ .fallThrough := by
  intro hexit
  rw [hexit] at h
  cases op <;> cases h

end Op

/-!
# The outcome of each operation
-/

@[simp] theorem outcome_nil (state : State) :
    outcome [] state = (.fallThrough, state) := rfl

theorem outcome_cons_of_next {op : Op} {state after : State} (rest : List Op)
    (h : op.effect state = .next after) :
    outcome (op :: rest) state = outcome rest after := by
  rw [outcome, h]

theorem outcome_cons_of_goto {op : Op} {state : State} {target : Label}
    (rest : List Op) (h : op.effect state = .goto target) :
    outcome (op :: rest) state = (.label target, state) := by
  rw [outcome, h]

theorem outcome_cons_of_leave {op : Op} {state : State} {exit : Exit}
    (rest : List Op) (h : op.effect state = .leave exit) :
    outcome (op :: rest) state = (exit, state) := by
  rw [outcome, h]

@[simp] theorem outcome_setReg (width : Width) (register : Register)
    (value : Expr) (rest : List Op) (state : State) :
    outcome (.setReg width register value :: rest) state =
      outcome rest
        (state.setReg register (width.truncate (value.eval state))) := rfl

@[simp] theorem outcome_setTemp (width : Width) (index : Nat) (value : Expr)
    (rest : List Op) (state : State) :
    outcome (.setTemp width index value :: rest) state =
      outcome rest (state.setTemp index (width.truncate (value.eval state))) := rfl

@[simp] theorem outcome_setFlag (flag : Flag) (value : Expr) (rest : List Op)
    (state : State) :
    outcome (.setFlag flag value :: rest) state =
      outcome rest (state.setFlag flag (value.holds state)) := rfl

@[simp] theorem outcome_store (width : Width) (address value : Expr)
    (rest : List Op) (state : State) :
    outcome (.store width address value :: rest) state =
      outcome rest
        (state.store width (address.eval state) (value.eval state)) := rfl

@[simp] theorem outcome_jump (target : Expr) (rest : List Op) (state : State) :
    outcome (.jump target :: rest) state = (.jump (target.eval state), state) := rfl

/-- Code in two parts does what the first part does, and then the second part
where the first one reached its end. -/
theorem outcome_append (first second : List Op) (state : State) :
    outcome (first ++ second) state =
      (outcome first state).andThen (outcome second) := by
  induction first generalizing state with
  | nil => rfl
  | cons op rest ih =>
      show outcome (op :: (rest ++ second)) state = _
      cases heffect : op.effect state with
      | next after =>
          rw [outcome_cons_of_next _ heffect, outcome_cons_of_next _ heffect]
          exact ih after
      | goto target =>
          rw [outcome_cons_of_goto _ heffect, outcome_cons_of_goto _ heffect]
          rfl
      | leave exit =>
          rw [outcome_cons_of_leave _ heffect, outcome_cons_of_leave _ heffect]
          rw [Outcome.andThen_of_ne]
          exact Op.effect_leave_ne heffect

/-!
# Outcomes in a run

A run that stands before a piece of code leads to the piece's outcome: either it
ends there, or it goes on with what follows the piece.
-/

/-- The ends of a run from an outcome on, with the given code still to come. -/
inductive Outcome.Ends (program rest : List Op) : Outcome -> Exit -> State -> Prop where
  | goesOn {state last : State} {exit : Exit} :
      Runs program rest state exit last ->
      Ends program rest (.fallThrough, state) exit last
  | isLeft {state : State} {exit : Exit} :
      exit ≠ .fallThrough ->
      Ends program rest (exit, state) exit state

/-- A run that stands before `code` reaches the outcome in front of `rest`. -/
def Leads (program code : List Op) (state : State) (rest : List Op)
    (result : Outcome) : Prop :=
  forall exit last, result.Ends program rest exit last ->
    Runs program code state exit last

namespace Leads

theorem refl (program code : List Op) (state : State) :
    Leads program code state code (.fallThrough, state) := by
  intro exit last hends
  cases hends with
  | goesOn hruns => exact hruns
  | isLeft hne => exact absurd rfl hne

theorem trans {program code middle rest : List Op} {state : State}
    {first : Outcome} {next : State -> Outcome}
    (hfirst : Leads program code state middle first)
    (hnext : forall after, first = (.fallThrough, after) ->
      Leads program middle after rest (next after)) :
    Leads program code state rest (first.andThen next) := by
  intro exit last hends
  apply hfirst
  rcases first with ⟨firstExit, after⟩
  by_cases hfalls : firstExit = .fallThrough
  · cases hfalls
    exact .goesOn (hnext after rfl exit last hends)
  · rw [Outcome.andThen_of_ne next hfalls] at hends
    cases hends with
    | goesOn _ => exact absurd rfl hfalls
    | isLeft hne => exact .isLeft hne

theorem next {program code rest : List Op} {op : Op} {state after : State}
    {result : Outcome} (heffect : op.effect state = .next after)
    (hrest : Leads program code after rest result) :
    Leads program (op :: code) state rest result := by
  intro exit last hends
  exact .next heffect (hrest exit last hends)

theorem goto {program code target rest : List Op} {op : Op} {label : Label}
    {state : State} {result : Outcome} (heffect : op.effect state = .goto label)
    (hcode : codeAfter? label program = some target)
    (hrest : Leads program target state rest result) :
    Leads program (op :: code) state rest result := by
  intro exit last hends
  exact .goto heffect hcode (hrest exit last hends)

theorem leave {program code rest : List Op} {op : Op} {state : State}
    {exit : Exit} (heffect : op.effect state = .leave exit) :
    Leads program (op :: code) state rest (exit, state) := by
  intro final last hends
  cases hends with
  | goesOn _ => exact absurd rfl (Op.effect_leave_ne heffect)
  | isLeft _ => exact .leave heffect

theorem missing {program code rest : List Op} {op : Op} {label : Label}
    {state : State} (heffect : op.effect state = .goto label)
    (hcode : codeAfter? label program = none) :
    Leads program (op :: code) state rest (.label label, state) := by
  intro final last hends
  cases hends with
  | isLeft _ => exact .missing heffect hcode

theorem runsTo {program : List Op} {state : State} {result : Outcome}
    (h : Leads program program state [] result) :
    RunsTo program state result.1 result.2 := by
  apply h
  rcases result with ⟨exit, last⟩
  by_cases hfalls : exit = .fallThrough
  · cases hfalls
    exact .goesOn (.done last)
  · exact .isLeft hfalls

end Leads

/-!
# Finding labels
-/

theorem codeAfter?_append_of_not_mem {label : Label} {before : List Op}
    (rest : List Op) (h : Op.label label ∉ before) :
    codeAfter? label (before ++ rest) = codeAfter? label rest := by
  induction before with
  | nil => rfl
  | cons op tail ih =>
      have hop : op ≠ .label label := by
        intro heq
        exact h (heq ▸ List.mem_cons_self)
      have htail : Op.label label ∉ tail := by
        intro hmem
        exact h (List.mem_cons_of_mem op hmem)
      show codeAfter? label (op :: (tail ++ rest)) = _
      rw [codeAfter?, if_neg hop]
      exact ih htail

@[simp] theorem codeAfter?_label (label : Label) (rest : List Op) :
    codeAfter? label (.label label :: rest) = some rest := by
  simp [codeAfter?]

theorem codeAfter?_eq_none {label : Label} {code : List Op}
    (h : Op.label label ∉ code) : codeAfter? label code = none := by
  have hsearch := codeAfter?_append_of_not_mem [] h
  rw [List.append_nil] at hsearch
  rw [hsearch]
  rfl

end IL
end MSP430
