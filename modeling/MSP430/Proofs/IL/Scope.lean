import MSP430.Proofs.IL.Outcome

/-!
# Temporaries in scope

A scope lists the widths of the temporaries that have been set, in the order of
their numbers.  Straight code is well scoped when it reads only temporaries of
the scope, at their widths, and sets only the next one.  What such code does is
independent of all other temporaries.
-/

namespace MSP430
namespace IL

/-- The widths of the temporaries that may be read. -/
abbrev Scope : Type :=
  List Width

/-- Every temporary of the expression is in scope, with its width. -/
def Expr.ScopedIn (scope : Scope) : Expr -> Prop
  | reg _ _ | const _ _ | pointer _ _ | flag _ | bool _ => True
  | temp width index => scope[index]? = some width
  | load _ address => address.ScopedIn scope
  | binary _ _ left right | compare _ _ left right | logic _ left right =>
      left.ScopedIn scope ∧ right.ScopedIn scope
  | addCarry _ left right carry =>
      left.ScopedIn scope ∧ right.ScopedIn scope ∧ carry.ScopedIn scope
  | rotateCarry _ value carry => value.ScopedIn scope ∧ carry.ScopedIn scope
  | unary _ _ value | not value | ofBool _ value => value.ScopedIn scope

/-- The operation sets no temporary and belongs to straight code: it marks no
label, chooses between none, and transfers only to labels below a bound. -/
def Op.PlainIn (bound : Label) (scope : Scope) : Op -> Prop
  | setReg _ _ value | setFlag _ value => value.ScopedIn scope
  | store _ address value => address.ScopedIn scope ∧ value.ScopedIn scope
  | jump target | call target | ret target => target.ScopedIn scope
  | goto target => target < bound
  | nop | unimplemented => True
  | setTemp _ _ _ | branch _ _ _ | label _ => False

/-- Straight code that takes one scope to another. -/
inductive Scoped (bound : Label) : Scope -> List Op -> Scope -> Prop where
  | nil (scope : Scope) : Scoped bound scope [] scope
  | plain {scope last : Scope} {op : Op} {rest : List Op} :
      op.PlainIn bound scope ->
      Scoped bound scope rest last ->
      Scoped bound scope (op :: rest) last
  | bind {scope last : Scope} {width : Width} {value : Expr} {rest : List Op} :
      value.ScopedIn scope ->
      Scoped bound (scope ++ [width]) rest last ->
      Scoped bound scope (.setTemp width scope.length value :: rest) last

theorem Expr.ScopedIn.mono {scope wider : Scope} {expr : Expr}
    (hwider : scope <+: wider) (h : expr.ScopedIn scope) :
    expr.ScopedIn wider := by
  induction expr with
  | temp width index =>
      rcases hwider with ⟨added, rfl⟩
      have hindex : index < scope.length :=
        (List.getElem?_eq_some_iff.mp h).1
      show (scope ++ added)[index]? = some width
      rw [List.getElem?_append_left hindex]
      exact h
  | reg _ _ | const _ _ | pointer _ _ | flag _ | bool _ => exact h
  | load _ _ ih | unary _ _ _ ih | not _ ih | ofBool _ _ ih => exact ih h
  | binary _ _ _ _ ihl ihr | compare _ _ _ _ ihl ihr | logic _ _ _ ihl ihr
  | rotateCarry _ _ _ ihl ihr =>
      exact ⟨ihl h.1, ihr h.2⟩
  | addCarry _ _ _ _ ihl ihr ihc => exact ⟨ihl h.1, ihr h.2.1, ihc h.2.2⟩

theorem Expr.scopedIn_last (scope : Scope) (width : Width) :
    (Expr.temp width scope.length).ScopedIn (scope ++ [width]) := by
  simp [Expr.ScopedIn]

namespace Scoped

variable {bound : Label}

theorem isPrefix {scope last : Scope} {code : List Op}
    (h : Scoped bound scope code last) : scope <+: last := by
  induction h with
  | nil scope => exact List.prefix_refl scope
  | plain _ _ ih => exact ih
  | bind _ _ ih => exact (List.prefix_append _ _).trans ih

theorem append {scope middle last : Scope} {first second : List Op}
    (hfirst : Scoped bound scope first middle)
    (hsecond : Scoped bound middle second last) :
    Scoped bound scope (first ++ second) last := by
  induction hfirst with
  | nil _ => exact hsecond
  | plain hop _ ih => exact .plain hop (ih hsecond)
  | bind hvalue _ ih => exact .bind hvalue (ih hsecond)

theorem ofPlain {scope : Scope} {code : List Op}
    (h : forall op, op ∈ code -> op.PlainIn bound scope) :
    Scoped bound scope code scope := by
  induction code with
  | nil => exact .nil scope
  | cons op rest ih =>
      apply Scoped.plain (h op List.mem_cons_self)
      apply ih
      intro other hmem
      exact h other (List.mem_cons_of_mem op hmem)

theorem label_not_mem {scope last : Scope} {code : List Op}
    (h : Scoped bound scope code last) (label : Label) :
    Op.label label ∉ code := by
  induction h with
  | nil _ => exact List.not_mem_nil
  | plain hop _ ih =>
      intro hmem
      cases hmem with
      | head => exact hop
      | tail _ hrest => exact ih hrest
  | bind _ _ ih =>
      intro hmem
      cases hmem with
      | tail _ hrest => exact ih hrest

end Scoped

/-!
# States that agree

States are compared apart from their temporaries, or apart from those that are
not in scope.
-/

structure State.SameVisible (first second : State) : Prop where
  regs : first.regs = second.regs
  flags : first.flags = second.flags
  memory : first.memory = second.memory

/-- The states have the same registers, flags and memory, and the same
temporaries below a number. -/
structure State.AgreeBelow (count : Nat) (first second : State) : Prop
    extends State.SameVisible first second where
  temps : forall index, index < count -> first.temps index = second.temps index

namespace State

theorem SameVisible.refl (state : State) : SameVisible state state :=
  ⟨rfl, rfl, rfl⟩

theorem SameVisible.symm {first second : State} (h : SameVisible first second) :
    SameVisible second first :=
  ⟨h.regs.symm, h.flags.symm, h.memory.symm⟩

theorem SameVisible.trans {first second third : State}
    (h : SameVisible first second) (h' : SameVisible second third) :
    SameVisible first third :=
  ⟨h.regs.trans h'.regs, h.flags.trans h'.flags, h.memory.trans h'.memory⟩

theorem SameVisible.agreeBelow {first second : State}
    (h : SameVisible first second) : AgreeBelow 0 first second :=
  ⟨h, fun _ hindex => absurd hindex (Nat.not_lt_zero _)⟩

namespace AgreeBelow

variable {count : Nat} {first second : State}

theorem mono {fewer : Nat} (hfewer : fewer ≤ count)
    (h : AgreeBelow count first second) : AgreeBelow fewer first second where
  toSameVisible := h.toSameVisible
  temps := fun index hindex => h.temps index (Nat.lt_of_lt_of_le hindex hfewer)

theorem setReg (h : AgreeBelow count first second) (register : Register)
    (value : Nat) :
    AgreeBelow count (first.setReg register value)
      (second.setReg register value) where
  regs := by
    funext r
    simp only [State.setReg, h.regs]
  flags := h.flags
  memory := h.memory
  temps := h.temps

theorem setFlag (h : AgreeBelow count first second) (flag : Flag)
    (value : Bool) :
    AgreeBelow count (first.setFlag flag value)
      (second.setFlag flag value) where
  regs := h.regs
  flags := by
    funext f
    simp only [State.setFlag, h.flags]
  memory := h.memory
  temps := h.temps

theorem store (h : AgreeBelow count first second) (width : Width)
    (address value : Nat) :
    AgreeBelow count (first.store width address value)
      (second.store width address value) where
  regs := h.regs
  flags := h.flags
  memory := by
    simp only [State.store, h.memory]
  temps := h.temps

theorem setTemp (h : AgreeBelow count first second) (value : Nat) :
    AgreeBelow (count + 1) (first.setTemp count value)
      (second.setTemp count value) where
  regs := h.regs
  flags := h.flags
  memory := h.memory
  temps := by
    intro index hindex
    by_cases heq : index = count
    · simp [State.setTemp, heq]
    · simp only [State.setTemp, if_neg heq]
      exact h.temps index (by omega)

end AgreeBelow

end State

/-- Two outcomes that leave code the same way, in states that agree. -/
structure Outcome.AgreeBelow (count : Nat) (first second : Outcome) : Prop where
  exit : first.1 = second.1
  state : first.2.AgreeBelow count second.2

theorem Outcome.AgreeBelow.andThen {count : Nat} {first second : Outcome}
    {next other : State -> Outcome} (h : Outcome.AgreeBelow count first second)
    (hnext : forall after after', after.AgreeBelow count after' ->
      Outcome.AgreeBelow count (next after) (other after')) :
    Outcome.AgreeBelow count (first.andThen next) (second.andThen other) := by
  rcases first with ⟨exit, state⟩
  rcases second with ⟨exit', state'⟩
  have hexit : exit = exit' := h.exit
  subst hexit
  cases exit with
  | fallThrough => exact hnext state state' h.state
  | _ => exact h

/-!
# What scoped code depends on
-/

/-- The value of an expression depends on no temporary outside its scope. -/
theorem Expr.eval_congr {scope : Scope} {first second : State} {expr : Expr}
    (hstate : first.AgreeBelow scope.length second) (h : expr.ScopedIn scope) :
    expr.eval first = expr.eval second := by
  induction expr with
  | reg width register => simp only [eval, hstate.regs]
  | temp width index =>
      have hindex : index < scope.length :=
        (List.getElem?_eq_some_iff.mp h).1
      simp only [eval, hstate.temps index hindex]
  | const _ _ | pointer _ _ | bool _ => rfl
  | flag f => simp only [eval, hstate.flags]
  | load width address ih =>
      simp only [eval, State.load, hstate.memory, ih h]
  | binary _ _ _ _ ihl ihr | compare _ _ _ _ ihl ihr | logic _ _ _ ihl ihr
  | rotateCarry _ _ _ ihl ihr =>
      simp only [eval, ihl h.1, ihr h.2]
  | addCarry _ _ _ _ ihl ihr ihc =>
      simp only [eval, ihl h.1, ihr h.2.1, ihc h.2.2]
  | unary _ _ _ ih | not _ ih | ofBool _ _ ih => simp only [eval, ih h]

theorem Expr.holds_congr {scope : Scope} {first second : State} {expr : Expr}
    (hstate : first.AgreeBelow scope.length second) (h : expr.ScopedIn scope) :
    expr.holds first = expr.holds second := by
  unfold Expr.holds
  rw [Expr.eval_congr hstate h]

/-- A plain operation, as the first one of some code, leads from states that
agree to outcomes that agree if the rest of the code does. -/
theorem Op.PlainIn.outcome_agree {bound : Label} {scope : Scope} {op : Op}
    {rest : List Op} {first second : State} (hop : op.PlainIn bound scope)
    (hstate : first.AgreeBelow scope.length second)
    (hrest : forall after after', after.AgreeBelow scope.length after' ->
      Outcome.AgreeBelow scope.length (outcome rest after) (outcome rest after')) :
    Outcome.AgreeBelow scope.length (outcome (op :: rest) first)
      (outcome (op :: rest) second) := by
  cases op with
  | setReg width register value =>
      rw [outcome_setReg, outcome_setReg, Expr.eval_congr hstate hop]
      exact hrest _ _ (hstate.setReg register _)
  | setFlag flag value =>
      rw [outcome_setFlag, outcome_setFlag, Expr.holds_congr hstate hop]
      exact hrest _ _ (hstate.setFlag flag _)
  | store width address value =>
      rw [outcome_store, outcome_store, Expr.eval_congr hstate hop.1,
        Expr.eval_congr hstate hop.2]
      exact hrest _ _ (hstate.store width _ _)
  | nop => exact hrest _ _ hstate
  | jump target =>
      exact ⟨congrArg Exit.jump (Expr.eval_congr hstate hop), hstate⟩
  | call target =>
      exact ⟨congrArg Exit.call (Expr.eval_congr hstate hop), hstate⟩
  | ret target =>
      exact ⟨congrArg Exit.ret (Expr.eval_congr hstate hop), hstate⟩
  | goto target => exact ⟨rfl, hstate⟩
  | unimplemented => exact ⟨rfl, hstate⟩
  | setTemp _ _ _ | branch _ _ _ | label _ => exact absurd hop not_false

namespace Scoped

variable {bound : Label}

theorem outcome_agree {scope last : Scope} {code : List Op}
    (h : Scoped bound scope code last) {first second : State}
    (hstate : first.AgreeBelow scope.length second) :
    Outcome.AgreeBelow scope.length (outcome code first)
      (outcome code second) := by
  induction h generalizing first second with
  | nil scope => exact ⟨rfl, hstate⟩
  | plain hop _ ih =>
      exact hop.outcome_agree hstate fun _ _ hafter => ih hafter
  | @bind scope last width value rest hvalue hrest ih =>
      rw [outcome_setTemp, outcome_setTemp, Expr.eval_congr hstate hvalue]
      have hset := hstate.setTemp (width.truncate (value.eval second))
      have hlength : (scope ++ [width]).length = scope.length + 1 := by simp
      rw [← hlength] at hset
      have hagree := ih hset
      refine ⟨hagree.exit, hagree.state.mono ?_⟩
      rw [hlength]
      exact Nat.le_succ _

theorem outcome_temps {scope last : Scope} {code : List Op}
    (h : Scoped bound scope code last) {index : Nat}
    (hindex : index < scope.length) (state : State) :
    (outcome code state).2.temps index = state.temps index := by
  induction h generalizing state with
  | nil _ => rfl
  | @plain scope last op rest hop hrest ih =>
      cases op with
      | setTemp _ _ _ | branch _ _ _ | label _ => exact absurd hop not_false
      | setReg _ _ _ | setFlag _ _ | store _ _ _ | nop => exact ih hindex _
      | jump _ | call _ | ret _ | goto _ | unimplemented => rfl
  | @bind scope last width value rest hvalue hrest ih =>
      rw [outcome_setTemp]
      have hlater : index < (scope ++ [width]).length := by
        rw [List.length_append]
        exact Nat.lt_add_right _ hindex
      rw [ih hlater]
      exact if_neg (Nat.ne_of_lt hindex)

end Scoped

end IL
end MSP430
