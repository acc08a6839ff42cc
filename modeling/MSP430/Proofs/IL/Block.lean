import MSP430.Proofs.IL.Scope

/-!
# Blocks of a program

A block is a piece of code that may hold labels of its own.  It realises a
meaning, a function from states to outcomes, when it has that meaning wherever
it stands: whatever code is around it, as long as that code does not mark the
block's labels before the block does, and marks none of the labels that are left
to the owner of the program.
-/

namespace MSP430
namespace IL

/-- Wherever the code stands, it leads to the outcome of its meaning.  The labels
below the bound stay unmarked. -/
def Realises (bound : Label) (code : List Op) (meaning : State -> Outcome) : Prop :=
  forall (before after : List Op) (state : State),
    (forall label, Op.label label ∈ code -> Op.label label ∉ before) ->
    (forall label, label < bound ->
      Op.label label ∉ before ++ (code ++ after)) ->
    Leads (before ++ (code ++ after)) (code ++ after) state after (meaning state)

namespace Scoped

variable {bound : Label}

theorem leads {scope last : Scope} {code : List Op}
    (h : Scoped bound scope code last) {program : List Op}
    (hfree : forall label, label < bound -> Op.label label ∉ program)
    (after : List Op) (state : State) :
    Leads program (code ++ after) state after (outcome code state) := by
  induction h generalizing state with
  | nil _ => exact .refl program after state
  | @plain scope last op rest hop _ ih =>
      cases op with
      | setTemp _ _ _ | branch _ _ _ | label _ => exact absurd hop not_false
      | setReg _ _ _ | setFlag _ _ | store _ _ _ | nop =>
          exact .next rfl (ih _)
      | jump _ | call _ | ret _ | unimplemented => exact .leave rfl
      | goto target =>
          exact .missing rfl (codeAfter?_eq_none (hfree target hop))
  | bind _ _ ih => exact .next rfl (ih _)

theorem realises {scope last : Scope} {code : List Op}
    (h : Scoped bound scope code last) : Realises bound code (outcome code) := by
  intro before after state _ hfree
  exact h.leads hfree after state

end Scoped

namespace Realises

variable {bound : Label}

theorem nil : Realises bound [] fun state => (.fallThrough, state) := by
  intro before after state _ _
  exact .refl _ after state

/-- Blocks that share no label compose as their meanings do. -/
theorem append {first second : List Op} {meaning next : State -> Outcome}
    (hfirst : Realises bound first meaning)
    (hsecond : Realises bound second next)
    (hdisjoint : forall label, Op.label label ∈ second ->
      Op.label label ∉ first) :
    Realises bound (first ++ second) fun state =>
      (meaning state).andThen next := by
  intro before after state hbefore hfree
  rw [List.append_assoc] at hfree ⊢
  have hleads := hfirst before (second ++ after) state
    (fun label hmem => hbefore label (List.mem_append_left second hmem)) hfree
  apply hleads.trans
  intro last _
  rw [← List.append_assoc before] at hfree ⊢
  apply hsecond (before ++ first) after last
  · intro label hmem hmem'
    rcases List.mem_append.mp hmem' with hmem' | hmem'
    · exact hbefore label (List.mem_append_right first hmem) hmem'
    · exact hdisjoint label hmem hmem'
  · exact hfree

theorem runsTo {code : List Op} {meaning : State -> Outcome}
    (h : Realises bound code meaning)
    (hfree : forall label, label < bound -> Op.label label ∉ code)
    (state : State) :
    RunsTo code state (meaning state).1 (meaning state).2 := by
  apply Leads.runsTo
  have hleads := h [] [] state
  rw [List.nil_append, List.append_nil] at hleads
  apply hleads
  · intro _ _
    exact List.not_mem_nil
  · exact hfree

end Realises

/-!
# Counted loops
-/

/-- Runs a body a number of times, with the runs still to come in a temporary. -/
def repeatDown (body : State -> Outcome) (counter : Nat) : Nat -> State -> Outcome
  | 0, state => (.fallThrough, state)
  | count + 1, state =>
      (body state).andThen fun after =>
        repeatDown body counter count (after.setTemp counter count)

/-- The end of a loop: one run less is to come, and another one follows unless
there was only one. -/
def loopEnd (counter : Nat) (start done : Label) : List Op :=
  [.setTemp .word counter (.sub .word (.temp .word counter) (.int .word 1)),
    .branch (.compare .notEqual .word (.temp .word counter) (.int .word 0))
      start done,
    .label done]

section Loop

variable {program body after : List Op} {meaning : State -> Outcome}
  {counter : Nat} {start done : Label}

theorem leads_loopEnd
    (hstart : codeAfter? start program =
      some (body ++ (loopEnd counter start done ++ after)))
    (hdone : codeAfter? done program = some after)
    {count : Nat} (hcount : count < 0xffff) {state : State}
    (htemp : state.temps counter = count + 1) :
    Leads program (loopEnd counter start done ++ after) state
      (if count = 0 then after
        else body ++ (loopEnd counter start done ++ after))
      (.fallThrough, state.setTemp counter count) := by
  have hvalue :
      Width.word.truncate
        ((Expr.sub .word (.temp .word counter) (.int .word 1)).eval state) =
          count := by
    simp only [Expr.sub, Expr.int, Expr.eval, BinaryOp.apply, Width.truncate,
      Width.modulus, htemp]
    omega
  have hset :
      (Op.setTemp .word counter
        (.sub .word (.temp .word counter) (.int .word 1))).effect state =
          .next (state.setTemp counter count) := by
    rw [Op.effect, hvalue]
  have hmore :
      (Expr.compare .notEqual .word (.temp .word counter)
        (.int .word 0)).holds (state.setTemp counter count) =
          decide (count ≠ 0) := by
    have hmod : count % 0x10000 = count := by omega
    simp [Expr.holds, Expr.int, Expr.eval, CompareOp.apply, Width.truncate,
      Width.modulus, State.setTemp, hmod]
  have hbranch :
      (Op.branch (.compare .notEqual .word (.temp .word counter) (.int .word 0))
        start done).effect (state.setTemp counter count) =
          .goto (if count = 0 then done else start) := by
    rw [Op.effect, hmore]
    by_cases hzero : count = 0 <;> simp [hzero]
  apply Leads.next hset
  by_cases hzero : count = 0
  · rw [if_pos hzero] at hbranch ⊢
    exact .goto hbranch hdone (.refl _ _ _)
  · rw [if_neg hzero] at hbranch ⊢
    exact .goto hbranch hstart (.refl _ _ _)

/-- One round of a loop: the body, which leaves the counter alone, and the end. -/
theorem leads_loopRound
    (hstart : codeAfter? start program =
      some (body ++ (loopEnd counter start done ++ after)))
    (hdone : codeAfter? done program = some after)
    (hbody : forall state,
      Leads program (body ++ (loopEnd counter start done ++ after)) state
        (loopEnd counter start done ++ after) (meaning state))
    (hcounter : forall state,
      (meaning state).2.temps counter = state.temps counter)
    {count : Nat} (hcount : count < 0xffff) {state : State}
    (htemp : state.temps counter = count + 1) {next : State -> Outcome}
    (hnext : forall last, last.temps counter = count ->
      Leads program
        (if count = 0 then after
          else body ++ (loopEnd counter start done ++ after))
        last after (next last)) :
    Leads program (body ++ (loopEnd counter start done ++ after)) state after
      ((meaning state).andThen fun last => next (last.setTemp counter count)) := by
  apply Leads.trans (hbody state)
  intro last hlast
  have hlastTemp : last.temps counter = count + 1 := by
    have hkept := hcounter state
    rw [hlast, htemp] at hkept
    exact hkept
  have hend := leads_loopEnd hstart hdone hcount hlastTemp
  apply Leads.trans hend
  intro final hfinal
  cases hfinal
  apply hnext
  exact if_pos rfl

theorem leads_loopBody
    (hstart : codeAfter? start program =
      some (body ++ (loopEnd counter start done ++ after)))
    (hdone : codeAfter? done program = some after)
    (hbody : forall state,
      Leads program (body ++ (loopEnd counter start done ++ after)) state
        (loopEnd counter start done ++ after) (meaning state))
    (hcounter : forall state,
      (meaning state).2.temps counter = state.temps counter)
    {count : Nat} (hcount : count < 0xffff) {state : State}
    (htemp : state.temps counter = count + 1) :
    Leads program (body ++ (loopEnd counter start done ++ after)) state after
      (repeatDown meaning counter (count + 1) state) := by
  induction count generalizing state with
  | zero =>
      apply leads_loopRound hstart hdone hbody hcounter hcount htemp
      intro last _
      rw [if_pos rfl]
      exact .refl program after last
  | succ count ih =>
      apply leads_loopRound hstart hdone hbody hcounter hcount htemp
      intro last hlast
      rw [if_neg (Nat.succ_ne_zero count)]
      exact ih (by omega) hlast

end Loop

/-- A loop whose body is straight code realises as many runs of the body as its
counter says at first. -/
theorem realises_loop {bound start done : Label} {scope last : Scope}
    {body : List Op} {value : Expr} {counts : State -> Nat}
    (hbody : Scoped bound (scope ++ [.word]) body last) (hne : start ≠ done)
    (hcounts : forall state, counts state < 0xffff)
    (hvalue : forall state,
      Width.word.truncate (value.eval state) = counts state + 1) :
    Realises bound
      (.setTemp .word scope.length value :: .label start ::
        (body ++ loopEnd scope.length start done))
      fun state =>
        repeatDown (outcome body) scope.length (counts state + 1)
          (state.setTemp scope.length (counts state + 1)) := by
  intro before after state hbefore hfree
  have hindex : scope.length < (scope ++ [Width.word]).length := by simp
  have hstartBefore : Op.label start ∉ before := hbefore start (by simp)
  have hdoneBefore : Op.label done ∉ before :=
    hbefore done (by simp [loopEnd])
  have hdoneBody : Op.label done ∉ body := hbody.label_not_mem done
  simp only [List.cons_append, List.append_assoc] at hfree ⊢
  have hstart :
      codeAfter? start
        (before ++ (.setTemp .word scope.length value :: .label start ::
          (body ++ (loopEnd scope.length start done ++ after)))) =
        some (body ++ (loopEnd scope.length start done ++ after)) := by
    rw [codeAfter?_append_of_not_mem _ hstartBefore]
    simp [codeAfter?]
  have hdone :
      codeAfter? done
        (before ++ (.setTemp .word scope.length value :: .label start ::
          (body ++ (loopEnd scope.length start done ++ after)))) =
        some after := by
    rw [codeAfter?_append_of_not_mem _ hdoneBefore]
    simp only [codeAfter?, reduceCtorEq, if_false, Op.label.injEq, hne]
    rw [codeAfter?_append_of_not_mem _ hdoneBody]
    simp [loopEnd, codeAfter?]
  have hset :
      (Op.setTemp .word scope.length value).effect state =
        .next (state.setTemp scope.length (counts state + 1)) := by
    rw [Op.effect, hvalue]
  apply Leads.next hset
  refine .next rfl ?_
  apply leads_loopBody hstart hdone
  · exact hbody.leads hfree _
  · exact hbody.outcome_temps hindex
  · exact hcounts state
  · exact if_pos rfl

theorem repeatDown_agree {bound : Label} {scope last : Scope} {body : List Op}
    (hbody : Scoped bound (scope ++ [.word]) body last) (count : Nat)
    {first second : State}
    (hstate : first.AgreeBelow (scope.length + 1) second) :
    Outcome.AgreeBelow (scope.length + 1)
      (repeatDown (outcome body) scope.length count first)
      (repeatDown (outcome body) scope.length count second) := by
  have hlength : (scope ++ [Width.word]).length = scope.length + 1 := by simp
  induction count generalizing first second with
  | zero => exact ⟨rfl, hstate⟩
  | succ count ih =>
      rw [← hlength] at hstate ⊢
      apply (hbody.outcome_agree hstate).andThen
      intro after after' hafter
      rw [hlength] at hafter ⊢
      apply ih
      exact (hafter.mono (Nat.le_succ _)).setTemp count

end IL
end MSP430
