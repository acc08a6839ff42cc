import MSP430.Proofs.Lift.Comparison
import MSP430.Proofs.Lift.Emitted
import MSP430.Proofs.Lift.Parallel
import MSP430.Proofs.Lift.Sequence

/-!
# Addresses that have labels

A buffer that knows labels for some addresses transfers control to a label where it
would otherwise jump to such an address.  To its owner, who knows which address a
label stands for, the code is the same with and without them.
-/

namespace MSP430

open IL (Composes Emit Exit Expr KnownLabels Label Op Outcome Paired RunsTo State
  outcome)
open IL.Emit (EmitsCode)

namespace IL

/-!
# Labels of addresses
-/

namespace KnownLabels

variable {known : KnownLabels}

/-- A label is the position of its address. -/
theorem getElem?_of_labelFrom? {first label : Nat} {address : UInt64}
    (h : known.labelFrom? first address = some label) :
    first ≤ label ∧ known[label - first]? = some address := by
  induction known generalizing first with
  | nil => cases h
  | cons head rest ih =>
      rw [labelFrom?] at h
      cases hrest : labelFrom? (first + 1) rest address with
      | some found =>
          rw [hrest] at h
          cases h
          rcases ih hrest with ⟨hle, hfound⟩
          refine ⟨Nat.le_of_succ_le hle, ?_⟩
          have hsucc : label - first = label - (first + 1) + 1 := by omega
          rw [hsucc, List.getElem?_cons_succ]
          exact hfound
      | none =>
          rw [hrest] at h
          rcases Option.ite_none_right_eq_some.mp h with ⟨hhead, hfirst⟩
          cases hfirst
          refine ⟨Nat.le_refl label, ?_⟩
          rw [Nat.sub_self, List.getElem?_cons_zero, hhead]

/-- No two addresses have the same label. -/
theorem label?_injective {address other : UInt64} {label : Label}
    (h : known.label? address = some label) (h' : known.label? other = some label) :
    address = other := by
  have haddress := (getElem?_of_labelFrom? h).2
  have hother := (getElem?_of_labelFrom? h').2
  exact Option.some.inj (haddress.symm.trans hother)

end KnownLabels

/-- Where control goes. -/
inductive Control where
  | at (address : Nat)
  | call (target : Nat)
  | ret (target : Nat)
  | unimplemented
  deriving DecidableEq, Repr

/-- What an exit from the code of one instruction means to the owner of the labels.  A
label stands for its address, and behind the end of the code comes the next
instruction. -/
inductive Exit.GoesTo (known : KnownLabels) (next : UInt64) :
    Exit -> Control -> Prop where
  | fallThrough : GoesTo known next .fallThrough (.at next.toNat)
  | jump (target : Nat) : GoesTo known next (.jump target) (.at target)
  | label {label : Label} {address : UInt64} :
      known.label? address = some label ->
      GoesTo known next (.label label) (.at address.toNat)
  | call (target : Nat) : GoesTo known next (.call target) (.call target)
  | ret (target : Nat) : GoesTo known next (.ret target) (.ret target)
  | unimplemented : GoesTo known next .unimplemented .unimplemented

/-- Control goes to one place only. -/
theorem Exit.GoesTo.unique {known : KnownLabels} {next : UInt64} {exit : Exit}
    {control other : Control} (h : exit.GoesTo known next control)
    (h' : exit.GoesTo known next other) : other = control := by
  cases h with
  | label haddress =>
      cases h' with
      | label hother => rw [KnownLabels.label?_injective haddress hother]
  | _ =>
      cases h'
      rfl

/-!
# Code with and without labels
-/

/-- The operation is no jump to a constant that has a label. -/
def Op.AvoidsKnown (known : KnownLabels) (op : Op) : Prop :=
  forall target value, op = .jump target -> target.constant? = some value ->
    known.label? (UInt64.ofNat value) = none

/-- The second operation is what becomes of the first one when addresses have
labels. -/
inductive Op.Labelled (known : KnownLabels) : Op -> Op -> Prop where
  | stays {op : Op} : op.Stays -> Labelled known op op
  | jump {target : Expr} : Op.AvoidsKnown known (.jump target) ->
      Labelled known (.jump target) (.jump target)
  | goto {target : Expr} {value : Nat} {label : Label} :
      target.constant? = some value -> value < 0x100000 ->
      known.label? (UInt64.ofNat value) = some label ->
      Labelled known (.jump target) (.goto label)

/-- The second exit is what becomes of the first one when addresses have labels. -/
inductive Exit.Labelled (known : KnownLabels) : Exit -> Exit -> Prop where
  | same {exit : Exit} : (forall label, exit ≠ .label label) ->
      Labelled known exit exit
  | label {value : Nat} {label : Label} : value < 0x100000 ->
      known.label? (UInt64.ofNat value) = some label ->
      Labelled known (.jump value) (.label label)

structure Outcome.Labelled (known : KnownLabels) (first second : Outcome) : Prop where
  exit : first.1.Labelled known second.1
  state : second.2 = first.2

section

variable {known : KnownLabels}

theorem Op.Labelled.avoidsKnown {op other : Op} (h : op.Labelled known other) :
    other.AvoidsKnown known := by
  cases h with
  | jump havoids => exact havoids
  | goto _ _ _ => exact nofun
  | stays hstays =>
      rintro target value rfl
      exact hstays.elim

theorem outcome_labelled {code other : List Op}
    (h : Paired (Op.Labelled known) code other) (state : State) :
    (outcome code state).Labelled known (outcome other state) := by
  induction h generalizing state with
  | nil => exact ⟨.same nofun, rfl⟩
  | @cons op op' rest rest' hop _ ih =>
      cases hop with
      | jump _ => exact ⟨.same nofun, rfl⟩
      | goto hconstant hlow hlabel =>
          refine ⟨?_, rfl⟩
          rw [outcome_jump, Expr.eval_of_constant? state hconstant]
          exact .label hlow hlabel
      | stays hstays =>
          cases op with
          | jump _ | goto _ | branch _ _ _ | label _ => exact hstays.elim
          | setReg _ _ _ | setTemp _ _ _ | setFlag _ _ | store _ _ _ | nop =>
              exact ih _
          | call _ | ret _ | unimplemented => exact ⟨.same nofun, rfl⟩

theorem Outcome.Labelled.andThen {first second : Outcome}
    {next other : State -> Outcome} (h : first.Labelled known second)
    (hnext : forall state, (next state).Labelled known (other state)) :
    (first.andThen next).Labelled known (second.andThen other) := by
  rcases first with ⟨exit, state⟩
  rcases second with ⟨exit', state'⟩
  have hstate : state' = state := h.state
  subst hstate
  cases exit with
  | fallThrough =>
      cases h.exit
      exact hnext state'
  | _ =>
      rw [andThen_of_ne, andThen_of_ne]
      · exact h
      · intro hfalls
        have hexit := h.exit
        dsimp only at hfalls hexit
        rw [hfalls] at hexit
        cases hexit
      · exact nofun

theorem repeatDown_labelled {body other : State -> Outcome}
    (h : forall state, (body state).Labelled known (other state)) (counter count : Nat)
    (state : State) :
    (repeatDown body counter count state).Labelled known
      (repeatDown other counter count state) := by
  induction count generalizing state with
  | zero => exact ⟨.same nofun, rfl⟩
  | succ count ih =>
      apply (h state).andThen
      intro after
      exact ih _

theorem Exit.GoesTo.label_ofNat {next : UInt64} {value : Nat} {label : Label}
    (hlow : value < 0x100000)
    (hlabel : known.label? (UInt64.ofNat value) = some label) :
    Exit.GoesTo known next (.label label) (.at value) := by
  have hgoes : Exit.GoesTo known next (.label label)
      (.at (UInt64.ofNat value).toNat) :=
    .label hlabel
  have hvalue : (UInt64.ofNat value).toNat = value := by
    rw [UInt64.toNat_ofNat']
    omega
  rw [hvalue] at hgoes
  exact hgoes

/-- Both exits lead to the same place. -/
theorem Exit.Labelled.goesTo {exit other : Exit} (h : exit.Labelled known other)
    (next : UInt64) :
    exists control, other.GoesTo known next control ∧ exit.GoesTo [] next control := by
  cases h with
  | @label value _ hlow hlabel =>
      exact ⟨_, .label_ofNat hlow hlabel, .jump value⟩
  | same hlabel =>
      cases exit with
      | label label => exact absurd rfl (hlabel label)
      | fallThrough => exact ⟨_, .fallThrough, .fallThrough⟩
      | jump target => exact ⟨_, .jump target, .jump target⟩
      | call target => exact ⟨_, .call target, .call target⟩
      | ret target => exact ⟨_, .ret target, .ret target⟩
      | unimplemented => exact ⟨_, .unimplemented, .unimplemented⟩

end

end IL

namespace Lift

theorem carriesOver_labels (known : KnownLabels) :
    CarriesOver [] known 0 (Op.Labelled known) where
  stays := by
    intro op hstays
    rw [op.shifted_zero]
    exact .stays hstays
  branches := by
    intro target hfits
    have hnone : branchTo [] target = .jump target := by
      unfold branchTo
      cases target.constant? <;> rfl
    rw [target.shifted_zero, hnone]
    unfold branchTo
    split
    · next label hlabel =>
        rcases Option.bind_eq_some_iff.mp hlabel with ⟨value, hvalue, hfound⟩
        exact .goto hvalue (hfits value hvalue) hfound
    · next hlabel =>
        apply Op.Labelled.jump
        intro _ value heq hvalue
        cases heq
        rw [hvalue] at hlabel
        exact hlabel

/-!
# What an instruction does
-/

section

variable (options : Options) (known : KnownLabels) {inst : Instruction}

theorem exitTo_goesTo (next : UInt64) {target : Nat} (h : target < 0x100000) :
    (exitTo known target).GoesTo known next (.at target) := by
  unfold exitTo
  split
  · next hlabel => exact .label_ofNat h hlabel
  · exact .jump target

theorem exitPast_goesTo (next : UInt64) :
    (exitPast known next).GoesTo known next (.at next.toNat) := by
  unfold exitPast
  split
  · next hlabel => exact .label hlabel
  · exact .fallThrough

/-- With labels and without, the outcomes leave the same state and lead to the same
place. -/
def SamePlace (known : KnownLabels) (next : UInt64) (first second : Outcome) : Prop :=
  second.2 = first.2 ∧ exists control,
    second.1.GoesTo known next control ∧ first.1.GoesTo [] next control

theorem samePlace_of_labelled {first second : Outcome}
    (h : first.Labelled known second) (next : UInt64) :
    SamePlace known next first second :=
  ⟨h.state, h.exit.goesTo next⟩

theorem samePlace_jump (hdecoded : inst.Decoded) {condition : Condition} {offset : Int}
    (hbody : inst.body = .jump condition offset) (state : State) :
    SamePlace known inst.nextAddress (meaning options [] inst state)
      (meaning options known inst state) := by
  have hcondition : inst.condition? = some condition := by
    unfold Instruction.condition?
    rw [hbody]
  have htarget : inst.jumpTarget? =
      some (Instruction.jumpTarget inst.address offset) := by
    unfold Instruction.jumpTarget? Instruction.jumpOffset?
    rw [hbody]
    rfl
  have hlow := jumpTarget_lt inst.address offset
  rw [meaning_jump options [] hdecoded hcondition htarget,
    meaning_jump options known hdecoded hcondition htarget]
  refine ⟨rfl, ?_⟩
  cases condition.holds state.flags with
  | true => exact ⟨_, exitTo_goesTo known _ hlow, exitTo_goesTo [] _ hlow⟩
  | false => exact ⟨_, exitPast_goesTo known _, exitPast_goesTo [] _⟩

theorem labelled_once {zeroCarry : Bool} (hjump : isConditionalJump inst.body = false)
    (supply : IL.Supply) (state : State) :
    Outcome.Labelled known
      (outcome ((Context.of options [] inst).once zeroCarry inst supply).code state)
      (outcome ((Context.of options known inst).once zeroCarry inst supply).code
        state) := by
  have hcarries : CarriesOver (Context.of options [] inst).known known 0
      (Op.Labelled known) := carriesOver_labels known
  have hparallel := Context.parallel_once hcarries zeroCarry hjump
  exact IL.outcome_labelled (hparallel supply supply rfl).code state

theorem samePlace_meaning (hdecoded : inst.Decoded) (state : State) :
    SamePlace known inst.nextAddress (meaning options [] inst state)
      (meaning options known inst state) := by
  by_cases hjump : exists condition offset, inst.body = .jump condition offset
  · rcases hjump with ⟨condition, offset, hbody⟩
    exact samePlace_jump options known hdecoded hbody state
  · have hother : forall condition offset, inst.body ≠ .jump condition offset := by
      intro condition offset hbody
      exact hjump ⟨condition, offset, hbody⟩
    have hconditional := isConditionalJump_of_ne hother
    apply samePlace_of_labelled
    by_cases hcount : exists counter zeroCarry, inst.extension =
        some { repetition := .register counter, zeroCarry := zeroCarry }
    · rcases hcount with ⟨counter, zeroCarry, hextension⟩
      rw [meaning_of_counted options [] hextension,
        meaning_of_counted options known hextension]
      exact IL.repeatDown_labelled (labelled_once options known hconditional _) 0 _ _
    · have huncounted : forall counter zeroCarry, inst.extension ≠
          some { repetition := .register counter, zeroCarry := zeroCarry } := by
        intro counter zeroCarry hextension
        exact hcount ⟨counter, zeroCarry, hextension⟩
      rw [meaning_of_uncounted options [] huncounted hother,
        meaning_of_uncounted options known huncounted hother]
      have hparallel := parallel_emit (carriesOver_labels known) options hconditional
        huncounted
      exact IL.outcome_labelled (hparallel ⟨0, 0⟩ ⟨0, 0⟩ rfl).code state

/-!
# Jumps that remain
-/

/-- The code jumps to no constant that has a label. -/
def AvoidsKnown (known : KnownLabels) (code : List Op) : Prop :=
  forall op, op ∈ code -> op.AvoidsKnown known

instance : Composes (AvoidsKnown known) :=
  .ofEach (Op.AvoidsKnown known)

theorem avoidsKnown_of_labelled {code other : List Op}
    (h : Paired (Op.Labelled known) code other) : AvoidsKnown known other := by
  induction h with
  | nil => exact Composes.nil
  | cons hop _ ih =>
      intro op hmem
      rcases List.mem_cons.mp hmem with rfl | hmem
      · exact hop.avoidsKnown
      · exact ih op hmem

theorem avoidsKnown_jump (context : Context) {condition : Condition} (offset : Int)
    (h : condition.isUnconditional = false) (supply : IL.Supply) :
    AvoidsKnown context.known (context.jump condition offset supply).code := by
  rcases context.jump_emits offset supply h with ⟨ifTrue, ifFalse, last, _, hcode, _⟩
  rw [hcode]
  intro op hmem
  rcases List.mem_cons.mp hmem with rfl | hmem
  · exact nofun
  · rcases List.mem_append.mp hmem with hmem | hmem
    · unfold Context.jumpArm at hmem
      split at hmem
      · next hnone =>
          rcases List.mem_cons.mp hmem with rfl | hmem
          · exact nofun
          · rw [List.mem_singleton.mp hmem]
            intro target value heq hvalue
            cases heq
            rw [constant?_codePointer (jumpTarget_lt _ _)] at hvalue
            cases hvalue
            exact Option.isNone_iff_eq_none.mp hnone
      · cases hmem
    · unfold Context.nextArm at hmem
      split at hmem
      · rw [List.mem_singleton.mp hmem]
        exact nofun
      · cases hmem

theorem avoidsKnown_emit (h : RepeatsStraight inst) :
    EmitsCode (AvoidsKnown known) (emit options known inst) := by
  cases hjump : isConditionalJump inst.body with
  | false =>
      apply emits_repeated
      · intro op hcounts other hmem
        rw [List.mem_singleton.mp hmem]
        rintro target value rfl
        exact hcounts.elim
      · have hcarries : CarriesOver (Context.of options [] inst).known known 0
            (Op.Labelled known) := carriesOver_labels known
        have hparallel := Context.parallel_run hcarries hjump
        refine ⟨fun supply => ?_, fun _ => trivial⟩
        exact avoidsKnown_of_labelled known (hparallel supply supply rfl).code
  | true =>
      rcases jump_of_isConditionalJump h hjump with
        ⟨condition, offset, hbody, hcondition, hextension⟩
      rw [emit_jump options known hbody hextension]
      refine ⟨fun supply => ?_, fun _ => trivial⟩
      exact avoidsKnown_jump (Context.of options known inst) offset hcondition supply

end

/-- Labels for known addresses change nothing but the way in which control goes there.
With labels and without, the code of an instruction ends with the same registers, flags
and memory, and goes on at the same place once a label is read as its address and the
end of the code as the next instruction.  With labels, no constant jump goes to an
address that has one. -/
theorem labels_keep_meaning (options : Options) (start : UInt64) (known : KnownLabels)
    {inst : Instruction} (hdecoded : inst.Decoded) (state : State) :
    (exists exit last exit' last' control,
      RunsTo (into (.withLabels start known) options inst).ops state exit last ∧
      RunsTo (into (.empty start) options inst).ops state exit' last' ∧
      last.SameVisible last' ∧
      (forall other,
        exit.GoesTo known inst.nextAddress other ↔ other = control) ∧
      (forall other, exit'.GoesTo [] inst.nextAddress other ↔ other = control)) ∧
    forall target value,
      Op.jump target ∈ (into (.withLabels start known) options inst).ops ->
      target.constant? = some value -> known.label? (UInt64.ofNat value) = none := by
  constructor
  · rcases samePlace_meaning options known hdecoded state with
      ⟨hstate, control, hlabelled, hplain⟩
    refine ⟨_, _, _, _, control, runsTo_into options start known hdecoded state,
      runsTo_into options start [] hdecoded state, ?_, ?_, ?_⟩
    · rw [hstate]
      exact .refl _
    · intro other
      constructor
      · exact hlabelled.unique
      · rintro rfl
        exact hlabelled
    · intro other
      constructor
      · exact hplain.unique
      · rintro rfl
        exact hplain
  · intro target value hmem hvalue
    have hstraight := repeatsStraight_of_decoded hdecoded
    have havoids := (avoidsKnown_emit options known hstraight).code
    rw [ops_into_withLabels] at hmem
    exact havoids _ _ hmem target value rfl hvalue

/-- A jump back to an address with a label, before a next instruction with one. -/
theorem labels_keep_meaning_jump :
    exists exit last exit' last' control,
      RunsTo (into (.withLabels 0x4404 [0x4400, 0x4406, 0x4400]) .standard jumpBack).ops
          ⟨fun _ => 3, fun _ => false, fun _ => 0, fun _ => 0⟩ exit last ∧
        RunsTo (into (.empty 0x4404) .standard jumpBack).ops
          ⟨fun _ => 3, fun _ => false, fun _ => 0, fun _ => 0⟩ exit' last' ∧
        last.SameVisible last' ∧
        (forall other,
          exit.GoesTo [0x4400, 0x4406, 0x4400] jumpBack.nextAddress other ↔
            other = control) ∧
        (forall other, exit'.GoesTo [] jumpBack.nextAddress other ↔ other = control) := by
  have hdecoded : jumpBack.Decoded := ⟨.msp430x, [0xfd, 0x23], 0x4404, rfl⟩
  exact (labels_keep_meaning .standard 0x4404 [0x4400, 0x4406, 0x4400] hdecoded
    ⟨fun _ => 3, fun _ => false, fun _ => 0, fun _ => 0⟩).1

end Lift
end MSP430
