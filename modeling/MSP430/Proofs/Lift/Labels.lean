import MSP430.Proofs.Lift.KnownLabels

/-!
# Labels of a session

A host lifts instructions into one buffer, each with options of its own.  The labels of
the buffer are those of its known addresses, and new ones, which no two instructions
share.  Where control goes to a label, it is a known one, or it is marked once by the
code that names it.
-/

namespace MSP430

open IL (Buffer Expr KnownLabels Label Op Paired loopEnd)

namespace IL

/-- The labels to which the operation may go. -/
def Op.named : Op -> List Label
  | goto target => [target]
  | branch _ ifTrue ifFalse => [ifTrue, ifFalse]
  | _ => []

theorem Op.Stays.named_eq_nil {op : Op} (h : op.Stays) : op.named = [] := by
  cases op with
  | goto _ | branch _ _ _ => exact h.elim
  | _ => rfl

/-!
# Positions of addresses
-/

namespace KnownLabels

theorem labelFrom?_eq_map (first : Label) (known : KnownLabels) (address : UInt64) :
    known.labelFrom? first address = (known.label? address).map (first + ·) := by
  unfold label?
  induction known generalizing first with
  | nil => rfl
  | cons head rest ih =>
      rw [labelFrom?, labelFrom?, ih (first + 1), ih (0 + 1)]
      cases labelFrom? 0 rest address with
      | some label => simp only [Option.map_some, Nat.zero_add, Nat.add_assoc]
      | none =>
          by_cases hhead : head = address
          · simp [hhead]
          · simp [hhead]

theorem label?_cons (head address : UInt64) (rest : KnownLabels) :
    label? (head :: rest) address =
      match rest.label? address with
      | some label => some (label + 1)
      | none => if head = address then some 0 else none := by
  have htail := labelFrom?_eq_map 1 rest address
  unfold label? at htail ⊢
  rw [labelFrom?, htail]
  cases labelFrom? 0 rest address with
  | some label => exact congrArg some (Nat.add_comm 1 label)
  | none => rfl

theorem label?_eq_none_iff (known : KnownLabels) (address : UInt64) :
    known.label? address = none ↔ address ∉ known := by
  induction known with
  | nil => exact ⟨fun _ => List.not_mem_nil, fun _ => rfl⟩
  | cons head rest ih =>
      rw [label?_cons, List.mem_cons, not_or, ← ih]
      cases label? rest address with
      | some label => simp
      | none => simp [eq_comm]

/-- The label of an address is its last position. -/
theorem label?_eq_some_iff (known : KnownLabels) (address : UInt64) (label : Label) :
    known.label? address = some label ↔
      known[label]? = some address ∧
        forall later, label < later -> known[later]? ≠ some address := by
  induction known generalizing label with
  | nil => exact ⟨nofun, nofun⟩
  | cons head rest ih =>
      rw [label?_cons]
      cases hrest : label? rest address with
      | none =>
          have hnone : forall position : Nat, rest[position]? ≠ some address := by
            intro position hposition
            exact (label?_eq_none_iff rest address).mp hrest
              (List.mem_of_getElem? hposition)
          cases label with
          | zero =>
              constructor
              · intro hlabel
                have hhead := (Option.ite_none_right_eq_some.mp hlabel).1
                refine ⟨congrArg some hhead, ?_⟩
                intro later hlater
                cases later with
                | zero => exact absurd hlater (Nat.lt_irrefl 0)
                | succ later => exact hnone later
              · rintro ⟨hhead, _⟩
                exact if_pos (Option.some.inj hhead)
          | succ label =>
              constructor
              · intro hlabel
                cases (Option.ite_none_right_eq_some.mp hlabel).2
              · rintro ⟨hposition, _⟩
                exact absurd hposition (hnone label)
      | some found =>
          rw [hrest] at ih
          have hfound := (ih found).mp rfl
          cases label with
          | zero =>
              constructor
              · exact nofun
              · rintro ⟨_, hlast⟩
                exact absurd hfound.1 (hlast (found + 1) (Nat.succ_pos found))
          | succ label =>
              have hsucc : (some (found + 1) = some (label + 1)) ↔
                  some found = some label := by
                simp only [Option.some.injEq, Nat.add_right_cancel_iff]
              rw [hsucc, ih label]
              refine and_congr_right fun _ => ⟨?_, ?_⟩
              · intro hlast later hlater
                cases later with
                | zero => exact absurd hlater (Nat.not_lt_zero _)
                | succ later => exact hlast later (Nat.lt_of_succ_lt_succ hlater)
              · intro hlast later hlater
                exact hlast (later + 1) (Nat.succ_lt_succ hlater)

end KnownLabels
end IL

namespace Lift

/-!
# The code of one instruction
-/

/-- The code marks labels from the first one up to the last, each of them once.  The
labels that it names are known or among those. -/
structure LabelsFit (known : KnownLabels) (first last : Label) (code : List Op) :
    Prop where
  first_le_last : first ≤ last
  marked : forall label, .label label ∈ code -> first ≤ label ∧ label < last
  once : forall label, .label label ∈ code -> code.count (.label label) = 1
  named : forall op, op ∈ code -> forall label, label ∈ op.named ->
    (exists address, known.label? address = some label) ∨ .label label ∈ code

namespace LabelsFit

variable {known : KnownLabels} {first middle last : Label}

theorem nil : LabelsFit known first first [] where
  first_le_last := Nat.le_refl first
  marked := nofun
  once := nofun
  named := nofun

/-- Code that marks nothing and goes to known labels. -/
theorem unmarked {code : List Op} (hmarked : forall label, Op.label label ∉ code)
    (hnamed : forall op, op ∈ code -> forall label, label ∈ op.named ->
      exists address, known.label? address = some label) :
    LabelsFit known first first code where
  first_le_last := Nat.le_refl first
  marked := fun label hmem => absurd hmem (hmarked label)
  once := fun label hmem => absurd hmem (hmarked label)
  named := fun op hmem label hlabel => .inl (hnamed op hmem label hlabel)

theorem append {code rest : List Op} (h : LabelsFit known first middle code)
    (hrest : LabelsFit known middle last rest) :
    LabelsFit known first last (code ++ rest) where
  first_le_last := Nat.le_trans h.first_le_last hrest.first_le_last
  marked := by
    intro label hmem
    rcases List.mem_append.mp hmem with hmem | hmem
    · have hlabel := h.marked label hmem
      exact ⟨hlabel.1, Nat.lt_of_lt_of_le hlabel.2 hrest.first_le_last⟩
    · have hlabel := hrest.marked label hmem
      exact ⟨Nat.le_trans h.first_le_last hlabel.1, hlabel.2⟩
  once := by
    have hapart : forall label, .label label ∈ code -> Op.label label ∉ rest := by
      intro label hmem hmem'
      have hbelow := (h.marked label hmem).2
      exact absurd (hrest.marked label hmem').1 (Nat.not_le.mpr hbelow)
    intro label hmem
    rw [List.count_append]
    rcases List.mem_append.mp hmem with hmem | hmem
    · rw [h.once label hmem, List.count_eq_zero_of_not_mem (hapart label hmem)]
    · rw [hrest.once label hmem, List.count_eq_zero_of_not_mem]
      intro hmem'
      exact hapart label hmem' hmem
  named := by
    intro op hmem label hlabel
    rcases List.mem_append.mp hmem with hmem | hmem
    · exact (h.named op hmem label hlabel).imp_right (List.mem_append_left rest)
    · exact (hrest.named op hmem label hlabel).imp_right (List.mem_append_right code)

end LabelsFit

/-- Where control goes to a known label, it stands for an address. -/
theorem named_of_labelled {known : KnownLabels} {code other : List Op}
    (h : Paired (Op.Labelled known) code other) :
    forall op, op ∈ other -> forall label, label ∈ op.named ->
      exists address, known.label? address = some label := by
  induction h with
  | nil => exact nofun
  | cons hop _ ih =>
      intro op hmem label hlabel
      rcases List.mem_cons.mp hmem with rfl | hmem
      · cases hop with
        | jump _ => cases hlabel
        | goto _ _ hknown =>
            cases List.mem_singleton.mp hlabel
            exact ⟨_, hknown⟩
        | stays hstays =>
            revert hlabel
            exact hstays.named_eq_nil ▸ List.not_mem_nil.elim
      · exact ih op hmem label hlabel

/-!
# Jumps
-/

namespace Context

theorem count_jumpArm (target : Option Label) (own label : Label) (address : Nat) :
    (jumpArm target own address).count (.label label) =
      if target = none ∧ own = label then 1 else 0 := by
  cases target with
  | some _ => rfl
  | none => simp [jumpArm, List.count_cons]

theorem count_nextArm (next : Option Label) (own label : Label) :
    (nextArm next own).count (.label label) =
      if next = none ∧ own = label then 1 else 0 := by
  cases next with
  | some _ => rfl
  | none => simp [nextArm, List.count_cons]

/-- The arms of a jump go to no label. -/
theorem named_of_mem_arms {target next : Option Label} {ifTrue ifFalse : Label}
    {address : Nat} {op : Op}
    (h : op ∈ jumpArm target ifTrue address ++ nextArm next ifFalse) :
    op.named = [] := by
  rcases List.mem_append.mp h with h | h
  · cases target with
    | some _ => cases h
    | none =>
        rcases List.mem_cons.mp h with rfl | h
        · rfl
        · rw [List.mem_singleton.mp h]
          rfl
  · cases next with
    | some _ => cases h
    | none =>
        rw [List.mem_singleton.mp h]
        rfl

section Arms

variable {known : KnownLabels} {target next : Option Label}
  {first ifTrue ifFalse last : Label} {condition : Expr} {address : Nat}

/-- How often the code of a jump marks a label. -/
theorem count_arms (label : Label) :
    (.branch condition ifTrue ifFalse ::
        (jumpArm target ifTrue address ++ nextArm next ifFalse)).count (.label label) =
      (if target = none ∧ ifTrue = label then 1 else 0) +
        if next = none ∧ ifFalse = label then 1 else 0 := by
  have hne : Op.branch condition ifTrue ifFalse ≠ .label label := nofun
  rw [List.count_cons_of_ne hne, List.count_append, count_jumpArm, count_nextArm]

theorem labelsFit_arms (hlabels : JumpLabels target next first ifTrue ifFalse last)
    (htarget : forall label, target = some label ->
      exists address, known.label? address = some label)
    (hnext : forall label, next = some label ->
      exists address, known.label? address = some label) :
    LabelsFit known first last (.branch condition ifTrue ifFalse ::
      (jumpArm target ifTrue address ++ nextArm next ifFalse)) := by
  have hmem : forall label, Op.label label ∈ Op.branch condition ifTrue ifFalse ::
      (jumpArm target ifTrue address ++ nextArm next ifFalse) ↔
        (target = none ∧ ifTrue = label) ∨ (next = none ∧ ifFalse = label) := by
    intro label
    rw [← List.count_pos_iff, count_arms]
    by_cases htrue : target = none ∧ ifTrue = label <;>
      by_cases hfalse : next = none ∧ ifFalse = label <;> simp [htrue, hfalse]
  refine ⟨hlabels.first_le_last, ?_, ?_, ?_⟩
  · intro label hmarked
    rcases (hmem label).mp hmarked with ⟨hnone, rfl⟩ | ⟨hnone, rfl⟩
    · exact hlabels.ifTrue_new hnone
    · exact hlabels.ifFalse_new hnone
  · intro label hmarked
    rw [count_arms]
    rcases (hmem label).mp hmarked with ⟨hnone, rfl⟩ | ⟨hnone, rfl⟩
    · have hother : ¬ (next = none ∧ ifFalse = ifTrue) :=
        fun h => hlabels.distinct hnone h.1 h.2.symm
      rw [if_pos ⟨hnone, rfl⟩, if_neg hother]
    · have hother : ¬ (target = none ∧ ifTrue = ifFalse) :=
        fun h => hlabels.distinct h.1 hnone h.2
      rw [if_neg hother, if_pos ⟨hnone, rfl⟩]
  · intro op hop label hlabel
    rcases List.mem_cons.mp hop with rfl | hop
    · rcases List.mem_cons.mp hlabel with rfl | hlabel
      · rcases Option.eq_none_or_eq_some target with hnone | ⟨found, hfound⟩
        · exact .inr ((hmem label).mpr (.inl ⟨hnone, rfl⟩))
        · rw [hlabels.ifTrue_eq found hfound]
          exact .inl (htarget found hfound)
      · cases List.mem_singleton.mp hlabel
        rcases Option.eq_none_or_eq_some next with hnone | ⟨found, hfound⟩
        · exact .inr ((hmem ifFalse).mpr (.inr ⟨hnone, rfl⟩))
        · rw [hlabels.ifFalse_eq found hfound]
          exact .inl (hnext found hfound)
    · rw [named_of_mem_arms hop] at hlabel
      cases hlabel

end Arms

theorem labelsFit_jump (context : Context) {condition : Condition} (offset : Int)
    (first : Label) (h : condition.isUnconditional = false) :
    LabelsFit context.known first
      (context.jump condition offset { temp := 0, label := first }).supply.label
      (context.jump condition offset { temp := 0, label := first }).code := by
  rcases context.jump_emits offset { temp := 0, label := first } h with
    ⟨ifTrue, ifFalse, last, hlabels, hcode, hlast⟩
  rw [hcode, hlast]
  exact labelsFit_arms hlabels (fun label hlabel => ⟨_, hlabel⟩)
    fun label hlabel => ⟨_, hlabel⟩

end Context

/-!
# Loops and straight code
-/

section

variable {known : KnownLabels} {first : Label} {body : List Op}
  (hmarked : forall label, Op.label label ∉ body)

include hmarked

theorem count_loop (counter : Nat) (value : Expr) (start done label : Label) :
    (.setTemp .word counter value :: .label start ::
        (body ++ loopEnd counter start done)).count (.label label) =
      (if start = label then 1 else 0) + if done = label then 1 else 0 := by
  have hbody := List.count_eq_zero_of_not_mem (hmarked label)
  simp [loopEnd, List.count_cons, hbody, Nat.add_comm]

theorem labelsFit_loop (counter : Nat) (value : Expr)
    (hnamed : forall op, op ∈ body -> forall label, label ∈ op.named ->
      exists address, known.label? address = some label) :
    LabelsFit known first (first + 2) (.setTemp .word counter value ::
      .label first :: (body ++ loopEnd counter first (first + 1))) := by
  have hmem : forall label, Op.label label ∈ Op.setTemp .word counter value ::
      .label first :: (body ++ loopEnd counter first (first + 1)) ↔
        label = first ∨ label = first + 1 := by
    intro label
    simp [loopEnd, hmarked label]
  refine ⟨Nat.le_add_right first 2, ?_, ?_, ?_⟩
  · intro label hlabel
    rcases (hmem label).mp hlabel with rfl | rfl
    · exact ⟨Nat.le_refl label, Nat.lt_add_of_pos_right (by decide)⟩
    · exact ⟨Nat.le_succ first, Nat.lt_succ_self (first + 1)⟩
  · intro label hlabel
    rw [count_loop hmarked]
    rcases (hmem label).mp hlabel with rfl | rfl <;> simp
  · intro op hop label hlabel
    rcases List.mem_cons.mp hop with rfl | hop
    · cases hlabel
    · rcases List.mem_cons.mp hop with rfl | hop
      · cases hlabel
      · rcases List.mem_append.mp hop with hop | hop
        · exact .inl (hnamed op hop label hlabel)
        · right
          rw [hmem]
          simp only [loopEnd, List.mem_cons, List.not_mem_nil, or_false] at hop
          rcases hop with rfl | rfl | rfl
          · cases hlabel
          · simpa [Op.named] using hlabel
          · cases hlabel

end

section

variable (options : Options) (known : KnownLabels) {inst : Instruction}

theorem labelsFit_counted {counter : Register} {zeroCarry : Bool}
    (hextension : inst.extension =
      some { repetition := .register counter, zeroCarry := zeroCarry })
    (hjump : isConditionalJump inst.body = false) (first : Label) :
    LabelsFit known first
      (emit options known inst { temp := 0, label := first }).supply.label
      (emit options known inst { temp := 0, label := first }).code := by
  have hstraight := (Context.of options known inst).straight_counted zeroCarry hjump
  rcases hstraight.labels (first + 2) with ⟨hsame, hnone⟩
  have hcarries : CarriesOver (Context.of options [] inst).known known 0
      (Op.Labelled known) := carriesOver_labels known
  have hparallel := Context.parallel_once hcarries zeroCarry hjump
  have hnamed := named_of_labelled
    (hparallel ⟨1, first + 2⟩ ⟨1, first + 2⟩ rfl).code
  rw [emit_loop options known hextension first]
  simp only [List.length_singleton] at hsame hnone
  dsimp only
  rw [hsame]
  exact labelsFit_loop hnone 0 _ hnamed

theorem labelsFit_uncounted
    (hcount : forall counter zeroCarry, inst.extension ≠
      some { repetition := .register counter, zeroCarry := zeroCarry })
    (hjump : isConditionalJump inst.body = false) (first : Label) :
    LabelsFit known first
      (emit options known inst { temp := 0, label := first }).supply.label
      (emit options known inst { temp := 0, label := first }).code := by
  rcases (straight_emit options known hjump hcount).labels first with ⟨hsame, hnone⟩
  have hparallel := parallel_emit (carriesOver_labels known) options hjump hcount
  simp only [List.length_nil] at hsame hnone
  rw [hsame]
  have hnamed := named_of_labelled (hparallel ⟨0, first⟩ ⟨0, first⟩ rfl).code
  exact .unmarked hnone hnamed

/-- An instruction takes new labels where it needs them, and marks each of them. -/
theorem labelsFit_emit (h : RepeatsStraight inst) (first : Label) :
    LabelsFit known first
      (emit options known inst { temp := 0, label := first }).supply.label
      (emit options known inst { temp := 0, label := first }).code := by
  cases h.runsAs with
  | @jump condition offset hbody hcondition hextension =>
      rw [emit_jump options known hbody hextension]
      exact (Context.of options known inst).labelsFit_jump offset first hcondition
  | counted hextension hjump =>
      exact labelsFit_counted options known hextension hjump first
  | straight hcount hjump => exact labelsFit_uncounted options known hcount hjump first

end

/-!
# Sessions
-/

/-- The buffer after instructions have been lifted into it one after the other, each
with options of its own. -/
def session (buffer : Buffer) (calls : List (Options × Instruction)) : Buffer :=
  calls.foldl (fun buffer call => into buffer call.1 call.2) buffer

/-- What each call of a session appends. -/
def pieces (buffer : Buffer) : List (Options × Instruction) -> List (List Op)
  | [] => []
  | (options, inst) :: rest =>
      appended buffer options inst :: pieces (into buffer options inst) rest

theorem ops_session (buffer : Buffer) (calls : List (Options × Instruction)) :
    (session buffer calls).ops = buffer.ops ++ (pieces buffer calls).flatten := by
  induction calls generalizing buffer with
  | nil => exact (List.append_nil _).symm
  | cons call rest ih =>
      show (session (into buffer call.1 call.2) rest).ops = _
      rw [ih, ops_into, List.append_assoc]
      rfl

theorem known_session (buffer : Buffer) (calls : List (Options × Instruction)) :
    (session buffer calls).known = buffer.known := by
  induction calls generalizing buffer with
  | nil => rfl
  | cons call rest ih => exact ih (into buffer call.1 call.2)

section

variable (buffer : Buffer) {calls : List (Options × Instruction)}

/-- One call takes its labels from those that the buffer has left. -/
theorem labelsFit_appended (options : Options) {inst : Instruction}
    (hdecoded : inst.Decoded) :
    LabelsFit buffer.known buffer.supply.label (into buffer options inst).supply.label
      (appended buffer options inst) :=
  labelsFit_emit options buffer.known (repeatsStraight_of_decoded hdecoded) _

theorem labelsFit_session (hdecoded : forall call, call ∈ calls -> call.2.Decoded) :
    LabelsFit buffer.known buffer.supply.label (session buffer calls).supply.label
      (pieces buffer calls).flatten := by
  induction calls generalizing buffer with
  | nil => exact .nil
  | cons call rest ih =>
      rcases List.forall_mem_cons.mp hdecoded with ⟨hcall, hrest⟩
      have hafter := ih (into buffer call.1 call.2) hrest
      exact (labelsFit_appended buffer call.1 hcall).append hafter

theorem labelsFit_piece (hdecoded : forall call, call ∈ calls -> call.2.Decoded)
    {piece : List Op} (hpiece : piece ∈ pieces buffer calls) :
    exists first last, LabelsFit buffer.known first last piece := by
  induction calls generalizing buffer with
  | nil => cases hpiece
  | cons call rest ih =>
      rcases List.forall_mem_cons.mp hdecoded with ⟨hcall, hrest⟩
      rcases List.mem_cons.mp hpiece with rfl | hpiece
      · exact ⟨_, _, labelsFit_appended buffer call.1 hcall⟩
      · exact ih (into buffer call.1 call.2) hrest hpiece

end

/-- Throughout a session, the label of an address is its last position among the known
ones.  The labels that are marked are new, and each is marked once.  A label to which
control goes is that of an address, or is marked once by the same call. -/
theorem session_labels (start : UInt64) (known : KnownLabels)
    {calls : List (Options × Instruction)}
    (hdecoded : forall call, call ∈ calls -> call.2.Decoded) :
    let buffer := session (.withLabels start known) calls
    let appendedBy := pieces (.withLabels start known) calls
    (forall address, buffer.label? address = none ↔ address ∉ known) ∧
      (forall address label, buffer.label? address = some label ↔
        known[label]? = some address ∧
          forall later, label < later -> known[later]? ≠ some address) ∧
      (forall label, .label label ∈ buffer.ops ->
        known.length ≤ label ∧ buffer.ops.count (.label label) = 1) ∧
      buffer.ops = appendedBy.flatten ∧
      forall piece, piece ∈ appendedBy -> forall op, op ∈ piece ->
        forall label, label ∈ op.named ->
          (exists address, address ∈ known ∧ buffer.label? address = some label) ∨
            piece.count (.label label) = 1 := by
  have hknown : (session (.withLabels start known) calls).known = known :=
    known_session _ _
  have hops : (session (.withLabels start known) calls).ops =
      (pieces (.withLabels start known) calls).flatten :=
    ops_session _ _
  have hfit := labelsFit_session (.withLabels start known) hdecoded
  intro buffer appendedBy
  have hlabel : forall address, buffer.label? address = known.label? address := by
    intro address
    exact congrArg (fun known => known.label? address) hknown
  refine ⟨?_, ?_, ?_, hops, ?_⟩
  · intro address
    rw [hlabel]
    exact known.label?_eq_none_iff address
  · intro address label
    rw [hlabel]
    exact known.label?_eq_some_iff address label
  · intro label hmem
    rw [show buffer.ops = _ from hops] at hmem ⊢
    exact ⟨(hfit.marked label hmem).1, hfit.once label hmem⟩
  · intro piece hpiece op hop label hnamed
    rcases labelsFit_piece _ hdecoded hpiece with ⟨first, last, hpieceFit⟩
    rcases hpieceFit.named op hop label hnamed with ⟨address, haddress⟩ | hmarked
    · have hposition := ((known.label?_eq_some_iff address label).mp haddress).1
      exact .inl ⟨address, List.mem_of_getElem? hposition,
        (hlabel address).trans haddress⟩
    · exact .inr (hpieceFit.once label hmarked)

/-- A loop and a jump back to it.  The jump lies at an address without a label, and the
start of the loop is marked once. -/
theorem session_labels_loop_jump :
    (session (.withLabels 0x4400 [0x4400, 0x4406, 0x4400])
        [(.standard, repeatedAdd), (.standard, jumpBack)]).label? 0x4404 = none ∧
      (session (.withLabels 0x4400 [0x4400, 0x4406, 0x4400])
        [(.standard, repeatedAdd), (.standard, jumpBack)]).ops.count (.label 3) = 1 := by
  have hdecoded : forall call,
      call ∈ [(Options.standard, repeatedAdd), (.standard, jumpBack)] ->
        call.2.Decoded := by
    intro call hmem
    rcases List.mem_cons.mp hmem with rfl | hmem
    · exact ⟨.msp430x, [0xc5, 0x18, 0x04, 0x56], 0x4400, rfl⟩
    · rw [List.mem_singleton.mp hmem]
      exact ⟨.msp430x, [0xfd, 0x23], 0x4404, rfl⟩
  rcases session_labels 0x4400 [0x4400, 0x4406, 0x4400] hdecoded with
    ⟨hunknown, _, hmarked, _, _⟩
  have hstart : Op.label 3 ∈
      (session (.withLabels 0x4400 [0x4400, 0x4406, 0x4400])
        [(.standard, repeatedAdd), (.standard, jumpBack)]).ops :=
    List.mem_cons_of_mem _ List.mem_cons_self
  exact ⟨(hunknown 0x4404).mpr (by decide), (hmarked 3 hstart).2⟩

end Lift
end MSP430
