import MSP430.Proofs.Decode.Decoded
import MSP430.Proofs.Lift.Meaning

/-!
# Instructions in a row

Instructions that are lifted into one buffer, in order, do together what they do
one after the other.  Temporary numbers start again with each instruction, so
none may read what an earlier one left there; label numbers do not, so no
instruction finds the labels of another one.
-/

namespace MSP430
namespace Lift

open IL (Buffer Exit KnownLabels Label Op Outcome Realises Runs RunsTo State)

/-- Decoding never puts a prefix word before a jump. -/
theorem repeatsStraight_of_decoded {inst : Instruction} (h : inst.Decoded) :
    RepeatsStraight inst := by
  intro hextension
  exact isConditionalJump_of_ne (h.body_ne_jump hextension)

def intoAll (buffer : Buffer) (options : Options) (insts : List Instruction) :
    Buffer :=
  insts.foldl (fun buffer inst => into buffer options inst) buffer

/-- The instructions run one after the other until one of them leaves, each as
the code of a buffer of its own.  What is in the temporaries when an instruction
begins is left open. -/
inductive RunsEach (options : Options) :
    List Instruction -> State -> Exit -> State -> Prop where
  | done (state : State) : RunsEach options [] state .fallThrough state
  | next {inst : Instruction} {rest : List Instruction}
      {state start middle last : State} {exit : Exit} :
      start.SameVisible state ->
      RunsTo (code options inst) start .fallThrough middle ->
      RunsEach options rest middle exit last ->
      RunsEach options (inst :: rest) state exit last
  | leave {inst : Instruction} {rest : List Instruction}
      {state start last : State} {exit : Exit} :
      start.SameVisible state ->
      RunsTo (code options inst) start exit last ->
      exit ≠ .fallThrough ->
      RunsEach options (inst :: rest) state exit last

def meaningAll (options : Options) (known : KnownLabels) :
    List Instruction -> State -> Outcome
  | [], state => (.fallThrough, state)
  | inst :: rest, state =>
      (meaning options known inst state).andThen (meaningAll options known rest)

/-!
# In one buffer
-/

/-- The code that is appended for instructions in a row realises what they do,
and marks only labels that the buffer had not given away. -/
theorem exists_code_intoAll (options : Options) {insts : List Instruction}
    (h : forall inst, inst ∈ insts -> RepeatsStraight inst) (buffer : Buffer) :
    exists code,
      (intoAll buffer options insts).ops = buffer.ops ++ code ∧
        Realises buffer.known.length code
          (meaningAll options buffer.known insts) ∧
        forall label : Nat, Op.label label ∈ code -> buffer.supply.label ≤ label := by
  induction insts generalizing buffer with
  | nil =>
      refine ⟨[], (List.append_nil _).symm, .nil, ?_⟩
      intro label hmem
      cases hmem
  | cons inst rest ih =>
      rcases List.forall_mem_cons.mp h with ⟨hinst, hrest⟩
      rcases ih hrest (into buffer options inst) with
        ⟨tail, hops, hrealises, hlabels⟩
      have hshape := emitShape options buffer.known hinst
      rcases hshape.labels options buffer.known buffer.supply.label with
        ⟨hfirst, hown⟩
      refine ⟨appended buffer options inst ++ tail, ?_, ?_, ?_⟩
      · show (intoAll (into buffer options inst) options rest).ops = _
        rw [hops, ops_into, List.append_assoc]
      · apply (realises_emit options buffer.known hinst _).append hrealises
        intro label hmem hmem'
        have hlow := hlabels label hmem
        have hhigh := (hown label hmem').2
        exact absurd hhigh (Nat.not_lt.mpr hlow)
      · intro label hmem
        rcases List.mem_append.mp hmem with hmem | hmem
        · exact (hown label hmem).1
        · exact Nat.le_trans hfirst (hlabels label hmem)

theorem runsTo_intoAll (options : Options) (start : UInt64) (known : KnownLabels)
    {insts : List Instruction}
    (hdecoded : forall inst, inst ∈ insts -> inst.Decoded) (state : State) :
    RunsTo (intoAll (.withLabels start known) options insts).ops state
      (meaningAll options known insts state).1
      (meaningAll options known insts state).2 := by
  have h : forall inst, inst ∈ insts -> RepeatsStraight inst := by
    intro inst hmem
    exact repeatsStraight_of_decoded (hdecoded inst hmem)
  rcases exists_code_intoAll options h (.withLabels start known) with
    ⟨code, hops, hrealises, hlabels⟩
  rw [hops]
  apply hrealises.runsTo
  intro label hlabel hmem
  exact absurd hlabel (Nat.not_lt.mpr (hlabels label hmem))

/-!
# One after the other
-/

theorem runsTo_code (options : Options) {inst : Instruction}
    (h : RepeatsStraight inst) (state : State) :
    RunsTo (code options inst) state (meaning options [] inst state).1
      (meaning options [] inst state).2 := by
  have hrealises := realises_emit options [] h 0
  apply hrealises.runsTo
  intro label hlabel
  exact absurd hlabel (Nat.not_lt_zero label)

theorem runsEach_meaningAll (options : Options) {insts : List Instruction}
    (h : forall inst, inst ∈ insts -> RepeatsStraight inst) (state : State) :
    exists last,
      RunsEach options insts state (meaningAll options [] insts state).1 last := by
  induction insts generalizing state with
  | nil => exact ⟨state, .done state⟩
  | cons inst rest ih =>
      rcases List.forall_mem_cons.mp h with ⟨hinst, hrest⟩
      have hrun := runsTo_code options hinst state
      unfold meaningAll
      rcases hresult : meaning options [] inst state with ⟨exit, middle⟩
      rw [hresult] at hrun
      by_cases hfalls : exit = .fallThrough
      · subst hfalls
        rcases ih hrest middle with ⟨last, hlast⟩
        exact ⟨last, .next (.refl state) hrun hlast⟩
      · refine ⟨middle, ?_⟩
        rw [Outcome.andThen_of_ne _ hfalls]
        exact .leave (.refl state) hrun hfalls

/-- Running instructions one after the other leads to what they do in a row, up
to temporaries. -/
theorem RunsEach.agree {options : Options} {insts : List Instruction}
    {state last : State} {exit : Exit}
    (hruns : RunsEach options insts state exit last)
    (h : forall inst, inst ∈ insts -> RepeatsStraight inst) {other : State}
    (hstate : state.SameVisible other) :
    Outcome.AgreeBelow 0 (exit, last) (meaningAll options [] insts other) := by
  induction hruns generalizing other with
  | done state => exact ⟨rfl, hstate.agreeBelow⟩
  | @next inst rest state start middle last exit hstart hrun _ ih =>
      rcases List.forall_mem_cons.mp h with ⟨hinst, hrest⟩
      rcases hrun.deterministic (runsTo_code options hinst start) with
        ⟨hexit, hmiddle⟩
      have hagree := meaning_agree options [] hinst (hstart.trans hstate)
      unfold meaningAll
      rcases hresult : meaning options [] inst other with ⟨exit', middle'⟩
      rw [hresult, ← Prod.eta (meaning options [] inst start), ← hexit,
        ← hmiddle] at hagree
      have hfalls : exit' = .fallThrough := hagree.exit.symm
      subst hfalls
      exact ih hrest hagree.state.toSameVisible
  | @leave inst rest state start last exit hstart hrun hleaves =>
      have hinst := h inst List.mem_cons_self
      rcases hrun.deterministic (runsTo_code options hinst start) with
        ⟨hexit, hlast⟩
      have hagree := meaning_agree options [] hinst (hstart.trans hstate)
      rw [← Prod.eta (meaning options [] inst start), ← hexit, ← hlast] at hagree
      unfold meaningAll
      rw [Outcome.andThen_of_ne]
      · exact hagree
      · rw [← hagree.exit]
        exact hleaves

/-- A new buffer holds the code of its first instruction and nothing else. -/
theorem ops_into_withLabels (options : Options) (start : UInt64)
    (known : KnownLabels) (inst : Instruction) :
    (into (.withLabels start known) options inst).ops =
      (emit options known inst { temp := 0, label := known.length }).code :=
  rfl

/-- The code that is appended to a buffer does what the instruction means, as long as
the buffer keeps the labels of known addresses for them. -/
theorem runsTo_appended_decoded (options : Options) (buffer : Buffer)
    (hlabels : buffer.known.length ≤ buffer.supply.label) {inst : Instruction}
    (hdecoded : inst.Decoded) (state : State) :
    RunsTo (appended buffer options inst) state
      (meaning options buffer.known inst state).1
      (meaning options buffer.known inst state).2 := by
  have hstraight := repeatsStraight_of_decoded hdecoded
  have hshape := emitShape options buffer.known hstraight
  apply (realises_emit options buffer.known hstraight _).runsTo
  intro label hlabel hmem
  have hown := (hshape.labels options buffer.known buffer.supply.label).2 label hmem
  exact absurd hlabel (Nat.not_lt.mpr (Nat.le_trans hlabels hown.1))

/-- An instruction alone in a new buffer does what it means. -/
theorem runsTo_into (options : Options) (start : UInt64) (known : KnownLabels)
    {inst : Instruction} (hdecoded : inst.Decoded) (state : State) :
    RunsTo (into (.withLabels start known) options inst).ops state
      (meaning options known inst state).1
      (meaning options known inst state).2 :=
  runsTo_appended_decoded options (.withLabels start known) (Nat.le_refl _) hdecoded
    state

/-!
# Both ways agree
-/

/-- The code of decoded instructions in one new buffer runs to an end.  It ends
as the instructions do when they run one after the other, each from a buffer of
its own, and with the same registers, flags and memory. -/
theorem intoAll_runs_each (options : Options) {insts : List Instruction}
    (hdecoded : forall inst, inst ∈ insts -> inst.Decoded) (start : UInt64)
    (state : State) :
    exists exit last,
      RunsTo (intoAll (.empty start) options insts).ops state exit last ∧
        (exists other, RunsEach options insts state exit other) ∧
        forall exit' other, RunsEach options insts state exit' other ->
          exit' = exit ∧ other.SameVisible last := by
  have h : forall inst, inst ∈ insts -> RepeatsStraight inst := by
    intro inst hmem
    exact repeatsStraight_of_decoded (hdecoded inst hmem)
  refine ⟨_, _, runsTo_intoAll options start [] hdecoded state,
    runsEach_meaningAll options h state, ?_⟩
  intro exit other hruns
  have hagree := hruns.agree h (.refl state)
  exact ⟨hagree.exit, hagree.state.toSameVisible⟩

/-- An addition that is repeated as often as `r5` says, in a loop. -/
def repeatedAdd : Instruction where
  address := 0x4400
  width := .word
  extension := some { repetition := .register .r5, zeroCarry := false }
  body := .double .add (.register .r6) (.register .r4)
  length := 4

def jumpBack : Instruction where
  address := 0x4404
  width := .word
  extension := none
  body := .jump .notZero (-3)
  length := 2

/-- A loop and a conditional jump, both with labels of their own. -/
theorem intoAll_runs_each_loop_jump :
    exists exit last,
      RunsTo (intoAll (.empty 0x4400) .standard [repeatedAdd, jumpBack]).ops
          ⟨fun _ => 3, fun _ => false, fun _ => 0, fun _ => 0⟩ exit last ∧
        exists other,
          RunsEach .standard [repeatedAdd, jumpBack]
            ⟨fun _ => 3, fun _ => false, fun _ => 0, fun _ => 0⟩ exit other ∧
            other.SameVisible last := by
  have hdecoded : forall inst, inst ∈ [repeatedAdd, jumpBack] -> inst.Decoded := by
    intro inst hmem
    rcases List.mem_cons.mp hmem with rfl | hmem
    · exact ⟨.msp430x, [0xc5, 0x18, 0x04, 0x56], 0x4400, rfl⟩
    · rw [List.mem_singleton.mp hmem]
      exact ⟨.msp430x, [0xfd, 0x23], 0x4404, rfl⟩
  rcases intoAll_runs_each .standard hdecoded 0x4400
      ⟨fun _ => 3, fun _ => false, fun _ => 0, fun _ => 0⟩ with
    ⟨exit, last, hrun, ⟨other, heach⟩, hsame⟩
  exact ⟨exit, last, hrun, other, heach, (hsame exit other heach).2⟩

end Lift
end MSP430
