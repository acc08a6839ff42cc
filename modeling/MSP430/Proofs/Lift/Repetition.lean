import MSP430.Proofs.Lift.Once
import MSP430.Proofs.Lift.Parallel
import MSP430.Proofs.Lift.Sequence

/-!
# Two ways to repeat

A fixed repetition is unrolled and a repetition counted by a register becomes a loop,
but both run the same instruction again and again.  The runs of an unrolled
instruction number their temporaries on, while those of a loop use the same ones each
time; neither can be told from the outside.
-/

namespace MSP430

open IL (Emit KnownLabels Op Outcome RunsTo State Supply outcome repeatDown)

namespace IL

/-- What the emitted code does depends neither on the supply nor on what is in the
temporaries before. -/
def Emit.Uniform (emit : Emit Unit) : Prop :=
  forall supply supply' (first second : State), first.SameVisible second ->
    Outcome.AgreeBelow 0 (outcome (emit supply).code first)
      (outcome (emit supply').code second)

/-- A loop does what its body does when it is emitted once for each round. -/
theorem Emit.Uniform.repeatDown_agree {emit : Emit Unit} (h : emit.Uniform)
    (counter : Nat) (supply loopSupply : Supply) (count : Nat)
    {first second : State} (hstate : first.SameVisible second) :
    Outcome.AgreeBelow 0 (outcome (Emit.replicate count emit supply).code first)
      (repeatDown (outcome (emit loopSupply).code) counter count second) := by
  induction count generalizing supply first second with
  | zero => exact ⟨rfl, hstate.agreeBelow⟩
  | succ count ih =>
      have hcode : (Emit.replicate (count + 1) emit supply).code =
          (emit supply).code ++
            (Emit.replicate count emit (emit supply).supply).code :=
        rfl
      rw [hcode, outcome_append]
      apply (h supply loopSupply first second hstate).andThen
      intro after after' hafter
      apply ih
      exact hafter.toSameVisible.trans ⟨rfl, rfl, rfl⟩

end IL

/-- How often an instruction runs from a state. -/
def Instruction.runs (inst : Instruction) (state : State) : Nat :=
  match inst.extension with
  | some { repetition := .times count, .. } => count
  | some { repetition := .register counter, .. } => Lift.Context.runs counter state
  | none => 1

theorem Instruction.RunsOnce.runs_eq {inst : Instruction} (h : inst.RunsOnce)
    (state : State) : inst.runs state = 1 := by
  unfold Instruction.runs
  rcases h with hnone | honce
  · rw [hnone]
  · rw [honce]
    rfl

namespace Lift

/-- Transfers go to the same labels whatever the temporaries are called. -/
theorem carriesOver_shifted (known : KnownLabels) (count : Nat) :
    CarriesOver known known count fun op other => other = op.shifted count where
  stays _ := rfl
  branches := by
    intro target _
    unfold branchTo
    rw [target.constant?_shifted]
    split <;> rfl

namespace Context

variable (context : Context) (zeroCarry : Bool) {inst : Instruction}
  (hjump : isConditionalJump inst.body = false)

include hjump

/-- From another supply a run emits the same code with other numbers. -/
theorem code_once_shifted (supply : Supply) :
    (context.once zeroCarry inst supply).code =
      (context.once zeroCarry inst ⟨0, 0⟩).code.map (Op.shifted supply.temp) := by
  have hparallel :=
    parallel_once (carriesOver_shifted context.known supply.temp) zeroCarry hjump
  have hcode := (hparallel ⟨0, 0⟩ supply (Nat.zero_add _).symm).code
  exact hcode.eq_map

theorem once_agree_first (supply : Supply) {state first : State}
    (hstate : state.SameVisible first) :
    Outcome.AgreeBelow 0 (outcome (context.once zeroCarry inst supply).code state)
      (outcome (context.once zeroCarry inst ⟨0, 0⟩).code first) := by
  have hstraight : context.EmitsStraight [] (context.once zeroCarry inst) :=
    context.straight_once zeroCarry hjump
  rcases hstraight.wellScoped 0 with ⟨last, hscoped⟩
  rw [context.code_once_shifted zeroCarry hjump supply]
  exact hscoped.shifted_agree supply.temp hstate

theorem uniform_once : (context.once zeroCarry inst).Uniform := by
  intro supply supply' first second hstate
  have hfirst := context.once_agree_first zeroCarry hjump supply hstate
  have hsecond := context.once_agree_first zeroCarry hjump supply' (.refl second)
  refine ⟨hfirst.exit.trans hsecond.exit.symm, State.SameVisible.agreeBelow ?_⟩
  exact hfirst.state.toSameVisible.trans hsecond.state.toSameVisible.symm

end Context

/-!
# Whole instructions
-/

section

variable (options : Options) (known : KnownLabels) {inst : Instruction}
  {zeroCarry : Bool}

theorem emit_of_times {count : Nat}
    (h : inst.extension =
      some { repetition := .times count, zeroCarry := zeroCarry }) :
    emit options known inst =
      Emit.replicate count ((Context.of options known inst).once zeroCarry inst) := by
  unfold emit
  rw [h]
  rfl

end

/-- The code behind a prefix word does what one run does, as often as it runs. -/
theorem replicate_agrees_meaning (options : Options) (known : KnownLabels)
    {inst : Instruction} (hdecoded : inst.Decoded) {extension : Extension}
    (hextension : inst.extension = some extension) (state : State) :
    Outcome.AgreeBelow 0
      (outcome (Emit.replicate (inst.runs state)
        ((Context.of options known inst).once extension.zeroCarry inst) ⟨0, 0⟩).code
        state)
      (meaning options known inst state) := by
  have hextended : inst.extension.isSome = true := Option.isSome_of_eq_some hextension
  have huniform := (Context.of options known inst).uniform_once extension.zeroCarry
    (repeatsStraight_of_decoded hdecoded hextended)
  rcases extension with ⟨repetition, zeroCarry⟩
  unfold Instruction.runs
  rw [hextension]
  cases repetition with
  | times count =>
      have huncounted : forall r carry, inst.extension ≠
          some { repetition := .register r, zeroCarry := carry } := by
        rw [hextension]
        exact nofun
      rw [meaning_of_uncounted options known huncounted
        (hdecoded.body_ne_jump hextended), emit_of_times options known hextension]
      exact ⟨rfl, .refl 0 _⟩
  | register counter =>
      rw [meaning_of_counted options known hextension]
      have hvisible : state.SameVisible
          (state.setTemp 0 (Context.runs counter state)) := ⟨rfl, rfl, rfl⟩
      exact huniform.repeatDown_agree 0 ⟨0, 0⟩ ⟨1, 0⟩ _ hvisible

/-- A repetition is the loop or the unrolled code of one and the same run.  Behind a
prefix word with a fixed count an instruction does what it does behind one that counts
by a register, from every state in which the register says the same: both end, in the
same way and with the same registers, flags and memory. -/
theorem loop_agrees_unrolled (options : Options) (start : UInt64)
    (known : KnownLabels) {fixed counted : Instruction} (hfixed : fixed.Decoded)
    (hcounted : counted.Decoded) {count : Nat} {counter : Register} {zeroCarry : Bool}
    (hcount : fixed.extension =
      some { repetition := .times count, zeroCarry := zeroCarry })
    (hsame : counted =
      { fixed with
        extension :=
          some { repetition := .register counter, zeroCarry := zeroCarry } })
    {state : State} (hstate : state.regs counter % 16 + 1 = count) :
    exists exit last other,
      RunsTo (into (.withLabels start known) options fixed).ops state exit last ∧
        RunsTo (into (.withLabels start known) options counted).ops state exit other ∧
        last.SameVisible other := by
  have hextended : fixed.extension.isSome = true := by
    rw [hcount]
    rfl
  have hstraight := repeatsStraight_of_decoded hfixed hextended
  have huncounted : forall r carry, fixed.extension ≠
      some { repetition := .register r, zeroCarry := carry } := by
    rw [hcount]
    exact nofun
  have hjump := hfixed.body_ne_jump hextended
  have honce : (Context.of options known counted).once zeroCarry counted =
      (Context.of options known fixed).once zeroCarry fixed := by
    rcases fixed with ⟨address, width, extension, body, length⟩
    cases hcount
    cases hsame
    rfl
  have hfirst := runsTo_into options start known hfixed state
  have hsecond := runsTo_into options start known hcounted state
  rw [meaning_of_uncounted options known huncounted hjump,
    emit_of_times options known hcount] at hfirst
  rw [meaning_of_counted options known (congrArg Instruction.extension hsame)]
    at hsecond
  unfold Context.loopMeaning at hsecond
  rw [honce] at hsecond
  have hruns : Context.runs counter state = count := hstate
  rw [hruns] at hsecond
  have huniform := (Context.of options known fixed).uniform_once zeroCarry hstraight
  have hvisible : state.SameVisible (state.setTemp 0 count) := ⟨rfl, rfl, rfl⟩
  have hagree := huniform.repeatDown_agree 0 ⟨0, 0⟩ ⟨1, 0⟩ count hvisible
  rw [← hagree.exit] at hsecond
  exact ⟨_, _, _, hfirst, hsecond, hagree.state.toSameVisible⟩

/-- The addition that is repeated four times. -/
def unrolledAdd : Instruction :=
  { repeatedAdd with
    extension := some { repetition := .times 4, zeroCarry := false } }

theorem loop_agrees_unrolled_add :
    exists exit last other,
      RunsTo (into (.withLabels 0x4400 [0x4400]) .standard unrolledAdd).ops
          ⟨fun _ => 3, fun _ => false, fun _ => 0, fun _ => 0⟩ exit last ∧
        RunsTo (into (.withLabels 0x4400 [0x4400]) .standard repeatedAdd).ops
          ⟨fun _ => 3, fun _ => false, fun _ => 0, fun _ => 0⟩ exit other ∧
        last.SameVisible other := by
  have hunrolled : unrolledAdd.Decoded :=
    ⟨.msp430x, [0x43, 0x18, 0x04, 0x56], 0x4400, rfl⟩
  have hrepeated : repeatedAdd.Decoded :=
    ⟨.msp430x, [0xc5, 0x18, 0x04, 0x56], 0x4400, rfl⟩
  exact loop_agrees_unrolled .standard 0x4400 [0x4400] hunrolled hrepeated rfl rfl rfl

end Lift
end MSP430
