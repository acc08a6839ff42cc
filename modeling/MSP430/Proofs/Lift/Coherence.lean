import MSP430.Proofs.Decode.Steps
import MSP430.Proofs.Lift.Registers
import MSP430.Proofs.Lift.Repeated
import MSP430.Proofs.Lift.StatusWrite
import MSP430.Proofs.Lift.StoredStatus

/-!
# Flags that agree with the status register

Code that writes the status register sets the flags from it at once, and what
comes after leaves both alone.  A run that sets the register then ends with the
flags in agreement with its bits.  Two forms of instruction set the register and
nothing else: a range that pops it, and an operand that moves it on.
-/

namespace MSP430

open IL (Always Composes Emit Exit Expr GoesOn KnownLabels Op Outcome Performs RunsTo
  Spares SparesFlags State outcome)
open IL.Emit (EmitsCode)

/-- The flags are the bits of the status register that stand for them. -/
def IL.State.Coherent (state : State) : Prop :=
  forall flag, state.flags flag = (state.regs .sr).testBit flag.bit

namespace Lift

/-!
# Code that ends in agreement
-/

/-- From every state on, the flags agree with the status register in the end. -/
def EndsCoherent (means : State -> Outcome) : Prop :=
  forall state, (means state).2.Coherent

def Settles (code : List Op) : Prop :=
  EndsCoherent (outcome code)

namespace Settles

theorem flagsFromStatus : Settles flagsFromStatus := by
  intro state flag
  rw [outcome_flagsFromStatus]

theorem after {before code : List Op} (hbefore : GoesOn before)
    (h : Settles code) : Settles (before ++ code) :=
  Always.after (P := fun result => result.2.Coherent) hbefore h

/-- What comes after may set other registers. -/
theorem before {code rest : List Op} (h : Settles code)
    (hregs : Spares .sr rest) (hflags : SparesFlags rest) :
    Settles (code ++ rest) := by
  apply Always.append (P := fun result => result.2.Coherent) h
  intro after hafter flag
  rw [hregs.outcome_regs, hflags.outcome_flags]
  exact hafter flag

end Settles

theorem sparesFlags_postIncrement (operand : Operand) :
    SparesFlags (postIncrement operand) := by
  cases operand with
  | autoIncrement r step => exact SparesFlags.single rfl
  | _ => exact Composes.nil

namespace Context

variable {context : Context}

theorem Finishes.settles {source : Operand} {emit : Emit Unit}
    (h : context.Finishes source (some (.register .sr)) emit)
    (hsource : forall step, source ≠ .autoIncrement .sr step)
    (supply : IL.Supply) : Settles (emit supply).code := by
  rcases h supply with ⟨before, value, hcode, hbefore, _⟩
  rw [hcode]
  apply Settles.after hbefore.goesOn
  have hwrite : Settles ([setRegister .sr context.width value] ++ flagsFromStatus) :=
    Settles.flagsFromStatus.after (goesOn_setRegister .sr context.width value)
  exact hwrite.before (spares_postIncrement hsource) (sparesFlags_postIncrement source)

theorem settles_reti (supply : IL.Supply) :
    Settles (context.reti supply).code := by
  let load : Expr := .load .word (context.stackTop .word)
  let pop (index : Nat) : List Op :=
    [.setTemp .word index load, advance .sp (stackStep .word)]
  have hcode : (context.reti supply).code =
      (pop supply.temp ++ [.setReg .word .sr (.temp .word supply.temp)]) ++
        (flagsFromStatus ++
          (pop (supply.temp + 1) ++ [.ret (.temp .word (supply.temp + 1))])) :=
    rfl
  have hsp : Register.sp ≠ .sr := nofun
  have hpop : forall index, Spares .sr (pop index) := fun _ =>
    Composes.cons (Spares.single nofun) (spares_advance hsp _)
  have hpopFlags : forall index, SparesFlags (pop index) := fun _ =>
    Composes.cons (SparesFlags.single rfl) (SparesFlags.single rfl)
  have hgoes : GoesOn (pop supply.temp ++ [.setReg .word .sr
      (.temp .word supply.temp)]) := by
    intro op hmem
    rcases List.mem_cons.mp hmem with rfl | hmem
    · trivial
    · rcases List.mem_cons.mp hmem with rfl | hmem
      · trivial
      · cases List.mem_singleton.mp hmem
        trivial
  rw [hcode]
  apply Settles.after hgoes
  apply Settles.flagsFromStatus.before
  · exact Composes.append (hpop _) (Spares.single nofun)
  · exact Composes.append (hpopFlags _) (SparesFlags.single rfl)

end Context
end Lift

/-- The instruction sets the status register and leaves the flags as they are: the
register is one of a range that is popped, or it moves on as a source. -/
inductive Instruction.SetsStatusAlone (inst : Instruction) : Prop where
  | popped {count : Nat} {highest : Register} :
      inst.body = .multiple .popm count highest ->
      .sr ∈ Lift.registerRange count highest ->
      SetsStatusAlone inst
  | advanced {step : Nat} :
      .autoIncrement .sr step ∈ inst.body.operands -> SetsStatusAlone inst

namespace Lift
namespace Context

/-!
# One run
-/

variable {inst : Instruction} (context : Context)

/-- A body that replaces the status register settles. -/
theorem settles_written (halone : ¬ inst.SetsStatusAlone)
    (hsupported : unsupported? inst.body = none)
    (hwritten : writtenOperand? inst.body = some (.register .sr))
    (supply : IL.Supply) : Settles (context.body inst.body supply).code := by
  have hcomputes := isComputation_of_written hsupported hwritten
  have hmoved := movedToPc?_eq_none hwritten nofun
  have hreseed := reseedsStack_eq_false hwritten nofun
  rcases exists_source hcomputes with ⟨source, hsource⟩
  have hfinishes := context.finishes_body hcomputes hmoved hreseed hsource
  rw [hwritten] at hfinishes
  apply hfinishes.settles
  rintro step rfl
  exact halone (.advanced (mem_operands_of_source? hsource))

/-- The emission leaves the status register alone, or settles and does more than
jump. -/
inductive KeepsStatus (body : Body Operand) (emission : Emit Unit) : Prop where
  | spares : EmitsCode (Spares .sr) emission -> KeepsStatus body emission
  | settles :
      (forall condition offset, body ≠ .jump condition offset) ->
      (forall supply, Settles (emission supply).code) ->
      KeepsStatus body emission

theorem keepsStatus_body (halone : ¬ inst.SetsStatusAlone)
    (hsupported : unsupported? inst.body = none) :
    KeepsStatus inst.body (context.body inst.body) := by
  by_cases hsets : inst.body.Sets .sr
  · cases hsets with
    | written hwritten _ _ =>
        refine .settles ?_ (context.settles_written halone hsupported hwritten)
        intro condition offset hbody
        rw [hbody] at hwritten
        cases hwritten
    | advanced hmem => exact absurd (.advanced hmem) halone
    | stack _ hsp => cases hsp
    | status hbody _ =>
        rw [hbody]
        exact .settles nofun settles_reti
    | popped hbody hmem => exact absurd (.popped hbody hmem) halone
  · exact .spares (context.spares_body hsets)

theorem keepsStatus_run (halone : ¬ inst.SetsStatusAlone) :
    KeepsStatus inst.body (context.run inst) := by
  have hsp : Register.sp ≠ .sr := nofun
  unfold run
  cases hsupported : unsupported? inst.body with
  | some reason => exact .spares (.op (.single nofun))
  | none =>
      have hbody := context.keepsStatus_body halone hsupported
      simp only [Option.isSome_none, Bool.false_eq_true, if_false]
      split
      · exact .spares (context.spares_ret hsp _)
      · exact .spares (context.spares_ret hsp _)
      · exact .spares (.op (.single nofun))
      · split
        · exact .spares (.op (.single nofun))
        · exact hbody
      · exact hbody

end Context

/-!
# Repetitions
-/

section

variable {options : Options} {known : KnownLabels} {inst : Instruction}

/-- An instruction that settles in one run does so however often it runs, unless it
does not run at all. -/
theorem endsCoherent_meaning
    (hjump : forall condition offset, inst.body ≠ .jump condition offset)
    (hrun : forall supply,
      Settles ((Context.of options known inst).run inst supply).code)
    (hruns : forall zeroCarry,
      inst.extension ≠ some { repetition := .times 0, zeroCarry := zeroCarry }) :
    EndsCoherent (meaning options known inst) :=
  always_meaning (P := fun result => result.2.Coherent) hjump
    (fun _ _ _ hcoherent => hcoherent) hrun hruns

theorem spares_or_endsCoherent (hdecoded : inst.Decoded)
    (halone : ¬ inst.SetsStatusAlone) :
    EmitsCode (Spares .sr) (emit options known inst) ∨
      EndsCoherent (meaning options known inst) := by
  cases (Context.of options known inst).keepsStatus_run halone with
  | spares h => exact .inl (spares_repeated h)
  | settles hjump hsettles =>
      exact .inr (endsCoherent_meaning hjump hsettles hdecoded.extension_ne_times_zero)

end

/-!
# Instructions that set the register alone
-/

/-- A state that holds nothing, with all flags set. -/
def flagsOnly : State :=
  ⟨fun _ => 0, fun _ => true, fun _ => 0, fun _ => 0⟩

theorem load_of_empty {state : State} (h : state.memory = fun _ => 0)
    (width : Width) (address : Nat) : state.load width address = 0 := by
  unfold State.load
  rw [h]
  cases width <;> rfl

namespace Context

def popInto (context : Context) (register : Register) : List Op :=
  [.setReg context.width register
      (.load context.width (context.stackTop context.width)),
    advance .sp (stackStep context.width)]

variable (context : Context)

theorem exists_outcome_popInto (register : Register) {state : State}
    (hsr : state.regs .sr = 0) (hmemory : state.memory = fun _ => 0) :
    exists after,
      outcome (context.popInto register) state = (.fallThrough, after) ∧
        after.regs .sr = 0 ∧ after.flags = state.flags ∧
        after.memory = state.memory := by
  have hvalue : (Expr.load context.width
      (context.stackTop context.width)).eval state = 0 :=
    load_of_empty hmemory _ _
  refine ⟨_, rfl, ?_, rfl, rfl⟩
  rw [hvalue]
  show (state.setReg register (context.width.truncate 0)).regs .sr = 0
  by_cases hregister : Register.sr = register
  · simp [State.setReg, hregister, Width.truncate]
  · simp [State.setReg, hregister, hsr]

/-- What is popped from an empty memory leaves the status register empty, and the
flags as they are. -/
theorem exists_outcome_popped (registers : List Register) {state : State}
    (hsr : state.regs .sr = 0) (hmemory : state.memory = fun _ => 0) :
    exists last,
      outcome (registers.flatMap context.popInto) state = (.fallThrough, last) ∧
        last.regs .sr = 0 ∧ last.flags = state.flags := by
  induction registers generalizing state with
  | nil => exact ⟨state, rfl, hsr, rfl⟩
  | cons register rest ih =>
      rcases context.exists_outcome_popInto register hsr hmemory with
        ⟨after, hafter, hsr', hflags, hmemory'⟩
      rcases ih hsr' (hmemory'.trans hmemory) with ⟨last, hlast, hempty, hkept⟩
      refine ⟨last, ?_, hempty, hkept.trans hflags⟩
      rw [List.flatMap_cons, IL.outcome_append, hafter]
      exact hlast

end Context

section

variable (options : Options) (start : UInt64) (known : KnownLabels)
  {inst : Instruction}

/-- A run of the code sets the status register, and the flags do not agree with it
in the end. -/
def EndsIncoherent (code : List Op) : Prop :=
  exists state exit last,
    RunsTo code state exit last ∧
      (exists width value, Performs code code state (.setReg width .sr value)) ∧
      ¬ last.Coherent

/-- Four has the bit of the negative flag and not that of the carry. -/
theorem not_coherent_of_four {state : State} (hsr : state.regs .sr = 4)
    (hflags : state.flags .c = true ∨ state.flags .n = false) :
    ¬ state.Coherent := by
  intro hcoherent
  have hc := hcoherent .c
  have hn := hcoherent .n
  rw [hsr] at hc hn
  rcases hflags with hflag | hflag
  · cases hc.symm.trans hflag
  · cases hn.symm.trans hflag

theorem emit_popm {count : Nat} {highest : Register}
    (hbody : inst.body = .multiple .popm count highest)
    (hextension : inst.extension = none) :
    emit options known inst =
      Emit.ops ((Context.of options known inst).popRange count highest) := by
  rw [emit_unextended hextension, Context.run_multiple _ hbody]
  rfl

theorem endsIncoherent_popped (hdecoded : inst.Decoded) {count : Nat}
    {highest : Register} (hbody : inst.body = .multiple .popm count highest)
    (hmem : .sr ∈ registerRange count highest) :
    EndsIncoherent (into (.withLabels start known) options inst).ops := by
  have hextension := hdecoded.widthFits
  rw [hbody] at hextension
  have hemit := emit_popm options known hbody hextension
  have hops : (into (.withLabels start known) options inst).ops =
      (Context.of options known inst).popRange count highest := by
    rw [ops_into_withLabels, hemit]
    rfl
  rcases @Context.exists_outcome_popped (Context.of options known inst)
      (registerRange count highest).reverse flagsOnly rfl rfl with
    ⟨last, hlast, hempty, hflags⟩
  have hmeaning : meaning options known inst flagsOnly = (.fallThrough, last) := by
    rw [meaning_of_once options known (.inl hextension), hemit]
    · exact hlast
    · rw [hbody]
      exact nofun
  have hgoes : GoesOn ((Context.of options known inst).popRange count highest) :=
    Composes.flatMap fun _ _ =>
      Composes.cons (GoesOn.single trivial) (GoesOn.single trivial)
  have hrun := runsTo_into options start known hdecoded flagsOnly
  rw [hmeaning, hops] at hrun
  rw [hops]
  refine ⟨flagsOnly, _, _, hrun, ?_, ?_⟩
  · exact ⟨_, _, hgoes.performs (List.mem_flatMap.mpr
      ⟨.sr, List.mem_reverse.mpr hmem, List.mem_cons_self⟩) flagsOnly⟩
  · intro hcoherent
    have hc := hcoherent .c
    rw [hflags, hempty] at hc
    cases hc

/-- The flags are set from what is moved to the register, and then the register
moves on. -/
theorem endsIncoherent_movaStatus {address : UInt64} {length : Nat}
    (hdecoded : Instruction.Decoded ⟨address, .address, none,
      .address .mova (.autoIncrement .sr 4) (.register .sr), length⟩) :
    EndsIncoherent (into (.withLabels start known) options ⟨address, .address, none,
      .address .mova (.autoIncrement .sr 4) (.register .sr), length⟩).ops := by
  have hvalue : (Expr.load .address (.reg .address .sr)).eval flagsOnly = 0 :=
    load_of_empty rfl _ _
  have hzero : 0 < Width.address.modulus := by decide
  have hrun := runsTo_into options start known hdecoded flagsOnly
  have hmeaning : meaning options known ⟨address, .address, none,
      .address .mova (.autoIncrement .sr 4) (.register .sr), length⟩ flagsOnly =
        (.fallThrough, (Operand.autoIncrement .sr 4).advanced
          (withStatus flagsOnly 0)) := by
    show outcome ((Place.register .sr).write known .address
      (.load .address (.reg .address .sr)) ++
        postIncrement (.autoIncrement .sr 4)) flagsOnly = _
    rw [IL.outcome_append, outcome_writeStatus known hvalue hzero]
    exact outcome_postIncrement (.autoIncrement .sr 4) (withStatus flagsOnly 0)
  rw [hmeaning] at hrun
  exact ⟨flagsOnly, _, _, hrun, ⟨_, _, .here⟩, not_coherent_of_four rfl (.inr rfl)⟩

theorem endsIncoherent_advanced (hdecoded : inst.Decoded) {step : Nat}
    (hmem : .autoIncrement .sr step ∈ inst.body.operands) :
    EndsIncoherent (into (.withLabels start known) options inst).ops := by
  have hformat : inst.format = .address :=
    Classical.byContradiction fun hformat =>
      hdecoded.base?_ne_sr hformat hmem rfl
  have hfits := hdecoded.widthFits
  rcases hdecoded.advances hmem with ⟨hadvances, hstep, _⟩
  rcases inst with ⟨address, width, extension, body, length⟩
  dsimp only at *
  cases hadvances with
  | single opcode => cases hformat
  | double opcode destination => cases hformat
  | calla =>
      rcases hfits with ⟨rfl, rfl⟩
      cases hstep
      exact ⟨flagsOnly, _, _, .next rfl (.next rfl (.leave rfl)),
        ⟨_, _, .next rfl .here⟩, not_coherent_of_four rfl (.inl rfl)⟩
  | mova destination =>
      rcases hfits with ⟨rfl, rfl⟩
      cases hstep
      cases destination with
      | pc =>
          exact ⟨flagsOnly, _, _, .next rfl (.next rfl (.leave rfl)),
            ⟨_, _, .next rfl .here⟩, not_coherent_of_four rfl (.inl rfl)⟩
      | sr => exact endsIncoherent_movaStatus options start known hdecoded
      | _ =>
          exact ⟨flagsOnly, _, _, .next rfl (.next rfl (.done _)),
            ⟨_, _, .next rfl .here⟩, not_coherent_of_four rfl (.inl rfl)⟩

/-- From every state on, if the code of a decoded instruction comes to set the status
register, the flags agree with its bits in the end.  This holds of exactly the
instructions that do not set the register alone. -/
theorem status_coherent_iff (hdecoded : inst.Decoded) :
    let code := (into (.withLabels start known) options inst).ops
    (forall state, exists exit last,
      RunsTo code state exit last ∧
        ((exists width value, Performs code code state (.setReg width .sr value)) ->
          last.Coherent)) ↔
      ¬ inst.SetsStatusAlone := by
  dsimp only
  constructor
  · intro hcoherent halone
    have hends : EndsIncoherent (into (.withLabels start known) options inst).ops := by
      cases halone with
      | popped hbody hmem =>
          exact endsIncoherent_popped options start known hdecoded hbody hmem
      | advanced hmem =>
          exact endsIncoherent_advanced options start known hdecoded hmem
    rcases hends with ⟨state, exit, last, hrun, hset, hnot⟩
    rcases hcoherent state with ⟨exit', last', hrun', hlast'⟩
    rcases hrun.deterministic hrun' with ⟨rfl, rfl⟩
    exact hnot (hlast' hset)
  · intro halone state
    refine ⟨_, _, runsTo_into options start known hdecoded state, ?_⟩
    rintro ⟨width, value, hset⟩
    rcases @spares_or_endsCoherent options known inst hdecoded halone with hspares | hends
    · exact absurd rfl (hspares.code _ _ (hset.mem fun _ => id))
    · exact hends state

end

/-- Replaces the status register. -/
def moveToStatus : Instruction :=
  { pushStatus with body := .double .mov (.register .r5) (.register .sr) }

theorem status_coherent_iff_move :
    exists exit last,
      RunsTo (into (.withLabels 0x4400 []) .standard moveToStatus).ops
          (storedStatus 0) exit last ∧
        last.Coherent := by
  have halone : ¬ moveToStatus.SetsStatusAlone := by
    intro halone
    cases halone with
    | popped hbody _ => cases hbody
    | advanced hmem =>
        rcases List.mem_cons.mp hmem with hmem | hmem
        · cases hmem
        · cases List.mem_singleton.mp hmem
  rcases (status_coherent_iff .standard 0x4400 []
      ⟨.msp430, [0x02, 0x45], 0x4400, rfl⟩).mpr halone (storedStatus 0) with
    ⟨exit, last, hrun, hcoherent⟩
  exact ⟨exit, last, hrun, hcoherent ⟨_, _, .here⟩⟩

/-- Pops the status register as a range of one. -/
def popStatusRange : Instruction :=
  { pushStatus with body := .multiple .popm 1 .sr }

/-- A range that holds the status register is popped and leaves the flags. -/
theorem status_popped_incoherent :
    decode .msp430x [0x02, 0x17] 0x4400 = .ok popStatusRange ∧
      exists state last,
        RunsTo (into (.withLabels 0x4400 []) .standard popStatusRange).ops state
            .fallThrough last ∧
          (exists width value,
            Performs (into (.withLabels 0x4400 []) .standard popStatusRange).ops
              (into (.withLabels 0x4400 []) .standard popStatusRange).ops state
              (.setReg width .sr value)) ∧
          ¬ last.Coherent := by
  refine ⟨rfl, flagsOnly, _, .next rfl (.next rfl (.done _)), ⟨_, _, .here⟩, ?_⟩
  intro hcoherent
  exact absurd (hcoherent .c) (by decide)

end Lift
end MSP430
