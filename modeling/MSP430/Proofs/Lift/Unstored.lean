import MSP430.Proofs.Lift.AutoIncrement
import MSP430.Proofs.Lift.Registers
import MSP430.Proofs.Lift.Repeated

/-!
# Registers that hold no value

The program counter is written by leaving, and what is written to the constant
generator is dropped.  Code that goes by these rules never sets the two registers.
Ranges that are popped and sources of the address format that move on do not go by
them: they set whatever register they name.
-/

namespace MSP430

open IL (Always Buffer Composes Emit Exit GoesOn KnownLabels Op Outcome RunsTo State
  outcome)
open IL.Emit (Emits EmitsCode)

/-- The bodies that set a register as if it were mere storage, whichever it is. -/
inductive Body.Stores (r : Register) : Body Operand -> Prop where
  | popm {count : Nat} {highest : Register} :
      r ∈ Lift.registerRange count highest ->
      Stores r (.multiple .popm count highest)
  | calla : Stores r (.calla (.autoIncrement r 4))
  | mova (destination : Register) :
      Stores r (.address .mova (.autoIncrement r 4) (.register destination))

/-- Control goes somewhere else. -/
def IL.Exit.Transfers : Exit -> Prop
  | jump _ | call _ | ret _ | label _ => True
  | fallThrough | unimplemented => False

def IL.Outcome.Transfers (result : Outcome) : Prop :=
  result.1.Transfers

/-!
# Names
-/

/-- Only returns have code of their own among the instructions that replace the program
counter. -/
theorem Instruction.hasOwnCode_of_pc {inst : Instruction}
    (hwritten : Lift.writtenOperand? inst.body = some (.register .pc))
    {emulated : Emulated} (h : inst.emulated? = some emulated) :
    emulated = .ret ∨ emulated = .reta ∨ Lift.hasOwnCode emulated = false := by
  cases hown : Lift.hasOwnCode emulated with
  | false => exact .inr (.inr rfl)
  | true =>
      have hbody := Lift.ownCode_of_emulated? h hown
      generalize inst.body = body at hwritten hbody
      cases hbody with
      | ret _ => exact .inl rfl
      | reta _ => exact .inr (.inl rfl)
      | nop _ | clear _ | set _ => cases hwritten

namespace Lift

/-!
# Code that leaves
-/

/-- From every state on, the code transfers control. -/
abbrev Leaves (code : List Op) : Prop :=
  Always Outcome.Transfers (outcome code)

theorem leaves_branchTo (known : KnownLabels) (target : IL.Expr) :
    Leaves [branchTo known target] := by
  intro state
  unfold branchTo
  split <;> trivial

theorem Leaves.append {code : List Op} (h : Leaves code) (rest : List Op) :
    Leaves (code ++ rest) :=
  Always.append h fun _ hfalls => False.elim hfalls

theorem goesOn_postIncrement (operand : Operand) : GoesOn (postIncrement operand) := by
  cases operand with
  | autoIncrement r step => exact GoesOn.single trivial
  | _ => exact Composes.nil

namespace Context

variable (context : Context)

theorem goesOn_save (width : Width) (value : IL.Expr) :
    Emits GoesOn (fun _ => True) (Emit.save width value) :=
  .save (fun _ => GoesOn.single trivial) fun _ => trivial

theorem leaves_ret (width : Width) (supply : IL.Supply) :
    Leaves (context.ret width supply).code := by
  have hpop : Emits GoesOn (fun _ => True) (context.pop width) := by
    apply (goesOn_save width _).bind
    intro value _
    exact Emits.seq (.op (GoesOn.single trivial)) (.pure trivial)
  exact Always.bind hpop (fun _ _ _ => trivial) supply

theorem leaves_movePc (source : Operand) (supply : IL.Supply) :
    Leaves (context.move source (.register .pc) supply).code := by
  have htarget : Emits GoesOn (fun _ => True) (context.moveTarget source) := by
    unfold Context.moveTarget
    split
    · exact .pure trivial
    · exact goesOn_save _ _
    · exact .pure trivial
  have hsource : EmitsCode GoesOn (Emit.ops (postIncrement source)) :=
    .ops (goesOn_postIncrement source)
  rw [context.move_pc]
  refine Always.bind htarget (fun target => ?_) supply
  exact Always.bind hsource fun _ _ => leaves_branchTo context.known target

theorem Finishes.leaves {context : Context} {source : Operand} {emit : Emit Unit}
    (h : context.Finishes source (some (.register .pc)) emit) (supply : IL.Supply) :
    Leaves (emit supply).code := by
  rcases h supply with ⟨before, value, hcode, hbefore, _⟩
  have hlast : Leaves (context.lastSteps source (some (.register .pc)) value) :=
    (leaves_branchTo context.known value).append (postIncrement source)
  rw [hcode]
  exact hlast.after hbefore.goesOn

section

variable {inst : Instruction}
  (hwritten : writtenOperand? inst.body = some (.register .pc))
  (hsupported : unsupported? inst.body = none)

include hwritten hsupported

theorem leaves_body (supply : IL.Supply) :
    Leaves (context.body inst.body supply).code := by
  cases hmoved : movedToPc? inst.body with
  | some source =>
      rcases body_of_movedToPc? hmoved with hbody | hbody <;> rw [hbody] <;>
        exact context.leaves_movePc source supply
  | none =>
      have hcomputes := isComputation_of_written hsupported hwritten
      have hreseed := reseedsStack_eq_false hwritten nofun
      rcases exists_source hcomputes with ⟨source, hsource⟩
      have hfinishes := context.finishes_body hcomputes hmoved hreseed hsource
      rw [hwritten] at hfinishes
      exact hfinishes.leaves supply

theorem leaves_run (supply : IL.Supply) : Leaves (context.run inst supply).code := by
  rcases context.run_cases hsupported fun _ => inst.hasOwnCode_of_pc hwritten with
    ⟨_, hrun⟩ | ⟨_, hrun⟩ | hrun <;> rw [hrun]
  · exact context.leaves_ret .word supply
  · exact context.leaves_ret .address supply
  · exact context.leaves_body hwritten hsupported supply

end

/-!
# Code that sets what it moves on
-/

theorem advance_mem_move (r : Register) (step : Nat) (destination : Operand)
    (supply : IL.Supply) :
    advance r step ∈
      (context.move (.autoIncrement r step) destination supply).code := by
  by_cases hpc : destination = .register .pc
  · rw [hpc, context.move_pc]
    exact List.mem_cons_of_mem _ List.mem_cons_self
  · have hreseed : forall value, Operand.autoIncrement r step = .immediate value ->
        destination ≠ .register .sp := nofun
    rw [context.move_eq_write hpc hreseed]
    exact List.mem_append_right _ List.mem_cons_self

end Context

section

variable {options : Options} {known : KnownLabels} {inst : Instruction}
  {r : Register} (hdecoded : inst.Decoded)

include hdecoded

theorem exists_setReg_of_stores (hstores : inst.body.Stores r) (hsp : .sp ≠ r)
    (supply : IL.Supply) :
    exists width value,
      .setReg width r value ∈ (emit options known inst supply).code := by
  have hfits := hdecoded.widthFits
  have hadvanced : forall {step : Nat}, inst.body.Advances r step ->
      inst.extension = none -> unsupported? inst.body = none ->
      emit options known inst = (Context.of options known inst).body inst.body := by
    intro step hadvances hextension hsupported
    rw [emit_unextended hextension]
    apply Context.run_eq_body_of_advances _ hdecoded hadvances hsupported
    exact fun _ hmoved => hsp (Instruction.eq_of_moved hadvances hmoved)
  generalize hbody : inst.body = body at hstores
  rw [hbody] at hfits hadvanced
  cases hstores with
  | @popm count highest hmem =>
      rw [emit_unextended hfits, Context.run_multiple _ hbody]
      have hpop := List.mem_reverse.mpr hmem
      exact ⟨_, _, List.mem_flatMap.mpr ⟨r, hpop, List.mem_cons_self⟩⟩
  | calla =>
      rw [hadvanced .calla hfits.1 rfl]
      exact ⟨_, _, List.mem_cons_of_mem _ List.mem_cons_self⟩
  | mova destination =>
      rw [hadvanced (.mova destination) hfits.1 rfl]
      exact ⟨_, _, Context.advance_mem_move _ r 4 (.register destination) supply⟩

/-!
# What code sets
-/

theorem sets_of_setReg {supply : IL.Supply} {width : Width} {value : IL.Expr}
    (hmem : .setReg width r value ∈ (emit options known inst supply).code) :
    inst.body.Sets r :=
  Classical.byContradiction fun hsets =>
    (spares_emit hdecoded hsets).code supply _ hmem rfl

/-- The program counter and the constant generator stand for constants outside the
address format. -/
theorem stores_of_advanced (hr : r = .pc ∨ r = .cg) {step : Nat}
    (hmem : .autoIncrement r step ∈ inst.body.operands) : inst.body.Stores r := by
  have hformat : inst.format = .address := by
    apply Classical.byContradiction
    intro hformat
    rcases hdecoded.advanced_ne hformat hmem with ⟨hpc, hcg⟩
    exact hr.elim hpc hcg
  have hfits := hdecoded.widthFits
  rcases hdecoded.advances hmem with ⟨hadvances, hstep, _⟩
  unfold Instruction.format Instruction.opcode at hformat
  generalize inst.body = body at *
  cases hadvances with
  | single _ | double _ _ => cases hformat
  | calla =>
      rw [hfits.2] at hstep
      cases hstep
      exact .calla
  | mova destination =>
      rw [hfits.2] at hstep
      cases hstep
      exact .mova destination

theorem stores_of_sets (hr : r = .pc ∨ r = .cg) (h : inst.body.Sets r) :
    inst.body.Stores r := by
  cases h with
  | written _ hpc hcg => exact (hr.elim hpc hcg).elim
  | advanced hmem => exact stores_of_advanced hdecoded hr hmem
  | stack _ hsp => cases hsp; rcases hr with hr | hr <;> cases hr
  | status _ hsr => cases hsr; rcases hr with hr | hr <;> cases hr
  | popped hbody hmem =>
      rw [hbody]
      exact .popm hmem

end

/-- A body that writes to the constant generator sets nothing for it. -/
theorem advanced_of_sets {body : Body Operand} {r : Register}
    (hwritten : writtenOperand? body = some (.register .cg)) (h : body.Sets r) :
    exists step, .autoIncrement r step ∈ body.operands := by
  cases h with
  | written hwritten' _ hcg =>
      cases hwritten.symm.trans hwritten'
      exact absurd rfl hcg
  | advanced hmem => exact ⟨_, hmem⟩
  | stack huses _ =>
      unfold usesStack at huses
      split at huses <;> first | cases hwritten | cases huses
  | status hbody _ =>
      rw [hbody] at hwritten
      cases hwritten
  | popped hbody _ =>
      rw [hbody] at hwritten
      cases hwritten

/-- The code that a decoded instruction appends sets the program counter or the
constant generator exactly if its body stores to any register it names.  An instruction
that replaces the program counter transfers control, from every state on.  One that
replaces the constant generator sets no register but that of its source, which moves
on. -/
theorem unstored_set_iff (options : Options) (buffer : Buffer) {inst : Instruction}
    (hdecoded : inst.Decoded) :
    let code := appended buffer options inst
    (forall r, r = .pc ∨ r = .cg ->
      ((exists width value, .setReg width r value ∈ code) ↔ inst.body.Stores r)) ∧
    (writtenOperand? inst.body = some (.register .pc) ->
      unsupported? inst.body = none ->
      buffer.known.length ≤ buffer.supply.label ->
      forall state, exists exit last,
        RunsTo code state exit last ∧ exit.Transfers) ∧
    (writtenOperand? inst.body = some (.register .cg) ->
      forall r width value, .setReg width r value ∈ code ->
        exists step, .autoIncrement r step ∈ inst.body.operands) := by
  dsimp only
  refine ⟨fun r hr => ⟨?_, fun hstores => ?_⟩, fun hwritten hsupported hlabels state => ?_,
    fun hwritten r width value hmem => ?_⟩
  · rintro ⟨width, value, hmem⟩
    exact stores_of_sets hdecoded hr (sets_of_setReg hdecoded hmem)
  · apply exists_setReg_of_stores hdecoded hstores
    rintro rfl
    rcases hr with hr | hr <;> cases hr
  · have hjump : forall condition offset, inst.body ≠ .jump condition offset := by
      intro condition offset hbody
      rw [hbody] at hwritten
      cases hwritten
    have hleaves := always_meaning (P := Outcome.Transfers) hjump
      (fun _ _ _ hfalls => hfalls)
      ((Context.of options buffer.known inst).leaves_run hwritten hsupported)
      hdecoded.extension_ne_times_zero
    exact ⟨_, _, runsTo_appended_decoded options buffer hlabels hdecoded state,
      hleaves state⟩
  · exact advanced_of_sets hwritten (sets_of_setReg hdecoded hmem)

/-- Writes to the program counter. -/
def moveToCounter : Instruction :=
  { branchThrough with body := .double .mov (.register .r5) (.register .pc) }

/-- Writes to the constant generator what is read through a register that moves on. -/
def moveToGenerator : Instruction :=
  { branchThrough with body := .double .mov (.autoIncrement .r5 2) (.register .cg) }

theorem unstored_set_iff_moves :
    (exists exit last,
      RunsTo (appended (.empty 0x4400) .standard moveToCounter)
          ⟨fun _ => 0x4500, fun _ => false, fun _ => 0, fun _ => 0⟩ exit last ∧
        exit.Transfers) ∧
    (forall width value,
      .setReg width .cg value ∉ appended (.empty 0x4400) .standard moveToGenerator) ∧
    forall r width value,
      .setReg width r value ∈ appended (.empty 0x4400) .standard moveToGenerator ->
        exists step, .autoIncrement r step ∈ moveToGenerator.body.operands := by
  have hcounter : moveToCounter.Decoded := ⟨.msp430, [0x00, 0x45], 0x4400, rfl⟩
  have hgenerator : moveToGenerator.Decoded := ⟨.msp430, [0x33, 0x45], 0x4400, rfl⟩
  rcases unstored_set_iff .standard (.empty 0x4400) hcounter with ⟨_, hleaves, _⟩
  rcases unstored_set_iff .standard (.empty 0x4400) hgenerator with ⟨hset, _, hcg⟩
  refine ⟨hleaves rfl rfl (Nat.le_refl 0) _, ?_, hcg rfl⟩
  intro width value hmem
  cases (hset .cg (.inr rfl)).mp ⟨width, value, hmem⟩

/-- Pops the program counter as a range of one. -/
def popCounterRange : Instruction :=
  { branchThrough with body := .multiple .popm 1 .pc }

/-- A range that is popped sets the program counter, and code goes on behind it. -/
theorem popm_sets_counter :
    decode .msp430x [0x00, 0x17] 0x4400 = .ok popCounterRange ∧
      (exists width value,
        .setReg width .pc value ∈ appended (.empty 0x4400) .standard popCounterRange) ∧
      exists state last,
        RunsTo (appended (.empty 0x4400) .standard popCounterRange) state
          .fallThrough last :=
  ⟨rfl, ⟨_, _, List.mem_cons_self⟩, ⟨fun _ => 0, fun _ => false, fun _ => 0, fun _ => 0⟩,
    _, .next rfl (.next rfl (.done _))⟩

end Lift
end MSP430
