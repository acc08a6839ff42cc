import MSP430.Proofs.Decode.Steps
import MSP430.Proofs.Lift.Order
import MSP430.Proofs.Lift.Transfer

/-!
# Registers that move on

A source that is read through a register moves it on.  Calls, returns and moves to
the program counter do so before control leaves, and so does everything that goes
on.  A result that is written to the program counter leaves first, and the register
stays where it was.
-/

namespace MSP430

open IL (Composes Emit Exit Expr GoesOn KnownLabels Op Outcome RunsTo Spares State
  Supply outcome)

/-- A result, and not what is moved, is written to the program counter. -/
def Instruction.LeavesByResult (inst : Instruction) : Prop :=
  Lift.writtenOperand? inst.body = some (.register .pc) ∧
    Lift.movedToPc? inst.body = none

/-- The width of the addresses through which an instruction without a prefix word
moves. -/
def Instruction.stepSpace (inst : Instruction) : Width :=
  if inst.format = .address then .address else .word

namespace Lift

/-- The register has moved on by a step since the state from before. -/
def MovedOn (r : Register) (step : Nat) (before : State) (result : Outcome) : Prop :=
  result.2.regs r = (stepWidth step).truncate (before.regs r + step)

/-!
# Code that moves a register on
-/

section

variable {r : Register} {step : Nat}

/-- The register moves on where the code goes on to its advance, and nothing else
sets it. -/
theorem movedOn_code {before rest : List Op} (hgoes : GoesOn before)
    (hbefore : Spares r before) (hrest : Spares r rest) (state : State) :
    MovedOn r step state
      (outcome (before ++ (postIncrement (.autoIncrement r step) ++ rest)) state) := by
  rcases hgoes.exists_outcome state with ⟨middle, hmiddle⟩
  have hkept := hbefore.outcome_regs state
  rw [hmiddle] at hkept
  rw [IL.outcome_append, hmiddle, IL.Outcome.fallThrough_andThen, IL.outcome_append,
    outcome_postIncrement, IL.Outcome.fallThrough_andThen]
  unfold MovedOn
  rw [hrest.outcome_regs, ← hkept]
  exact if_pos rfl

theorem movedOn_last {before : List Op} (hgoes : GoesOn before)
    (hbefore : Spares r before) (state : State) :
    MovedOn r step state
      (outcome (before ++ postIncrement (.autoIncrement r step)) state) := by
  have hnone : Spares r [] := Composes.nil
  rw [← List.append_nil (postIncrement _)]
  exact movedOn_code hgoes hbefore hnone state

end

namespace Context

variable {context : Context} {r : Register} {step : Nat}

theorem Finishes.movedOn {destination : Option Operand} {emit : Emit Unit}
    (h : context.Finishes (.autoIncrement r step) destination emit)
    (hplace : forall place, destination = some place ->
      place.isValue = false ∧ place ≠ .register .pc ∧ place ≠ .register r)
    (supply : Supply) (state : State) :
    MovedOn r step state (outcome (emit supply).code state) := by
  rcases h supply with ⟨before, value, hcode, hbefore, _⟩
  rw [hcode]
  unfold lastSteps
  cases destination with
  | none => exact movedOn_last hbefore.goesOn (hbefore.spares r) state
  | some place =>
      rcases hplace place rfl with ⟨hvalue, hpc, hr⟩
      have hgoes := goesOn_write context.known context.addressWidth context.width
        value hvalue hpc
      have hspares : Spares r ((context.place place).write context.known
          context.width value) :=
        spares_write _ _ _ _ fun heq => absurd heq hr
      dsimp only
      rw [← List.append_assoc]
      exact movedOn_last (Composes.append hbefore.goesOn hgoes)
        (Composes.append (hbefore.spares r) hspares) state

/-- Writing a result to the program counter leaves the code. -/
theorem Finishes.kept {source : Operand} {emit : Emit Unit}
    (h : context.Finishes source (some (.register .pc)) emit)
    (supply : Supply) (state : State) :
    (outcome (emit supply).code state).2.regs r = state.regs r := by
  rcases h supply with ⟨before, value, hcode, hbefore, hvaries⟩
  have hjump : branchTo context.known value = .jump value := by
    unfold branchTo
    rw [hvaries rfl]
    rfl
  have hlast : context.lastSteps source (some (.register .pc)) value =
      .jump value :: postIncrement source := by
    rw [← hjump]
    rfl
  rcases hbefore.exists_outcome state with ⟨middle, hmiddle, hregs, _⟩
  rw [hcode, hlast, IL.outcome_append, hmiddle]
  exact congrFun hregs r

variable (context)

/-!
# Code that leaves after the register has moved on
-/

/-- What comes through the register is kept first. -/
theorem movedOn_saved {width : Width} {index : Nat} {value : Expr} {op : Op}
    (hop : op.register? = none) (state : State) :
    MovedOn r step state
      (outcome [.setTemp width index value, advance r step, op] state) := by
  have hgoes : GoesOn [.setTemp width index value] := GoesOn.single trivial
  apply movedOn_code hgoes (Spares.single nofun)
  apply Spares.single
  rw [hop]
  exact nofun

theorem movedOn_call (supply : Supply) (state : State) :
    MovedOn r step state
      (outcome (context.call (.autoIncrement r step) supply).code state) :=
  movedOn_saved rfl state

theorem movedOn_movePc (supply : Supply) (state : State) :
    MovedOn r step state
      (outcome (context.move (.autoIncrement r step) (.register .pc) supply).code
        state) :=
  movedOn_saved rfl state

theorem movedOn_ret (width : Width) (supply : Supply) (state : State) :
    MovedOn .sp (stackStep width) state
      (outcome (context.ret width supply).code state) :=
  movedOn_saved rfl state

end Context
end Lift

/-!
# Names
-/

namespace Instruction

variable {inst : Instruction} {r : Register} {step : Nat}

/-- Only a return has code of its own among the instructions that move a register
on. -/
theorem hasOwnCode_of_advances (hbody : inst.body.Advances r step)
    {emulated : Emulated} (h : inst.emulated? = some emulated) :
    emulated = .ret ∨ emulated = .reta ∨ Lift.hasOwnCode emulated = false := by
  cases hown : Lift.hasOwnCode emulated with
  | false => exact .inr (.inr rfl)
  | true =>
      have hcode := Lift.ownCode_of_emulated? h hown
      generalize inst.body = body at hbody hcode
      cases hcode with
      | ret _ => exact .inl rfl
      | reta _ => exact .inr (.inl rfl)
      | nop hvalue | clear hvalue | set hvalue => cases hbody <;> cases hvalue

theorem eq_of_moved (hbody : inst.body.Advances r step) {r' : Register}
    {step' : Nat} (h : Lift.movedToPc? inst.body = some (.autoIncrement r' step')) :
    r' = r := by
  rcases Lift.body_of_movedToPc? h with hmoved | hmoved <;> rw [hmoved] at hbody <;>
    cases hbody <;> rfl

/-- A return by name takes a word or an address from the stack, as its name says. -/
theorem Decoded.return_step (hdecoded : inst.Decoded)
    (hbody : inst.body.Advances r step) (hstep : step = autoIncrementStep r inst.width) :
    (inst.emulated? = some .ret -> r = .sp ∧ step = Lift.stackStep .word) ∧
      (inst.emulated? = some .reta -> r = .sp ∧ step = Lift.stackStep .address) := by
  have hsp : inst.emulated? = some .ret ∨ inst.emulated? = some .reta -> r = .sp := by
    intro h
    rcases hdecoded.moved_of_return h with ⟨_, hmoved⟩
    exact (eq_of_moved hbody hmoved).symm
  have hfits := hdecoded.widthFits
  rcases inst with ⟨address, width, extension, body, length⟩
  dsimp only at *
  cases hbody with
  | single opcode => exact ⟨nofun, nofun⟩
  | calla => exact ⟨nofun, nofun⟩
  | double opcode destination =>
      constructor
      · intro h
        have hwidth : width = .word := (Emulated.leaves_ofDouble? h rfl).2.2.1
        rw [hstep, hsp (.inl h), hwidth]
        exact ⟨rfl, rfl⟩
      · intro h
        cases Lift.ownCode_of_ofDouble? h rfl with
        | clear hvalue | set hvalue => cases hvalue
  | mova destination =>
      constructor
      · intro h
        have hname : Emulated.ofAddress? .mova _ _ = some .ret := h
        cases Lift.ownCode_of_ofAddress? hname rfl
      · intro h
        rw [hstep, hsp (.inr h), hfits.2]
        exact ⟨rfl, rfl⟩

end Instruction

namespace Lift
namespace Context

/-!
# One run
-/

variable (context : Context) {inst : Instruction} {r : Register} {step : Nat}

/-- The emission moves the register on, unless the instruction leaves by its
result. -/
def MovesOn (inst : Instruction) (r : Register) (step : Nat) (emission : Emit Unit) :
    Prop :=
  forall supply state,
    (¬ inst.LeavesByResult ->
      MovedOn r step state (outcome (emission supply).code state)) ∧
    (inst.LeavesByResult ->
      (outcome (emission supply).code state).2.regs r = state.regs r)

theorem Finishes.movesOn {emission : Emit Unit}
    (h : context.Finishes (.autoIncrement r step) (writtenOperand? inst.body) emission)
    (hmoved : movedToPc? inst.body = none)
    (hplace : forall place, writtenOperand? inst.body = some place ->
      place.isValue = false ∧ place ≠ .register r) :
    MovesOn inst r step emission := by
  intro supply state
  constructor
  · intro hstays
    apply Finishes.movedOn h
    intro place hwritten
    rcases hplace place hwritten with ⟨hvalue, hr⟩
    refine ⟨hvalue, ?_, hr⟩
    rintro rfl
    exact hstays ⟨hwritten, hmoved⟩
  · rintro ⟨hpc, _⟩
    rw [hpc] at h
    exact Finishes.kept h supply state

/-- Nothing leaves by its result that is a move or has no result. -/
theorem movesOn_of_movedOn {emission : Emit Unit}
    (h : forall supply state,
      MovedOn r step state (outcome (emission supply).code state))
    (hresult : ¬ inst.LeavesByResult) : MovesOn inst r step emission :=
  fun supply state => ⟨fun _ => h supply state, fun hleaves => absurd hleaves hresult⟩

/-- What moves a register on runs its body, unless it is a return. -/
theorem run_eq_body_of_advances (hdecoded : inst.Decoded)
    (hbody : inst.body.Advances r step) (hsupported : unsupported? inst.body = none)
    (hreturn : forall step, movedToPc? inst.body ≠ some (.autoIncrement .sp step)) :
    context.run inst = context.body inst.body := by
  have hname : ¬ (inst.emulated? = some .ret ∨ inst.emulated? = some .reta) := by
    intro hemulated
    rcases hdecoded.moved_of_return hemulated with ⟨step, hmoved⟩
    exact hreturn step hmoved
  rcases context.run_cases hsupported
      fun _ => Instruction.hasOwnCode_of_advances hbody with
    ⟨hemulated, _⟩ | ⟨hemulated, _⟩ | hrun
  · exact absurd (.inl hemulated) hname
  · exact absurd (.inr hemulated) hname
  · exact hrun

section Body

variable (hdecoded : inst.Decoded) (hbody : inst.body.Advances r step)
  (hdestination : inst.destination? ≠ some (.register r))

include hbody hdestination

include hdecoded in
/-- What is replaced is a place other than the register that moves on. -/
theorem writtenOperand?_of_advances {place : Operand}
    (h : writtenOperand? inst.body = some place) :
    place.isValue = false ∧ place ≠ .register r := by
  have hplace := @hdecoded.destination_isPlace
  unfold Instruction.destination? at hplace hdestination
  generalize inst.body = body at *
  cases hbody with
  | single opcode =>
      cases opcode <;> cases h <;> exact ⟨rfl, nofun⟩
  | calla => cases h
  | double opcode destination =>
      have heq : destination = place := by
        cases opcode <;> first | exact Option.some.inj h | cases h
      rw [← heq]
      exact ⟨hplace rfl, fun hr => hdestination (congrArg some hr)⟩
  | mova destination =>
      cases h
      exact ⟨rfl, fun hr => hdestination (congrArg some hr)⟩

include hdecoded in
theorem movesOn_computation (hcomputes : isComputation inst.body = true)
    (hmoved : movedToPc? inst.body = none) :
    MovesOn inst r step (context.body inst.body) := by
  have hsource : inst.body.source? = some (.autoIncrement r step) := by
    generalize inst.body = body at hbody
    cases hbody <;> rfl
  have hreseed : reseedsStack inst.body = false := by
    generalize inst.body = body at hbody
    cases hbody with
    | single _ | calla => rfl
    | double opcode _ => cases opcode <;> rfl
    | mova _ => rfl
  have hfinishes := context.finishes_body hcomputes hmoved hreseed hsource
  apply Finishes.movesOn context hfinishes hmoved
  intro place hwritten
  exact writtenOperand?_of_advances hdecoded hbody hdestination hwritten

include hdecoded in
theorem movesOn_body (hdadd : inst.opcode ≠ .double .dadd)
    (hpush : inst.opcode ≠ .single .push) :
    MovesOn inst r step (context.body inst.body) := by
  cases hmoved : movedToPc? inst.body with
  | some source =>
      have hresult : ¬ inst.LeavesByResult := by
        rintro ⟨_, hnone⟩
        cases hnone.symm.trans hmoved
      apply movesOn_of_movedOn _ hresult
      rcases body_of_movedToPc? hmoved with hmove | hmove <;> rw [hmove] at hbody ⊢ <;>
        cases hbody <;> exact context.movedOn_movePc
  | none =>
      cases hcomputes : isComputation inst.body with
      | true =>
          exact context.movesOn_computation hdecoded hbody hdestination hcomputes hmoved
      | false =>
          have hcall : context.body inst.body = context.call (.autoIncrement r step) ∧
              writtenOperand? inst.body = none := by
            unfold Instruction.opcode at hdadd hpush
            generalize inst.body = body at *
            cases hbody with
            | calla => exact ⟨rfl, rfl⟩
            | mova destination => cases hcomputes
            | double opcode destination =>
                cases Classical.not_not.mp (of_decide_eq_false hcomputes)
                exact absurd rfl hdadd
            | single opcode =>
                cases opcode with
                | push => exact absurd rfl hpush
                | call => exact ⟨rfl, rfl⟩
                | rrc | swpb | rra | sxt => cases hcomputes
          rw [hcall.1]
          apply movesOn_of_movedOn context.movedOn_call
          rintro ⟨hpc, _⟩
          cases hcall.2.symm.trans hpc

include hdecoded in
theorem unsupported?_of_advances (hdadd : inst.opcode ≠ .double .dadd) :
    unsupported? inst.body = none := by
  have hplace : ((writtenOperand? inst.body).map Operand.isValue).getD false = false := by
    cases hwritten : writtenOperand? inst.body with
    | none => rfl
    | some place =>
        exact (writtenOperand?_of_advances hdecoded hbody hdestination hwritten).1
  unfold unsupported?
  rw [hplace]
  simp only [Bool.false_eq_true, if_false]
  split
  · next hdouble =>
      unfold Instruction.opcode at hdadd
      rw [hdouble] at hdadd
      exact absurd rfl hdadd
  · rfl

include hdecoded in
theorem movesOn_run (hstep : step = autoIncrementStep r inst.width)
    (hdadd : inst.opcode ≠ .double .dadd) (hpush : inst.opcode ≠ .single .push) :
    MovesOn inst r step (context.run inst) := by
  have hreturn := hdecoded.return_step hbody hstep
  have hresult : inst.emulated? = some .ret ∨ inst.emulated? = some .reta ->
      ¬ inst.LeavesByResult := by
    rintro hemulated ⟨_, hnone⟩
    rcases hdecoded.moved_of_return hemulated with ⟨_, hmoved⟩
    cases hnone.symm.trans hmoved
  have hsupported := unsupported?_of_advances hdecoded hbody hdestination hdadd
  rcases context.run_cases hsupported
      fun _ => Instruction.hasOwnCode_of_advances hbody with
    ⟨hemulated, hrun⟩ | ⟨hemulated, hrun⟩ | hrun <;> rw [hrun]
  -- The code of a return does not mention the source.  What it pops is what the
  -- source would have read, and it moves the stack pointer by the same step.
  · rcases hreturn.1 hemulated with ⟨rfl, rfl⟩
    exact movesOn_of_movedOn (context.movedOn_ret .word) (hresult (.inl hemulated))
  · rcases hreturn.2 hemulated with ⟨rfl, rfl⟩
    exact movesOn_of_movedOn (context.movedOn_ret .address) (hresult (.inr hemulated))
  · exact context.movesOn_body hdecoded hbody hdestination hdadd hpush

end Body

end Context
/-!
# Whole instructions
-/

/-- The width in which a pointer to values of a width moves: pointers to addresses
move in twenty bits, the others in sixteen. -/
def pointerWidth (width : Width) : Width :=
  if width = .address then .address else .word

theorem stepWidth_autoIncrementStep (r : Register) (width : Width) :
    stepWidth (autoIncrementStep r width) = pointerWidth width := by
  cases width with
  | address | word => rfl
  | byte =>
      show stepWidth (if r.isGeneralPurpose then 1 else 2) = .word
      split <;> rfl

/-- Without a prefix word, a register moves on in the address space of its
instruction. -/
theorem stepWidth_eq {inst : Instruction} (hdecoded : inst.Decoded)
    (hextension : inst.extension = none) {r : Register} {step : Nat}
    (hmem : .autoIncrement r step ∈ inst.body.operands) :
    stepWidth step = inst.stepSpace := by
  have hfits := hdecoded.widthFits
  rcases hdecoded.advances hmem with ⟨hbody, rfl, _⟩
  rw [stepWidth_autoIncrementStep]
  unfold Instruction.stepSpace pointerWidth
  by_cases hformat : inst.format = .address
  · have hwidth : inst.width = .address := by
      unfold Instruction.format Instruction.opcode at hformat
      generalize inst.body = body at *
      cases hbody with
      | single _ | double _ _ => cases hformat
      | calla | mova _ => exact hfits.2
    rw [if_pos hwidth, if_pos hformat]
  · have hwidth := hdecoded.width_ne_address hextension hformat hmem
    rw [if_neg hwidth, if_neg hformat]

/-- A register that moves on is not where it was. -/
theorem truncate_step_ne (r : Register) (width space : Width) (value : Nat) :
    space.truncate (value + autoIncrementStep r width) ≠ value := by
  have hstep : 0 < autoIncrementStep r width ∧ autoIncrementStep r width ≤ 4 := by
    unfold autoIncrementStep
    split
    · decide
    · split <;> decide
    · decide
  unfold Width.truncate Width.modulus
  split <;> omega

theorem body_ne_jump_of_advances {body : Body Operand} {r : Register} {step : Nat}
    (h : body.Advances r step) (condition : Condition) (offset : Int) :
    body ≠ .jump condition offset := by
  cases h <;> exact nofun

/-- The code of an instruction moves the register on, or leaves by its result before
it does. -/
theorem exists_movesOn (options : Options) (buffer : IL.Buffer) {inst : Instruction}
    (hdecoded : inst.Decoded) {r : Register} {step : Nat}
    (hsource : inst.source? = some (.autoIncrement r step))
    (hdadd : inst.opcode ≠ .double .dadd) (hpush : inst.opcode ≠ .single .push)
    (hdestination : inst.destination? ≠ some (.register r)) (state : State) :
    exists exit last,
      RunsTo (appended buffer options inst) state exit last ∧
        (¬ inst.LeavesByResult -> MovedOn r step state (exit, last)) ∧
        (inst.LeavesByResult -> last.regs r = state.regs r) := by
  rcases hdecoded.advances (mem_operands_of_source? hsource) with
    ⟨hbody, hstep, honce⟩
  have hmoves := (Context.of options buffer.known inst).movesOn_run hdecoded hbody
    hdestination hstep hdadd hpush { temp := 0, label := 0 } state
  have hrun := runsTo_run options buffer honce (body_ne_jump_of_advances hbody) state
  exact ⟨_, _, hrun, hmoves⟩

/-- A source that is read through a register moves it on by its step, in the address
space of the instruction, also where control leaves.  Only an instruction that writes
its result to the program counter loses the step. -/
theorem autoIncrement_kept_iff (options : Options) (buffer : IL.Buffer)
    {inst : Instruction} (hdecoded : inst.Decoded) (hextension : inst.extension = none)
    {r : Register} {step : Nat} (hsource : inst.source? = some (.autoIncrement r step))
    (hdadd : inst.opcode ≠ .double .dadd) (hpush : inst.opcode ≠ .single .push)
    (hdestination : inst.destination? ≠ some (.register r)) (state : State) :
    exists exit last,
      RunsTo (appended buffer options inst) state exit last ∧
        (last.regs r = inst.stepSpace.truncate (state.regs r + step) ↔
          ¬ inst.LeavesByResult) := by
  have hmem : .autoIncrement r step ∈ inst.body.operands :=
    mem_operands_of_source? hsource
  rcases exists_movesOn options buffer hdecoded hsource hdadd hpush hdestination state
    with ⟨exit, last, hrun, hmoved, hkept⟩
  unfold MovedOn at hmoved
  rw [stepWidth_eq hdecoded hextension hmem] at hmoved
  refine ⟨exit, last, hrun, ?_, hmoved⟩
  intro heq hleaves
  rw [hkept hleaves, (hdecoded.advances hmem).2.1] at heq
  exact truncate_step_ne _ _ _ _ heq.symm

/-- Jumps to what is read through a register that moves on. -/
def branchThrough : Instruction where
  address := 0x4400
  width := .word
  extension := none
  body := .double .mov (.autoIncrement .r5 2) (.register .pc)
  length := 2

theorem autoIncrement_kept_iff_branch :
    exists exit last,
      RunsTo (appended (.empty 0x4400) .standard branchThrough)
          ⟨fun _ => 0xfffe, fun _ => false, fun _ => 0, fun _ => 0⟩ exit last ∧
        last.regs .r5 = 0 := by
  rcases @autoIncrement_kept_iff .standard (.empty 0x4400) branchThrough
      ⟨.msp430, [0x30, 0x45], 0x4400, rfl⟩ rfl .r5 2 rfl nofun nofun nofun
      ⟨fun _ => 0xfffe, fun _ => false, fun _ => 0, fun _ => 0⟩ with
    ⟨exit, last, hrun, hmoves⟩
  refine ⟨exit, last, hrun, hmoves.mpr ?_⟩
  rintro ⟨_, hmoved⟩
  cases hmoved

/-- Adds to the program counter what is read through a register that moves on. -/
def addThrough : Instruction :=
  { branchThrough with body := .double .add (.autoIncrement .r5 2) (.register .pc) }

/-- The sum leaves before the register has moved on. -/
theorem autoIncrement_lost :
    decode .msp430 [0x30, 0x55] 0x4400 = .ok addThrough ∧
      exists state exit last,
        state.regs .r5 < Width.word.modulus ∧
          RunsTo (appended (.empty 0x4400) .standard addThrough) state exit last ∧
          last.regs .r5 ≠ Width.word.truncate (state.regs .r5 + 2) := by
  refine ⟨rfl, ⟨fun _ => 0, fun _ => false, fun _ => 0, fun _ => 0⟩, _, _, by decide,
    .next rfl (.next rfl (.next rfl (.next rfl (.next rfl (.next rfl
      (.leave rfl)))))), ?_⟩
  exact nofun

end Lift
end MSP430
