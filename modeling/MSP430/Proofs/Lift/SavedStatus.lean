import MSP430.Proofs.Lift.Pop
import MSP430.Proofs.Lift.PushRange

/-!
# The saved status register

Pushing the status register stores it with the live flags in its bits.  Popping it, and
returning from an interrupt, take the word apart again.  The two do so in different
orders: a pop moves the stack pointer past the word last, and a return moves it as soon
as the word is kept.  Neither order can be seen afterwards, and the memory between the
stack and what is saved there may change in any way in the meantime.
-/

namespace MSP430

open IL (Emit Expr RunsTo State Supply outcome)
open IL.Emit (Reaches)

/-- An instruction on words without a prefix word. -/
structure Instruction.Plain (inst : Instruction) (body : Body Operand) : Prop where
  extension : inst.extension = none
  width : inst.width = .word
  body : inst.body = body

namespace Instruction.Plain

variable {inst : Instruction}

theorem addressWidthOf {body : Body Operand} (h : inst.Plain body)
    (hformat : body.opcode.format ≠ .address) :
    Lift.Context.addressWidthOf inst = .word := by
  have hformat' : inst.format ≠ .address := by
    unfold Instruction.format Instruction.opcode
    rw [h.body]
    exact hformat
  unfold Lift.Context.addressWidthOf Instruction.isExtended
  simp [h.extension, h.width, hformat']

theorem ne_jump {body : Body Operand} (h : inst.Plain body)
    (hbody : forall condition offset, body ≠ .jump condition offset)
    (condition : Condition) (offset : Int) : inst.body ≠ .jump condition offset := by
  rw [h.body]
  exact hbody condition offset

theorem emulated?_eq {opcode : DoubleOpcode} {source destination : Operand}
    (h : inst.Plain (.double opcode source destination)) :
    inst.emulated? = Emulated.ofDouble? opcode .word false source destination := by
  unfold Instruction.emulated? Instruction.isExtended
  rw [h.body, h.width, h.extension]
  rfl

end Instruction.Plain

/-- The status register, as programs see it, and the flags are those of another
state. -/
def IL.State.SameStatus (first second : State) : Prop :=
  Width.word.truncate first.status = Width.word.truncate second.status ∧
    first.flags = second.flags

namespace Lift

/-!
# The word on top of the stack
-/

/-- The word that the stack pointer points to. -/
def topWord (state : State) : Nat :=
  state.load .word (Width.word.truncate (state.regs .sp))

/-- The state after the word on top of the stack has become the status register. -/
def statusPopped (state : State) : State :=
  popped (withStatus state (topWord state))

theorem topWord_lt (state : State) : topWord state < Width.word.modulus :=
  Width.word.truncate_lt _

theorem topWord_congr {first second : State} (h : first.SameVisible second) :
    topWord first = topWord second := by
  unfold topWord State.load
  rw [h.regs, h.memory]

theorem popped_sameVisible {first second : State} (h : first.SameVisible second) :
    (popped first).SameVisible (popped second) where
  regs := by simp only [popped, State.setReg, h.regs]
  flags := h.flags
  memory := h.memory

theorem popped_setTemp_sameVisible (state : State) (index value : Nat) :
    (popped (state.setTemp index value)).SameVisible (popped state) :=
  ⟨rfl, rfl, rfl⟩

/-- Moving the stack pointer first makes no difference to the status register. -/
theorem withStatus_popped (state : State) (value : Nat) :
    withStatus (popped state) value = popped (withStatus state value) := by
  have hcomm := setReg_comm state (nofun : Register.sr ≠ .sp) value
    (Width.word.truncate (state.regs .sp + 2))
  exact congrArg (fun after : State => { after with
    flags := fun flag => value.testBit flag.bit }) hcomm.symm

theorem status_statusPopped (state : State) :
    (statusPopped state).status = topWord state :=
  status_withStatus state (topWord state)

theorem flags_statusPopped (state : State) :
    (statusPopped state).flags = fun flag => (topWord state).testBit flag.bit :=
  rfl

@[simp] theorem popped_sp (state : State) :
    (popped state).regs .sp = Width.word.truncate (state.regs .sp + 2) := by
  simp [popped, State.setReg]

@[simp] theorem statusPopped_sp (state : State) :
    (statusPopped state).regs .sp = Width.word.truncate (state.regs .sp + 2) := by
  simp [statusPopped, withStatus, State.setReg]

namespace Context

variable (context : Context) (hspace : context.addressWidth = .word)

include hspace

theorem eval_topWord (state : State) :
    (Expr.load .word (context.stackTop .word)).eval state = topWord state := by
  unfold stackTop stackWidth
  rw [hspace]
  rfl

theorem outcome_pop (supply : Supply) (state : State) :
    outcome (context.pop .word supply).code state =
      (.fallThrough, popped (state.setTemp supply.temp (topWord state))) := by
  have hvalue := context.eval_topWord hspace state
  show outcome (.setTemp .word supply.temp _ :: postIncrement (.autoIncrement .sp 2))
    state = _
  rw [IL.outcome_setTemp, hvalue, Width.truncate_of_lt (topWord_lt state)]
  exact outcome_postIncrement (.autoIncrement .sp 2) _

theorem outcome_ret (supply : Supply) (state : State) :
    outcome (context.ret .word supply).code state =
      (.ret (topWord state),
        popped (state.setTemp supply.temp (topWord state))) := by
  have hkept : (Expr.temp .word supply.temp).eval
      (popped (state.setTemp supply.temp (topWord state))) = topWord state := by
    show Width.word.truncate (if supply.temp = supply.temp then _ else _) = _
    rw [if_pos rfl, Width.truncate_of_lt (topWord_lt state)]
  show outcome ((context.pop .word supply).code ++ [.ret (.temp .word supply.temp)])
    state = _
  rw [IL.outcome_append, context.outcome_pop hspace, IL.Outcome.fallThrough_andThen]
  exact congrArg (fun target => (IL.Exit.ret target, _)) hkept

/-- A return from an interrupt pops the status register and then returns. -/
theorem outcome_reti (supply : Supply) (state : State) :
    exists after,
      after.SameVisible (statusPopped state) ∧
        outcome (context.reti supply).code state =
          (.ret (topWord after),
            popped (after.setTemp (supply.temp + 1) (topWord after))) := by
  let kept := state.setTemp supply.temp (topWord state)
  have hkept : (Expr.temp .word supply.temp).eval (popped kept) = topWord state := by
    show Width.word.truncate (if supply.temp = supply.temp then _ else _) = _
    rw [if_pos rfl, Width.truncate_of_lt (topWord_lt state)]
  have hwrite := outcome_writeStatus context.known hkept (topWord_lt state)
  refine ⟨withStatus (popped kept) (topWord state), ?_, ?_⟩
  · rw [withStatus_popped]
    exact popped_sameVisible ⟨rfl, rfl, rfl⟩
  · show outcome ((context.pop .word supply).code ++
      ((Place.register .sr).write context.known .word (.temp .word supply.temp) ++
        (context.ret .word { supply with temp := supply.temp + 1 }).code)) state = _
    rw [IL.outcome_append, context.outcome_pop hspace, IL.Outcome.fallThrough_andThen,
      IL.outcome_append, hwrite, IL.Outcome.fallThrough_andThen]
    exact context.outcome_ret hspace _ _

end Context

/-!
# The instructions
-/

section

variable (options : Options) (buffer : IL.Buffer) {inst : Instruction} (state : State)

theorem exists_runsTo_pushStatus (h : inst.Plain (.single .push (.register .sr))) :
    exists saved,
      RunsTo (appended buffer options inst) state .fallThrough saved ∧
        saved.SameVisible (pushed .word (Width.word.truncate state.status) state) := by
  rcases (Context.of options buffer.known inst).exists_reaches_pushOperand
      (Context.addressWidthOf_ne_byte inst) (.register .sr) { temp := 0, label := 0 }
      state with ⟨kept, hsame, hreaches⟩
  rw [← Context.run_push h.body] at hreaches
  have hrun := runsTo_of_reaches options buffer (.inl h.extension) (h.ne_jump nofun) hreaches
  have hwidth : (Context.of options buffer.known inst).width = .word := h.width
  rw [hwidth] at hrun
  exact ⟨_, hrun, pushed_sameVisible .word _ hsame⟩

theorem runsTo_popStatus
    (h : inst.Plain (.double .mov (.autoIncrement .sp 2) (.register .sr))) :
    RunsTo (appended buffer options inst) state .fallThrough (statusPopped state) := by
  let context := Context.of options buffer.known inst
  have hspace : context.addressWidth = .word := h.addressWidthOf nofun
  have hwidth : context.width = .word := h.width
  have hname : inst.emulated? = some .pop := h.emulated?_eq
  have hbody : context.run inst =
      context.move (.autoIncrement .sp 2) (.register .sr) := by
    rw [context.run_eq_body, h.body]
    · rfl
    · rw [h.body]
      rfl
    · rw [hname]
      rintro emulated ⟨⟩
      rfl
  have hvalue : (context.read (.autoIncrement .sp 2)).eval state = topWord state := by
    unfold Context.read Context.place
    rw [hspace, hwidth]
    rfl
  have hwrite := outcome_writeStatus context.known hvalue (topWord_lt state)
  apply runsTo_of_reaches options buffer (.inl h.extension) (h.ne_jump nofun)
  rw [hbody]
  unfold Context.move
  rw [← hwidth] at hwrite
  exact Reaches.bind (.ops hwrite) (.ops (outcome_postIncrement _ _))

theorem exists_runsTo_ret
    (h : inst.Plain (.double .mov (.autoIncrement .sp 2) (.register .pc))) :
    exists last,
      RunsTo (appended buffer options inst) state (.ret (topWord state)) last ∧
        last.SameVisible (popped state) := by
  let context := Context.of options buffer.known inst
  have hname : inst.emulated? = some .ret := h.emulated?_eq
  have hsupported : unsupported? inst.body = none := by
    rw [h.body]
    rfl
  have hbody : context.run inst = context.ret .word := by
    unfold Context.run
    rw [hsupported, hname]
    rfl
  have hrun := runsTo_run options buffer (.inl h.extension) (h.ne_jump nofun) state
  rw [hbody, context.outcome_ret (h.addressWidthOf nofun)] at hrun
  exact ⟨_, hrun, popped_setTemp_sameVisible state _ _⟩

theorem exists_runsTo_reti (h : inst.Plain .reti) :
    exists last,
      RunsTo (appended buffer options inst) state (.ret (topWord (statusPopped state)))
          last ∧
        last.SameVisible (popped (statusPopped state)) := by
  let context := Context.of options buffer.known inst
  have hrun := runsTo_run options buffer (.inl h.extension) (h.ne_jump nofun) state
  rcases context.outcome_reti (h.addressWidthOf nofun) { temp := 0, label := 0 } state with
    ⟨after, hsame, houtcome⟩
  rw [context.run_of_body h.body rfl rfl] at hrun
  unfold Context.body at hrun
  rw [houtcome, topWord_congr hsame] at hrun
  exact ⟨_, hrun, (popped_setTemp_sameVisible after _ _).trans (popped_sameVisible hsame)⟩

end

/-!
# Saving and restoring
-/

/-- Whatever else has happened, what was pushed is popped again. -/
theorem statusPopped_of_saved {state middle : State}
    (hsp : middle.regs .sp = pushedTo .word .word state)
    (hword : middle.load .word (middle.regs .sp) = Width.word.truncate state.status) :
    (statusPopped middle).SameStatus state ∧
      (statusPopped middle).regs .sp = Width.word.truncate (state.regs .sp) := by
  have hlt : middle.regs .sp < Width.word.modulus := by
    rw [hsp]
    exact Width.word.ofInt_lt _
  have htop : topWord middle = Width.word.truncate state.status := by
    unfold topWord
    rw [Width.truncate_of_lt hlt, hword]
  refine ⟨⟨?_, ?_⟩, ?_⟩
  · rw [status_statusPopped, htop, Width.truncate_truncate]
  · funext flag
    rw [flags_statusPopped, htop, flags_eq_testBit state]
    dsimp only
    rw [Width.testBit_truncate]
    cases flag <;> exact Bool.true_and _
  · rw [statusPopped_sp, hsp]
    simp only [pushedTo, stackStep, Width.truncate, Width.ofInt, Width.modulus]
    omega

/-- A pop of the status register restores what a push has saved, whatever has happened
to the rest of the machine in between: the register as programs see it, the flags and
the stack pointer.  So does a return from an interrupt, which takes its target from the
word above.  From every state on, that return does what the pop and then a return
do. -/
theorem saved_status_restored (options : Options) (buffers : Instruction -> IL.Buffer)
    {push pop ret reti : Instruction}
    (hpush : push.Plain (.single .push (.register .sr)))
    (hpop : pop.Plain (.double .mov (.autoIncrement .sp 2) (.register .sr)))
    (hret : ret.Plain (.double .mov (.autoIncrement .sp 2) (.register .pc)))
    (hreti : reti.Plain .reti) :
    let runs := fun inst => RunsTo (appended (buffers inst) options inst)
    (forall state, state.regs .sp < Width.word.modulus ->
      exists saved,
        runs push state .fallThrough saved ∧
          forall middle, middle.regs .sp = saved.regs .sp ->
            middle.load .word (middle.regs .sp) =
              saved.load .word (saved.regs .sp) ->
            let target := middle.load .word
              (Width.word.truncate (middle.regs .sp + 2))
            (exists last,
              runs pop middle .fallThrough last ∧
                last.SameStatus state ∧ last.regs .sp = state.regs .sp) ∧
            exists last,
              runs reti middle (.ret target) last ∧
                last.SameStatus state ∧
                last.regs .sp = Width.word.truncate (state.regs .sp + 2)) ∧
    (forall state,
      exists target restored returned last,
        runs pop state .fallThrough restored ∧
          runs ret restored (.ret target) returned ∧
          runs reti state (.ret target) last ∧
          last.SameVisible returned) := by
  refine ⟨?_, ?_⟩
  · intro state hstack
    rcases exists_runsTo_pushStatus options (buffers push) state hpush with
      ⟨saved, hrun, hsaved⟩
    refine ⟨saved, hrun, ?_⟩
    intro middle hsp hword
    have hload := load_pushed (Width.word.truncate_lt state.status) state
    unfold State.load at hword hload
    rw [hsaved.regs, hsaved.memory, hload] at hword
    rw [hsaved.regs, pushed_sp] at hsp
    rcases statusPopped_of_saved hsp hword with ⟨hstatus, hrestored⟩
    have hbase : (statusPopped middle).regs .sp = state.regs .sp :=
      hrestored.trans (Width.truncate_of_lt hstack)
    refine ⟨⟨_, runsTo_popStatus options (buffers pop) middle hpop, hstatus, hbase⟩, ?_⟩
    rcases exists_runsTo_reti options (buffers reti) middle hreti with
      ⟨last, hreturn, hlast⟩
    have htarget : topWord (statusPopped middle) =
        middle.load .word (Width.word.truncate (middle.regs .sp + 2)) := by
      unfold topWord
      rw [statusPopped_sp, Width.truncate_truncate]
      rfl
    rw [htarget] at hreturn
    refine ⟨last, hreturn, ⟨?_, ?_⟩, ?_⟩
    · unfold State.status
      rw [hlast.regs, hlast.flags]
      exact hstatus.1
    · exact hlast.flags.trans hstatus.2
    · rw [hlast.regs, popped_sp, hbase]
  · intro state
    rcases exists_runsTo_ret options (buffers ret) (statusPopped state) hret with
      ⟨returned, hreturn, hreturned⟩
    rcases exists_runsTo_reti options (buffers reti) state hreti with
      ⟨last, hlast, hvisible⟩
    exact ⟨_, _, returned, last, runsTo_popStatus options (buffers pop) state hpop,
      hreturn, hlast, hvisible.trans hreturned.symm⟩

/-- An instruction of one word that works on words. -/
def plain (body : Body Operand) : Instruction where
  address := 0x4400
  width := .word
  extension := none
  body := body
  length := 2

theorem plain_plain (body : Body Operand) : (plain body).Plain body :=
  ⟨rfl, rfl, rfl⟩

/-- The status register is saved with all flags set, and restored. -/
theorem saved_status_restored_flags :
    let push := plain (.single .push (.register .sr))
    let pop := plain (.double .mov (.autoIncrement .sp 2) (.register .sr))
    let state := { allRegisters 0x8000 with flags := fun _ => true }
    decode .msp430 [0x02, 0x12] 0x4400 = .ok push ∧
      decode .msp430 [0x32, 0x41] 0x4400 = .ok pop ∧
      decode .msp430 [0x30, 0x41] 0x4400 =
        .ok (plain (.double .mov (.autoIncrement .sp 2) (.register .pc))) ∧
      decode .msp430 [0x00, 0x13] 0x4400 = .ok (plain .reti) ∧
      exists saved last,
        RunsTo (appended (.empty 0x4400) .standard push) state .fallThrough saved ∧
          RunsTo (appended (.empty 0x4400) .standard pop) saved .fallThrough last ∧
          last.SameStatus state ∧ last.regs .sp = 0x8000 := by
  refine ⟨rfl, rfl, rfl, rfl, ?_⟩
  rcases (saved_status_restored .standard (fun _ => .empty 0x4400) (plain_plain _)
      (plain_plain _) (plain_plain _) (plain_plain _)).1
      { allRegisters 0x8000 with flags := fun _ => true } (by decide) with
    ⟨saved, hpush, hsaved⟩
  rcases (hsaved saved rfl rfl).1 with ⟨last, hpop, hstatus, hsp⟩
  exact ⟨saved, last, hpush, hpop, hstatus, hsp⟩

end Lift
end MSP430
