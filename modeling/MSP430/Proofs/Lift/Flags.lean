import MSP430.Proofs.Lift.AutoIncrement
import MSP430.Proofs.Lift.Coherence

/-!
# The flags that an instruction sets

Flags are set in three ways: a computation sets those of its rule, a write to the status
register sets all of them, and so does a return from an interrupt.  Code that does
neither leaves the flags alone, except that a repetition may clear the carry.
-/

namespace MSP430

open IL (Composes Emit Expr KnownLabels Op RunsTo SparesFlag State)
open IL.Emit (Emits EmitsCode)

/-- The rule of the flags that a body computes. -/
def Body.rule? : Body Operand -> Option FlagRule
  | .single .rrc _ => some (.rrc 1)
  | .single .rra _ => some (.rra 1)
  | .single .sxt _ => some .sxt
  | .shift opcode count _ => some (Lift.Context.shiftRule opcode count)
  | body => body.opcode.flagRule?

/-- The flags that the code of a body may set. -/
inductive Body.SetsFlag (body : Body Operand) (flag : Flag) : Prop where
  | computed {rule : FlagRule} :
      body.rule? = some rule -> flag ∈ rule.group.flags -> SetsFlag body flag
  | written :
      Lift.writtenOperand? body = some (.register .sr) -> SetsFlag body flag
  | popped : body = .reti -> SetsFlag body flag

/-!
# Names
-/

/-- An instruction that is named for a flag writes the status register. -/
theorem Instruction.written_of_shortcut {inst : Instruction} {emulated : Emulated}
    (h : inst.emulated? = some emulated)
    (hflag : (Lift.flagShortcut? emulated).isSome) :
    Lift.writtenOperand? inst.body = some (.register .sr) := by
  have hown : Lift.hasOwnCode emulated = true := by
    cases emulated <;> first | rfl | cases hflag
  have hbody := Lift.ownCode_of_emulated? h hown
  generalize inst.body = body at hbody
  cases hbody with
  | ret _ | reta _ | nop _ => cases hflag
  | clear _ | set _ => rfl

namespace Lift

section

variable {flag : Flag}

/-!
# Operands
-/

theorem sparesFlag_branchTo (known : KnownLabels) (target : Expr) :
    SparesFlag flag [branchTo known target] := by
  apply SparesFlag.single
  unfold branchTo
  split <;> exact nofun

theorem sparesFlag_setRegister (register : Register) (width : Width) (value : Expr) :
    SparesFlag flag [setRegister register width value] := by
  apply SparesFlag.single
  cases width <;> exact nofun

theorem sparesFlag_postIncrement (operand : Operand) :
    SparesFlag flag (postIncrement operand) :=
  (sparesFlags_postIncrement operand).spares flag

/-- Writing sets flags only where the status register is written. -/
theorem sparesFlag_write (known : KnownLabels) (space width : Width) (value : Expr)
    {operand : Operand} (h : operand ≠ .register .sr) :
    SparesFlag flag ((Place.of space operand).write known width value) := by
  cases operand with
  | register r =>
      cases r with
      | pc => exact sparesFlag_branchTo known value
      | cg => exact SparesFlag.single nofun
      | sr => exact absurd rfl h
      | _ => exact sparesFlag_setRegister _ width value
  | _ => exact SparesFlag.single nofun

theorem sparesFlag_save (width : Width) (value : Expr) :
    Emits (SparesFlag flag) (fun _ => True) (Emit.save width value) :=
  .save (fun _ => .single nofun) fun _ => trivial

theorem sparesFlag_snapshot (width : Width) (value : Expr) :
    Emits (SparesFlag flag) (fun _ => True) (Emit.snapshot width value) :=
  .snapshot trivial (fun _ => .single nofun) fun _ => trivial

namespace Context

variable (context : Context)

/-!
# Results
-/

theorem sparesFlag_writeAndAdvance {destination : Operand}
    (h : destination ≠ .register .sr) (value : Expr) (source : Operand) :
    EmitsCode (SparesFlag flag) (do
      context.write destination value
      Emit.ops (postIncrement source)) :=
  Emits.seq (.ops (sparesFlag_write _ _ _ value h))
    (.ops (sparesFlag_postIncrement source))

theorem sparesFlag_movePc (source : Operand) :
    EmitsCode (SparesFlag flag) (context.move source (.register .pc)) := by
  have htarget : Emits (SparesFlag flag) (fun _ => True)
      (context.moveTarget source) := by
    unfold moveTarget
    split
    · exact .pure trivial
    · exact sparesFlag_save _ _
    · exact .pure trivial
  rw [context.move_pc]
  apply htarget.bind
  intro target _
  exact Emits.seq (.ops (sparesFlag_postIncrement source))
    (.op (sparesFlag_branchTo _ _))

theorem sparesFlag_move (source : Operand) {destination : Operand}
    (h : destination ≠ .register .sr) :
    EmitsCode (SparesFlag flag) (context.move source destination) := by
  by_cases hpc : destination = .register .pc
  · rw [hpc]
    exact context.sparesFlag_movePc source
  · unfold move
    split
    · exact absurd rfl hpc
    · split
      · exact .op (.single nofun)
      · exact .ops (sparesFlag_write _ _ _ _ h)
    · exact context.sparesFlag_writeAndAdvance h _ source

/-- Only the flags of the rule are set. -/
theorem sparesFlag_resultAndFlags {rule : FlagRule} (h : flag ∉ rule.group.flags)
    (a b value : Expr) :
    Emits (SparesFlag flag) (fun _ => True) (context.resultAndFlags rule a b value) := by
  unfold resultAndFlags
  apply (sparesFlag_save _ _).bind
  intro result _
  refine Emits.seq (.ops ?_) (.pure trivial)
  intro op hmem
  rcases List.mem_map.mp hmem with ⟨⟨other, value⟩, hlisted, rfl⟩
  rcases List.mem_map.mp hlisted with ⟨_, hgroup, hpair⟩
  cases hpair
  intro heq
  cases Option.some.inj heq
  exact h hgroup

theorem sparesFlag_replaceOperand {rule : FlagRule} (h : flag ∉ rule.group.flags)
    {operand : Operand} (hsr : operand ≠ .register .sr) (compute : Expr -> Expr) :
    EmitsCode (SparesFlag flag) (context.replaceOperand rule operand compute) := by
  unfold replaceOperand
  refine (sparesFlag_snapshot _ _).bind fun a _ => ?_
  refine (context.sparesFlag_resultAndFlags h _ _ _).bind fun result _ => ?_
  exact context.sparesFlag_writeAndAdvance hsr result operand

/-!
# The stack
-/

theorem sparesFlag_push (width : Width) (value : Expr) :
    SparesFlag flag (context.push width value) :=
  Composes.cons (.single nofun) (.single nofun)

theorem sparesFlag_pop (width : Width) :
    Emits (SparesFlag flag) (fun _ => True) (context.pop width) := by
  apply (sparesFlag_save width _).bind
  intro value _
  exact Emits.seq (.op (.single nofun)) (.pure trivial)

theorem sparesFlag_ret (width : Width) :
    EmitsCode (SparesFlag flag) (context.ret width) :=
  (context.sparesFlag_pop width).bind fun _ _ => .op (.single nofun)

theorem sparesFlag_pushOperand (operand : Operand) :
    EmitsCode (SparesFlag flag) (context.pushOperand operand) := by
  have hpush : forall value, EmitsCode (SparesFlag flag) (do
      Emit.ops (context.push context.width value)
      Emit.ops (postIncrement operand)) := fun value =>
    Emits.seq (.ops (context.sparesFlag_push _ value))
      (.ops (sparesFlag_postIncrement operand))
  unfold pushOperand
  dsimp only
  split
  · exact hpush _
  · exact (sparesFlag_save _ _).bind fun value _ => hpush value

theorem sparesFlag_pushRange (count : Nat) (highest : Register) :
    SparesFlag flag (context.pushRange count highest) :=
  Composes.flatMap fun _ _ => context.sparesFlag_push _ _

theorem sparesFlag_popRange (count : Nat) (highest : Register) :
    SparesFlag flag (context.popRange count highest) :=
  Composes.flatMap fun _ _ => Composes.cons (.single nofun) (.single nofun)

/-!
# Control
-/

theorem sparesFlag_call (target : Operand) :
    EmitsCode (SparesFlag flag) (context.call target) := by
  unfold call
  split
  · refine (sparesFlag_save _ _).bind fun location _ => ?_
    exact Emits.seq (.op (.single nofun)) (.op (.single nofun))
  · exact .op (.single nofun)
  · exact .op (.single nofun)

theorem sparesFlag_jump (condition : Condition) (offset : Int) :
    EmitsCode (SparesFlag flag) (context.jump condition offset) := by
  apply context.emits_jump
  intro op hop
  cases hop with
  | leave => exact sparesFlag_branchTo _ _
  | choose _ _ | mark _ | arm => exact .single nofun

/-!
# Whole runs
-/

section

variable {body : Body Operand} (h : ¬ body.SetsFlag flag)

include h

theorem ne_status {operand : Operand} (hwritten : writtenOperand? body = some operand) :
    operand ≠ .register .sr := by
  rintro rfl
  exact h (.written hwritten)

theorem sparesFlag_body : EmitsCode (SparesFlag flag) (context.body body) := by
  have hall : flag ∈ FlagWrite.all.flags := by
    cases flag <;> decide
  cases body with
  | reti => exact absurd (.popped rfl) h
  | jump condition offset => exact context.sparesFlag_jump condition offset
  | calla target => exact context.sparesFlag_call target
  | single opcode target =>
      cases opcode with
      | rrc | rra | sxt => exact absurd (.computed rfl hall) h
      | swpb => exact context.sparesFlag_writeAndAdvance (ne_status h rfl) _ target
      | push => exact context.sparesFlag_pushOperand target
      | call => exact context.sparesFlag_call target
  | double opcode source destination =>
      cases opcode with
      | mov => exact context.sparesFlag_move source (ne_status h rfl)
      | bic | bis => exact context.sparesFlag_writeAndAdvance (ne_status h rfl) _ source
      | dadd => exact .op (.single nofun)
      | _ => exact absurd (.computed rfl hall) h
  | address opcode source destination =>
      cases opcode with
      | mova => exact context.sparesFlag_move source (ne_status h rfl)
      | _ => exact absurd (.computed rfl hall) h
  | multiple opcode count highest =>
      cases opcode with
      | pushm => exact .ops (context.sparesFlag_pushRange count highest)
      | popm => exact .ops (context.sparesFlag_popRange count highest)
  | shift opcode count destination =>
      exact context.sparesFlag_replaceOperand (fun hgroup => h (.computed rfl hgroup))
        (ne_status h rfl) _

end

theorem sparesFlag_run {inst : Instruction} (h : ¬ inst.body.SetsFlag flag) :
    EmitsCode (SparesFlag flag) (context.run inst) := by
  unfold run
  split
  · exact .op (.single nofun)
  · split
    · exact context.sparesFlag_ret _
    · exact context.sparesFlag_ret _
    · exact .op (.single nofun)
    · next emulated _ _ _ hemulated =>
        split
        · next hshortcut =>
            have hsome := Option.isSome_of_eq_some hshortcut
            exact absurd (.written (inst.written_of_shortcut hemulated hsome)) h
        · exact context.sparesFlag_body h
    · exact context.sparesFlag_body h

end Context

/-- A decoded instruction changes no flag but those that its body sets, and the carry
where a repetition clears it. -/
theorem flags_kept (options : Options) (start : UInt64) (known : KnownLabels)
    {inst : Instruction} (h : ¬ inst.body.SetsFlag flag)
    (hcarry : inst.clearsCarry = true -> flag ≠ .c) {state last : State} {exit : IL.Exit}
    (hrun : RunsTo (into (.withLabels start known) options inst).ops state exit last) :
    last.flags flag = state.flags flag := by
  have hspares : EmitsCode (SparesFlag flag) (emit options known inst) := by
    apply emits_repeating_of _ _ (Context.sparesFlag_run _ h)
    · intro extension hextension hzero
      have hclears : inst.clearsCarry = true := by
        unfold Instruction.clearsCarry
        rw [hextension]
        exact hzero
      exact SparesFlag.single fun heq => hcarry hclears (Option.some.inj heq).symm
    · intro counter zeroCarry op _ _ hop
      apply SparesFlag.single
      rw [hop]
      exact nofun
  exact (hspares.code _).runs_flags hrun fun _ => id

end

end Lift
end MSP430
