import MSP430.Proofs.Lift.Branches
import MSP430.Proofs.Lift.Unimplemented

/-!
# What a host gets

A host asks for the length and the branches of an instruction, for its text and for
its code.  All three are there for the bytes that decode, and for no others.  Where
they are there, neither the text nor the code is empty: whatever an instruction is, a
run of it leaves at least one operation.
-/

namespace MSP430

open IL (Buffer Emit Expr KnownLabels Label Op)
open IL.Emit (Includes)

namespace Lift

/-!
# Runs that emit something
-/

/-- The emission is never empty. -/
abbrev EmitsSome (emit : Emit Unit) : Prop :=
  emit.Includes fun _ => True

namespace Context

variable (context : Context)

theorem emitsSome_write (operand : Operand) (value : Expr) :
    EmitsSome (context.write operand value) := by
  unfold write
  cases context.place operand with
  | memory location => exact .ops List.mem_cons_self trivial
  | value number => exact .ops List.mem_cons_self trivial
  | register r => cases r <;> exact .ops List.mem_cons_self trivial

theorem emitsSome_ret (width : Width) : EmitsSome (context.ret width) :=
  .behind _ fun _ => .op trivial

theorem emitsSome_call (target : Operand) : EmitsSome (context.call target) := by
  unfold call
  split
  · exact .behind _ fun _ => .bind (.op trivial) _
  · exact .op trivial
  · exact .op trivial

theorem emitsSome_jump (condition : Condition) (offset : Int) :
    EmitsSome (context.jump condition offset) := by
  unfold jump
  dsimp only
  split
  · exact .op trivial
  · exact .behind _ fun _ => .behind _ fun _ => .bind (.op trivial) _

theorem emitsSome_move (source destination : Operand) :
    EmitsSome (context.move source destination) := by
  unfold move
  split
  · exact .behind _ fun _ => .behind _ fun _ => .op trivial
  · split
    · exact .op trivial
    · exact context.emitsSome_write _ _
  · exact (context.emitsSome_write _ _).bind _

theorem includes_resultAndFlags (rule : FlagRule) (a b value : Expr) :
    (context.resultAndFlags rule a b value).Includes fun _ => True :=
  .bind (.save fun _ => trivial) _

theorem emitsSome_arithmetic (operation : Arithmetic) (store : Bool)
    (source destination : Operand) :
    EmitsSome (context.arithmetic operation store source destination) := by
  refine .behind _ fun b => .behind _ fun a => ?_
  exact (context.includes_resultAndFlags _ a b _).bind _

theorem emitsSome_replaceOperand (rule : FlagRule) (operand : Operand)
    (compute : Expr -> Expr) :
    EmitsSome (context.replaceOperand rule operand compute) := by
  refine .behind _ fun a => ?_
  exact (context.includes_resultAndFlags rule a a _).bind _

theorem emitsSome_pushOperand (operand : Operand) :
    EmitsSome (context.pushOperand operand) := by
  unfold pushOperand
  dsimp only
  split
  · exact .behind _ fun _ => .bind (.ops List.mem_cons_self trivial) _
  · refine .behind _ fun value => ?_
    exact .bind (.ops List.mem_cons_self trivial) _

/-- A range that holds a register stands for some operations. -/
theorem emitsSome_multiple (opcode : MultipleOpcode) {count : Nat} (h : 1 ≤ count)
    (highest : Register) :
    EmitsSome (context.body (.multiple opcode count highest)) := by
  have hmem : .ofField (highest.id - 0) ∈ registerRange count highest :=
    List.mem_map.mpr ⟨0, List.mem_range.mpr h, rfl⟩
  cases opcode with
  | pushm =>
      exact .ops (List.mem_flatMap.mpr ⟨_, hmem, List.mem_cons_self⟩) trivial
  | popm =>
      have hreversed := List.mem_reverse.mpr hmem
      exact .ops (List.mem_flatMap.mpr ⟨_, hreversed, List.mem_cons_self⟩) trivial

theorem emitsSome_body {body : Body Operand} {width : Width} (h : body.InRange width) :
    EmitsSome (context.body body) := by
  cases body with
  | reti => exact .bind (.bind (.save fun _ => trivial) _) _
  | jump condition offset => exact context.emitsSome_jump condition offset
  | calla target => exact context.emitsSome_call target
  | multiple opcode count highest => exact context.emitsSome_multiple opcode h.1 highest
  | shift opcode count destination => exact context.emitsSome_replaceOperand _ _ _
  | single opcode target =>
      cases opcode with
      | rrc | rra | sxt => exact context.emitsSome_replaceOperand _ _ _
      | swpb => exact (context.emitsSome_write _ _).bind _
      | push => exact context.emitsSome_pushOperand target
      | call => exact context.emitsSome_call target
  | double opcode source destination =>
      cases opcode with
      | mov => exact context.emitsSome_move source destination
      | bic | bis => exact (context.emitsSome_write _ _).bind _
      | dadd => exact .op trivial
      | _ => exact context.emitsSome_arithmetic _ _ source destination
  | address opcode source destination =>
      cases opcode with
      | mova => exact context.emitsSome_move source destination
      | _ => exact context.emitsSome_arithmetic _ _ source destination

theorem emitsSome_run {inst : Instruction} (h : inst.body.InRange inst.width) :
    EmitsSome (context.run inst) := by
  have hbody := context.emitsSome_body h
  unfold run
  split
  · exact .op trivial
  · split
    · exact context.emitsSome_ret .word
    · exact context.emitsSome_ret .address
    · exact .op trivial
    · split
      · exact .op trivial
      · exact hbody
    · exact hbody

end Context

/-- Lifting a decoded instruction appends at least one operation. -/
theorem appended_ne_nil (buffer : Buffer) (options : Options) {inst : Instruction}
    (hdecoded : inst.Decoded) : appended buffer options inst ≠ [] := by
  have hrun := (Context.of options buffer.known inst).emitsSome_run hdecoded.inRange
  rcases includes_emit options buffer.known hrun hdecoded.extension_ne_times_zero
    { temp := 0, label := buffer.supply.label } with ⟨op, hmem, _⟩
  exact List.ne_nil_of_mem hmem

end Lift

/-!
# The three answers
-/

theorem Instruction.tokens_ne_nil (inst : Instruction) : inst.tokens ≠ [] := by
  unfold Instruction.tokens
  exact List.append_ne_nil_of_right_ne_nil _ (List.cons_ne_nil _ _)

namespace Architecture

/-- A host gets the length and the branches, the text and the code of the bytes at an
address together or not at all, with one and the same length.  Bytes that do not decode
leave the buffer as it is.  Otherwise what was in the buffer stays in front, something is
appended, the known labels are the same and the buffer stands at the given address. -/
theorem answers_agree (arch : Architecture) (buffer : Buffer) (data : List UInt8)
    (address : UInt64) :
    match decode arch.variant data address with
    | .error _ =>
        arch.instructionInfo? data address = none ∧
          arch.instructionText? data address = none ∧
          arch.lift buffer data address = (none, buffer)
    | .ok inst =>
        exists info tokens after code,
          arch.instructionInfo? data address = some info ∧
            info.length = inst.length ∧
            arch.instructionText? data address = some (inst.length, tokens) ∧
            tokens ≠ [] ∧
            arch.lift buffer data address =
              (some { length := inst.length, continues := true }, after) ∧
            after.ops = buffer.ops ++ code ∧ code ≠ [] ∧
            after.known = buffer.known ∧ after.address = address := by
  cases hdecode : decode arch.variant data address with
  | error error =>
      have hnone : arch.decode? data address = none := by
        unfold decode?
        rw [hdecode]
      unfold instructionInfo? instructionText? lift
      rw [hnone]
      exact ⟨rfl, rfl, rfl⟩
  | ok inst =>
      have hsome : arch.decode? data address = some inst := by
        unfold decode?
        rw [hdecode]
      have htext : arch.instructionText? data address =
          some (inst.length, inst.tokens) := by
        unfold instructionText?
        rw [hsome]
        rfl
      have hcode := Lift.appended_ne_nil buffer arch.options ⟨_, _, _, hdecode⟩
      exact ⟨_, inst.tokens, Lift.into buffer arch.options inst,
        Lift.appended buffer arch.options inst, instructionInfo?_eq hsome, rfl, htext,
        inst.tokens_ne_nil, lift_eq hsome buffer, Lift.ops_into _ _ _, hcode, rfl,
        address_of_decode? hsome⟩

end Architecture

end MSP430
