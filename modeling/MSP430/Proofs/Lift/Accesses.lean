import MSP430.Proofs.IL.Accesses
import MSP430.Proofs.Lift.Transfer

/-!
# Where instructions reach memory

An operand in memory is one access, through a register or at an address that the
instruction holds.  A run loads each operand that it reads at most once and stores at
most one result, and the stack is reached through the stack pointer only.  Flags are
computed from what has been kept, so that they reach no memory again.
-/

namespace MSP430

open IL (Emit Expr KnownLabels Label Op)
open IL.Emit (Accesses AccessesAt)

/-- The access that an operand in memory stands for: its address as code in the space
has it, if it is a constant. -/
def Operand.accesses (space : Width) : Operand -> List (Option Nat)
  | register _ | immediate _ | constant _ => []
  | indirect _ | autoIncrement _ _ | indexed _ _ => [none]
  | absolute address | symbolic _ address => [some (space.truncate address)]

namespace Body

/-- The operands in memory that a run reads, in the order in which it does.  Popped
values are read through the stack pointer. -/
def loads (space : Width) : Body Operand -> List (Option Nat)
  | reti => [none, none]
  | jump _ _ | shift _ _ _ | multiple .pushm _ _ => []
  | single _ target | calla target => target.accesses space
  | double .mov source _ | address .mova source _ => source.accesses space
  | double .bic source destination | double .bis source destination =>
      destination.accesses space ++ source.accesses space
  | double _ source destination | address _ source destination =>
      source.accesses space ++ destination.accesses space
  | multiple .popm count _ => List.replicate count none

/-- The operands in memory that a run writes; pushed values are written through the
stack pointer. -/
def stores (space : Width) : Body Operand -> List (Option Nat)
  | reti | jump _ _ | calla _ | single .call _ | shift _ _ _ => []
  | double .cmp _ _ | double .bit _ _ | address .cmpa _ _ | multiple .popm _ _ => []
  | single .push _ => [none]
  | single _ target => target.accesses space
  | double _ _ destination | address _ _ destination => destination.accesses space
  | multiple .pushm count _ => List.replicate count none

end Body

namespace IL.Expr

/-!
# Values without loads
-/

@[simp] theorem loads_int (width : Width) (value : Nat) : (int width value).loads = [] :=
  rfl

@[simp] theorem loads_address (width : Width) (value : Nat) :
    (address width value).loads = [] := rfl

/-- Nothing of a flag expression reaches memory if no operand does. -/
theorem loads_flagExpr {operands : FlagRule.Operands} (ha : operands.a.loads = [])
    (hb : operands.b.loads = []) (hcarry : operands.carry.loads = [])
    (hresult : operands.result.loads = []) (rule : FlagRule) (width : Width)
    (flag : Flag) : (rule.flagExpr width operands flag).loads = [] := by
  cases flag with
  | z | n => simp [FlagRule.flagExpr, FlagRule.isZeroExpr, FlagRule.isNegativeExpr, hresult]
  | c =>
      cases rule <;>
        simp [FlagRule.flagExpr, FlagRule.carryExpr, FlagRule.bitSetExpr,
          FlagRule.isNonzeroExpr, Expr.and, ha, hb, hcarry, hresult]
  | v =>
      cases rule <;>
        simp [FlagRule.flagExpr, FlagRule.overflowExpr, FlagRule.isNegativeExpr,
          Expr.and, Expr.xor, ha, hb, hresult]

theorem loads_arithmetic (operation : Lift.Context.Arithmetic) (width : Width)
    {a b : Expr} (ha : a.loads = []) (hb : b.loads = []) :
    (operation.expr width a b).loads = [] := by
  cases operation <;>
    simp [Lift.Context.Arithmetic.expr, Expr.add, Expr.sub, Expr.and, Expr.xor,
      Expr.complement, ha, hb]

theorem loads_swappedBytes (width : Width) (value : Expr) :
    (Lift.Context.swappedBytes width value).loads = value.loads := by
  cases width <;>
    simp [Lift.Context.swappedBytes, Expr.zeroExtend, Expr.rol, Expr.lowPart]

theorem loads_shiftExpr (opcode : ShiftOpcode) (width : Width) (count : Nat) {a : Expr}
    (ha : a.loads = []) : (Lift.Context.shiftExpr opcode width count a).loads = [] := by
  cases opcode <;>
    simp [Lift.Context.shiftExpr, Expr.asr, Expr.lsl, Expr.lsr, Expr.or, ha]

end IL.Expr

namespace Lift

/-!
# Operands
-/

theorem loads_location {space : Width} {operand : Operand} {location : Expr}
    (h : Place.of space operand = .memory location) :
    operand.accesses space = [location.constant?] ∧ location.loads = [] := by
  cases operand <;> cases h <;> exact ⟨rfl, rfl⟩

theorem accesses_of_not_memory {space : Width} {operand : Operand} {place : Place}
    (hplace : Place.of space operand = place)
    (h : forall location, place ≠ .memory location) : operand.accesses space = [] := by
  cases operand with
  | register _ | immediate _ | constant _ => rfl
  | _ => exact absurd hplace.symm (h _)

theorem loads_flagsFromStatus : flagsFromStatus.flatMap Op.loads = [] :=
  rfl

theorem stores_flagsFromStatus : flagsFromStatus.flatMap Op.stores = [] :=
  rfl

theorem loads_setRegister (r : Register) (width : Width) (value : Expr) :
    (setRegister r width value).loads = value.loads := by
  cases width <;> simp [setRegister, Op.loads, Op.exprs, Expr.zeroExtend]

theorem stores_setRegister (r : Register) (width : Width) (value : Expr) :
    (setRegister r width value).stores = [] := by
  cases width <;> rfl

theorem accessesAt_advance (r : Register) (step : Nat) :
    AccessesAt [] [] (Emit.op (advance r step)) :=
  .ops (List.nil_sublist _) (List.nil_sublist _)

theorem accessesAt_branchTo (known : KnownLabels) (target : Expr) :
    AccessesAt target.loads [] (Emit.op (branchTo known target)) := by
  unfold branchTo
  split
  · exact .ops (List.nil_sublist _) (List.nil_sublist _)
  · apply Accesses.ops
    · simp [Op.loads, Op.exprs]
    · exact List.nil_sublist _

namespace Context

variable (context : Context)

theorem loads_read (operand : Operand) :
    (context.read operand).loads = operand.accesses context.addressWidth := by
  unfold read
  cases hplace : context.place operand with
  | memory location =>
      rcases loads_location hplace with ⟨haccesses, hloads⟩
      rw [haccesses, Place.read, Expr.loads_load, hloads]
  | register r =>
      rw [accesses_of_not_memory hplace fun _ h => by cases h]
      cases r <;> rfl
  | value number =>
      rw [accesses_of_not_memory hplace fun _ h => by cases h]
      rfl

/-- Writing an operand reaches what its value reaches, and the operand. -/
theorem accessesAt_write (operand : Operand) (value : Expr) :
    AccessesAt value.loads (operand.accesses context.addressWidth)
      (context.write operand value) := by
  unfold write
  cases hplace : context.place operand with
  | memory location =>
      rcases loads_location hplace with ⟨haccesses, hloads⟩
      rw [haccesses]
      apply Accesses.ops
      · simp [Place.write, Op.loads, Op.exprs, hloads]
      · exact List.Sublist.refl _
  | value number => exact .ops (List.nil_sublist _) (List.nil_sublist _)
  | register r =>
      cases r with
      | pc =>
          exact (accessesAt_branchTo context.known value).mono (List.Sublist.refl _)
            (List.nil_sublist _)
      | cg => exact .ops (List.nil_sublist _) (List.nil_sublist _)
      | sr =>
          apply Accesses.ops
          · simp [Place.write, loads_setRegister, loads_flagsFromStatus]
          · simp [Place.write, stores_setRegister, stores_flagsFromStatus]
      | _ =>
          apply Accesses.ops
          · simp [Place.write, loads_setRegister]
          · simp [Place.write, stores_setRegister]

theorem accessesAt_postIncrement (operand : Operand) :
    AccessesAt [] [] (Emit.ops (postIncrement operand)) := by
  cases operand with
  | autoIncrement r step => exact accessesAt_advance r step
  | _ => exact .ops (List.nil_sublist _) (List.nil_sublist _)

/-!
# The stack
-/

theorem accesses_pop (width : Width) :
    Accesses [none] [] (fun value : Expr => value.loads = []) (context.pop width) := by
  have hsave : Accesses [none] [] (fun kept : Expr => kept.loads = [])
      (Emit.save width (.load width (context.stackTop width))) :=
    Accesses.save width (.load width (context.stackTop width))
  apply hsave.last
  intro value hvalue
  exact (accessesAt_advance .sp (stackStep width)).seq (.pure hvalue)

theorem accessesAt_ret (width : Width) : AccessesAt [none] [] (context.ret width) := by
  unfold ret
  apply (context.accesses_pop width).last
  intro target htarget
  apply Accesses.ops
  · simp [Op.loads, Op.exprs, htarget]
  · exact List.nil_sublist _

theorem accessesAt_reti : AccessesAt [none, none] [] context.reti := by
  unfold reti
  have hrest : forall status : Expr, status.loads = [] ->
      AccessesAt [none] [] (do
        Emit.op (.setReg .word .sr status)
        Emit.ops flagsFromStatus
        context.ret .word) := by
    intro status hstatus
    have hset : AccessesAt [] [] (Emit.op (.setReg .word .sr status)) := by
      apply Accesses.ops
      · simp [Op.loads, Op.exprs, hstatus]
      · exact List.nil_sublist _
    have hflags : AccessesAt [] [] (Emit.ops flagsFromStatus) :=
      .ops (List.nil_sublist _) (List.nil_sublist _)
    exact hset.seq (hflags.seq (context.accessesAt_ret .word))
  exact (context.accesses_pop .word).bind hrest

theorem accessesAt_push (width : Width) (value : Expr) :
    AccessesAt value.loads [none] (Emit.ops (context.push width value)) := by
  apply Accesses.ops
  · simp [push, Op.loads, Op.exprs, retreat, Expr.sub, stackTop]
  · exact List.Sublist.refl _

/-- Each register of a range is one access. -/
theorem flatMap_registerRange (count : Nat) (highest : Register) :
    ((registerRange count highest).flatMap fun _ => [(none : Option Nat)]) =
      List.replicate count none := by
  rw [← List.map_eq_flatMap, List.map_const', registerRange, List.length_map,
    List.length_range]

theorem accessesAt_pushRange (count : Nat) (highest : Register) :
    AccessesAt [] (List.replicate count none)
      (Emit.ops (context.pushRange count highest)) := by
  have hstores : forall r, (context.push context.width (.reg context.width r)).flatMap
      Op.stores = [none] := fun _ => rfl
  apply Accesses.ops
  · simp [pushRange, push, List.flatMap_assoc, Op.loads, Op.exprs, retreat, Expr.sub,
      stackTop]
  · unfold pushRange
    simp only [List.flatMap_assoc, hstores, flatMap_registerRange]
    exact List.Sublist.refl _

theorem accessesAt_popRange (count : Nat) (highest : Register) :
    AccessesAt (List.replicate count none) []
      (Emit.ops (context.popRange count highest)) := by
  have hloads : forall r, [Op.setReg context.width r
      (.load context.width (context.stackTop context.width)),
        advance .sp (stackStep context.width)].flatMap Op.loads = [none] := by
    intro r
    simp [Op.loads, Op.exprs, advance, Expr.add, stackTop, Expr.constant?]
  have hreverse : ((registerRange count highest).reverse.flatMap fun _ =>
      [(none : Option Nat)]) = List.replicate count none := by
    rw [← List.map_eq_flatMap, List.map_reverse, List.map_eq_flatMap,
      flatMap_registerRange, List.reverse_replicate]
  apply Accesses.ops
  · unfold popRange
    simp only [List.flatMap_assoc, hloads, hreverse]
    exact List.Sublist.refl _
  · unfold popRange
    simp [List.flatMap_assoc, Op.stores, advance]

/-!
# Control
-/

theorem accessesAt_call (target : Operand) :
    AccessesAt (target.accesses context.addressWidth) [] (context.call target) := by
  have hread : AccessesAt (target.accesses context.addressWidth) []
      (Emit.op (.call (context.read target))) := by
    apply Accesses.ops
    · simp [Op.loads, Op.exprs, context.loads_read]
    · exact List.nil_sublist _
  unfold call
  cases target with
  | autoIncrement r step =>
      -- The location is kept, so that the call loads from a temporary.
      exact ⟨fun _ => List.Sublist.refl [none], fun _ => List.nil_sublist _,
        fun _ => trivial⟩
  | immediate address => exact .ops (List.nil_sublist _) (List.nil_sublist _)
  | _ => exact hread

theorem accesses_labelOrNew (label : Option Label) :
    Accesses [] [] (fun _ => True) (labelOrNew label) := by
  cases label <;>
    exact ⟨fun _ => List.Sublist.refl [], fun _ => List.Sublist.refl [], fun _ => trivial⟩

theorem loads_condition (condition : Condition) : condition.expr.loads = [] := by
  cases condition <;> rfl

theorem accessesAt_jump (condition : Condition) (offset : Int) :
    AccessesAt [] [] (context.jump condition offset) := by
  have hnone : AccessesAt [] [] (pure ()) := .pure trivial
  unfold jump
  dsimp only
  split
  · exact accessesAt_branchTo context.known
      (codePointer (Instruction.jumpTarget context.address offset))
  · refine (accesses_labelOrNew _).bind fun ifTrue _ => ?_
    refine (accesses_labelOrNew _).bind fun ifFalse _ => ?_
    have hbranch : AccessesAt [] [] (Emit.op (.branch condition.expr ifTrue ifFalse)) := by
      apply Accesses.ops
      · simp [Op.loads, Op.exprs, loads_condition]
      · exact List.nil_sublist _
    have hjump : forall target, AccessesAt [] []
        (Emit.ops [.label ifTrue, .jump (codePointer target)]) := fun _ =>
      .ops (List.nil_sublist _) (List.nil_sublist _)
    have hlabel : AccessesAt [] [] (Emit.op (.label ifFalse)) :=
      .ops (List.nil_sublist _) (List.nil_sublist _)
    refine hbranch.seq ?_
    split
    · refine (hjump _).seq ?_
      split
      · exact hlabel
      · exact hnone
    · split
      · exact hlabel
      · exact hnone

/-!
# Two operands
-/

/-- Flags and results are computed from what has been kept. -/
theorem accesses_resultAndFlags (rule : FlagRule) {a b value : Expr} (ha : a.loads = [])
    (hb : b.loads = []) (hvalue : value.loads = []) :
    Accesses [] [] (fun result : Expr => result.loads = [])
      (context.resultAndFlags rule a b value) := by
  have hsave := Accesses.save context.width value
  rw [hvalue] at hsave
  refine hsave.bind fun result hresult => ?_
  have hloads : forall flag, (rule.flagExpr context.width
      { a := a, b := b, carry := .flag .c, result := result } flag).loads = [] :=
    Expr.loads_flagExpr ha hb rfl hresult rule context.width
  have hflags : AccessesAt [] [] (Emit.ops ((rule.flagExprs context.width
      { a := a, b := b, carry := .flag .c, result := result }).map fun written =>
        .setFlag written.1 written.2)) := by
    apply Accesses.ops
    · simp [FlagRule.flagExprs, List.flatMap_map, Op.loads, Op.exprs, hloads]
    · simp [List.flatMap_map, Op.stores]
  exact hflags.seq (.pure hresult)

section

variable (source destination : Operand)

theorem accessesAt_moveToPc :
    AccessesAt (source.accesses context.addressWidth) []
      (context.move source (.register .pc)) := by
  rw [context.move_pc, ← context.loads_read]
  have hleave : forall target, AccessesAt target.loads [] (do
      Emit.ops (postIncrement source)
      Emit.op (branchTo context.known target)) := fun target =>
    (accessesAt_postIncrement source).seq (accessesAt_branchTo context.known target)
  unfold moveTarget
  cases source with
  | autoIncrement r step =>
      refine (Accesses.save _ _).last fun target htarget => ?_
      have h := hleave target
      rw [htarget] at h
      exact h
  | immediate address => exact hleave (codePointer address)
  | _ => exact hleave (context.read _)

theorem accessesAt_move :
    AccessesAt (source.accesses context.addressWidth)
      (destination.accesses context.addressWidth)
      (context.move source destination) := by
  have hwrite := context.accessesAt_write destination (context.read source)
  rw [context.loads_read] at hwrite
  by_cases hpc : destination = .register .pc
  · subst hpc
    exact context.accessesAt_moveToPc source
  · unfold move
    split
    · exact absurd rfl hpc
    · split
      · exact .ops (List.nil_sublist _) (List.nil_sublist _)
      · exact hwrite
    · exact hwrite.last fun _ _ => accessesAt_postIncrement source

theorem accessesAt_arithmetic (operation : Arithmetic) (store : Bool) :
    AccessesAt
      (source.accesses context.addressWidth ++ destination.accesses context.addressWidth)
      (if store then destination.accesses context.addressWidth else [])
      (context.arithmetic operation store source destination) := by
  have hb := Accesses.snapshot context.width (context.read source)
  have ha := Accesses.snapshot context.width (context.read destination)
  rw [context.loads_read] at hb ha
  refine hb.bind fun b hb => ha.keep fun a ha => ?_
  have hvalue := Expr.loads_arithmetic operation context.width ha hb
  refine (context.accesses_resultAndFlags operation.rule ha hb hvalue).bind ?_
  intro result hresult
  cases store with
  | true =>
      have hwrite := context.accessesAt_write destination result
      rw [hresult] at hwrite
      exact hwrite.last fun _ _ => accessesAt_postIncrement source
  | false => exact accessesAt_postIncrement source

theorem accessesAt_clearBits :
    AccessesAt
      (destination.accesses context.addressWidth ++ source.accesses context.addressWidth)
      (destination.accesses context.addressWidth)
      (context.clearBits source destination) := by
  have hwrite := context.accessesAt_write destination
    (.and context.width (context.read destination)
      (.complement context.width (context.read source)))
  simp only [Expr.and, Expr.complement, Expr.loads_binary, Expr.loads_unary,
    context.loads_read] at hwrite
  exact hwrite.last fun _ _ => accessesAt_postIncrement source

theorem accessesAt_setBits :
    AccessesAt
      (destination.accesses context.addressWidth ++ source.accesses context.addressWidth)
      (destination.accesses context.addressWidth)
      (context.setBits source destination) := by
  have hwrite := context.accessesAt_write destination
    (.or context.width (context.read destination) (context.read source))
  simp only [Expr.or, Expr.loads_binary, context.loads_read] at hwrite
  exact hwrite.last fun _ _ => accessesAt_postIncrement source

end

/-!
# One operand
-/

section

variable (operand : Operand)

theorem accessesAt_replaceOperand (rule : FlagRule) {compute : Expr -> Expr}
    (hcompute : forall a, a.loads = [] -> (compute a).loads = []) :
    AccessesAt (operand.accesses context.addressWidth)
      (operand.accesses context.addressWidth)
      (context.replaceOperand rule operand compute) := by
  have ha := Accesses.snapshot context.width (context.read operand)
  rw [context.loads_read] at ha
  refine ha.keep fun a ha => ?_
  refine (context.accesses_resultAndFlags rule ha ha (hcompute a ha)).bind ?_
  intro result hresult
  have hwrite := context.accessesAt_write operand result
  rw [hresult] at hwrite
  exact hwrite.last fun _ _ => accessesAt_postIncrement operand

theorem accessesAt_swapBytes :
    AccessesAt (operand.accesses context.addressWidth)
      (operand.accesses context.addressWidth) (context.swapBytes operand) := by
  have hwrite := context.accessesAt_write operand
    (swappedBytes context.width (context.read operand))
  rw [Expr.loads_swappedBytes, context.loads_read] at hwrite
  exact hwrite.last fun _ _ => accessesAt_postIncrement operand

theorem accessesAt_pushOperand :
    AccessesAt (operand.accesses context.addressWidth) [none]
      (context.pushOperand operand) := by
  have hpush := fun value => (context.accessesAt_push context.width value).last
    fun _ _ => accessesAt_postIncrement operand
  rw [← context.loads_read]
  unfold pushOperand
  dsimp only
  split
  · exact hpush _
  · refine (Accesses.save _ _).keep fun value hvalue => ?_
    have h := hpush value
    rw [hvalue] at h
    exact h

end

/-!
# Whole runs
-/

theorem accessesAt_single (opcode : SingleOpcode) (target : Operand) :
    AccessesAt ((Body.single opcode target).loads context.addressWidth)
      ((Body.single opcode target).stores context.addressWidth)
      (context.single opcode target) := by
  cases opcode with
  | rrc => exact context.accessesAt_replaceOperand target _ fun a ha => by simp [ha]
  | rra =>
      exact context.accessesAt_replaceOperand target _ fun a ha => by simp [Expr.asr, ha]
  | sxt =>
      exact context.accessesAt_replaceOperand target _ fun a ha => by
        simp [Expr.signExtend, Expr.lowPart, ha]
  | swpb => exact context.accessesAt_swapBytes target
  | push => exact context.accessesAt_pushOperand target
  | call => exact context.accessesAt_call target

theorem accessesAt_body (body : Body Operand) :
    AccessesAt (body.loads context.addressWidth) (body.stores context.addressWidth)
      (context.body body) := by
  cases body with
  | reti => exact context.accessesAt_reti
  | jump condition offset => exact context.accessesAt_jump condition offset
  | single opcode target => exact context.accessesAt_single opcode target
  | calla target => exact context.accessesAt_call target
  | multiple opcode count highest =>
      cases opcode with
      | pushm => exact context.accessesAt_pushRange count highest
      | popm => exact context.accessesAt_popRange count highest
  | shift opcode count destination =>
      exact context.accessesAt_replaceOperand (.register destination) _ fun a ha =>
        Expr.loads_shiftExpr opcode context.width count ha
  | double opcode source destination =>
      cases opcode with
      | mov => exact context.accessesAt_move source destination
      | bic => exact context.accessesAt_clearBits source destination
      | bis => exact context.accessesAt_setBits source destination
      | dadd => exact .ops (List.nil_sublist _) (List.nil_sublist _)
      | cmp => exact context.accessesAt_arithmetic source destination .sub false
      | bit => exact context.accessesAt_arithmetic source destination .and false
      | _ => exact context.accessesAt_arithmetic source destination _ true
  | address opcode source destination =>
      cases opcode with
      | mova => exact context.accessesAt_move source destination
      | cmpa => exact context.accessesAt_arithmetic source destination .sub false
      | _ => exact context.accessesAt_arithmetic source destination _ true

/-- One run reaches memory where its body does, also where a name stands for it. -/
theorem accessesAt_run {inst : Instruction} (hdecoded : inst.Decoded) :
    AccessesAt (inst.body.loads context.addressWidth)
      (inst.body.stores context.addressWidth) (context.run inst) := by
  have hbody := context.accessesAt_body inst.body
  have hsilent : forall op : Op, op.loads = [] -> op.stores = [] ->
      AccessesAt (inst.body.loads context.addressWidth)
        (inst.body.stores context.addressWidth) (Emit.op op) := by
    intro op hloads hstores
    apply Accesses.ops <;> simp [hloads, hstores]
  have hret : forall width, inst.emulated? = some .ret ∨ inst.emulated? = some .reta ->
      AccessesAt (inst.body.loads context.addressWidth)
        (inst.body.stores context.addressWidth) (context.ret width) := by
    intro width hname
    rcases hdecoded.moved_of_return hname with ⟨step, hmoved⟩
    rcases body_of_movedToPc? hmoved with hbody | hbody <;> rw [hbody] <;>
      exact context.accessesAt_ret width
  unfold run
  split
  · exact hsilent _ rfl rfl
  · split
    · next hname => exact hret _ (.inl hname)
    · next hname => exact hret _ (.inr hname)
    · exact hsilent _ rfl rfl
    · split
      · exact hsilent _ rfl rfl
      · exact hbody
    · exact hbody

end Context

/-- A repetition counts without reaching memory, and so each operation of an
instruction reaches it where a run does. -/
theorem allWithin_appended (buffer : IL.Buffer) (options : Options) {inst : Instruction}
    (hdecoded : inst.Decoded) :
    IL.AllWithin (inst.body.loads (Context.addressWidthOf inst))
      (inst.body.stores (Context.addressWidthOf inst))
      (appended buffer options inst) := by
  have hrun := (Context.of options buffer.known inst).accessesAt_run hdecoded
  refine (emits_repeating ?_ hrun.within).code _
  intro counter op hop other hmem
  rw [List.mem_singleton.mp hmem]
  cases hop <;> exact ⟨nofun, nofun⟩

end Lift
end MSP430
