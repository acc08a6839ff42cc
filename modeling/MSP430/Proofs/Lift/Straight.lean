import MSP430.Lift
import MSP430.Proofs.IL.Emission

/-!
# The code of one run is straight

Apart from conditional jumps, one run of an instruction emits straight code: it
reads temporaries only after setting them, and transfers only to labels that are
known from the start.
-/

namespace MSP430
namespace Lift

open IL (Emit Expr KnownLabels Label Op Scope Scoped)
open IL.Emit (StraightFrom anyResult readable)

/-!
# Labels that are known
-/

theorem labelFrom?_lt {known : KnownLabels} {first label : Nat}
    {address : UInt64} (h : known.labelFrom? first address = some label) :
    label < first + known.length := by
  induction known generalizing first with
  | nil => cases h
  | cons head rest ih =>
      rw [KnownLabels.labelFrom?] at h
      cases hrest : KnownLabels.labelFrom? (first + 1) rest address with
      | some found =>
          rw [hrest] at h
          cases h
          have hfound := ih hrest
          rw [List.length_cons]
          omega
      | none =>
          rw [hrest] at h
          by_cases hhead : head = address
          · simp only [hhead, if_true, Option.some.injEq] at h
            subst h
            rw [List.length_cons]
            omega
          · simp [hhead] at h

theorem label?_lt {known : KnownLabels} {address : UInt64} {label : Nat}
    (h : known.label? address = some label) : label < known.length := by
  have hlt := labelFrom?_lt h
  rw [Nat.zero_add] at hlt
  exact hlt

/-!
# Places
-/

section

variable {known : KnownLabels} {scope : Scope}

theorem statusRegister_scopedIn (width : Width) :
    (statusRegister width).ScopedIn scope := by
  simp [statusRegister, flagBit, Flag.all, Expr.ScopedIn, Expr.or, Expr.and,
    Expr.lsl, Expr.int]

/-- An operand names no temporary. -/
theorem read_scopedIn (addressWidth width : Width) (address : UInt64)
    (operand : Operand) :
    ((Place.of addressWidth operand).read address width).ScopedIn scope := by
  cases operand with
  | register r =>
      cases r with
      | sr => exact statusRegister_scopedIn width
      | _ => trivial
  | _ => simp [Place.of, Place.read, Expr.ScopedIn, Expr.add, Expr.int, Expr.address]

theorem codePointer_scopedIn (address : Nat) :
    (codePointer address).ScopedIn scope :=
  trivial

theorem branchTo_plainIn {target : Expr} (h : target.ScopedIn scope) :
    (branchTo known target).PlainIn known.length scope := by
  unfold branchTo
  split
  · next label hlabel =>
      rcases Option.bind_eq_some_iff.mp hlabel with ⟨address, _, hfound⟩
      exact label?_lt hfound
  · exact h

theorem flagsFromStatus_plainIn {bound : Label} :
    forall op, op ∈ flagsFromStatus -> op.PlainIn bound scope := by
  intro op hmem
  unfold flagsFromStatus at hmem
  rcases List.mem_map.mp hmem with ⟨flag, _, rfl⟩
  simp [Op.PlainIn, Expr.ScopedIn, Expr.and, Expr.int]

theorem setRegister_plainIn {bound : Label} {register : Register} {width : Width}
    {value : Expr} (h : value.ScopedIn scope) :
    (setRegister register width value).PlainIn bound scope := by
  cases width <;> exact h

theorem write_plainIn {addressWidth width : Width} {operand : Operand}
    {value : Expr} (h : value.ScopedIn scope) :
    forall op, op ∈ (Place.of addressWidth operand).write known width value ->
      op.PlainIn known.length scope := by
  intro op hmem
  cases operand with
  | register r =>
      cases r with
      | pc =>
          rw [List.mem_singleton.mp hmem]
          exact branchTo_plainIn h
      | cg =>
          rw [List.mem_singleton.mp hmem]
          trivial
      | sr =>
          rcases List.mem_cons.mp hmem with rfl | hflags
          · exact setRegister_plainIn h
          · exact flagsFromStatus_plainIn op hflags
      | _ =>
          rw [List.mem_singleton.mp hmem]
          exact setRegister_plainIn h
  | immediate _ | constant _ =>
      rw [List.mem_singleton.mp hmem]
      trivial
  | _ =>
      rw [List.mem_singleton.mp hmem]
      simp [Op.PlainIn, Expr.ScopedIn, Expr.add, Expr.int, Expr.address, h]

theorem advance_plainIn {bound : Label} (register : Register) (step : Nat) :
    (advance register step).PlainIn bound scope := by
  simp [advance, Op.PlainIn, Expr.ScopedIn, Expr.add, Expr.int]

theorem retreat_plainIn {bound : Label} (register : Register) (step : Nat) :
    (retreat register step).PlainIn bound scope := by
  simp [retreat, Op.PlainIn, Expr.ScopedIn, Expr.sub, Expr.int]

theorem postIncrement_plainIn {bound : Label} (operand : Operand) :
    forall op, op ∈ postIncrement operand -> op.PlainIn bound scope := by
  intro op hmem
  cases operand with
  | autoIncrement r step =>
      rw [List.mem_singleton.mp hmem]
      exact advance_plainIn r step
  | _ => cases hmem

end

/-!
# The functions of a run
-/

namespace Context

variable {scope : Scope}

section

variable (context : Context)

/-- The emission is straight from the scope on, and has no result to read. -/
abbrev EmitsStraight (context : Context) (scope : Scope) (emit : Emit Unit) : Prop :=
  StraightFrom context.known.length scope anyResult emit

theorem straight_write {operand : Operand} {value : Expr}
    (h : value.ScopedIn scope) :
    context.EmitsStraight scope (context.write operand value) :=
  .ops (write_plainIn h)

theorem straight_postIncrement (operand : Operand) :
    context.EmitsStraight scope (Emit.ops (postIncrement operand)) :=
  .ops (postIncrement_plainIn operand)

theorem read_scopedIn (operand : Operand) :
    (context.read operand).ScopedIn scope :=
  Lift.read_scopedIn context.addressWidth context.width context.address operand

theorem push_plainIn {width : Width} {value : Expr}
    (h : value.ScopedIn scope) :
    forall op, op ∈ context.push width value ->
      op.PlainIn context.known.length scope := by
  intro op hmem
  rcases List.mem_cons.mp hmem with rfl | hmem
  · exact retreat_plainIn .sp (stackStep width)
  · rw [List.mem_singleton.mp hmem]
    exact ⟨trivial, h⟩

theorem straight_pop (width : Width) :
    StraightFrom context.known.length scope readable (context.pop width) := by
  unfold Context.pop
  refine StraightFrom.bind (.save trivial) ?_
  intro wider value _ hvalue
  refine StraightFrom.bind (.op (advance_plainIn .sp (stackStep width))) ?_
  intro widest _ hwiden _
  exact .pure (hvalue.mono hwiden)

theorem straight_ret (width : Width) :
    context.EmitsStraight scope (context.ret width) := by
  unfold Context.ret
  apply (context.straight_pop width).bind
  intro wider target _ htarget
  exact .op htarget

theorem straight_reti : context.EmitsStraight scope context.reti := by
  unfold Context.reti
  apply (context.straight_pop .word).bind
  intro wider status _ hstatus
  refine StraightFrom.bind (.op hstatus) ?_
  intro _ _ _ _
  refine StraightFrom.bind (.ops flagsFromStatus_plainIn) ?_
  intro _ _ _ _
  exact context.straight_ret .word

theorem straight_call (target : Operand) :
    context.EmitsStraight scope (context.call target) := by
  unfold Context.call
  split
  · next r step =>
      refine StraightFrom.bind (.save trivial) ?_
      intro wider location _ hlocation
      refine StraightFrom.bind (.op (advance_plainIn r step)) ?_
      intro widest _ hwiden _
      exact .op (hlocation.mono hwiden)
  · exact .op trivial
  · exact .op (context.read_scopedIn target)

theorem straight_moveTarget (source : Operand) :
    StraightFrom context.known.length scope readable
      (context.moveTarget source) := by
  unfold Context.moveTarget
  split
  · exact .pure (codePointer_scopedIn _)
  · exact .save (context.read_scopedIn _)
  · exact .pure (context.read_scopedIn _)

theorem straight_move (source destination : Operand) :
    context.EmitsStraight scope (context.move source destination) := by
  unfold Context.move
  split
  · apply (context.straight_moveTarget source).bind
    intro wider target _ htarget
    apply (context.straight_postIncrement source).bind
    intro widest _ hwiden _
    exact .op (branchTo_plainIn (htarget.mono hwiden))
  · split
    · exact .op trivial
    · exact context.straight_write (context.read_scopedIn _)
  · apply (context.straight_write (context.read_scopedIn _)).bind
    intro _ _ _ _
    exact context.straight_postIncrement source

theorem flagExpr_scopedIn (rule : FlagRule) (width : Width)
    (operands : FlagRule.Operands) (ha : operands.a.ScopedIn scope)
    (hb : operands.b.ScopedIn scope) (hcarry : operands.carry.ScopedIn scope)
    (hresult : operands.result.ScopedIn scope) (flag : Flag) :
    (rule.flagExpr width operands flag).ScopedIn scope := by
  cases flag <;> cases rule <;>
    simp [FlagRule.flagExpr, FlagRule.carryExpr, FlagRule.overflowExpr,
      FlagRule.isZeroExpr, FlagRule.isNegativeExpr, FlagRule.isNonzeroExpr,
      FlagRule.bitSetExpr, Expr.ScopedIn, Expr.int, Expr.and, Expr.xor, ha, hb,
      hcarry, hresult]

theorem straight_resultAndFlags (rule : FlagRule) {a b value : Expr}
    (ha : a.ScopedIn scope) (hb : b.ScopedIn scope)
    (hvalue : value.ScopedIn scope) :
    StraightFrom context.known.length scope readable
      (context.resultAndFlags rule a b value) := by
  unfold Context.resultAndFlags
  refine StraightFrom.bind (.save hvalue) ?_
  intro wider result hwider hresult
  apply StraightFrom.bind
  · apply StraightFrom.ops
    intro op hmem
    rcases List.mem_map.mp hmem with ⟨⟨flag, value⟩, hflag, rfl⟩
    rcases List.mem_map.mp hflag with ⟨written, _, heq⟩
    cases heq
    exact flagExpr_scopedIn rule context.width ⟨a, b, .flag .c, result⟩
      (ha.mono hwider) (hb.mono hwider) trivial hresult flag
  · intro widest _ hwiden _
    exact .pure (hresult.mono hwiden)

theorem arithmetic_expr_scopedIn (operation : Arithmetic) (width : Width)
    {a b : Expr} (ha : a.ScopedIn scope) (hb : b.ScopedIn scope) :
    (operation.expr width a b).ScopedIn scope := by
  cases operation <;>
    simp [Arithmetic.expr, Expr.ScopedIn, Expr.add, Expr.sub, Expr.and, Expr.xor,
      Expr.complement, ha, hb]

theorem straight_arithmetic (operation : Arithmetic) (store : Bool)
    (source destination : Operand) :
    context.EmitsStraight scope
      (context.arithmetic operation store source destination) := by
  unfold Context.arithmetic
  refine StraightFrom.bind (.snapshot (context.read_scopedIn source)) ?_
  intro wider b _ hb
  refine StraightFrom.bind (.snapshot (context.read_scopedIn destination)) ?_
  intro widest a hwiden ha
  have hb := hb.mono hwiden
  apply (context.straight_resultAndFlags operation.rule ha hb
    (arithmetic_expr_scopedIn operation context.width ha hb)).bind
  intro _ result _ hresult
  cases store with
  | true =>
      apply (context.straight_write hresult).bind
      intro _ _ _ _
      exact context.straight_postIncrement source
  | false => exact context.straight_postIncrement source

theorem straight_clearBits (source destination : Operand) :
    context.EmitsStraight scope (context.clearBits source destination) := by
  unfold Context.clearBits
  have hvalue :
      (Expr.and context.width (context.read destination)
        (.complement context.width (context.read source))).ScopedIn scope :=
    ⟨context.read_scopedIn destination, context.read_scopedIn source⟩
  refine (context.straight_write hvalue).bind ?_
  intro _ _ _ _
  exact context.straight_postIncrement source

theorem straight_setBits (source destination : Operand) :
    context.EmitsStraight scope (context.setBits source destination) := by
  unfold Context.setBits
  have hvalue :
      (Expr.or context.width (context.read destination)
        (context.read source)).ScopedIn scope :=
    ⟨context.read_scopedIn destination, context.read_scopedIn source⟩
  refine (context.straight_write hvalue).bind ?_
  intro _ _ _ _
  exact context.straight_postIncrement source

theorem straight_replaceOperand (rule : FlagRule) (operand : Operand)
    {compute : Expr -> Expr}
    (hcompute : forall (wider : Scope) (a : Expr), a.ScopedIn wider ->
      (compute a).ScopedIn wider) :
    context.EmitsStraight scope
      (context.replaceOperand rule operand compute) := by
  unfold Context.replaceOperand
  refine StraightFrom.bind (.snapshot (context.read_scopedIn operand)) ?_
  intro wider a _ ha
  apply (context.straight_resultAndFlags rule ha ha (hcompute wider a ha)).bind
  intro _ result _ hresult
  apply (context.straight_write hresult).bind
  intro _ _ _ _
  exact context.straight_postIncrement operand

theorem swappedBytes_scopedIn (width : Width) {value : Expr}
    (h : value.ScopedIn scope) : (swappedBytes width value).ScopedIn scope := by
  cases width <;> exact ⟨h, trivial⟩

theorem straight_swapBytes (operand : Operand) :
    context.EmitsStraight scope (context.swapBytes operand) := by
  unfold Context.swapBytes
  apply (context.straight_write
    (swappedBytes_scopedIn context.width (context.read_scopedIn operand))).bind
  intro _ _ _ _
  exact context.straight_postIncrement operand

theorem straight_pushOperand (operand : Operand) :
    context.EmitsStraight scope (context.pushOperand operand) := by
  have hpush : forall (wider : Scope) (value : Expr), value.ScopedIn wider ->
      context.EmitsStraight wider (do
        Emit.ops (context.push context.width value)
        Emit.ops (postIncrement operand)) := by
    intro wider value hvalue
    refine StraightFrom.bind (.ops (context.push_plainIn hvalue)) ?_
    intro _ _ _ _
    exact context.straight_postIncrement operand
  unfold Context.pushOperand
  dsimp only
  split
  · exact hpush scope _ (context.read_scopedIn operand)
  · refine StraightFrom.bind (.save (context.read_scopedIn operand)) ?_
    intro wider value _ hvalue
    exact hpush wider value hvalue

theorem shiftExpr_scopedIn (opcode : ShiftOpcode) (width : Width) (count : Nat)
    {a : Expr} (h : a.ScopedIn scope) :
    (shiftExpr opcode width count a).ScopedIn scope := by
  cases opcode <;>
    simp [shiftExpr, Expr.ScopedIn, Expr.asr, Expr.lsl, Expr.lsr, Expr.or,
      Expr.int, h]

theorem straight_shift (opcode : ShiftOpcode) (count : Nat)
    (destination : Register) :
    context.EmitsStraight scope (context.shift opcode count destination) := by
  apply context.straight_replaceOperand
  intro _ _ ha
  exact shiftExpr_scopedIn opcode context.width count ha

theorem straight_pushRange (count : Nat) (highest : Register) :
    context.EmitsStraight scope
      (Emit.ops (context.pushRange count highest)) := by
  apply StraightFrom.ops
  intro op hmem
  rcases List.mem_flatMap.mp hmem with ⟨register, _, hpush⟩
  have hvalue : (Expr.reg context.width register).ScopedIn scope := trivial
  exact context.push_plainIn hvalue op hpush

theorem straight_popRange (count : Nat) (highest : Register) :
    context.EmitsStraight scope
      (Emit.ops (context.popRange count highest)) := by
  apply StraightFrom.ops
  intro op hmem
  rcases List.mem_flatMap.mp hmem with ⟨register, _, hpop⟩
  rcases List.mem_cons.mp hpop with rfl | hpop
  · trivial
  · rw [List.mem_singleton.mp hpop]
    exact advance_plainIn .sp _

theorem straight_single (opcode : SingleOpcode) (operand : Operand) :
    context.EmitsStraight scope (context.single opcode operand) := by
  cases opcode with
  | rrc =>
      apply context.straight_replaceOperand
      intro _ _ ha
      exact ⟨ha, trivial⟩
  | rra =>
      apply context.straight_replaceOperand
      intro _ _ ha
      exact ⟨ha, trivial⟩
  | sxt =>
      apply context.straight_replaceOperand
      intro _ _ ha
      exact ha
  | swpb => exact context.straight_swapBytes operand
  | push => exact context.straight_pushOperand operand
  | call => exact context.straight_call operand

theorem straight_double (opcode : DoubleOpcode) (source destination : Operand) :
    context.EmitsStraight scope (context.double opcode source destination) := by
  cases opcode with
  | mov => exact context.straight_move source destination
  | bic => exact context.straight_clearBits source destination
  | bis => exact context.straight_setBits source destination
  | dadd => exact .op trivial
  | _ => exact context.straight_arithmetic _ _ source destination

theorem straight_addressArithmetic (opcode : AddressOpcode)
    (source destination : Operand) :
    context.EmitsStraight scope
      (context.addressArithmetic opcode source destination) := by
  cases opcode with
  | mova => exact context.straight_move source destination
  | _ => exact context.straight_arithmetic _ _ source destination

theorem straight_jump {condition : Condition} (offset : Int)
    (h : condition.isUnconditional = true) :
    context.EmitsStraight scope (context.jump condition offset) := by
  unfold Context.jump
  simp only [h, if_true]
  exact .op (branchTo_plainIn (codePointer_scopedIn _))

end

end Context

/-- Whether a body is a jump that may be taken or not. -/
def isConditionalJump : Body Operand -> Bool
  | .jump condition _ => !condition.isUnconditional
  | _ => false

theorem isConditionalJump_of_ne {body : Body Operand}
    (h : forall condition offset, body ≠ .jump condition offset) :
    isConditionalJump body = false := by
  cases body with
  | jump condition offset => exact absurd rfl (h condition offset)
  | _ => rfl

namespace Context

variable {scope : Scope} (context : Context)

theorem straight_body {body : Body Operand} (h : isConditionalJump body = false) :
    context.EmitsStraight scope (context.body body) := by
  cases body with
  | reti => exact context.straight_reti
  | jump condition offset =>
      apply context.straight_jump
      simpa [isConditionalJump] using h
  | single opcode target => exact context.straight_single opcode target
  | double opcode source destination =>
      exact context.straight_double opcode source destination
  | calla target => exact context.straight_call target
  | address opcode source destination =>
      exact context.straight_addressArithmetic opcode source destination
  | multiple opcode count highest =>
      cases opcode with
      | pushm => exact context.straight_pushRange count highest
      | popm => exact context.straight_popRange count highest
  | shift opcode count destination =>
      exact context.straight_shift opcode count destination

theorem straight_run {inst : Instruction}
    (h : isConditionalJump inst.body = false) :
    context.EmitsStraight scope (context.run inst) := by
  unfold Context.run
  split
  · exact .op trivial
  · split
    · exact context.straight_ret .word
    · exact context.straight_ret .address
    · exact .op trivial
    · split
      · exact .op trivial
      · exact context.straight_body h
    · exact context.straight_body h

end Context

end Lift
end MSP430
