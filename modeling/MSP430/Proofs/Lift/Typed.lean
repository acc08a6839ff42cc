import MSP430.Proofs.Decode.Counts
import MSP430.Proofs.IL.Typed
import MSP430.Proofs.Lift.Emitted
import MSP430.Proofs.Lift.Once
import MSP430.Proofs.Lift.Pointer

/-!
# Lifted code is well typed

Lifting works in four widths: that of the instruction, that of its addresses, that of
the stack and that of a pointer that moves on.  Wherever an instruction has code, the
widths fit together, and nothing in the code is left out.
-/

namespace MSP430

open IL (Buffer Composes Emit Expr KnownLabels Op Proper WellTyped)
open IL.Emit (Emits EmitsCode)
open IL.Expr (isTruth_bool isTruth_flag isValue_address isValue_int isValue_reg
  isValue_temp)

/-!
# Flags
-/

namespace FlagRule

variable {width : Width} {value : Expr}

theorem isTruth_isNegativeExpr (h : value.IsValue width) :
    (isNegativeExpr width value).IsTruth :=
  h.compare (isValue_int width 0) _

theorem isTruth_isZeroExpr (h : value.IsValue width) :
    (isZeroExpr width value).IsTruth :=
  h.compare (isValue_int width 0) _

theorem isTruth_isNonzeroExpr (h : value.IsValue width) :
    (isNonzeroExpr width value).IsTruth :=
  h.compare (isValue_int width 0) _

theorem isTruth_bitSetExpr (h : value.IsValue width) (bit : Nat) :
    (bitSetExpr width value bit).IsTruth :=
  isTruth_isNonzeroExpr (h.binary (isValue_int width _) _)

/-- Operands of the width, with a truth value that enters. -/
structure Operands.Typed (width : Width) (operands : Operands) : Prop where
  a : operands.a.IsValue width
  b : operands.b.IsValue width
  carry : operands.carry.IsTruth
  result : operands.result.IsValue width

variable {operands : Operands} (h : operands.Typed width)

include h

theorem isTruth_carryExpr (rule : FlagRule) :
    (rule.carryExpr width operands).IsTruth := by
  cases rule with
  | add => exact h.result.compare h.a _
  | sub => exact h.a.compare h.b _
  | addc =>
      apply Expr.IsTruth.logic (h.result.compare h.a _)
      exact h.carry.logic (h.result.compare h.a _) _
  | subc =>
      apply Expr.IsTruth.logic (h.a.compare h.b _)
      exact h.carry.logic (h.a.compare h.b _) _
  | and | xor | sxt => exact isTruth_isNonzeroExpr h.result
  | rra _ | rrc _ | rru _ | rla _ => exact isTruth_bitSetExpr h.a _

theorem isTruth_overflowExpr (rule : FlagRule) :
    (rule.overflowExpr width operands).IsTruth := by
  cases rule with
  | add | addc =>
      apply isTruth_isNegativeExpr
      exact (h.a.binary h.result _).binary (h.b.binary h.result _) _
  | sub | subc =>
      apply isTruth_isNegativeExpr
      exact (h.a.binary h.b _).binary (h.a.binary h.result _) _
  | xor => exact (isTruth_isNegativeExpr h.a).logic (isTruth_isNegativeExpr h.b) _
  | and | sxt | rra _ | rrc _ | rru _ | rla _ => exact isTruth_bool false

theorem isTruth_flagExpr (rule : FlagRule) (flag : Flag) :
    (rule.flagExpr width operands flag).IsTruth := by
  cases flag with
  | c => exact isTruth_carryExpr h rule
  | z => exact isTruth_isZeroExpr h.result
  | n => exact isTruth_isNegativeExpr h.result
  | v => exact isTruth_overflowExpr h rule

end FlagRule

theorem Condition.isTruth_expr (condition : Condition) : condition.expr.IsTruth := by
  have hflag := isTruth_flag
  cases condition with
  | always => exact isTruth_bool true
  | zero | carry | negative => exact hflag _
  | notZero | noCarry => exact (hflag _).not
  | less => exact (hflag _).logic (hflag _) _
  | greaterEqual => exact ((hflag _).logic (hflag _) _).not

namespace Lift

/-!
# Places
-/

theorem isValue_flagBit (width : Width) (flag : Flag) :
    (flagBit width flag).IsValue width :=
  ((isTruth_flag flag).ofBool width).binary (isValue_int width _) _

theorem isValue_statusRegister (width : Width) :
    (statusRegister width).IsValue width := by
  have hbit := isValue_flagBit width
  have hothers : (Expr.and width (.reg width .sr)
      (.int width (width.complement flagBits))).IsValue width :=
    (isValue_reg width .sr).binary (isValue_int width _) _
  exact (((hothers.binary (hbit .c) _).binary (hbit .z) _).binary (hbit .n) _).binary
    (hbit .v) _

theorem isValue_location {space : Width} {operand : Operand} {address : Expr}
    (h : Place.of space operand = .memory address) : address.IsValue space := by
  cases operand with
  | register _ | immediate _ | constant _ => cases h
  | indirect r | autoIncrement r _ =>
      cases h
      exact isValue_reg space r
  | indexed r offset =>
      cases h
      exact (isValue_reg space r).binary (isValue_int space _) _
  | absolute _ | symbolic _ _ =>
      cases h
      exact isValue_address space _

theorem isValue_of_placeValue {space : Width} {operand : Operand} {number : Int}
    (h : Place.of space operand = .value number) : operand.isValue = true := by
  cases operand with
  | immediate _ | constant _ => rfl
  | _ => cases h

theorem isValue_codePointer (address : Nat) :
    exists width, (codePointer address).IsValue width :=
  ⟨_, isValue_address _ address⟩

theorem proper_branchTo (known : KnownLabels) {target : Expr}
    (h : exists width, target.IsValue width) : Proper [branchTo known target] := by
  rcases h with ⟨width, h⟩
  unfold branchTo
  split
  · exact .single trivial nofun
  · exact .jump h

theorem proper_flagsFromStatus : Proper flagsFromStatus := by
  apply Composes.all
  intro op hmem
  rcases List.mem_map.mp hmem with ⟨flag, _, rfl⟩
  apply Proper.setFlag
  have hbit := (isValue_reg .word .sr).binary (isValue_int .word flag.mask) .and
  exact hbit.compare (isValue_int .word 0) _

theorem proper_setRegister (r : Register) {width : Width} {value : Expr}
    (h : value.IsValue width) : Proper [setRegister r width value] := by
  cases width with
  | byte => exact .setReg r (h.unary (by decide))
  | word | address => exact .setReg r h

theorem proper_advance (r : Register) (step : Nat) : Proper [advance r step] :=
  .setReg r ((isValue_reg _ r).binary (isValue_int _ step) _)

theorem proper_retreat (r : Register) (step : Nat) : Proper [retreat r step] :=
  .setReg r ((isValue_reg _ r).binary (isValue_int _ step) _)

theorem proper_postIncrement (operand : Operand) :
    EmitsCode Proper (Emit.ops (postIncrement operand)) := by
  apply Emits.ops
  cases operand with
  | autoIncrement r step => exact proper_advance r step
  | _ => exact Composes.nil

namespace Context

/-!
# Values
-/

theorem isValue_arithmeticExpr (operation : Arithmetic) {width : Width} {a b : Expr}
    (ha : a.IsValue width) (hb : b.IsValue width) :
    (operation.expr width a b).IsValue width := by
  cases operation with
  | add | sub | and | xor => exact ha.binary hb _
  | addc => exact ha.addCarry hb (isTruth_flag .c)
  | subc => exact ha.addCarry hb.complement (isTruth_flag .c)

theorem isValue_shiftExpr (opcode : ShiftOpcode) {width : Width} (count : Nat)
    {a : Expr} (ha : a.IsValue width) :
    (shiftExpr opcode width count a).IsValue width := by
  have hint := isValue_int width
  cases opcode with
  | rram | rlam | rrum => exact ha.binary (hint _) _
  | rrcm =>
      have hcarry := ((isTruth_flag .c).ofBool width).binary
        (hint (width.bits - count)) .lsl
      exact ((ha.binary (hint _) _).binary hcarry _).binary (ha.binary (hint _) _) _

/-- Bytes are exchanged in words, so that there have to be two. -/
theorem isValue_swappedBytes {width : Width} {value : Expr}
    (hvalue : value.IsValue width) (hwidth : width ≠ .byte) :
    (swappedBytes width value).IsValue width := by
  cases width with
  | byte => exact absurd rfl hwidth
  | word => exact hvalue.binary (isValue_int .word 8) _
  | address =>
      have hlow : (Expr.lowPart .word value).IsValue .word := hvalue.unary (by decide)
      exact (hlow.binary (isValue_int .word 8) .rol).unary (by decide)

/-- Half a word is no value in words. -/
example : ¬ (swappedBytes .byte (.reg .byte .r5)).WellTyped := by
  decide

variable {context : Context}

/-!
# Code

What is written to has to be a place.
-/

theorem proper_resultAndFlags (rule : FlagRule) {a b value : Expr}
    (ha : a.IsValue context.width) (hb : b.IsValue context.width)
    (hvalue : value.IsValue context.width) :
    Emits Proper (Expr.IsValue context.width)
      (context.resultAndFlags rule a b value) := by
  refine (Emit.proper_save hvalue).bind fun result hresult => ?_
  refine Emits.seq ?_ (.pure hresult)
  apply Emits.ops
  apply Composes.all
  intro op hmem
  rcases List.mem_map.mp hmem with ⟨⟨flag, value⟩, hflag, rfl⟩
  rcases List.mem_map.mp hflag with ⟨written, _, heq⟩
  cases heq
  apply Proper.setFlag
  exact FlagRule.isTruth_flagExpr ⟨ha, hb, isTruth_flag .c, hresult⟩ rule flag

variable (hspace : context.addressWidth ≠ .byte)

include hspace

theorem isValue_read (operand : Operand) :
    (context.read operand).IsValue context.width := by
  unfold read
  cases hplace : context.place operand with
  | memory address => exact ((isValue_location hplace).isLocation hspace).load _
  | value number => exact isValue_int _ _
  | register r =>
      cases r with
      | pc => exact isValue_address _ _
      | cg => exact isValue_int _ _
      | sr => exact isValue_statusRegister _
      | _ => exact isValue_reg _ _

theorem isLocation_stackTop (width : Width) : (context.stackTop width).IsLocation := by
  apply (isValue_reg (context.stackWidth width) .sp).isLocation
  cases width with
  | address => exact nofun
  | byte | word => exact hspace

theorem proper_write {operand : Operand} (hplace : operand.isValue = false)
    {value : Expr} (hvalue : value.IsValue context.width) :
    EmitsCode Proper (context.write operand value) := by
  apply Emits.ops
  cases heq : context.place operand with
  | memory address => exact .store ((isValue_location heq).isLocation hspace) hvalue
  | value number =>
      rw [isValue_of_placeValue heq] at hplace
      cases hplace
  | register r =>
      cases r with
      | pc => exact proper_branchTo _ ⟨_, hvalue⟩
      | cg => exact .single trivial nofun
      | sr => exact Composes.cons (proper_setRegister .sr hvalue) proper_flagsFromStatus
      | _ => exact proper_setRegister _ hvalue

theorem proper_push {width : Width} {value : Expr} (hvalue : value.IsValue width) :
    Proper (context.push width value) :=
  Composes.cons (proper_retreat .sp _) (.store (isLocation_stackTop hspace width) hvalue)

theorem proper_pop (width : Width) :
    Emits Proper (Expr.IsValue width) (context.pop width) := by
  have hload := (isLocation_stackTop hspace width).load width
  refine Emits.bind (Emit.proper_save hload) fun value hvalue => ?_
  exact Emits.seq (.op (proper_advance .sp _)) (.pure hvalue)

theorem proper_pushRange (count : Nat) (highest : Register) :
    EmitsCode Proper (Emit.ops (context.pushRange count highest)) := by
  apply Emits.ops
  apply Composes.flatMap
  intro r _
  exact proper_push hspace (isValue_reg _ r)

theorem proper_popRange (count : Nat) (highest : Register) :
    EmitsCode Proper (Emit.ops (context.popRange count highest)) := by
  apply Emits.ops
  apply Composes.flatMap
  intro r _
  have hload := (isLocation_stackTop hspace context.width).load context.width
  exact Composes.cons (.setReg r hload) (proper_advance .sp _)

theorem proper_ret (width : Width) : EmitsCode Proper (context.ret width) :=
  (proper_pop hspace width).bind fun _ hvalue => .op (.ret hvalue)

theorem proper_reti : EmitsCode Proper context.reti := by
  refine (proper_pop hspace .word).bind fun status hstatus => ?_
  apply Emits.seq (.op (.setReg .sr hstatus))
  exact Emits.seq (.ops proper_flagsFromStatus) (proper_ret hspace .word)

theorem proper_call (target : Operand) : EmitsCode Proper (context.call target) := by
  unfold call
  split
  · next r step =>
      refine (Emit.proper_save (isValue_reg _ r)).bind fun location hlocation => ?_
      apply Emits.seq (.op (proper_advance r step))
      exact .op (.call ((hlocation.isLocation hspace).load _))
  · exact .op (.call (isValue_address _ _))
  · exact .op (.call (isValue_read hspace target))

/-!
# Moves
-/

theorem proper_moveTarget (source : Operand) :
    Emits Proper (fun target => exists width, target.IsValue width)
      (context.moveTarget source) := by
  have hread := isValue_read hspace source
  unfold moveTarget
  split
  · exact .pure (isValue_codePointer _)
  · exact .save (fun index => .setTemp index hread) fun index =>
      ⟨_, isValue_temp _ index⟩
  · exact .pure ⟨_, hread⟩

theorem proper_move {source destination : Operand}
    (hplace : destination.isValue = false) :
    EmitsCode Proper (context.move source destination) := by
  have hwrite : EmitsCode Proper (context.write destination (context.read source)) :=
    proper_write hspace hplace (isValue_read hspace source)
  unfold move
  split
  · refine (proper_moveTarget hspace source).bind fun target htarget => ?_
    exact (proper_postIncrement source).seq (.op (proper_branchTo _ htarget))
  · split
    · exact .op (.single trivial nofun)
    · exact hwrite
  · exact hwrite.seq (proper_postIncrement source)

/-!
# Results
-/

theorem proper_arithmetic (operation : Arithmetic) {store : Bool}
    {source destination : Operand}
    (hplace : store = true -> destination.isValue = false) :
    EmitsCode Proper (context.arithmetic operation store source destination) := by
  refine (Emit.proper_snapshot (isValue_read hspace source)).bind fun b hb => ?_
  refine (Emit.proper_snapshot (isValue_read hspace destination)).bind fun a ha => ?_
  have hvalue := isValue_arithmeticExpr operation ha hb
  refine (proper_resultAndFlags _ ha hb hvalue).bind fun result hresult => ?_
  cases store with
  | true =>
      have hwrite := proper_write hspace (hplace rfl) hresult
      exact hwrite.seq (proper_postIncrement source)
  | false => exact proper_postIncrement source

theorem proper_clearBits {source destination : Operand}
    (hplace : destination.isValue = false) :
    EmitsCode Proper (context.clearBits source destination) := by
  have hvalue := (isValue_read hspace destination).binary
    (isValue_read hspace source).complement .and
  exact (proper_write hspace hplace hvalue).seq (proper_postIncrement source)

theorem proper_setBits {source destination : Operand}
    (hplace : destination.isValue = false) :
    EmitsCode Proper (context.setBits source destination) := by
  have hvalue := (isValue_read hspace destination).binary
    (isValue_read hspace source) .or
  exact (proper_write hspace hplace hvalue).seq (proper_postIncrement source)

theorem proper_replaceOperand (rule : FlagRule) {operand : Operand}
    (hplace : operand.isValue = false) {compute : Expr -> Expr}
    (hcompute : forall {a : Expr}, a.IsValue context.width ->
      (compute a).IsValue context.width) :
    EmitsCode Proper (context.replaceOperand rule operand compute) := by
  refine (Emit.proper_snapshot (isValue_read hspace operand)).bind fun a ha => ?_
  have hresult := proper_resultAndFlags rule ha ha (hcompute ha)
  refine hresult.bind fun result hvalue => ?_
  exact (proper_write hspace hplace hvalue).seq (proper_postIncrement operand)

theorem proper_swapBytes {operand : Operand} (hplace : operand.isValue = false)
    (hwidth : context.width ≠ .byte) :
    EmitsCode Proper (context.swapBytes operand) := by
  have hvalue := isValue_swappedBytes (isValue_read hspace operand) hwidth
  exact (proper_write hspace hplace hvalue).seq (proper_postIncrement operand)

theorem proper_pushOperand (operand : Operand) :
    EmitsCode Proper (context.pushOperand operand) := by
  have hpush : forall value, value.IsValue context.width -> EmitsCode Proper (do
      Emit.ops (context.push context.width value)
      Emit.ops (postIncrement operand)) := by
    intro value hvalue
    exact Emits.seq (.ops (proper_push hspace hvalue)) (proper_postIncrement operand)
  have hread := isValue_read hspace operand
  unfold pushOperand
  dsimp only
  split
  · exact hpush _ hread
  · exact (Emit.proper_save hread).bind hpush

/-!
# Jumps
-/

omit hspace in
theorem proper_jump (condition : Condition) (offset : Int) :
    EmitsCode Proper (context.jump condition offset) := by
  apply context.emits_jump
  intro op hop
  cases hop with
  | leave => exact proper_branchTo _ (isValue_codePointer _)
  | choose _ _ => exact .single condition.isTruth_expr nofun
  | mark _ => exact .single trivial nofun
  | arm => exact .jump (isValue_address _ _)

end Context

/-!
# Supported bodies
-/

theorem isPlace_of_supported {body : Body Operand} (h : unsupported? body = none)
    {operand : Operand} (hwritten : writtenOperand? body = some operand) :
    operand.isValue = false := by
  unfold unsupported? at h
  rw [hwritten] at h
  cases hvalue : operand.isValue with
  | false => rfl
  | true => simp [hvalue] at h

theorem ne_dadd_of_supported {source destination : Operand} :
    unsupported? (.double .dadd source destination) ≠ none := by
  unfold unsupported?
  split <;> exact nofun

namespace Context

variable {context : Context} (hspace : context.addressWidth ≠ .byte)

include hspace

theorem proper_double {opcode : DoubleOpcode} {source destination : Operand}
    (hsupported : unsupported? (.double opcode source destination) = none) :
    EmitsCode Proper (context.double opcode source destination) := by
  have hplace : opcode.writesDestination = true -> destination.isValue = false := by
    intro hwrites
    apply isPlace_of_supported hsupported
    exact if_pos hwrites
  cases opcode with
  | mov => exact proper_move hspace (hplace rfl)
  | bic => exact proper_clearBits hspace (hplace rfl)
  | bis => exact proper_setBits hspace (hplace rfl)
  | dadd => exact absurd hsupported ne_dadd_of_supported
  | cmp | bit => exact proper_arithmetic hspace _ nofun
  | _ => exact proper_arithmetic hspace _ fun _ => hplace rfl

theorem proper_addressArithmetic {opcode : AddressOpcode} {source destination : Operand}
    (hsupported : unsupported? (.address opcode source destination) = none) :
    EmitsCode Proper (context.addressArithmetic opcode source destination) := by
  have hplace : opcode.writesDestination = true -> destination.isValue = false := by
    intro hwrites
    apply isPlace_of_supported hsupported
    exact if_pos hwrites
  cases opcode with
  | mova => exact proper_move hspace (hplace rfl)
  | cmpa => exact proper_arithmetic hspace _ nofun
  | _ => exact proper_arithmetic hspace _ fun _ => hplace rfl

theorem proper_single {opcode : SingleOpcode} {operand : Operand}
    (hsupported : unsupported? (.single opcode operand) = none)
    (hwidth : opcode = .swpb -> context.width ≠ .byte) :
    EmitsCode Proper (context.single opcode operand) := by
  have hplace : opcode.writesOperand = true -> operand.isValue = false := by
    intro hwrites
    apply isPlace_of_supported hsupported
    exact if_pos hwrites
  cases opcode with
  | rrc =>
      exact proper_replaceOperand hspace _ (hplace rfl) fun ha =>
        ha.rotateCarry (isTruth_flag .c)
  | rra =>
      exact proper_replaceOperand hspace _ (hplace rfl) fun ha =>
        ha.binary (isValue_int _ 1) _
  | sxt =>
      apply proper_replaceOperand hspace _ (hplace rfl)
      intro a ha
      have hbyte : forall width : Width, Width.byte.bits ≤ width.bits := by
        intro width
        cases width <;> decide
      exact (ha.unary (hbyte _) : (Expr.lowPart .byte a).IsValue .byte).unary (hbyte _)
  | swpb => exact proper_swapBytes hspace (hplace rfl) (hwidth rfl)
  | push => exact proper_pushOperand hspace operand
  | call => exact proper_call hspace operand

theorem proper_body {body : Body Operand} (hsupported : unsupported? body = none)
    (hwidth : forall target, body = .single .swpb target -> context.width ≠ .byte) :
    EmitsCode Proper (context.body body) := by
  cases body with
  | reti => exact proper_reti hspace
  | jump condition offset => exact proper_jump condition offset
  | single opcode target =>
      apply proper_single hspace hsupported
      rintro rfl
      exact hwidth target rfl
  | double opcode source destination => exact proper_double hspace hsupported
  | calla target => exact proper_call hspace target
  | address opcode source destination => exact proper_addressArithmetic hspace hsupported
  | multiple opcode count highest =>
      cases opcode with
      | pushm => exact proper_pushRange hspace count highest
      | popm => exact proper_popRange hspace count highest
  | shift opcode count destination =>
      exact proper_replaceOperand hspace _ rfl (isValue_shiftExpr opcode count)

theorem proper_run {inst : Instruction} (hsupported : unsupported? inst.body = none)
    (hwidth : forall target, inst.body = .single .swpb target ->
      context.width ≠ .byte) :
    EmitsCode Proper (context.run inst) := by
  have hbody := proper_body hspace hsupported hwidth
  unfold run
  rw [hsupported]
  simp only [Option.isSome_none, Bool.false_eq_true, if_false]
  split
  · exact proper_ret hspace .word
  · exact proper_ret hspace .address
  · exact .op (.single trivial nofun)
  · split
    · exact .op (.setFlag _ (isTruth_bool _))
    · exact hbody
  · exact hbody

end Context

/-!
# Whole instructions
-/

theorem proper_repeating {counter : Register} {op : Op} (h : Repeating counter op) :
    Proper [op] := by
  have hint := isValue_int .word
  have hcount := isValue_temp .word
  cases h with
  | clear => exact .setFlag .c (isTruth_bool false)
  | start count =>
      exact .setTemp count (((isValue_reg .word counter).binary (hint 0xf) .and).binary
        (hint 1) _)
  | countDown count => exact .setTemp count ((hcount count).binary (hint 1) _)
  | choose count start done =>
      exact .single ((hcount count).compare (hint 0) .notEqual) nofun
  | mark label => exact .single trivial nofun

section

variable (options : Options) (known : KnownLabels) {inst : Instruction}
  (hdecoded : inst.Decoded)

include hdecoded

theorem proper_emit (hsupported : unsupported? inst.body = none) :
    EmitsCode Proper (emit options known inst) := by
  apply emits_repeating proper_repeating
  apply Context.proper_run (Context.addressWidthOf_ne_byte inst) hsupported
  intro target hbody
  have hrange := hdecoded.inRange
  rw [hbody] at hrange
  exact hrange rfl

theorem wellTyped_emit : EmitsCode WellTyped (emit options known inst) := by
  cases hsupported : unsupported? inst.body with
  | none =>
      have hproper := proper_emit options known hdecoded hsupported
      exact hproper.mono fun _ => Proper.wellTyped
  | some reason =>
      apply emits_repeating fun hrepeating => (proper_repeating hrepeating).wellTyped
      rw [Context.run_of_unsupported _ hsupported]
      exact .op (List.forall_mem_singleton.mpr trivial)

end

/-- Every operation that lifting appends is well typed, whatever the instruction, the
options and the known labels are. -/
theorem lifted_wellTyped (options : Options) (buffer : Buffer) {inst : Instruction}
    (hdecoded : inst.Decoded) :
    exists code, (into buffer options inst).ops = buffer.ops ++ code ∧
      forall op, op ∈ code -> op.WellTyped :=
  ⟨appended buffer options inst, ops_into buffer options inst,
    (wellTyped_emit options buffer.known hdecoded).code _⟩

/-- A rotation in twenty bits that a register repeats, without a carry each time. -/
def countedRotation : Instruction where
  address := 0x4400
  width := .address
  extension := some { repetition := .register .r6, zeroCarry := true }
  body := .single .rrc (.register .r5)
  length := 4

theorem lifted_wellTyped_rotation :
    exists code, (into (.empty 0x4400) .standard countedRotation).ops = [] ++ code ∧
      forall op, op ∈ code -> op.WellTyped := by
  have hdecoded : countedRotation.Decoded :=
    ⟨.msp430x, [0x86, 0x19, 0x45, 0x10], 0x4400, rfl⟩
  exact lifted_wellTyped .standard (.empty 0x4400) hdecoded

end Lift
end MSP430
