import MSP430.Proofs.Checked.Control
import MSP430.Proofs.Decode.Counts

/-!
# Checked runs

One run of an instruction with all the arithmetic it takes.  A shift of a decoded
instruction goes by no more than its width, its range stays within the registers, and its
jump has room behind its address.  A run takes three temporaries at most, and two labels
if it is a jump.
-/

namespace MSP430
namespace Lift

open IL (CheckedEmit Emit Expr Op)
open IL.CheckedEmit (Agrees)

namespace Context

/-!
# Moves
-/

def checkedMoveTarget (context : Context) (source : Operand) : CheckedEmit Expr :=
  match source with
  | .immediate address => CheckedEmit.compute (checkedCodePointer address)
  | .autoIncrement _ _ => do
      let target <- context.checkedRead source
      CheckedEmit.save context.width target
  | _ => CheckedEmit.compute (context.checkedRead source)

def checkedMove (context : Context) (source destination : Operand) : CheckedEmit Unit :=
  match source, destination with
  | _, .register .pc => do
      let target <- context.checkedMoveTarget source
      checkedAdvances source
      CheckedEmit.op (branchTo context.known target)
  | .immediate _, .register .sp =>
      if context.options.skipStackReseed then
        CheckedEmit.op .nop
      else do
        let value <- context.checkedRead source
        context.checkedWrite destination value
  | _, _ => do
      let value <- context.checkedRead source
      context.checkedWrite destination value
      checkedAdvances source

section Moves

variable (context : Context)

theorem agrees_moveTarget (source : Operand) :
    Agrees (context.checkedMoveTarget source) (context.moveTarget source) 1 0 := by
  cases source with
  | immediate address =>
      exact .weaken (.computed (checkedCodePointer_eq address)) (by decide) (by decide)
  | autoIncrement r step => exact .compute (context.checkedRead_eq _) (.save _ _)
  | _ => exact .weaken (.computed (context.checkedRead_eq _)) (by decide) (by decide)

theorem agrees_move (source destination : Operand) :
    Agrees (context.checkedMove source destination) (context.move source destination)
      1 0 := by
  unfold move
  split
  · exact .weaken
      (.bind (context.agrees_moveTarget source) fun _ =>
        .bind (agrees_advances source) fun _ => .op _)
      (by decide) (by decide)
  · exact .weaken
      (.ite (.op .nop) (.compute (context.checkedRead_eq _) (context.agrees_write _ _)))
      (by decide) (by decide)
  · next hpc hsp =>
      rw [checkedMove]
      · exact .weaken
          (.compute (context.checkedRead_eq source)
            (.bind (context.agrees_write destination _) fun _ => agrees_advances source))
          (by decide) (by decide)
      · exact hpc
      · exact hsp

end Moves

/-!
# Arithmetic
-/

def checkedResultAndFlags (context : Context) (rule : FlagRule) (a b value : Expr) :
    CheckedEmit Expr := do
  let result <- CheckedEmit.save context.width value
  let operands : FlagRule.Operands :=
    { a := a, b := b, carry := .flag .c, result := result }
  let flags <- rule.checkedFlags context.width operands
  CheckedEmit.ops (flags.map fun (flag, value) => .setFlag flag value)
  return result

def checkedArithmetic (context : Context) (operation : Arithmetic) (store : Bool)
    (source destination : Operand) : CheckedEmit Unit := do
  let width := context.width
  let sourceValue <- context.checkedRead source
  let b <- CheckedEmit.snapshot width sourceValue
  let destinationValue <- context.checkedRead destination
  let a <- CheckedEmit.snapshot width destinationValue
  let result <-
    context.checkedResultAndFlags operation.rule a b (operation.expr width a b)
  if store then
    context.checkedWrite destination result
  checkedAdvances source

def checkedClearBits (context : Context) (source destination : Operand) :
    CheckedEmit Unit := do
  let mask <- context.checkedRead source
  let value <- context.checkedRead destination
  context.checkedWrite destination
    (.and context.width value (.complement context.width mask))
  checkedAdvances source

def checkedSetBits (context : Context) (source destination : Operand) :
    CheckedEmit Unit := do
  let mask <- context.checkedRead source
  let value <- context.checkedRead destination
  context.checkedWrite destination (.or context.width value mask)
  checkedAdvances source

section Arithmetic

variable (context : Context)

theorem agrees_resultAndFlags {rule : FlagRule} (h : rule.CountFits context.width)
    (a b value : Expr) :
    Agrees (context.checkedResultAndFlags rule a b value)
      (context.resultAndFlags rule a b value) 1 0 :=
  .weaken
    (.bind (.save _ _) fun _ => .compute (FlagRule.checkedFlags_eq h _)
      (.bind (.ops _) fun _ => .pure _))
    (by decide) (by decide)

theorem agrees_arithmetic (operation : Arithmetic) (store : Bool)
    (source destination : Operand) :
    Agrees (context.checkedArithmetic operation store source destination)
      (context.arithmetic operation store source destination) 3 0 := by
  have hrule : operation.rule.CountFits context.width := by cases operation <;> trivial
  have hstored := fun result =>
    Agrees.bind (context.agrees_write destination result) fun _ => agrees_advances source
  exact .weaken
    (.compute (context.checkedRead_eq source)
      (.bind (.snapshot _ _) fun _ => .compute (context.checkedRead_eq destination)
        (.bind (.snapshot _ _) fun _ =>
          .bind (context.agrees_resultAndFlags hrule _ _ _) fun result =>
            .ite (hstored result) (agrees_advances source))))
    (by decide) (by decide)

theorem agrees_clearBits (source destination : Operand) :
    Agrees (context.checkedClearBits source destination)
      (context.clearBits source destination) 0 0 :=
  .compute (context.checkedRead_eq source) (.compute (context.checkedRead_eq destination)
    (.bind (context.agrees_write destination _) fun _ => agrees_advances source))

theorem agrees_setBits (source destination : Operand) :
    Agrees (context.checkedSetBits source destination)
      (context.setBits source destination) 0 0 :=
  .compute (context.checkedRead_eq source) (.compute (context.checkedRead_eq destination)
    (.bind (context.agrees_write destination _) fun _ => agrees_advances source))

end Arithmetic

/-!
# One operand
-/

def checkedReplaceOperand (context : Context) (rule : FlagRule) (operand : Operand)
    (compute : Expr -> Checked Expr) : CheckedEmit Unit := do
  let value <- context.checkedRead operand
  let a <- CheckedEmit.snapshot context.width value
  let value <- compute a
  let result <- context.checkedResultAndFlags rule a a value
  context.checkedWrite operand result
  checkedAdvances operand

def checkedRotateRight (context : Context) (operand : Operand) : CheckedEmit Unit :=
  context.checkedReplaceOperand (.rrc 1) operand fun a =>
    return .rotateCarry context.width a (.flag .c)

def checkedShiftRight (context : Context) (operand : Operand) : CheckedEmit Unit :=
  context.checkedReplaceOperand (.rra 1) operand fun a => do
    let one <- Expr.checkedInt context.width 1
    return .asr context.width a one

def checkedExtendSign (context : Context) (operand : Operand) : CheckedEmit Unit :=
  context.checkedReplaceOperand .sxt operand fun a =>
    return .signExtend context.width (.lowPart .byte a)

def checkedSwappedBytes (width : Width) (value : Expr) : Checked Expr := do
  let eight <- Expr.checkedInt .word 8
  return match width with
    | .address => .zeroExtend .address (.rol .word (.lowPart .word value) eight)
    | .byte | .word => .rol .word value eight

def checkedSwapBytes (context : Context) (operand : Operand) : CheckedEmit Unit := do
  let value <- context.checkedRead operand
  let swapped <- checkedSwappedBytes context.width value
  context.checkedWrite operand swapped
  checkedAdvances operand

def checkedPushOperand (context : Context) (operand : Operand) : CheckedEmit Unit := do
  let value <- context.checkedRead operand
  let value <-
    if value.constant?.isSome then
      (return value)
    else
      CheckedEmit.save context.width value
  let ops <- context.checkedPush context.width value
  CheckedEmit.ops ops
  checkedAdvances operand

section OneOperand

variable (context : Context)

theorem agrees_replaceOperand {rule : FlagRule} (hrule : rule.CountFits context.width)
    (operand : Operand) {checked : Expr -> Checked Expr} {compute : Expr -> Expr}
    (h : forall a, checked a = .ok (compute a)) :
    Agrees (context.checkedReplaceOperand rule operand checked)
      (context.replaceOperand rule operand compute) 2 0 :=
  .weaken
    (.compute (context.checkedRead_eq operand)
      (.bind (.snapshot _ _) fun a => .compute (h a)
        (.bind (context.agrees_resultAndFlags hrule _ _ _) fun _ =>
          .bind (context.agrees_write operand _) fun _ => agrees_advances operand)))
    (by decide) (by decide)

theorem countFits_one : FlagRule.CountFits (.rra 1) context.width := by
  show 1 ≤ 1 ∧ 1 ≤ context.width.bits
  cases context.width <;> decide

theorem agrees_rotateRight (operand : Operand) :
    Agrees (context.checkedRotateRight operand) (context.rotateRight operand) 2 0 :=
  context.agrees_replaceOperand context.countFits_one operand fun _ => rfl

theorem agrees_shiftRight (operand : Operand) :
    Agrees (context.checkedShiftRight operand) (context.shiftRight operand) 2 0 := by
  apply context.agrees_replaceOperand context.countFits_one operand
  intro a
  rw [Expr.checkedInt_eq, Checked.ok_bind, Checked.pure_eq_ok]

theorem agrees_extendSign (operand : Operand) :
    Agrees (context.checkedExtendSign operand) (context.extendSign operand) 2 0 := by
  have hrule : FlagRule.CountFits .sxt context.width := trivial
  exact context.agrees_replaceOperand hrule operand fun _ => rfl

@[simp] theorem checkedSwappedBytes_eq (width : Width) (value : Expr) :
    checkedSwappedBytes width value = .ok (swappedBytes width value) := by
  unfold checkedSwappedBytes
  rw [Expr.checkedInt_eq, Checked.ok_bind, Checked.pure_eq_ok]
  rfl

theorem agrees_swapBytes (operand : Operand) :
    Agrees (context.checkedSwapBytes operand) (context.swapBytes operand) 0 0 :=
  .compute (context.checkedRead_eq operand) (.compute (checkedSwappedBytes_eq _ _)
    (.bind (context.agrees_write operand _) fun _ => agrees_advances operand))

theorem agrees_pushOperand (operand : Operand) :
    Agrees (context.checkedPushOperand operand) (context.pushOperand operand) 1 0 := by
  have hpushed : forall value : Expr,
      Agrees
        (do
          let ops <- context.checkedPush context.width value
          CheckedEmit.ops ops
          checkedAdvances operand)
        (do
          Emit.ops (context.push context.width value)
          Emit.ops (postIncrement operand)) 0 0 :=
    fun value => .compute (context.checkedPush_eq context.width value)
      (.bind (.ops _) fun _ => agrees_advances operand)
  refine .compute (context.checkedRead_eq operand) (.ite ?_ ?_)
  · exact .weaken (.bind (.pure _) fun value => hpushed value) (by decide) (by decide)
  · exact .bind (.save _ _) fun value => hpushed value

end OneOperand

/-!
# Shifts by several bits
-/

def checkedShiftExpr (opcode : ShiftOpcode) (width : Width) (count : Nat) (a : Expr) :
    Checked Expr := do
  let amount <- Expr.checkedInt width count
  match opcode with
  | .rram => return .asr width a amount
  | .rlam => return .lsl width a amount
  | .rrum => return .lsr width a amount
  | .rrcm => do
      let carryBit <- Unsigned.u64.sub width.bits count
      let carryAmount <- Expr.checkedInt width carryBit
      let behind <- Unsigned.u64.sub width.bits count
      let lowBit <- Unsigned.u64.add behind 1
      let lowAmount <- Expr.checkedInt width lowBit
      return .or width
        (.or width (.lsr width a amount)
          (.lsl width (.ofBool width (.flag .c)) carryAmount))
        (.lsl width a lowAmount)

/-- The count is kept in a byte. -/
def checkedShift (context : Context) (opcode : ShiftOpcode) (count : Nat)
    (destination : Register) : CheckedEmit Unit :=
  let count := Unsigned.u8.truncate count
  context.checkedReplaceOperand (shiftRule opcode count) (.register destination)
    (checkedShiftExpr opcode context.width count)

section Shift

variable {count : Nat}

theorem checkedShiftExpr_eq (opcode : ShiftOpcode) {width : Width}
    (hcount : count ≤ width.bits) (a : Expr) :
    checkedShiftExpr opcode width count a = .ok (shiftExpr opcode width count a) := by
  have hbits : width.bits ≤ 20 := by cases width <;> decide
  have hlow : Unsigned.u64.add (width.bits - count) 1 = .ok (width.bits - count + 1) :=
    Unsigned.add_of_lt (by simp only [Unsigned.bits]; omega)
  unfold checkedShiftExpr
  rw [Expr.checkedInt_eq, Checked.ok_bind]
  cases opcode with
  | rram | rlam | rrum => rfl
  | rrcm =>
      simp only [Unsigned.sub_of_le hcount, Checked.ok_bind, Expr.checkedInt_eq, hlow]
      rfl

theorem countFits_shift (opcode : ShiftOpcode) {width : Width}
    (hcount : 1 ≤ count ∧ count ≤ width.bits) :
    (shiftRule opcode count).CountFits width := by
  cases opcode <;> exact hcount

theorem agrees_shift (context : Context) (opcode : ShiftOpcode)
    (hcount : 1 ≤ count ∧ count ≤ 4) (destination : Register) :
    Agrees (context.checkedShift opcode count destination)
      (context.shift opcode count destination) 2 0 := by
  have hbits : 8 ≤ context.width.bits := by cases context.width <;> decide
  have hbyte : Unsigned.u8.truncate count = count :=
    Nat.mod_eq_of_lt (by simp only [Unsigned.bits]; omega)
  have hfits : 1 ≤ count ∧ count ≤ context.width.bits := by omega
  unfold checkedShift
  rw [hbyte]
  exact context.agrees_replaceOperand (countFits_shift opcode hfits) _
    (checkedShiftExpr_eq opcode hfits.2)

end Shift

/-!
# All bodies
-/

def checkedDouble (context : Context) (opcode : DoubleOpcode)
    (source destination : Operand) : CheckedEmit Unit :=
  match opcode with
  | .mov => context.checkedMove source destination
  | .add => context.checkedArithmetic .add true source destination
  | .addc => context.checkedArithmetic .addc true source destination
  | .sub => context.checkedArithmetic .sub true source destination
  | .subc => context.checkedArithmetic .subc true source destination
  | .cmp => context.checkedArithmetic .sub false source destination
  | .and => context.checkedArithmetic .and true source destination
  | .bit => context.checkedArithmetic .and false source destination
  | .xor => context.checkedArithmetic .xor true source destination
  | .bic => context.checkedClearBits source destination
  | .bis => context.checkedSetBits source destination
  | .dadd => CheckedEmit.op .unimplemented

def checkedAddressArithmetic (context : Context) (opcode : AddressOpcode)
    (source destination : Operand) : CheckedEmit Unit :=
  match opcode with
  | .mova => context.checkedMove source destination
  | .adda => context.checkedArithmetic .add true source destination
  | .suba => context.checkedArithmetic .sub true source destination
  | .cmpa => context.checkedArithmetic .sub false source destination

def checkedSingle (context : Context) (opcode : SingleOpcode) (operand : Operand) :
    CheckedEmit Unit :=
  match opcode with
  | .rrc => context.checkedRotateRight operand
  | .rra => context.checkedShiftRight operand
  | .swpb => context.checkedSwapBytes operand
  | .sxt => context.checkedExtendSign operand
  | .push => context.checkedPushOperand operand
  | .call => context.checkedCall operand

def checkedBody (context : Context) : Body Operand -> CheckedEmit Unit
  | .reti => context.checkedReti
  | .jump condition offset => context.checkedJump condition offset
  | .single opcode target => context.checkedSingle opcode target
  | .double opcode source destination =>
      context.checkedDouble opcode source destination
  | .calla target => context.checkedCall target
  | .address opcode source destination =>
      context.checkedAddressArithmetic opcode source destination
  | .multiple .pushm count highest => do
      let ops <- context.checkedPushRange count highest
      CheckedEmit.ops ops
  | .multiple .popm count highest => do
      let ops <- context.checkedPopRange count highest
      CheckedEmit.ops ops
  | .shift opcode count destination => context.checkedShift opcode count destination

/-- What has no code is reported with its text. -/
def checkedRun (context : Context) (inst : Instruction) : CheckedEmit Unit :=
  if (unsupported? inst.body).isSome then do
    let _ <- inst.checkedText
    CheckedEmit.op .unimplemented
  else
    match inst.emulated? with
    | some .ret => context.checkedRet .word
    | some .reta => context.checkedRet .address
    | some .nop => CheckedEmit.op .nop
    | some emulated =>
        match flagShortcut? emulated with
        | some (flag, value) => CheckedEmit.op (.setFlag flag (.bool value))
        | none => context.checkedBody inst.body
    | none => context.checkedBody inst.body

/-- The labels that a run takes at most. -/
def labelsTaken : Body Operand -> Nat
  | .jump _ _ => 2
  | _ => 0

section Bodies

variable (context : Context)

theorem agrees_double (opcode : DoubleOpcode) (source destination : Operand) :
    Agrees (context.checkedDouble opcode source destination)
      (context.double opcode source destination) 3 0 := by
  cases opcode with
  | mov => exact .weaken (context.agrees_move _ _) (by decide) (by decide)
  | bic => exact .weaken (context.agrees_clearBits _ _) (by decide) (by decide)
  | bis => exact .weaken (context.agrees_setBits _ _) (by decide) (by decide)
  | dadd => exact .weaken (.op _) (by decide) (by decide)
  | add | addc | sub | subc | cmp | and | bit | xor =>
      exact context.agrees_arithmetic _ _ source destination

theorem agrees_addressArithmetic (opcode : AddressOpcode) (source destination : Operand) :
    Agrees (context.checkedAddressArithmetic opcode source destination)
      (context.addressArithmetic opcode source destination) 3 0 := by
  cases opcode with
  | mova => exact .weaken (context.agrees_move _ _) (by decide) (by decide)
  | adda | suba | cmpa => exact context.agrees_arithmetic _ _ source destination

theorem agrees_single (opcode : SingleOpcode) (operand : Operand) :
    Agrees (context.checkedSingle opcode operand) (context.single opcode operand) 2 0 := by
  cases opcode with
  | rrc => exact context.agrees_rotateRight operand
  | rra => exact context.agrees_shiftRight operand
  | swpb => exact .weaken (context.agrees_swapBytes operand) (by decide) (by decide)
  | sxt => exact context.agrees_extendSign operand
  | push => exact .weaken (context.agrees_pushOperand operand) (by decide) (by decide)
  | call => exact .weaken (context.agrees_call operand) (by decide) (by decide)

theorem agrees_body {body : Body Operand} (hrange : body.InRange context.width)
    (hroom : Instruction.LeavesRoom context.address)
    (hoffset : forall condition offset, body = .jump condition offset ->
      -0x200 ≤ offset ∧ offset < 0x200) :
    Agrees (context.checkedBody body) (context.body body) 3 (labelsTaken body) := by
  cases body with
  | reti => exact .weaken context.agrees_reti (by decide) (by decide)
  | jump condition offset =>
      exact .weaken (context.agrees_jump condition hroom (hoffset condition offset rfl))
        (by decide) (Nat.le_refl 2)
  | single opcode target =>
      exact .weaken (context.agrees_single opcode target) (by decide) (Nat.le_refl 0)
  | double opcode source destination =>
      exact context.agrees_double opcode source destination
  | calla target =>
      exact .weaken (context.agrees_call target) (by decide) (Nat.le_refl 0)
  | address opcode source destination =>
      exact context.agrees_addressArithmetic opcode source destination
  | multiple opcode count highest =>
      cases opcode with
      | pushm =>
          exact .weaken
            (.compute (context.checkedPushRange_eq hrange.1 hrange.2) (.ops _))
            (by decide) (Nat.le_refl 0)
      | popm =>
          exact .weaken
            (.compute (context.checkedPopRange_eq hrange.1 hrange.2) (.ops _))
            (by decide) (Nat.le_refl 0)
  | shift opcode count destination =>
      exact .weaken (context.agrees_shift opcode hrange.1 destination)
        (by decide) (Nat.le_refl 0)

theorem agrees_run {inst : Instruction} (hrange : inst.body.InRange context.width)
    (hroom : Instruction.LeavesRoom context.address) (hshows : inst.ShowsNumbers) :
    Agrees (context.checkedRun inst) (context.run inst) 3 (labelsTaken inst.body) := by
  have hbody := context.agrees_body hrange hroom fun condition offset hjump =>
    hshows.jump offset (by unfold Instruction.jumpOffset?; rw [hjump])
  have hop : forall op, Agrees (CheckedEmit.op op) (Emit.op op) 3 (labelsTaken inst.body) :=
    fun op => (Agrees.op op).weaken (by decide) (Nat.zero_le _)
  have hret : forall width, Agrees (context.checkedRet width) (context.ret width) 3
      (labelsTaken inst.body) :=
    fun width => (context.agrees_ret width).weaken (by decide) (Nat.zero_le _)
  refine .ite (.compute (Instruction.checkedText_eq hshows) (hop .unimplemented)) ?_
  cases inst.emulated? with
  | none => exact hbody
  | some emulated =>
      cases emulated with
      | ret => exact hret .word
      | reta => exact hret .address
      | clrc | clrn | clrz | setc | setn | setz | nop => exact hop _
      | _ => exact hbody

end Bodies

end Context

end Lift
end MSP430
