import MSP430.Lift.Body
import MSP430.Proofs.Checked.Arithmetic
import MSP430.Proofs.FlagRule.Mirror
import MSP430.Proofs.IL.Value

/-!
# Checked places and flags

The expressions and the operations that lifting is made of, with the arithmetic they
take.  A constant is masked to its width, a flag is a shifted bit, and the bits that a
shift moves are counted from its width.  A register advances by a signed amount, of which
the magnitude is added or subtracted.
-/

namespace MSP430

open IL (Expr KnownLabels Op)

/-!
# Constants
-/

namespace IL.Expr

/-- An integer constant, masked to its width. -/
def checkedInt (width : Width) (value : Nat) : Checked Expr := do
  let mask <- width.checkedMask
  return .const width (value &&& mask)

/-- A constant that is an address, masked to its width. -/
def checkedAddress (width : Width) (value : Nat) : Checked Expr := do
  let mask <- width.checkedMask
  return .pointer width (value &&& mask)

@[simp] theorem checkedInt_eq (width : Width) (value : Nat) :
    checkedInt width value = .ok (.int width value) := by
  unfold checkedInt
  rw [Width.checkedMask_eq, Checked.ok_bind, Width.and_mask]
  rfl

@[simp] theorem checkedAddress_eq (width : Width) (value : Nat) :
    checkedAddress width value = .ok (.address width value) := by
  unfold checkedAddress
  rw [Width.checkedMask_eq, Checked.ok_bind, Width.and_mask]
  rfl

theorem int_of_truncate {width : Width} {first second : Nat}
    (h : width.truncate first = width.truncate second) :
    int width first = int width second :=
  congrArg (Expr.const width) h

end IL.Expr

theorem Width.truncate_ofInt_eq (width : Width) (value : Int) :
    width.truncate (Unsigned.u64.ofInt value) = width.truncate (width.ofInt value) := by
  rw [truncate_ofInt, truncate_of_lt (width.ofInt_lt value)]

/-- Sixty-four bits are enough for every width. -/
theorem Width.truncate_mod (width : Width) (value : Nat) :
    width.truncate (value % 2 ^ 64) = width.truncate value := by
  cases width <;> simp only [truncate, modulus] <;> omega

/-!
# Flags
-/

namespace FlagRule

def checkedIsNegative (width : Width) (value : Expr) : Checked Expr := do
  let zero <- Expr.checkedInt width 0
  return .compare .signedLessThan width value zero

def checkedIsZero (width : Width) (value : Expr) : Checked Expr := do
  let zero <- Expr.checkedInt width 0
  return .compare .equal width value zero

def checkedIsNonzero (width : Width) (value : Expr) : Checked Expr := do
  let zero <- Expr.checkedInt width 0
  return .compare .notEqual width value zero

def checkedBitSet (width : Width) (value : Expr) (bit : Nat) : Checked Expr := do
  let power <- Unsigned.u64.shiftLeft 1 bit
  let mask <- Expr.checkedInt width power
  checkedIsNonzero width (.and width value mask)

@[simp] theorem checkedIsNegative_eq (width : Width) (value : Expr) :
    checkedIsNegative width value = .ok (isNegativeExpr width value) := by
  simp only [checkedIsNegative, Expr.checkedInt_eq, Checked.ok_bind]
  rfl

@[simp] theorem checkedIsZero_eq (width : Width) (value : Expr) :
    checkedIsZero width value = .ok (isZeroExpr width value) := by
  simp only [checkedIsZero, Expr.checkedInt_eq, Checked.ok_bind]
  rfl

@[simp] theorem checkedIsNonzero_eq (width : Width) (value : Expr) :
    checkedIsNonzero width value = .ok (isNonzeroExpr width value) := by
  simp only [checkedIsNonzero, Expr.checkedInt_eq, Checked.ok_bind]
  rfl

theorem checkedBitSet_eq (width : Width) (value : Expr) {bit : Nat} (h : bit < 64) :
    checkedBitSet width value bit = .ok (bitSetExpr width value bit) := by
  have hpower : Unsigned.u64.shiftLeft 1 bit = .ok (1 <<< bit % 2 ^ 64) := if_pos h
  have hmask : Expr.int width (1 <<< bit % 2 ^ 64) = .int width (1 <<< bit) :=
    Expr.int_of_truncate (width.truncate_mod _)
  unfold checkedBitSet
  rw [hpower, Checked.ok_bind, Expr.checkedInt_eq, Checked.ok_bind, hmask,
    checkedIsNonzero_eq]
  rfl

/-- The carry of a shift is the last bit that is shifted out. -/
def checkedCarry (rule : FlagRule) (width : Width) (operands : Operands) : Checked Expr :=
  match rule with
  | rra count | rrc count | rru count => do
      let bit <- Unsigned.u32.sub (max count 1) 1
      checkedBitSet width operands.a bit
  | rla count => do
      let bit <- Unsigned.u32.sub width.bits (max count 1)
      checkedBitSet width operands.a bit
  | and | xor | sxt => checkedIsNonzero width operands.result
  | rule => return rule.carryExpr width operands

def checkedOverflow (rule : FlagRule) (width : Width) (operands : Operands) :
    Checked Expr :=
  let a := operands.a
  let b := operands.b
  let result := operands.result
  match rule with
  | add | addc =>
      checkedIsNegative width (.and width (.xor width a result) (.xor width b result))
  | sub | subc =>
      checkedIsNegative width (.and width (.xor width a b) (.xor width a result))
  | xor => do
      let first <- checkedIsNegative width a
      let second <- checkedIsNegative width b
      return .logic .and first second
  | and | rra _ | rrc _ | rru _ | rla _ | sxt => return .bool false

/-- Carry and overflow are computed once, the other flags where they are written. -/
def checkedFlags (rule : FlagRule) (width : Width) (operands : Operands) :
    Checked (List (Flag × Expr)) := do
  let carry <- rule.checkedCarry width operands
  let overflow <- rule.checkedOverflow width operands
  rule.group.flags.mapM fun flag => do
    let value <-
      match flag with
      | .c => (return carry)
      | .z => checkedIsZero width operands.result
      | .n => checkedIsNegative width operands.result
      | .v => (return overflow)
    return (flag, value)

theorem checkedCarry_eq {rule : FlagRule} {width : Width} (h : rule.CountFits width)
    (operands : Operands) :
    rule.checkedCarry width operands = .ok (rule.carryExpr width operands) := by
  have hbits : 1 ≤ width.bits ∧ width.bits ≤ 20 := by cases width <;> decide
  cases rule with
  | rra count | rrc count | rru count =>
      have hcount : 1 ≤ count ∧ count ≤ width.bits := h
      have hbit : max count 1 - 1 < 64 := by omega
      simp only [checkedCarry, Unsigned.sub_of_le (Nat.le_max_right count 1),
        Checked.ok_bind, checkedBitSet_eq width _ hbit]
      rfl
  | rla count =>
      have hcount : 1 ≤ count ∧ count ≤ width.bits := h
      have hbit : width.bits - max count 1 < 64 := by omega
      have hle : max count 1 ≤ width.bits := by omega
      simp only [checkedCarry, Unsigned.sub_of_le hle, Checked.ok_bind,
        checkedBitSet_eq width _ hbit]
      rfl
  | and | xor | sxt => exact checkedIsNonzero_eq _ _
  | add | addc | sub | subc => rfl

theorem checkedOverflow_eq (rule : FlagRule) (width : Width) (operands : Operands) :
    rule.checkedOverflow width operands = .ok (rule.overflowExpr width operands) := by
  cases rule with
  | add | addc | sub | subc => exact checkedIsNegative_eq _ _
  | xor =>
      simp only [checkedOverflow, checkedIsNegative_eq, Checked.ok_bind]
      rfl
  | and | rra _ | rrc _ | rru _ | rla _ | sxt => rfl

theorem checkedFlags_eq {rule : FlagRule} {width : Width} (h : rule.CountFits width)
    (operands : Operands) :
    rule.checkedFlags width operands = .ok (rule.flagExprs width operands) := by
  unfold checkedFlags flagExprs
  rw [checkedCarry_eq h, Checked.ok_bind, checkedOverflow_eq, Checked.ok_bind]
  apply Checked.mapM_eq
  intro flag _
  cases flag with
  | z =>
      simp only [checkedIsZero_eq, Checked.ok_bind]
      rfl
  | n =>
      simp only [checkedIsNegative_eq, Checked.ok_bind]
      rfl
  | c | v => rfl

end FlagRule

namespace Lift

/-!
# Status register
-/

/-- The bit of a flag, shifted to its position. -/
def checkedFlagMask (flag : Flag) : Checked Nat :=
  Unsigned.u64.shiftLeft 1 flag.bit

/-- One flag as a bit of the status register. -/
def checkedFlagBit (width : Width) (flag : Flag) : Checked Expr := do
  let position <- Expr.checkedInt width flag.bit
  return .lsl width (.ofBool width (.flag flag)) position

/-- The status register without the bits of the flags, and the flags put there. -/
def checkedStatusRegister (width : Width) : Checked Expr := do
  let bits <- Flag.all.foldlM (fun bits flag => do
    let mask <- checkedFlagMask flag
    return bits ||| mask) 0
  let others <- Expr.checkedInt width (Unsigned.u64.complement bits)
  Flag.all.foldlM (fun value flag => do
    let bit <- checkedFlagBit width flag
    return .or width value bit) (.and width (.reg width .sr) others)

def checkedFlagsFromStatus : Checked (List Op) :=
  Flag.all.mapM fun flag => do
    let mask <- checkedFlagMask flag
    let bit <- Expr.checkedInt .word mask
    let zero <- Expr.checkedInt .word 0
    return .setFlag flag
      (.compare .notEqual .word (.and .word (.reg .word .sr) bit) zero)

@[simp] theorem checkedFlagMask_eq (flag : Flag) :
    checkedFlagMask flag = .ok flag.mask := by
  cases flag <;> rfl

@[simp] theorem checkedFlagBit_eq (width : Width) (flag : Flag) :
    checkedFlagBit width flag = .ok (flagBit width flag) := by
  unfold checkedFlagBit
  rw [Expr.checkedInt_eq, Checked.ok_bind]
  rfl

@[simp] theorem checkedStatusRegister_eq (width : Width) :
    checkedStatusRegister width = .ok (statusRegister width) := by
  have hothers : Expr.int width (Unsigned.u64.complement flagBits) =
      .int width (width.complement flagBits) := by
    cases width <;> rfl
  have hbits : (Flag.all.foldlM (fun bits flag => do
      let mask <- checkedFlagMask flag
      return bits ||| mask) 0 : Checked Nat) = .ok flagBits := rfl
  unfold checkedStatusRegister
  rw [hbits, Checked.ok_bind, Expr.checkedInt_eq, Checked.ok_bind, hothers]
  simp only [Flag.all, List.foldlM_cons, List.foldlM_nil, checkedFlagBit_eq,
    Checked.ok_bind, Checked.pure_eq_ok]
  rfl

@[simp] theorem checkedFlagsFromStatus_eq :
    checkedFlagsFromStatus = .ok flagsFromStatus := by
  apply Checked.mapM_eq
  intro flag _
  simp only [checkedFlagMask_eq, Expr.checkedInt_eq, Checked.ok_bind]
  rfl

/-!
# Places
-/

namespace Place

/-- The place of an operand, with an offset as an unsigned constant. -/
def checkedOf (addressWidth : Width) (operand : Operand) : Checked Place :=
  match operand with
  | .indexed r offset => do
      let distance <- Expr.checkedInt addressWidth (Unsigned.u64.ofInt offset)
      return .memory (.add addressWidth (.reg addressWidth r) distance)
  | .absolute address | .symbolic _ address => do
      let location <- Expr.checkedAddress addressWidth address
      return .memory location
  | operand => return .of addressWidth operand

/-- The word behind an address may wrap, and the number of a value is masked before it
becomes a constant. -/
def checkedRead (address : UInt64) (width : Width) (place : Place) : Checked Expr :=
  match place with
  | register .pc => Expr.checkedAddress width (address + 2).toNat
  | register .cg => Expr.checkedInt width 0
  | register .sr => checkedStatusRegister width
  | value number => do
      let mask <- width.checkedMask
      Expr.checkedInt width (Unsigned.u64.ofInt number &&& mask)
  | place => return place.read address width

def checkedWrite (known : KnownLabels) (width : Width) (value : Expr) (place : Place) :
    Checked (List Op) :=
  match place with
  | register .sr => do
      let flags <- checkedFlagsFromStatus
      return setRegister .sr width value :: flags
  | place => return place.write known width value

@[simp] theorem checkedOf_eq (addressWidth : Width) (operand : Operand) :
    checkedOf addressWidth operand = .ok (.of addressWidth operand) := by
  cases operand with
  | indexed r offset =>
      have hdistance : Expr.int addressWidth (Unsigned.u64.ofInt offset) =
          .int addressWidth (addressWidth.ofInt offset) :=
        Expr.int_of_truncate (addressWidth.truncate_ofInt_eq offset)
      simp only [checkedOf, Expr.checkedInt_eq, Checked.ok_bind, hdistance]
      rfl
  | absolute address | symbolic _ address =>
      simp only [checkedOf, Expr.checkedAddress_eq, Checked.ok_bind]
      rfl
  | register _ | indirect _ | autoIncrement _ _ | immediate _ | constant _ => rfl

@[simp] theorem checkedRead_eq (address : UInt64) (width : Width) (place : Place) :
    place.checkedRead address width = .ok (place.read address width) := by
  cases place with
  | register r =>
      cases r with
      | pc =>
          have hnext : Expr.address width (address + 2).toNat =
              .address width (address.toNat + 2) := by
            rw [UInt64.toNat_add]
            exact congrArg (Expr.pointer width) (width.truncate_mod _)
          exact (Expr.checkedAddress_eq _ _).trans (congrArg Except.ok hnext)
      | cg => exact Expr.checkedInt_eq _ _
      | sr => exact checkedStatusRegister_eq width
      | _ => rfl
  | memory location => rfl
  | value number =>
      simp only [checkedRead, Width.checkedMask_eq, Checked.ok_bind, Width.and_mask,
        Width.truncate_ofInt, Expr.checkedInt_eq]
      rfl

@[simp] theorem checkedWrite_eq (known : KnownLabels) (width : Width) (value : Expr)
    (place : Place) :
    place.checkedWrite known width value = .ok (place.write known width value) := by
  cases place with
  | register r => cases r <;> rfl
  | memory location => rfl
  | value number => rfl

end Place

/-- A constant address of code. -/
def checkedCodePointer (address : Nat) : Checked Expr :=
  Expr.checkedAddress (if 0xffff < address then .address else .word) address

@[simp] theorem checkedCodePointer_eq (address : Nat) :
    checkedCodePointer address = .ok (codePointer address) := by
  unfold checkedCodePointer codePointer
  rw [Expr.checkedAddress_eq]
  by_cases h : address < 0x10000
  · rw [if_pos h, if_neg (by omega)]
  · rw [if_neg h, if_pos (by omega)]

/-!
# Registers that advance
-/

/-- Adds an amount to a register, or subtracts its magnitude. -/
def checkedStep (r : Register) (amount : Int) : Checked Op := do
  let magnitude <- Signed.i64.abs amount
  let width : Width := if magnitude = 4 then .address else .word
  if amount < 0 then do
    let number <- Expr.checkedInt width amount.natAbs
    return .setReg width r (.sub width (.reg width r) number)
  else do
    let number <- Expr.checkedInt width (Unsigned.u64.ofInt amount)
    return .setReg width r (.add width (.reg width r) number)

@[simp] theorem checkedStep_advance (r : Register) (step : Nat) :
    checkedStep r step = .ok (advance r step) := by
  have habs : Signed.i64.abs step = .ok (step : Int) := if_neg (by omega)
  have hnumber : forall width : Width,
      Expr.int width (Unsigned.u64.ofInt step) = .int width step := by
    intro width
    apply Expr.int_of_truncate
    rw [Width.truncate_ofInt, Width.ofInt_natCast]
  have hfour : ((step : Int) = 4) ↔ step = 4 := by omega
  unfold checkedStep
  rw [habs, Checked.ok_bind, if_neg (by omega), Expr.checkedInt_eq, Checked.ok_bind, hnumber]
  simp only [hfour]
  rfl

/-- The stack pointer moves back by what a value of the width takes on the stack. -/
def checkedRetreat (width : Width) : Checked Op := do
  let amount <- Signed.i64.neg (stackStep width)
  checkedStep .sp amount

@[simp] theorem checkedRetreat_eq (width : Width) :
    checkedRetreat width = .ok (retreat .sp (stackStep width)) := by
  cases width <;> rfl

def checkedPostIncrement (operand : Operand) : Checked (List Op) :=
  match operand with
  | .autoIncrement r step => do
      let op <- checkedStep r step
      return [op]
  | _ => return []

@[simp] theorem checkedPostIncrement_eq (operand : Operand) :
    checkedPostIncrement operand = .ok (postIncrement operand) := by
  cases operand with
  | autoIncrement r step =>
      simp only [checkedPostIncrement, checkedStep_advance, Checked.ok_bind]
      rfl
  | _ => rfl

end Lift
end MSP430
