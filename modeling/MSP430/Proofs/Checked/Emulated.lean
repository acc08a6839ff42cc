import MSP430.Instruction
import MSP430.Proofs.Checked.Arithmetic

/-!
# Checked recognition

The rules by which emulated instructions are recognised look at the value of the source,
which is masked to the width, and one of them at the mask itself.
-/

namespace MSP430

/-!
# Emulated names
-/

/-- The value of an operand, masked to a width. -/
def Operand.checkedValue? (operand : Operand) (width : Width) : Checked (Option Nat) :=
  match operand with
  | immediate value => do
      let mask <- width.checkedMask
      return some (value &&& mask)
  | constant value => do
      let mask <- width.checkedMask
      return some (Unsigned.u64.ofInt value &&& mask)
  | _ => return none

theorem Operand.checkedValue?_eq (operand : Operand) (width : Width) :
    operand.checkedValue? width = .ok (operand.value? width) := by
  cases operand with
  | immediate value =>
      simp only [checkedValue?, Width.checkedMask_eq, Checked.ok_bind, Width.and_mask]
      rfl
  | constant value =>
      simp only [checkedValue?, Width.checkedMask_eq, Checked.ok_bind, Width.and_mask,
        Width.truncate_ofInt]
      rfl
  | _ => rfl

namespace Emulated

/-- The rules of moves, for a source of a value. -/
def ofMovedValue? (width : Width) (extended : Bool) (value : Option Nat)
    (source destination : Operand) : Option Emulated :=
  let branches := !extended && decide (width = .word) && destination.isRegister .pc
  if branches && source.isPop then
    some ret
  else if branches then
    some br
  else if source.isPop then
    some pop
  else if value = some 0 then
    if !extended && destination.isRegister .cg then some nop else some clr
  else
    none

/-- The rules of double-operand instructions, for a source of a value. -/
def ofValue? (opcode : DoubleOpcode) (width : Width) (extended : Bool)
    (value : Option Nat) (mask : Nat) (source destination : Operand) : Option Emulated :=
  match opcode with
  | .mov => ofMovedValue? width extended value source destination
  | .add =>
      if value = some 1 then
        some inc
      else if value = some 2 then
        some incd
      else if source.sameLocation destination then
        some rla
      else
        none
  | .addc =>
      if value = some 0 then
        some adc
      else if source.sameLocation destination then
        some rlc
      else
        none
  | .sub =>
      if value = some 1 then
        some dec
      else if value = some 2 then
        some decd
      else
        none
  | .subc => if value = some 0 then some sbc else none
  | .dadd => if value = some 0 then some dadc else none
  | .cmp => if value = some 0 then some tst else none
  | .xor => if value = some mask then some inv else none
  | .bic =>
      if !extended && destination.isRegister .sr then
        value.bind ofClearedStatus?
      else
        none
  | .bis =>
      if !extended && destination.isRegister .sr then
        value.bind ofSetStatus?
      else
        none
  | .bit | .and => none

theorem ofValue?_eq (opcode : DoubleOpcode) (width : Width) (extended : Bool)
    (source destination : Operand) :
    ofValue? opcode width extended (source.value? width) width.mask source destination =
      ofDouble? opcode width extended source destination := by
  cases opcode <;> rfl

end Emulated

namespace Instruction

/-- The name is looked for where there are two operands. -/
def checkedEmulated? (inst : Instruction) : Checked (Option Emulated) :=
  match inst.source?, inst.destination? with
  | some source, some destination => do
      let value <- source.checkedValue? inst.width
      let mask <- inst.width.checkedMask
      return match inst.body with
        | .double opcode _ _ =>
            Emulated.ofValue? opcode inst.width inst.isExtended value mask source
              destination
        | .address opcode _ _ => Emulated.ofAddress? opcode source destination
        | _ => none
  | _, _ => return none

theorem checkedEmulated?_eq (inst : Instruction) :
    inst.checkedEmulated? = .ok inst.emulated? := by
  rcases inst with ⟨address, width, extension, body, length⟩
  cases body with
  | double opcode source destination =>
      simp only [checkedEmulated?, source?, destination?, Body.source?, Body.destination?,
        Operand.checkedValue?_eq, Width.checkedMask_eq, Checked.ok_bind,
        Emulated.ofValue?_eq]
      rfl
  | address _ _ _ | multiple _ _ _ | shift _ _ _ =>
      simp only [checkedEmulated?, source?, destination?, Body.source?, Body.destination?,
        Operand.checkedValue?_eq, Width.checkedMask_eq, Checked.ok_bind]
      rfl
  | reti | jump _ _ | single _ _ | calla _ => rfl

end Instruction
end MSP430
