/-!
# Registers

The sixteen core registers, numbered as the four-bit register fields of the
encoding number them.  The first four have a special role in the hardware: the
program counter, the stack pointer, the status register and the constant
generator.
-/

namespace MSP430

inductive Register where
  | pc | sp | sr | cg
  | r4 | r5 | r6 | r7
  | r8 | r9 | r10 | r11
  | r12 | r13 | r14 | r15
  deriving DecidableEq, Repr

namespace Register

def all : List Register :=
  [pc, sp, sr, cg, r4, r5, r6, r7, r8, r9, r10, r11, r12, r13, r14, r15]

def id : Register -> Nat
  | pc => 0
  | sp => 1
  | sr => 2
  | cg => 3
  | r4 => 4
  | r5 => 5
  | r6 => 6
  | r7 => 7
  | r8 => 8
  | r9 => 9
  | r10 => 10
  | r11 => 11
  | r12 => 12
  | r13 => 13
  | r14 => 14
  | r15 => 15

def ofId? : Nat -> Option Register
  | 0 => some pc
  | 1 => some sp
  | 2 => some sr
  | 3 => some cg
  | 4 => some r4
  | 5 => some r5
  | 6 => some r6
  | 7 => some r7
  | 8 => some r8
  | 9 => some r9
  | 10 => some r10
  | 11 => some r11
  | 12 => some r12
  | 13 => some r13
  | 14 => some r14
  | 15 => some r15
  | _ => none

/-- The register a field names; bits above the low four are ignored. -/
def ofField (field : Nat) : Register :=
  (ofId? (field % 16)).getD pc

def name : Register -> String
  | pc => "pc"
  | sp => "sp"
  | sr => "sr"
  | cg => "cg"
  | r4 => "r4"
  | r5 => "r5"
  | r6 => "r6"
  | r7 => "r7"
  | r8 => "r8"
  | r9 => "r9"
  | r10 => "r10"
  | r11 => "r11"
  | r12 => "r12"
  | r13 => "r13"
  | r14 => "r14"
  | r15 => "r15"

/-- Bytes a host reserves for a register. -/
def size (_ : Register) : Nat :=
  2

/-- The registers from `r4` on have no role of their own in the hardware. -/
def isGeneralPurpose (register : Register) : Bool :=
  decide (4 ≤ register.id)

/-!
# Numbering

Identifiers, fields and the list of all registers agree.
-/

theorem id_lt (register : Register) : register.id < 16 := by
  cases register <;> decide

@[simp] theorem ofId?_id (register : Register) :
    ofId? register.id = some register := by
  cases register <;> rfl

@[simp] theorem ofField_id (register : Register) :
    ofField register.id = register := by
  cases register <;> rfl

theorem id_ofField (field : Nat) : (ofField field).id = field % 16 := by
  have hfield : field % 16 < 16 := Nat.mod_lt _ (by decide)
  unfold ofField
  generalize field % 16 = low at hfield
  revert low
  decide

theorem mem_all (register : Register) : register ∈ all := by
  cases register <;> decide

end Register

end MSP430
