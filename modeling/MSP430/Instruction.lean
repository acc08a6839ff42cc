import MSP430.Emulated
import MSP430.OperandField

/-!
# Instructions

The body of an instruction has one constructor for each encoding format, with
the operands that format has.  It is generic in what stands for an operand: the
encoding of an instruction has operand slots there, a decoded instruction has
operands.
-/

namespace MSP430

/-- The instruction sets: the sixteen-bit processor and its twenty-bit
extension. -/
inductive Variant where
  | msp430
  | msp430x
  deriving DecidableEq, Repr

/-- How often an extended register-form instruction runs. -/
inductive Repetition where
  | times (count : Nat)
  /-- One more than the low four bits of the register say. -/
  | register (register : Register)
  deriving DecidableEq, Repr

/-- What a prefix word adds to the instruction behind it. -/
structure Extension where
  repetition : Repetition
  /-- The carry is cleared before each run. -/
  zeroCarry : Bool
  deriving DecidableEq, Repr

namespace Extension

/-- The extension of an instruction that runs once. -/
def once : Extension :=
  { repetition := .times 1, zeroCarry := false }

def isRepeated (extension : Extension) : Bool :=
  decide (extension.repetition ≠ .times 1)

end Extension

inductive Body (operand : Type) where
  | reti
  | jump (condition : Condition) (offset : Int)
  | single (opcode : SingleOpcode) (target : operand)
  | double (opcode : DoubleOpcode) (source destination : operand)
  | calla (target : operand)
  | address (opcode : AddressOpcode) (source destination : operand)
  /-- A range of registers, given by its size and its highest member. -/
  | multiple (opcode : MultipleOpcode) (count : Nat) (highest : Register)
  | shift (opcode : ShiftOpcode) (count : Nat) (destination : Register)
  deriving DecidableEq, Repr

namespace Body

def opcode {operand : Type} : Body operand -> Opcode
  | reti => .reti
  | jump condition _ => .jump condition
  | single opcode _ => .single opcode
  | double opcode _ _ => .double opcode
  | calla _ => .calla
  | address opcode _ _ => .address opcode
  | multiple opcode _ _ => .multiple opcode
  | shift opcode _ _ => .shift opcode

/-- The operands that have fields of their own, in the order in which their
extension words follow. -/
def operands {operand : Type} : Body operand -> List operand
  | single _ target | calla target => [target]
  | double _ source destination | address _ source destination =>
      [source, destination]
  | reti | jump _ _ | multiple _ _ _ | shift _ _ _ => []

/-- The source, which is also the only operand of a single-operand
instruction.  Counts are constants. -/
def source? : Body Operand -> Option Operand
  | single _ target | calla target => some target
  | double _ source _ | address _ source _ => some source
  | multiple _ count _ | shift _ count _ => some (.constant count)
  | reti | jump _ _ => none

def destination? : Body Operand -> Option Operand
  | double _ _ destination | address _ _ destination => some destination
  | multiple _ _ register | shift _ _ register => some (.register register)
  | reti | jump _ _ | single _ _ | calla _ => none

end Body

structure Instruction where
  address : UInt64
  width : Width
  extension : Option Extension
  body : Body Operand
  /-- The bytes of the instruction, prefix and extension words included. -/
  length : Nat
  deriving DecidableEq, Repr

namespace Instruction

def opcode (inst : Instruction) : Opcode :=
  inst.body.opcode

def format (inst : Instruction) : Format :=
  inst.opcode.format

def source? (inst : Instruction) : Option Operand :=
  inst.body.source?

def destination? (inst : Instruction) : Option Operand :=
  inst.body.destination?

def isExtended (inst : Instruction) : Bool :=
  inst.extension.isSome

def condition? (inst : Instruction) : Option Condition :=
  match inst.body with
  | .jump condition _ => some condition
  | _ => none

/-- The signed displacement of a jump, in words. -/
def jumpOffset? (inst : Instruction) : Option Int :=
  match inst.body with
  | .jump _ offset => some offset
  | _ => none

/-- Jumps stay within the low 64 KiB when they start there, and within the
twenty-bit space otherwise. -/
def jumpSpace (address : UInt64) : Width :=
  if address.toNat < 0x10000 then .word else .address

/-- Where a jump goes: its displacement counts from the word behind it. -/
def jumpTarget (address : UInt64) (offset : Int) : Nat :=
  (jumpSpace address).ofInt ((address.toNat : Int) + 2 + 2 * offset)

def jumpTarget? (inst : Instruction) : Option Nat :=
  inst.jumpOffset?.map (jumpTarget inst.address)

/-- The address of the instruction that follows in memory. -/
def nextAddress (inst : Instruction) : UInt64 :=
  inst.address + UInt64.ofNat inst.length

def emulated? (inst : Instruction) : Option Emulated :=
  match inst.body with
  | .double opcode source destination =>
      Emulated.ofDouble? opcode inst.width inst.isExtended source destination
  | .address opcode source destination =>
      Emulated.ofAddress? opcode source destination
  | _ => none

/-!
# Text
-/

/-- Whether the width is shown as a suffix: always for bytes, for ranges and
multiple-bit shifts at every width, and for addresses behind a prefix word.
Jumps and some emulated names never have one. -/
def showsWidth (inst : Instruction) : Bool :=
  if (inst.emulated?.map Emulated.isWidthless).getD false then
    false
  else
    match inst.opcode, inst.width with
    | .jump _, _ => false
    | .multiple _, _ | .shift _, _ => true
    | _, .byte => true
    | _, .address => inst.isExtended
    | _, .word => false

def mnemonic (inst : Instruction) : String :=
  let name :=
    match inst.emulated? with
    | some emulated => emulated.mnemonic
    | none => inst.opcode.mnemonic
  let extended := if inst.isExtended then "x" else ""
  let suffix := if inst.showsWidth then "." ++ inst.width.suffix else ""
  name ++ extended ++ suffix

/-- The operands that are shown, in the order in which they are shown. -/
def displayedOperands (inst : Instruction) : List Operand :=
  match inst.emulated?.map Emulated.shownOperand with
  | some .nothing => []
  | some .source => inst.source?.toList
  | some .destination => inst.destination?.toList
  | none => inst.source?.toList ++ inst.destination?.toList

def text (inst : Instruction) : String :=
  match inst.jumpTarget?, inst.displayedOperands with
  | some target, _ => inst.mnemonic ++ " " ++ Hex.text target
  | none, [] => inst.mnemonic
  | none, operands =>
      inst.mnemonic ++ " " ++ String.intercalate ", " (operands.map Operand.text)

end Instruction

end MSP430
