import MSP430.Condition

/-!
# Opcodes

One family of opcodes per encoding format, each with the table that reads it
from its field, and `Opcode`, their union.
-/

namespace MSP430

/-- The decoding family an opcode belongs to. -/
inductive Format where
  | singleOperand
  | jump
  | doubleOperand
  /-- Pushing and popping ranges of registers. -/
  | multiple
  /-- Instructions on twenty-bit addresses. -/
  | address
  deriving DecidableEq, Repr

inductive SingleOpcode where
  | rrc | swpb | rra | sxt | push | call
  deriving DecidableEq, Repr

inductive DoubleOpcode where
  | mov | add | addc | subc | sub | cmp
  | dadd | bit | bic | bis | xor | and
  deriving DecidableEq, Repr

inductive MultipleOpcode where
  | pushm | popm
  deriving DecidableEq, Repr

inductive AddressOpcode where
  | mova | cmpa | adda | suba
  deriving DecidableEq, Repr

inductive ShiftOpcode where
  | rrcm | rram | rlam | rrum
  deriving DecidableEq, Repr

inductive Opcode where
  | reti
  | calla
  | jump (condition : Condition)
  | single (opcode : SingleOpcode)
  | double (opcode : DoubleOpcode)
  | multiple (opcode : MultipleOpcode)
  | address (opcode : AddressOpcode)
  | shift (opcode : ShiftOpcode)
  deriving DecidableEq, Repr

namespace SingleOpcode

def all : List SingleOpcode :=
  [rrc, swpb, rra, sxt, push, call]

/-- The opcode in bits 9 to 7 of a single-operand word. -/
def ofSlot? : Nat -> Option SingleOpcode
  | 0 => some rrc
  | 1 => some swpb
  | 2 => some rra
  | 3 => some sxt
  | 4 => some push
  | 5 => some call
  | _ => none

def mnemonic : SingleOpcode -> String
  | rrc => "rrc"
  | swpb => "swpb"
  | rra => "rra"
  | sxt => "sxt"
  | push => "push"
  | call => "call"

/-- Whether the opcode has a byte form. -/
def hasByteForm : SingleOpcode -> Bool
  | rrc | rra | push => true
  | swpb | sxt | call => false

/-- Whether the result replaces the operand. -/
def writesOperand : SingleOpcode -> Bool
  | rrc | swpb | rra | sxt => true
  | push | call => false

end SingleOpcode

namespace DoubleOpcode

def all : List DoubleOpcode :=
  [mov, add, addc, subc, sub, cmp, dadd, bit, bic, bis, xor, and]

/-- The opcode in the top four bits of a double-operand word. -/
def ofNibble? : Nat -> Option DoubleOpcode
  | 4 => some mov
  | 5 => some add
  | 6 => some addc
  | 7 => some subc
  | 8 => some sub
  | 9 => some cmp
  | 10 => some dadd
  | 11 => some bit
  | 12 => some bic
  | 13 => some bis
  | 14 => some xor
  | 15 => some and
  | _ => none

def mnemonic : DoubleOpcode -> String
  | mov => "mov"
  | add => "add"
  | addc => "addc"
  | subc => "subc"
  | sub => "sub"
  | cmp => "cmp"
  | dadd => "dadd"
  | bit => "bit"
  | bic => "bic"
  | bis => "bis"
  | xor => "xor"
  | and => "and"

/-- Comparisons set flags and leave the destination alone. -/
def writesDestination : DoubleOpcode -> Bool
  | cmp | bit => false
  | _ => true

end DoubleOpcode

namespace MultipleOpcode

def all : List MultipleOpcode :=
  [pushm, popm]

def mnemonic : MultipleOpcode -> String
  | pushm => "pushm"
  | popm => "popm"

end MultipleOpcode

namespace AddressOpcode

def all : List AddressOpcode :=
  [mova, cmpa, adda, suba]

/-- The opcode in bits 5 and 4 of the immediate and register forms. -/
def ofBits (field : Nat) : AddressOpcode :=
  match field % 4 with
  | 0 => mova
  | 1 => cmpa
  | 2 => adda
  | _ => suba

def mnemonic : AddressOpcode -> String
  | mova => "mova"
  | cmpa => "cmpa"
  | adda => "adda"
  | suba => "suba"

def writesDestination : AddressOpcode -> Bool
  | cmpa => false
  | _ => true

end AddressOpcode

namespace ShiftOpcode

def all : List ShiftOpcode :=
  [rrcm, rram, rlam, rrum]

/-- The opcode in bits 9 and 8 of a multiple-bit shift. -/
def ofBits (field : Nat) : ShiftOpcode :=
  match field % 4 with
  | 0 => rrcm
  | 1 => rram
  | 2 => rlam
  | _ => rrum

def mnemonic : ShiftOpcode -> String
  | rrcm => "rrcm"
  | rram => "rram"
  | rlam => "rlam"
  | rrum => "rrum"

end ShiftOpcode

namespace Opcode

def all : List Opcode :=
  [reti, calla] ++
    (List.range 8).map (fun field => jump (.ofBits field)) ++
    SingleOpcode.all.map single ++
    DoubleOpcode.all.map double ++
    MultipleOpcode.all.map multiple ++
    AddressOpcode.all.map address ++
    ShiftOpcode.all.map shift

def mnemonic : Opcode -> String
  | reti => "reti"
  | calla => "calla"
  | jump condition => condition.mnemonic
  | single opcode => opcode.mnemonic
  | double opcode => opcode.mnemonic
  | multiple opcode => opcode.mnemonic
  | address opcode => opcode.mnemonic
  | shift opcode => opcode.mnemonic

def format : Opcode -> Format
  | reti | single _ => .singleOperand
  | jump _ => .jump
  | double _ => .doubleOperand
  | multiple _ => .multiple
  | calla | address _ | shift _ => .address

/-- Whether the result goes to the destination, or for a single-operand
instruction to its operand. -/
def writesDestination : Opcode -> Bool
  | reti | calla | jump _ => false
  | single opcode => opcode.writesOperand
  | double opcode => opcode.writesDestination
  | multiple opcode => decide (opcode = .popm)
  | address opcode => opcode.writesDestination
  | shift _ => true

end Opcode

end MSP430
