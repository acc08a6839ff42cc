import MSP430.Opcode
import MSP430.Operand

/-!
# Emulated instructions

Common encodings of core instructions have names of their own.  This module
holds the names, which operand of the core instruction each one shows, and the
rules by which they are recognised.
-/

namespace MSP430

/-- The operand of the core instruction that an emulated name shows. -/
inductive ShownOperand where
  | nothing
  | source
  | destination
  deriving DecidableEq, Repr

inductive Emulated where
  | adc | br | bra | clr
  | clrc | clrn | clrz
  | dadc | dec | decd
  | dint | eint
  | inc | incd | inv
  | nop | pop | ret | reta
  | rla | rlc | sbc
  | setc | setn | setz
  | tst
  deriving DecidableEq, Repr

namespace Emulated

def all : List Emulated :=
  [adc, br, bra, clr, clrc, clrn, clrz, dadc, dec, decd, dint, eint, inc, incd,
    inv, nop, pop, ret, reta, rla, rlc, sbc, setc, setn, setz, tst]

def mnemonic : Emulated -> String
  | adc => "adc"
  | br => "br"
  | bra => "bra"
  | clr => "clr"
  | clrc => "clrc"
  | clrn => "clrn"
  | clrz => "clrz"
  | dadc => "dadc"
  | dec => "dec"
  | decd => "decd"
  | dint => "dint"
  | eint => "eint"
  | inc => "inc"
  | incd => "incd"
  | inv => "inv"
  | nop => "nop"
  | pop => "pop"
  | ret => "ret"
  | reta => "reta"
  | rla => "rla"
  | rlc => "rlc"
  | sbc => "sbc"
  | setc => "setc"
  | setn => "setn"
  | setz => "setz"
  | tst => "tst"

def shownOperand : Emulated -> ShownOperand
  | clrc | clrn | clrz | setc | setn | setz => .nothing
  | dint | eint | nop | ret | reta => .nothing
  | br | bra => .source
  | adc | clr | dadc | dec | decd | inc | incd | inv | pop => .destination
  | rla | rlc | sbc | tst => .destination

/-- Names that never take a width suffix. -/
def isWidthless : Emulated -> Bool
  | br | bra | clrc | clrn | clrz | setc | setn | setz => true
  | dint | eint | nop | ret | reta => true
  | _ => false

/-!
# Recognition

A rule looks at the opcode, the width, whether a prefix word was present and
the two operands.  Where several rules apply, the earlier one names the
instruction.
-/

/-- Clearing one bit of the status register. -/
def ofClearedStatus? : Nat -> Option Emulated
  | 1 => some clrc
  | 2 => some clrz
  | 4 => some clrn
  | 8 => some dint
  | _ => none

/-- Setting one bit of the status register. -/
def ofSetStatus? : Nat -> Option Emulated
  | 1 => some setc
  | 2 => some setz
  | 4 => some setn
  | 8 => some eint
  | _ => none

def ofMove? (width : Width) (extended : Bool) (source destination : Operand) :
    Option Emulated :=
  let branches := !extended && decide (width = .word) && destination.isRegister .pc
  if branches && source.isPop then
    some ret
  else if branches then
    some br
  else if source.isPop then
    some pop
  else if source.value? width = some 0 then
    if !extended && destination.isRegister .cg then some nop else some clr
  else
    none

def ofDouble? (opcode : DoubleOpcode) (width : Width) (extended : Bool)
    (source destination : Operand) : Option Emulated :=
  let value := source.value? width
  match opcode with
  | .mov => ofMove? width extended source destination
  | .add =>
      if value = some 1 then
        some inc
      else if value = some 2 then
        some incd
      else if source.sameLocation destination then
        some rla
      else
        none
  | .addc =>
      if value = some 0 then
        some adc
      else if source.sameLocation destination then
        some rlc
      else
        none
  | .sub =>
      if value = some 1 then
        some dec
      else if value = some 2 then
        some decd
      else
        none
  | .subc => if value = some 0 then some sbc else none
  | .dadd => if value = some 0 then some dadc else none
  | .cmp => if value = some 0 then some tst else none
  | .xor => if value = some width.mask then some inv else none
  | .bic =>
      if !extended && destination.isRegister .sr then
        value.bind ofClearedStatus?
      else
        none
  | .bis =>
      if !extended && destination.isRegister .sr then
        value.bind ofSetStatus?
      else
        none
  | .bit | .and => none

def ofAddress? (opcode : AddressOpcode) (source destination : Operand) :
    Option Emulated :=
  match opcode with
  | .mova =>
      if destination.isRegister .pc then
        if source.isPop then some reta else some bra
      else
        none
  | .cmpa | .adda | .suba => none

end Emulated

end MSP430
