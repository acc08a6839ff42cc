import MSP430.Instruction

/-!
# Opcode words

An opcode word, with the prefix word before it if there is one, settles
everything about an instruction but its extension words: its format, its width
and for each operand the form it has.  Words that settle nothing are illegal.
-/

namespace MSP430

/-- An operand as the opcode words describe it: by a mode and a register field,
or directly by its form. -/
inductive OperandSlot where
  | field (field : OperandField)
  | form (form : OperandForm)
  deriving DecidableEq, Repr

namespace OperandSlot

/-- The form of the operand, whichever way it is described. -/
def toForm : OperandSlot -> OperandForm
  | field described => described.form
  | form named => named

def words (slot : OperandSlot) : Nat :=
  slot.toForm.words

def read (slot : OperandSlot) (cursor : Cursor) :
    Except DecodeError (Operand × Cursor) :=
  slot.toForm.read cursor

end OperandSlot

structure Encoding where
  width : Width
  extension : Option Extension := none
  body : Body OperandSlot
  deriving DecidableEq, Repr

/-!
# Prefix words
-/

/-- The fields of a prefix word. -/
structure PrefixWord where
  /-- Bits 19 to 16 of the source's extension word. -/
  sourceHigh : Nat
  /-- Bits 19 to 16 of the destination's extension word. -/
  destinationHigh : Nat
  /-- Set for byte and word operations, clear for twenty-bit ones. -/
  lengthBit : Bool
  /-- The repetition and the carry of a register-form instruction, whose
  operands leave the high bits unused. -/
  registerForm : Extension
  deriving DecidableEq, Repr

namespace PrefixWord

/-- The words from `0x1800` to `0x1fff`. -/
def recognises (word : Nat) : Bool :=
  decide (0x1800 ≤ word ∧ word < 0x2000)

def ofWord (word : Nat) : PrefixWord where
  sourceHigh := word / 0x80 % 16
  destinationHigh := word % 16
  lengthBit := decide (word / 0x40 % 2 = 1)
  registerForm :=
    { repetition :=
        if word / 0x80 % 2 = 1 then
          .register (.ofField word)
        else
          .times (word % 16 + 1)
      zeroCarry := decide (word / 0x100 % 2 = 1) }

/-- The width that the length bit and the byte bit select together.  With both
clear, only the opcodes for which `bothClear` holds have a meaning. -/
def width? (lengthBit byteBit bothClear : Bool) : Option Width :=
  match lengthBit, byteBit with
  | true, false => some .word
  | true, true => some .byte
  | false, true => some .address
  | false, false => if bothClear then some .address else none

end PrefixWord

namespace Encoding

/-- The extension words the operands need. -/
def words (encoding : Encoding) : Nat :=
  encoding.body.operands.foldr (fun slot words => slot.words + words) 0

def byteBit (word : Nat) : Bool :=
  decide (word / 0x40 % 2 = 1)

/-!
# Single-operand instructions
-/

/-- The opcodes whose prefixed form is a twenty-bit one when both size bits are
clear. -/
def hasClearSizeForm (opcode : SingleOpcode) : Bool :=
  decide (opcode = .swpb ∨ opcode = .sxt)

/-- The width of a single-operand instruction, if it exists.  There is no
prefixed call. -/
def singleWidth? (opcode : SingleOpcode) (prefixWord : Option PrefixWord)
    (byteBit : Bool) : Option Width :=
  if byteBit && !opcode.hasByteForm then
    none
  else
    match prefixWord with
    | none => some (.ofByteBit byteBit)
    | some prefixWord =>
        if opcode = .call then
          none
        else
          PrefixWord.width? prefixWord.lengthBit byteBit
            (hasClearSizeForm opcode)

def ofSingle? (prefixWord : Option PrefixWord) (word : Nat) : Option Encoding := do
  let opcode <- SingleOpcode.ofSlot? (word / 0x80 % 8)
  let width <- singleWidth? opcode prefixWord (byteBit word)
  let mode := AddressingMode.ofBits (word / 0x10)
  let inRegister := decide (mode = .register)
  let target : OperandField :=
    { mode := mode
      register := .ofField word
      width := width
      preferAbsolute := decide (opcode = .call)
      high :=
        if inRegister then none else prefixWord.map PrefixWord.destinationHigh }
  return {
    width := width
    extension := prefixWord.map fun prefixWord =>
      if inRegister then prefixWord.registerForm else .once
    body := .single opcode (.field target) }

/-!
# Double-operand instructions
-/

def doubleWidth? (prefixWord : Option PrefixWord) (byteBit : Bool) : Option Width :=
  match prefixWord with
  | none => some (.ofByteBit byteBit)
  | some prefixWord => PrefixWord.width? prefixWord.lengthBit byteBit false

def ofDouble? (prefixWord : Option PrefixWord) (word : Nat) : Option Encoding := do
  let opcode <- DoubleOpcode.ofNibble? (word / 0x1000)
  let width <- doubleWidth? prefixWord (byteBit word)
  let sourceMode := AddressingMode.ofBits (word / 0x10)
  let destinationMode := AddressingMode.ofBits (word / 0x80 % 2)
  let destinationRegister := Register.ofField word
  let inRegisters :=
    decide (sourceMode = .register ∧ destinationMode = .register)
  let widened := if inRegisters then none else prefixWord
  let source : OperandField :=
    { mode := sourceMode
      register := .ofField (word / 0x100)
      width := width
      preferAbsolute :=
        decide (opcode = .mov ∧ destinationMode = .register ∧
          destinationRegister = .pc)
      high := widened.map PrefixWord.sourceHigh }
  let destination : OperandField :=
    { mode := destinationMode
      register := destinationRegister
      width := width
      isDestination := true
      high := widened.map PrefixWord.destinationHigh }
  return {
    width := width
    extension := prefixWord.map fun prefixWord =>
      if inRegisters then prefixWord.registerForm else .once
    body := .double opcode (.field source) (.field destination) }

/-!
# Jumps
-/

/-- The displacement of a jump is a ten-bit two's complement number. -/
def jumpOffset (word : Nat) : Int :=
  if word % 0x400 < 0x200 then
    (word % 0x400 : Nat)
  else
    (word % 0x400 : Nat) - 0x400

def ofJump (word : Nat) : Encoding where
  width := .word
  body := .jump (.ofBits (word / 0x400)) (jumpOffset word)

/-!
# Ranges of registers

A range is described by its highest register, although the word that pops one
names the lowest.
-/

def ofMultiple? (word : Nat) : Option Encoding :=
  let count := word / 0x10 % 16 + 1
  let field := word % 16
  let width := if word / 0x100 % 2 = 1 then Width.word else Width.address
  let range (opcode : MultipleOpcode) (highest : Nat) : Encoding :=
    { width := width, body := .multiple opcode count (.ofField highest) }
  if word / 0x200 % 2 = 1 then
    if field + count ≤ 16 then some (range .popm (field + count - 1)) else none
  else
    if count ≤ field + 1 then some (range .pushm field) else none

/-!
# Address instructions

These have twenty-bit operands.  The high bits of an address or an immediate
stand in the opcode word, an offset has sixteen bits, and only calls have an
offset of twenty bits from the program counter.
-/

/-- The form of an offset from a register, where the program counter is a base
like no other. -/
def offsetForm (register : Register) (high : Option Nat) (asAbsolute : Bool) :
    OperandForm :=
  if register = .pc then
    .relative high .address asAbsolute
  else
    .indexed register high

def ofCalla? (word : Nat) : Option Encoding :=
  let field := word % 16
  let register := Register.ofField field
  let call (form : OperandForm) : Option Encoding :=
    some { width := .address, body := .calla (.form form) }
  match word / 0x10 % 16 with
  | 0x4 => call (.fixed (.register register))
  | 0x5 => call (offsetForm register none true)
  | 0x6 => call (.fixed (.indirect register))
  | 0x7 => call (.fixed (.autoIncrement register 4))
  | 0x8 => call (.absolute (some field))
  | 0x9 => call (offsetForm .pc (some field) true)
  | 0xb => call (.immediate (some field) .address)
  | _ => none

def ofAddress (word : Nat) : Encoding :=
  let sourceField := word / 0x100 % 16
  let destinationField := word % 16
  let source := Register.ofField sourceField
  let destination := Register.ofField destinationField
  let operation (opcode : AddressOpcode) (source destination : OperandForm) :
      Encoding :=
    { width := .address
      body := .address opcode (.form source) (.form destination) }
  let toRegister (opcode : AddressOpcode) (source : OperandForm) : Encoding :=
    operation opcode source (.fixed (.register destination))
  let shift (width : Width) : Encoding :=
    { width := width
      body := .shift (.ofBits (word / 0x100)) (word / 0x400 % 4 + 1) destination }
  match word / 0x10 % 16 with
  | 0x0 => toRegister .mova (.fixed (.indirect source))
  | 0x1 => toRegister .mova (.fixed (.autoIncrement source 4))
  | 0x2 => toRegister .mova (.absolute (some sourceField))
  | 0x3 => toRegister .mova (offsetForm source none false)
  | 0x4 => shift .address
  | 0x5 => shift .word
  | 0x6 =>
      operation .mova (.fixed (.register source))
        (.absolute (some destinationField))
  | 0x7 =>
      operation .mova (.fixed (.register source))
        (offsetForm destination none false)
  | nibble =>
      if nibble < 0xc then
        toRegister (.ofBits nibble) (.immediate (some sourceField) .address)
      else
        toRegister (.ofBits nibble) (.fixed (.register source))

/-!
# All opcode words
-/

/-- The words from `0x1000` to `0x13ff`: single-operand instructions, the
return from an interrupt and calls to twenty-bit addresses. -/
def ofSingleBlock? (variant : Variant) (word : Nat) : Option Encoding :=
  if word = 0x1300 then
    some { width := .word, body := .reti }
  else if 0x1340 ≤ word then
    if variant = .msp430x then ofCalla? word else none
  else
    ofSingle? none word

/-- What a first word settles that is no prefix word. -/
def ofWord? (variant : Variant) (word : Nat) : Option Encoding :=
  if word < 0x1000 then
    if variant = .msp430x then some (ofAddress word) else none
  else if word < 0x1400 then
    ofSingleBlock? variant word
  else if word < 0x1800 then
    if variant = .msp430x then ofMultiple? word else none
  else if word < 0x2000 then
    none
  else if word < 0x4000 then
    some (ofJump word)
  else
    ofDouble? none word

/-- What a prefix word and the word behind it settle together. -/
def ofPrefixed? (prefixWord : PrefixWord) (word : Nat) : Option Encoding :=
  if word < 0x1000 then
    none
  else if word < 0x1300 then
    ofSingle? (some prefixWord) word
  else if word < 0x4000 then
    none
  else
    ofDouble? (some prefixWord) word

end Encoding

end MSP430
