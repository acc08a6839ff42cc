import MSP430.Cursor
import MSP430.Operand

/-!
# Operand fields

A two-bit addressing mode and a four-bit register mean what they say only for
the general registers.  The program counter turns indexed and auto-increment
modes into symbolic and immediate operands, the status register and the
constant generator stand for six constants, and the indexed status register is
an absolute address.

Resolving happens in two steps.  The field alone settles an `OperandForm`: the
kind of operand and whether an extension word belongs to it.  The form and that
word then make the operand.  So the length of an instruction is known before
any extension word is read.
-/

namespace MSP430

inductive AddressingMode where
  | register
  | indexed
  | indirect
  | autoIncrement
  deriving DecidableEq, Repr

namespace AddressingMode

/-- The mode a field names; bits above the low two are ignored. -/
def ofBits (field : Nat) : AddressingMode :=
  match field % 4 with
  | 0 => register
  | 1 => indexed
  | 2 => indirect
  | _ => autoIncrement

def name : AddressingMode -> String
  | register => "Register"
  | indexed => "Indexed"
  | indirect => "Indirect"
  | autoIncrement => "IndirectAutoIncrement"

end AddressingMode

/-!
# Extension words

An extension word holds sixteen bits.  When the instruction supplies four
higher bits, the two together hold a twenty-bit value.
-/

/-- The width of an extension word together with its high bits, if any. -/
def extensionWidth : Option Nat -> Width
  | none => .word
  | some _ => .address

/-- The unsigned value of an extension word below its high bits, if any. -/
def extendUnsigned (high : Option Nat) (word : Nat) : Nat :=
  match high with
  | none => word
  | some bits => 0x10000 * (bits % 16) + word

/-- The signed value of an extension word below its high bits, if any. -/
def extendSigned (high : Option Nat) (word : Nat) : Int :=
  (extensionWidth high).toInt (extendUnsigned high word)

/-- What is known of an operand before its extension word is read. -/
inductive OperandForm where
  /-- An operand that has no extension word. -/
  | fixed (operand : Operand)
  | absolute (high : Option Nat)
  | immediate (high : Option Nat) (width : Width)
  | indexed (register : Register) (high : Option Nat)
  /-- An offset from the program counter, which wraps within an address space
  and may be wanted as a plain address. -/
  | relative (high : Option Nat) (space : Width) (asAbsolute : Bool)
  deriving DecidableEq, Repr

namespace OperandForm

/-- The extension words that belong to the form. -/
def words : OperandForm -> Nat
  | fixed _ => 0
  | absolute _ | immediate _ _ | indexed _ _ | relative _ _ _ => 1

/-- The operand a form makes of its extension word, given the address after
that word. -/
def operand (form : OperandForm) (next : UInt64) (word : Nat) : Operand :=
  match form with
  | fixed operand => operand
  | absolute high => .absolute (extendUnsigned high word)
  | immediate high width => .immediate (width.truncate (extendUnsigned high word))
  | indexed register high => .indexed register (extendSigned high word)
  | relative high space asAbsolute =>
      let offset := extendSigned high word
      let target := space.ofInt ((next.toNat : Int) + offset)
      if asAbsolute then .absolute target else .symbolic offset target

/-- Reads the extension word, if there is one, and makes the operand. -/
def read (form : OperandForm) (cursor : Cursor) :
    Except DecodeError (Operand × Cursor) :=
  match form with
  | fixed operand => .ok (operand, cursor)
  | _ => do
      let (word, rest) <- cursor.read
      return (form.operand rest.address word, rest)

/-- The cursor behind the extension word of a form. -/
def behind (form : OperandForm) (cursor : Cursor) : Cursor :=
  { cursor with position := cursor.position + 2 * form.words }

/-!
# Reading a form

A form is read exactly when its extension word is there, and the words it
consumes are those its operand has.
-/

theorem read_of_le (form : OperandForm) (cursor : Cursor)
    (h : cursor.position + 2 * form.words ≤ cursor.data.length) :
    form.read cursor =
      .ok (form.operand (form.behind cursor).address
        (wordAt cursor.data cursor.position), form.behind cursor) := by
  cases form with
  | fixed operand => rfl
  | _ =>
      rw [read, Cursor.read_of_le cursor h]
      · rfl
      · simp

theorem read_of_lt (form : OperandForm) (cursor : Cursor)
    (hposition : cursor.position ≤ cursor.data.length)
    (h : cursor.data.length < cursor.position + 2 * form.words) :
    form.read cursor =
      .error (cursor.truncated (cursor.position + 2 * form.words)) := by
  cases form with
  | fixed operand =>
      simp only [words] at h
      omega
  | _ =>
      rw [read, Cursor.read_of_lt cursor h]
      · rfl
      · simp

end OperandForm

/-!
# Fields
-/

/-- The amount by which an auto-incremented register advances. -/
def autoIncrementStep (register : Register) (width : Width) : Nat :=
  match width with
  | .address => 4
  | .byte => if register.isGeneralPurpose then 1 else 2
  | .word => 2

/-- The constants that the status register and the constant generator stand
for. -/
def generatedConstant? : AddressingMode -> Register -> Option Int
  | .register, .cg => some 0
  | .indexed, .cg => some 1
  | .indirect, .cg => some 2
  | .autoIncrement, .cg => some (-1)
  | .indirect, .sr => some 4
  | .autoIncrement, .sr => some 8
  | _, _ => none

/-- An operand field with what its instruction says about it. -/
structure OperandField where
  mode : AddressingMode
  register : Register
  width : Width
  /-- Destinations never stand for constants. -/
  isDestination : Bool := false
  /-- An offset from the program counter is wanted as a plain address. -/
  preferAbsolute : Bool := false
  /-- The high bits a prefix word supplies; present exactly when there is a
  prefix word that widens extension words. -/
  high : Option Nat := none
  deriving DecidableEq, Repr

namespace OperandField

def generated? (field : OperandField) : Option Int :=
  if field.isDestination then
    none
  else
    generatedConstant? field.mode field.register

def form (field : OperandField) : OperandForm :=
  match field.generated? with
  | some value => .fixed (.constant value)
  | none =>
      match field.mode, field.register with
      | .register, register => .fixed (.register register)
      | .indexed, .sr => .absolute field.high
      | .indexed, .pc =>
          .relative field.high (extensionWidth field.high) field.preferAbsolute
      | .indexed, register => .indexed register field.high
      | .indirect, register => .fixed (.indirect register)
      | .autoIncrement, .pc => .immediate field.high field.width
      | .autoIncrement, register =>
          .fixed (.autoIncrement register (autoIncrementStep register field.width))

/-- The extension words the field consumes. -/
def words (field : OperandField) : Nat :=
  field.form.words

/-- Resolves the field at a cursor: either its extension word is consumed, or
nothing is. -/
def resolve (field : OperandField) (cursor : Cursor) :
    Except DecodeError (Operand × Cursor) :=
  field.form.read cursor

end OperandField

end MSP430
