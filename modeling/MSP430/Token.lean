import MSP430.Instruction

/-!
# Tokens

The text of an instruction in pieces that a host can colour and link.  Mnemonics
are padded to a fixed column, a repeated instruction is announced in front, and
numbers carry the value they stand for.
-/

namespace MSP430

inductive TokenKind where
  | instruction
  | text
  | register
  | integer (value : Int)
  | possibleAddress (address : Nat)
  | codeAddress (address : Nat)
  | separator
  deriving DecidableEq, Repr

structure Token where
  kind : TokenKind
  text : String
  deriving DecidableEq, Repr

namespace Token

/-- The text of all tokens, one behind the other. -/
def render (tokens : List Token) : String :=
  String.join (tokens.map Token.text)

def plain (text : String) : Token :=
  { kind := .text, text := text }

def ofRegister (register : Register) : Token :=
  { kind := .register, text := register.name }

def ofInteger (value : Int) : Token :=
  { kind := .integer value, text := Hex.signed value }

/-- An address that is known to be one of code. -/
def ofCode (address : Nat) : Token :=
  { kind := .codeAddress address, text := Hex.text address }

def ofAddress (isCode : Bool) (address : Nat) : Token :=
  if isCode then
    ofCode address
  else
    { kind := .possibleAddress address, text := Hex.text address }

/-- The column at which operands start. -/
def mnemonicColumn : Nat :=
  9

/-- Blanks that fill a mnemonic up to the column; nothing for one that reaches
it. -/
def padding (mnemonic : String) : List Token :=
  if mnemonic.length < mnemonicColumn then
    let blanks := List.replicate (mnemonicColumn - mnemonic.length) ' '
    [plain (String.ofList blanks)]
  else
    []

end Token

namespace Operand

/-- The tokens of an operand, whose value may be known to be code. -/
def tokens (operand : Operand) (isCode : Bool) : List Token :=
  match operand with
  | register r => [.ofRegister r]
  | indirect r => [.plain "@", .ofRegister r]
  | autoIncrement r _ => [.plain "@", .ofRegister r, .plain "+"]
  | indexed r offset =>
      [.ofInteger offset, .plain "(", .ofRegister r, .plain ")"]
  | absolute address => [.plain "&", .ofAddress isCode address]
  | symbolic _ target => [.ofCode target]
  | immediate value => [.plain "#", .ofAddress isCode value]
  | constant value => [.plain "#", .ofInteger value]

/-- The tokens of operands with separators between them. -/
def listTokens (isCode : Bool) : List Operand -> List Token
  | [] => []
  | [operand] => operand.tokens isCode
  | operand :: rest =>
      operand.tokens isCode ++
        { kind := .separator, text := ", " } :: listTokens isCode rest

end Operand

namespace Repetition

def text : Repetition -> String
  | times count => "#" ++ toString count
  | register r => r.name

end Repetition

namespace Instruction

/-- Whether the operands name code rather than data. -/
def namesCode (inst : Instruction) : Bool :=
  match inst.emulated?, inst.opcode with
  | some .br, _ | some .bra, _ => true
  | _, .calla | _, .single .call => true
  | _, _ => false

/-- The announcement of a repeated instruction. -/
def repetitionTokens (inst : Instruction) : List Token :=
  match inst.extension with
  | some extension =>
      if extension.isRepeated then
        [.plain ("rpt " ++ extension.repetition.text ++ " \x7b ")]
      else
        []
  | none => []

/-- What follows the mnemonic: a jump target or the displayed operands, behind
padding if there is anything. -/
def operandTokens (inst : Instruction) : List Token :=
  match inst.jumpTarget?, inst.displayedOperands with
  | some target, _ => Token.padding inst.mnemonic ++ [.ofCode target]
  | none, [] => []
  | none, operands =>
      Token.padding inst.mnemonic ++ Operand.listTokens inst.namesCode operands

def tokens (inst : Instruction) : List Token :=
  inst.repetitionTokens ++
    { kind := .instruction, text := inst.mnemonic } :: inst.operandTokens

end Instruction

end MSP430
