import MSP430.Decode
import MSP430.Lift

/-!
# Events

What decoding and lifting report besides their results, in the order in which
it comes about.  Every operand field that is resolved is reported, then the
instruction; lifting reports each operation it could not give.  A failed
decoding reports nothing, its error says it all.
-/

namespace MSP430

inductive Level where
  | trace
  | debug
  | warn
  | error
  deriving DecidableEq, Repr

/-- The kinds of identifiers a host passes. -/
inductive IdKind where
  | register
  | flag
  | flagWrite
  deriving DecidableEq, Repr

namespace IdKind

def name : IdKind -> String
  | register => "register"
  | flag => "flag"
  | flagWrite => "flag write"

end IdKind

inductive Event where
  | resolved (mode : AddressingMode) (register : Register) (operand : Operand)
  | decoded (inst : Instruction)
  | unimplemented (inst : Instruction) (reason : Lift.Unsupported)
  | undecodable (error : DecodeError)
  | unknownId (kind : IdKind) (id : Nat)
  deriving DecidableEq, Repr

namespace Event

def level : Event -> Level
  | resolved _ _ _ | decoded _ => .trace
  | unimplemented _ _ => .debug
  | undecodable error => if error.isTruncated then .debug else .warn
  | unknownId _ _ => .error

/-- Addresses of events have at least five digits. -/
def addressText (address : UInt64) : String :=
  Hex.padded 5 address.toNat

def message : Event -> String
  | resolved mode register operand =>
      "resolved " ++ mode.name ++ "/" ++ register.name ++ " as " ++ operand.text
  | decoded inst =>
      addressText inst.address ++ ": " ++ inst.text ++
        " (" ++ toString inst.length ++ " bytes)"
  | unimplemented inst reason =>
      addressText inst.address ++ ": `" ++ inst.text ++
        "` lifted as unimplemented: " ++ reason.message
  | undecodable error => error.message
  | unknownId kind id => "invalid " ++ kind.name ++ " id " ++ toString id

end Event

/-!
# Reports
-/

namespace OperandField

/-- The report of a field that was resolved to an operand. -/
def resolvedEvent (field : OperandField) (operand : Operand) : Event :=
  .resolved field.mode field.register operand

/-- The report of resolving a field at a cursor. -/
def resolveEvents (field : OperandField) (cursor : Cursor) : List Event :=
  match field.resolve cursor with
  | .ok (operand, _) => [field.resolvedEvent operand]
  | .error _ => []

end OperandField

/-- The report of an operand; only fields are reported. -/
def OperandSlot.events (slot : OperandSlot) (operand : Operand) : List Event :=
  match slot with
  | .field described => [described.resolvedEvent operand]
  | .form _ => []

/-- The reports of a completed encoding. -/
def Encoding.events (encoding : Encoding) (inst : Instruction) : List Event :=
  (List.zipWith OperandSlot.events encoding.body.operands inst.body.operands).flatten
    ++ [.decoded inst]

/-- The reports of decoding bytes at an address. -/
def decodeEvents (variant : Variant) (data : List UInt8) (address : UInt64) :
    List Event :=
  match Encoding.read variant (.start data address) with
  | .error _ => []
  | .ok (encoding, cursor) =>
      match encoding.complete cursor with
      | .error _ => []
      | .ok inst => encoding.events inst

/-- The reports of lifting an instruction to the given operations: one for each
operation that could not be given. -/
def Lift.events (inst : Instruction) (code : List IL.Op) : List Event :=
  match Lift.unsupported? inst.body with
  | none => []
  | some reason =>
      (code.filter fun op => decide (op = .unimplemented)).map fun _ =>
        .unimplemented inst reason

end MSP430
