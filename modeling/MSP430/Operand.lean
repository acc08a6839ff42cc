import MSP430.Hex
import MSP430.Register
import MSP430.Width

/-!
# Operands

What an instruction works on, after addressing modes, constant generators and
extension words have been resolved.
-/

namespace MSP430

inductive Operand where
  | register (register : Register)
  | indirect (register : Register)
  | autoIncrement (register : Register) (step : Nat)
  | indexed (register : Register) (offset : Int)
  | absolute (address : Nat)
  /-- A memory operand relative to the program counter, with the address it
  comes to. -/
  | symbolic (offset : Int) (target : Nat)
  | immediate (value : Nat)
  /-- A value that the opcode word itself holds. -/
  | constant (value : Int)
  deriving DecidableEq, Repr

namespace Operand

/-- The extension words that encode the operand. -/
def extensionWords : Operand -> Nat
  | indexed _ _ | absolute _ | symbolic _ _ | immediate _ => 1
  | register _ | indirect _ | autoIncrement _ _ | constant _ => 0

/-- The register the operand names, directly or as a base. -/
def register? : Operand -> Option Register
  | register r | indirect r | autoIncrement r _ | indexed r _ => some r
  | _ => none

def isRegisterDirect : Operand -> Bool
  | register _ => true
  | _ => false

def isRegister (operand : Operand) (r : Register) : Bool :=
  decide (operand = register r)

/-- The value of an immediate or constant operand, truncated to a width. -/
def value? (operand : Operand) (width : Width) : Option Nat :=
  match operand with
  | immediate value => some (width.truncate value)
  | constant value => some (width.ofInt value)
  | _ => none

/-- The memory address an operand refers to whatever the registers hold. -/
def memoryAddress? : Operand -> Option Nat
  | absolute address => some address
  | symbolic _ target => some target
  | _ => none

/-- Whether the operand is a value that nothing can be written to. -/
def isValue : Operand -> Bool
  | immediate _ | constant _ => true
  | _ => false

/-- Whether the operand takes a value from the stack and moves the stack
pointer past it. -/
def isPop : Operand -> Bool
  | autoIncrement .sp _ => true
  | _ => false

/-- Whether two operands are recognised as one place.  Reading through an
auto-incremented or indirect register is never recognised so. -/
def sameLocation : Operand -> Operand -> Bool
  | symbolic _ target, symbolic _ other => decide (target = other)
  | register r, other => decide (other = register r)
  | indexed r offset, other => decide (other = indexed r offset)
  | absolute address, other => decide (other = absolute address)
  | _, _ => false

def text : Operand -> String
  | register r => r.name
  | indirect r => "@" ++ r.name
  | autoIncrement r _ => "@" ++ r.name ++ "+"
  | indexed r offset => Hex.signed offset ++ "(" ++ r.name ++ ")"
  | absolute address => "&" ++ Hex.text address
  | symbolic _ target => Hex.text target
  | immediate value => "#" ++ Hex.text value
  | constant value => "#" ++ toString value

end Operand

end MSP430
