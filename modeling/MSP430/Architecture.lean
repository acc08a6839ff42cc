import MSP430.Branch
import MSP430.Event
import MSP430.Token

/-!
# The architecture as a host sees it

A host asks an architecture about the bytes at an address: their length and
branches, their text, their code.  It also asks for the registers and flags
there are.  Bytes that do not decode have no answer, and the host is told why in
an event.
-/

namespace MSP430

structure CallingConvention where
  intArgRegisters : List Register
  returnIntReg : Register
  returnHiIntReg : Register
  deriving DecidableEq, Repr

inductive Endianness where
  | littleEndian
  deriving DecidableEq, Repr

structure Architecture where
  variant : Variant
  options : Lift.Options
  deriving DecidableEq, Repr

namespace Architecture

/-!
# Instructions
-/

def decode? (arch : Architecture) (data : List UInt8) (address : UInt64) :
    Option Instruction :=
  match decode arch.variant data address with
  | .ok inst => some inst
  | .error _ => none

def decodeEvents (arch : Architecture) (data : List UInt8) (address : UInt64) :
    List Event :=
  match decode arch.variant data address with
  | .ok _ => MSP430.decodeEvents arch.variant data address
  | .error error => [.undecodable error]

def instructionInfo? (arch : Architecture) (data : List UInt8)
    (address : UInt64) : Option InstructionInfo :=
  (arch.decode? data address).map Instruction.info

def instructionText? (arch : Architecture) (data : List UInt8)
    (address : UInt64) : Option (Nat × List Token) :=
  (arch.decode? data address).map fun inst => (inst.length, inst.tokens)

/-- What a host is told of an instruction that was lifted. -/
structure LiftedInstruction where
  length : Nat
  /-- Whether the host should go on lifting behind the instruction. -/
  continues : Bool
  deriving DecidableEq, Repr

/-- Lifts the bytes at an address: the buffer gets the code of the instruction
appended, and stays as it is if there is none.  Nothing keeps a host from going
on afterwards. -/
def lift (arch : Architecture) (buffer : IL.Buffer) (data : List UInt8)
    (address : UInt64) : Option LiftedInstruction × IL.Buffer :=
  match arch.decode? data address with
  | none => (none, buffer)
  | some inst =>
      (some { length := inst.length, continues := true },
        Lift.into buffer arch.options inst)

/-- The reports of lifting the bytes at an address. -/
def liftEvents (arch : Architecture) (data : List UInt8) (address : UInt64) :
    List Event :=
  let lifted :=
    match arch.decode? data address with
    | none => []
    | some inst => Lift.events inst (Lift.code arch.options inst)
  arch.decodeEvents data address ++ lifted

/-!
# Sizes
-/

def endianness (_ : Architecture) : Endianness :=
  .littleEndian

/-- The bytes of an address in the sixteen-bit space. -/
def addressSize (_ : Architecture) : Nat :=
  2

def defaultIntegerSize (_ : Architecture) : Nat :=
  2

def instructionAlignment (_ : Architecture) : Nat :=
  2

/-- An opcode word and two extension words, with a prefix word in front on the
extended processor. -/
def maxInstructionLength (arch : Architecture) : Nat :=
  match arch.variant with
  | .msp430 => 6
  | .msp430x => 8

/-- The bytes a host shows beside an instruction. -/
def opcodeDisplayLength (arch : Architecture) : Nat :=
  arch.maxInstructionLength

/-!
# Registers and flags
-/

def registers (_ : Architecture) : List Register :=
  Register.all

/-- No register is a part of another one. -/
def fullWidthRegisters (arch : Architecture) : List Register :=
  arch.registers

/-- The registers that code shares across functions. -/
def globalRegisters (_ : Architecture) : List Register :=
  [.sr]

def flags (_ : Architecture) : List Flag :=
  Flag.all

def flagWrites (_ : Architecture) : List FlagWrite :=
  [.all, .cnz]

def stackPointer? (_ : Architecture) : Option Register :=
  some .sp

/-- Return addresses are kept on the stack. -/
def linkRegister? (_ : Architecture) : Option Register :=
  none

def callingConvention (_ : Architecture) : CallingConvention where
  intArgRegisters := [.r15, .r14, .r13, .r12]
  returnIntReg := .r15
  returnHiIntReg := .r14

/-- The flags a host has to know to decide a condition. -/
def flagsRequired (_ : Architecture) (condition : FlagCondition) : List Flag :=
  condition.flagsRequired

def register? (_ : Architecture) (id : Nat) : Option Register :=
  Register.ofId? id

def flag? (_ : Architecture) (id : Nat) : Option Flag :=
  Flag.ofBit? id

def flagWrite? (_ : Architecture) (id : Nat) : Option FlagWrite :=
  FlagWrite.ofId? id

/-- The report of looking up an identifier. -/
def idEvents (arch : Architecture) (kind : IdKind) (id : Nat) : List Event :=
  let isKnown :=
    match kind with
    | .register => (arch.register? id).isSome
    | .flag => (arch.flag? id).isSome
    | .flagWrite => (arch.flagWrite? id).isSome
  if isKnown then [] else [.unknownId kind id]

end Architecture

end MSP430
