import MSP430.FlagRule.Expr
import MSP430.IL.Buffer
import MSP430.Instruction

/-!
# Places

An operand names a register, a memory cell, or a value that is no place at all.
This module says how each is read and written, and how control leaves.

The status register has no storage for its four flag bits: reading it puts the
live flags there, and writing it sets them.  The program counter reads as the
address of the next word and is written by a jump.  The constant generator reads
as zero and ignores what is written to it.
-/

namespace MSP430
namespace Lift

open IL (Emit Expr Label KnownLabels Op)

/-- What lifting depends on besides the instruction. -/
structure Options where
  /-- Loading the stack pointer with an immediate is lifted as nothing.  Startup
  code does that, and a host that tracks stack offsets loses them there. -/
  skipStackReseed : Bool
  deriving DecidableEq, Repr

namespace Options

def standard : Options :=
  { skipStackReseed := false }

end Options

/-- The place an operand names; addresses are expressions. -/
inductive Place where
  | register (register : Register)
  | memory (address : Expr)
  | value (number : Int)
  deriving DecidableEq, Repr

/-- The place of an operand whose addresses have the given width. -/
def Place.of (addressWidth : Width) : Operand -> Place
  | .register r => .register r
  | .indirect r | .autoIncrement r _ => .memory (.reg addressWidth r)
  | .indexed r offset =>
      .memory (.add addressWidth (.reg addressWidth r)
        (.int addressWidth (addressWidth.ofInt offset)))
  | .absolute address | .symbolic _ address =>
      .memory (.address addressWidth address)
  | .immediate number => .value number
  | .constant number => .value number

/-!
# Reading
-/

/-- All four flag bits of the status register. -/
def flagBits : Nat :=
  Flag.all.foldl (fun bits flag => bits ||| flag.mask) 0

/-- One flag as a bit of the status register. -/
def flagBit (width : Width) (flag : Flag) : Expr :=
  .lsl width (.ofBool width (.flag flag)) (.int width flag.bit)

/-- The status register with its flag bits taken from the flags. -/
def statusRegister (width : Width) : Expr :=
  Flag.all.foldl (fun value flag => .or width value (flagBit width flag))
    (.and width (.reg width .sr) (.int width (width.complement flagBits)))

/-- The value of a place, for an instruction at the given address. -/
def Place.read (address : UInt64) (width : Width) : Place -> Expr
  | register .pc => .address width (address.toNat + 2)
  | register .cg => .int width 0
  | register .sr => statusRegister width
  | register r => .reg width r
  | memory location => .load width location
  | value number => .int width (width.ofInt number)

/-!
# Leaving
-/

/-- A constant address of code, as wide as it has to be. -/
def codePointer (address : Nat) : Expr :=
  .address (if address < 0x10000 then .word else .address) address

/-- Transfers control: to a label where the target is known to have one. -/
def branchTo (known : KnownLabels) (target : Expr) : Op :=
  match target.constant?.bind fun address => known.label? (UInt64.ofNat address) with
  | some label => .goto label
  | none => .jump target

/-!
# Writing
-/

/-- Sets the flags from the bits of the status register. -/
def flagsFromStatus : List Op :=
  Flag.all.map fun flag =>
    .setFlag flag
      (.compare .notEqual .word
        (.and .word (.reg .word .sr) (.int .word flag.mask)) (.int .word 0))

/-- Sets a register; bytes are zero-extended to a word. -/
def setRegister (register : Register) (width : Width) (value : Expr) : Op :=
  match width with
  | .byte => .setReg .word register (.zeroExtend .word value)
  | .word => .setReg .word register value
  | .address => .setReg .address register value

/-- Writes a value to a place. -/
def Place.write (known : KnownLabels) (width : Width) (value : Expr) :
    Place -> List Op
  | register .pc => [branchTo known value]
  | register .cg => [.nop]
  | register .sr => setRegister .sr width value :: flagsFromStatus
  | register r => [setRegister r width value]
  | memory location => [.store width location value]
  | Place.value _ => [.unimplemented]

/-!
# Registers that advance
-/

/-- The bytes a value of a width takes on the stack. -/
def stackStep : Width -> Nat
  | .address => 4
  | .byte | .word => 2

/-- The width in which a register advances: steps of four are steps through
twenty-bit values. -/
def stepWidth (step : Nat) : Width :=
  if step = 4 then .address else .word

def advance (register : Register) (step : Nat) : Op :=
  let width := stepWidth step
  .setReg width register
    (.add width (.reg width register) (.int width step))

def retreat (register : Register) (step : Nat) : Op :=
  let width := stepWidth step
  .setReg width register
    (.sub width (.reg width register) (.int width step))

/-- The side effect of reading through an auto-incremented register. -/
def postIncrement : Operand -> List Op
  | .autoIncrement r step => [advance r step]
  | _ => []

end Lift
end MSP430
