import MSP430.Lift.Body

/-!
# Lifting

The code of an instruction in a buffer.  A fixed repetition is unrolled, a
repetition counted by a register becomes a loop.
-/

namespace MSP430
namespace Lift

open IL (Buffer Emit Expr KnownLabels Op)

/-- Clears the carry where each run starts without it. -/
def clearedCarry (zeroCarry : Bool) : List Op :=
  if zeroCarry then [.setFlag .c (.bool false)] else []

/-- Runs an instruction as often as a register says, counting down. -/
def loop (counter : Register) (once : Emit Unit) : Emit Unit := do
  let count <- Emit.newTemp
  Emit.op (.setTemp .word count
    (.add .word (.and .word (.reg .word counter) (.int .word 0xf)) (.int .word 1)))
  let start <- Emit.newLabel
  let done <- Emit.newLabel
  Emit.op (.label start)
  once
  Emit.op (.setTemp .word count
    (.sub .word (.temp .word count) (.int .word 1)))
  Emit.op (.branch
    (.compare .notEqual .word (.temp .word count) (.int .word 0)) start done)
  Emit.op (.label done)

/-- The code of an instruction, repetitions included. -/
def emit (options : Options) (known : KnownLabels) (inst : Instruction) :
    Emit Unit :=
  let context := Context.of options known inst
  match inst.extension with
  | none => context.run inst
  | some extension =>
      let once : Emit Unit := do
        Emit.ops (clearedCarry extension.zeroCarry)
        context.run inst
      match extension.repetition with
      | .times count => Emit.replicate count once
      | .register counter => loop counter once

/-- Appends the code of an instruction to a buffer. -/
def into (buffer : Buffer) (options : Options) (inst : Instruction) : Buffer :=
  ((buffer.moveTo inst.address).run (emit options buffer.known inst)).2

/-- The code of an instruction on its own, in a buffer that knows no labels. -/
def code (options : Options) (inst : Instruction) : List Op :=
  (into (.empty inst.address) options inst).ops

end Lift
end MSP430
