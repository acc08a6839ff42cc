import MSP430.Proofs.IL.Accesses
import MSP430.Proofs.Lift.Arithmetic
import MSP430.Proofs.Lift.Typed

/-!
# Instructions without code

Two things have no code: counting in decimal, and writing to a value.  Destinations
are never values, but the operand that a single-operand instruction replaces may be
one.  Everything else that lifting could find missing is there in every decoded
instruction.
-/

namespace MSP430

open IL (Buffer Emit KnownLabels Label Op)
open IL.Emit (Includes)

namespace Lift

/-!
# What has no code
-/

section

variable (options : Options) (known : KnownLabels) {inst : Instruction}

/-- What every run emits is part of the code, since there is at least one run. -/
theorem includes_emit {P : Op -> Prop}
    (hrun : ((Context.of options known inst).run inst).Includes P)
    (htimes : forall zeroCarry,
      inst.extension ≠ some { repetition := .times 0, zeroCarry := zeroCarry }) :
    (emit options known inst).Includes P := by
  have honce : forall zeroCarry, Includes P (do
      Emit.ops (clearedCarry zeroCarry)
      (Context.of options known inst).run inst) :=
    fun zeroCarry => .behind _ fun _ => hrun
  unfold emit
  cases hextension : inst.extension with
  | none => exact hrun
  | some extension =>
      rcases extension with ⟨repetition, zeroCarry⟩
      cases repetition with
      | times count =>
          cases count with
          | zero => exact absurd hextension (htimes zeroCarry)
          | succ count => exact (honce zeroCarry).bind _
      | register counter =>
          refine .behind _ fun count => .behind _ fun _ => .behind _ fun start => ?_
          refine .behind _ fun done => .behind _ fun _ => ?_
          exact (honce zeroCarry).bind _

variable (hdecoded : inst.Decoded)

include hdecoded

end

/-!
# What is never missing

Lifting looks at an instruction through its opcode, its operands and its jump target.
-/

end Lift

namespace Opcode

end Opcode

namespace Body

end Body

namespace Instruction

/-- What is neither a register nor a value is in memory. -/
theorem exists_location {operand : Operand} (hregister : operand.isRegisterDirect = false)
    (hvalue : operand.isValue = false) (space : Width) :
    exists location, Lift.Place.of space operand = .memory location := by
  cases operand with
  | register _ => cases hregister
  | immediate _ | constant _ => cases hvalue
  | indirect _ | autoIncrement _ _ | indexed _ _ | absolute _ | symbolic _ _ =>
      exact ⟨_, rfl⟩

end Instruction

namespace Lift

end Lift
end MSP430
