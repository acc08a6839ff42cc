import MSP430.Instruction

/-!
# Where control may go

What a host learns about the control flow of an instruction: its length and the
branches it may take, as far as they are known without running it.
-/

namespace MSP430

inductive Branch where
  /-- Where a conditional jump goes when it is taken. -/
  | ifTrue (address : Nat)
  /-- Where a conditional jump goes when it is not taken. -/
  | ifFalse (address : Nat)
  | unconditional (address : Nat)
  | call (address : Nat)
  | functionReturn
  deriving DecidableEq, Repr

structure InstructionInfo where
  length : Nat
  /-- Whether the instruction behind a branch runs before the branch. -/
  branchDelay : Bool
  branches : List Branch
  deriving DecidableEq, Repr

namespace InstructionInfo

def new (length : Nat) (branchDelay : Bool) : InstructionInfo :=
  { length := length, branchDelay := branchDelay, branches := [] }

def addBranch (info : InstructionInfo) (branch : Branch) : InstructionInfo :=
  { info with branches := info.branches ++ [branch] }

def isEmpty (info : InstructionInfo) : Bool :=
  decide (info.length = 0)

end InstructionInfo

namespace Instruction

/-- The address an immediate source names. -/
def immediateTarget? (inst : Instruction) : Option Nat :=
  match inst.source? with
  | some (.immediate address) => some address
  | _ => none

/-- The branches of an instruction; a branch whose target only the registers
know is left out. -/
def branches (inst : Instruction) : List Branch :=
  match inst.body with
  | .jump condition offset =>
      let target := jumpTarget inst.address offset
      if condition.isUnconditional then
        [.unconditional target]
      else
        [.ifTrue target, .ifFalse inst.nextAddress.toNat]
  | .reti => [.functionReturn]
  | .single .call _ | .calla _ => (inst.immediateTarget?.map Branch.call).toList
  | _ =>
      match inst.emulated? with
      | some .br | some .bra =>
          (inst.immediateTarget?.map Branch.unconditional).toList
      | some .ret | some .reta => [.functionReturn]
      | _ => []

def info (inst : Instruction) : InstructionInfo :=
  inst.branches.foldl InstructionInfo.addBranch (.new inst.length false)

end Instruction

end MSP430
