import MSP430.Proofs.IL.Frame
import MSP430.Proofs.Lift.Accesses
import MSP430.Proofs.Lift.Once

/-!
# How often an instruction touches memory

A device in memory may notice every access.  So the code of an instruction that runs once
loads each operand that it reads at most once, however often its flags mention the
operand, and stores at most one value.  Loads are counted wherever they stand in an
expression.
-/

namespace MSP430

open IL (Expr Op)

/-!
# Counting
-/

namespace IL

def Expr.isLoad : Expr -> Bool
  | load _ _ => true
  | _ => false

/-- The loads in a piece of code, also those inside of other expressions. -/
def loadCount (code : List Op) : Nat :=
  (code.flatMap Op.parts).countP Expr.isLoad

def storeCount (code : List Op) : Nat :=
  code.countP Op.isStore

theorem loadCount_eq_length (code : List Op) :
    loadCount code = (code.flatMap Op.loads).length := by
  have hparts : forall op : Op, op.parts.filterMap Expr.loaded? = op.loads := fun op =>
    List.filterMap_flatMap
  have hisLoad : forall expr : Expr, expr.loaded?.isSome = expr.isLoad := by
    intro expr
    cases expr <;> rfl
  calc loadCount code
      = (code.flatMap Op.parts).countP (fun expr => expr.loaded?.isSome) := by
        simp only [loadCount, hisLoad]
    _ = ((code.flatMap Op.parts).filterMap Expr.loaded?).length :=
        List.length_filterMap_eq_countP.symm
    _ = (code.flatMap Op.loads).length := by
        simp only [List.filterMap_flatMap, hparts]

theorem storeCount_eq_length (code : List Op) :
    storeCount code = (code.flatMap Op.stores).length := by
  induction code with
  | nil => rfl
  | cons op rest ih =>
      have hop : op.stores.length = if op.isStore then 1 else 0 := by
        cases op <;> rfl
      rw [List.flatMap_cons, List.length_append, ← ih, hop]
      exact (List.countP_cons).trans (Nat.add_comm _ _)

end IL

/-!
# Operands in memory
-/

namespace Operand

def isMemory : Operand -> Bool
  | indirect _ | autoIncrement _ _ | indexed _ _ | absolute _ | symbolic _ _ => true
  | register _ | immediate _ | constant _ => false

theorem length_accesses (space : Width) (operand : Operand) :
    (operand.accesses space).length = if operand.isMemory then 1 else 0 := by
  cases operand <;> rfl

end Operand

namespace Opcode

/-- Whether the destination is only written, so that its old value is not read. -/
def onlyMoves : Opcode -> Bool
  | .double .mov | .address .mova => true
  | _ => false

/-- Comparisons and transfers of control leave memory alone. -/
def neverStores : Opcode -> Bool
  | .double .cmp | .double .bit | .address .cmpa => true
  | .single .call | .calla | .jump _ => true
  | _ => false

end Opcode

/-- The operands in memory that an instruction reads.  A return from an interrupt has
none, and reads two words from the stack. -/
def Instruction.memoryReads (inst : Instruction) : Nat :=
  let destination := if inst.opcode.onlyMoves then none else inst.destination?
  if inst.opcode = .reti then
    2
  else
    (inst.source?.toList ++ destination.toList).countP Operand.isMemory

namespace Lift

theorem length_loads_le {inst : Instruction}
    (hrange : forall opcode count highest,
      inst.body ≠ .multiple opcode count highest) (space : Width) :
    (inst.body.loads space).length ≤ inst.memoryReads := by
  have hone : forall operand : Operand, (operand.accesses space).length =
      [operand].countP Operand.isMemory := by
    intro operand
    rw [operand.length_accesses, List.countP_singleton]
  have htwo : forall first second : Operand,
      (first.accesses space ++ second.accesses space).length =
        ([first] ++ [second]).countP Operand.isMemory := by
    intro first second
    rw [List.length_append, List.countP_append, hone, hone]
  unfold Instruction.memoryReads Instruction.opcode Instruction.source?
    Instruction.destination?
  cases hbody : inst.body with
  | multiple opcode count highest => exact absurd hbody (hrange _ _ _)
  | reti => exact Nat.le_refl 2
  | jump _ _ | shift _ _ _ => exact Nat.zero_le _
  | single _ target | calla target => exact Nat.le_of_eq (hone target)
  | double opcode source destination =>
      cases opcode with
      | mov => exact Nat.le_of_eq (hone source)
      | bic | bis =>
          have h := htwo destination source
          rw [List.countP_append, Nat.add_comm, ← List.countP_append] at h
          exact Nat.le_of_eq h
      | _ => exact Nat.le_of_eq (htwo source destination)
  | address opcode source destination =>
      cases opcode with
      | mova => exact Nat.le_of_eq (hone source)
      | _ => exact Nat.le_of_eq (htwo source destination)

theorem length_stores_le {inst : Instruction}
    (hrange : forall opcode count highest,
      inst.body ≠ .multiple opcode count highest) (space : Width) :
    (inst.body.stores space).length ≤ if inst.opcode.neverStores then 0 else 1 := by
  have hone : forall operand : Operand, (operand.accesses space).length ≤ 1 := by
    intro operand
    rw [operand.length_accesses]
    split <;> decide
  unfold Instruction.opcode
  cases hbody : inst.body with
  | multiple opcode count highest => exact absurd hbody (hrange _ _ _)
  | reti | jump _ _ | shift _ _ _ | calla _ => exact Nat.zero_le _
  | single opcode target =>
      cases opcode with
      | call => exact Nat.le_refl 0
      | push => exact Nat.le_refl 1
      | _ => exact hone target
  | double opcode source destination =>
      cases opcode with
      | cmp | bit => exact Nat.le_refl 0
      | _ => exact hone destination
  | address opcode source destination =>
      cases opcode with
      | cmpa => exact Nat.le_refl 0
      | _ => exact hone destination

/-- Operands in memory are touched at most once.  Of the code that a decoded instruction
adds to a buffer, if no prefix word repeats it and it pushes or pops no range of
registers, there is at most one load for each operand in memory that it reads, and at
most one store.  Comparisons, tests, calls and jumps store nothing. -/
theorem memory_touched_once (options : Options) (buffer : IL.Buffer) {inst : Instruction}
    (hdecoded : inst.Decoded) (hsingly : inst.RunsSingly)
    (hrange : forall opcode count highest,
      inst.body ≠ .multiple opcode count highest) :
    IL.loadCount (appended buffer options inst) ≤ inst.memoryReads ∧
      IL.storeCount (appended buffer options inst) ≤ 1 ∧
      (inst.opcode.neverStores = true ->
        IL.storeCount (appended buffer options inst) = 0) := by
  let context := Context.of options buffer.known inst
  have haccesses := context.accessesAt_run hdecoded
  have hcleared : (clearedCarry inst.clearsCarry).flatMap Op.loads = [] ∧
      (clearedCarry inst.clearsCarry).flatMap Op.stores = [] := by
    cases inst.clearsCarry <;> exact ⟨rfl, rfl⟩
  have hloads := Nat.le_trans
    (haccesses.loads { temp := 0, label := buffer.supply.label }).length_le
    (length_loads_le hrange context.addressWidth)
  have hstores := Nat.le_trans
    (haccesses.stores { temp := 0, label := buffer.supply.label }).length_le
    (length_stores_le hrange context.addressWidth)
  unfold appended
  rw [code_emit_of_singly options buffer.known hsingly, IL.loadCount_eq_length,
    IL.storeCount_eq_length, List.flatMap_append, List.flatMap_append, hcleared.1,
    hcleared.2]
  refine ⟨hloads, Nat.le_trans hstores (by split <;> decide), ?_⟩
  intro hnever
  rw [hnever] at hstores
  exact Nat.le_zero.mp hstores

/-- Bytes that are both loaded from memory, and whose flags mention both. -/
def exclusiveBytes : Instruction where
  address := 0x4400
  width := .byte
  extension := none
  body := .double .xor (.autoIncrement .r5 1) (.absolute 0x200)
  length := 4

/-- The overflow of the two is the sign of each, and still they are loaded once. -/
theorem memory_touched_once_bytes :
    IL.loadCount (appended (.empty 0x4400) .standard exclusiveBytes) ≤ 2 ∧
      IL.storeCount (appended (.empty 0x4400) .standard exclusiveBytes) ≤ 1 := by
  rcases @memory_touched_once .standard (.empty 0x4400) exclusiveBytes
      ⟨.msp430x, [0xf2, 0xe5, 0x00, 0x02], 0x4400, rfl⟩ nofun (fun _ _ _ => nofun) with
    ⟨hloads, hstores, _⟩
  exact ⟨hloads, hstores⟩

end Lift
end MSP430
