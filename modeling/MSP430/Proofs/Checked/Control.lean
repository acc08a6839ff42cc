import MSP430.Proofs.Checked.Emit
import MSP430.Proofs.Checked.Encoding
import MSP430.Proofs.Checked.Place
import MSP430.Proofs.Checked.Text

/-!
# Checked stack and control

Reading and writing an operand, moving values over the stack, and leaving, with the
arithmetic that takes.  The identifiers of a range are counted down from its highest
register, and are looked up in the table of registers.
-/

namespace MSP430
namespace Lift

open IL (CheckedEmit Emit Expr Label Op)
open IL.CheckedEmit (Agrees)

namespace Context

/-!
# Operands
-/

def checkedRead (context : Context) (operand : Operand) : Checked Expr := do
  let place <- Place.checkedOf context.addressWidth operand
  place.checkedRead context.address context.width

def checkedWrite (context : Context) (operand : Operand) (value : Expr) :
    CheckedEmit Unit := do
  let place <- Place.checkedOf context.addressWidth operand
  let ops <- place.checkedWrite context.known context.width value
  CheckedEmit.ops ops

def checkedAdvances (operand : Operand) : CheckedEmit Unit := do
  let ops <- checkedPostIncrement operand
  CheckedEmit.ops ops

section Operands

variable (context : Context) (operand : Operand)

@[simp] theorem checkedRead_eq :
    context.checkedRead operand = .ok (context.read operand) := by
  unfold checkedRead
  rw [Place.checkedOf_eq, Checked.ok_bind, Place.checkedRead_eq]
  rfl

theorem agrees_write (value : Expr) :
    Agrees (context.checkedWrite operand value) (context.write operand value) 0 0 := by
  refine .compute (Place.checkedOf_eq _ operand) ?_
  exact .compute (Place.checkedWrite_eq _ _ _ _) (.ops _)

theorem agrees_advances :
    Agrees (checkedAdvances operand) (Emit.ops (postIncrement operand)) 0 0 :=
  .compute (checkedPostIncrement_eq operand) (.ops _)

end Operands

/-!
# The stack
-/

def checkedPush (context : Context) (width : Width) (value : Expr) :
    Checked (List Op) := do
  let down <- checkedRetreat width
  return [down, .store width (context.stackTop width) value]

def checkedPop (context : Context) (width : Width) : CheckedEmit Expr := do
  let value <- CheckedEmit.save width (.load width (context.stackTop width))
  let up <- checkedStep .sp (stackStep width)
  CheckedEmit.op up
  return value

/-- The identifiers of a range from the lowest one on, if no difference is negative. -/
def rangeIds? (count : Nat) (highest : Register) : Option (List Nat) :=
  if 1 ≤ count ∧ count - 1 ≤ highest.id then
    some (List.range' (highest.id - (count - 1)) count)
  else
    none

def checkedPushRange (context : Context) (count : Nat) (highest : Register) :
    Checked (List Op) :=
  match rangeIds? count highest with
  | none => return [.unimplemented]
  | some ids => do
      let registers <- ids.reverse.mapM Register.checkedOfField
      let pushes <- registers.mapM fun register =>
        context.checkedPush context.width (.reg context.width register)
      return pushes.flatten

def checkedPopRange (context : Context) (count : Nat) (highest : Register) :
    Checked (List Op) :=
  let width := context.width
  match rangeIds? count highest with
  | none => return [.unimplemented]
  | some ids => do
      let registers <- ids.mapM Register.checkedOfField
      let pops <- registers.mapM fun register => do
        let up <- checkedStep .sp (stackStep width)
        return [.setReg width register (.load width (context.stackTop width)), up]
      return pops.flatten

def checkedRet (context : Context) (width : Width) : CheckedEmit Unit := do
  let target <- context.checkedPop width
  CheckedEmit.op (.ret target)

def checkedReti (context : Context) : CheckedEmit Unit := do
  let status <- context.checkedPop .word
  CheckedEmit.op (.setReg .word .sr status)
  let flags <- checkedFlagsFromStatus
  CheckedEmit.ops flags
  context.checkedRet .word

section Stack

variable (context : Context)

@[simp] theorem checkedPush_eq (width : Width) (value : Expr) :
    context.checkedPush width value = .ok (context.push width value) := by
  unfold checkedPush
  rw [checkedRetreat_eq, Checked.ok_bind]
  rfl

theorem agrees_pop (width : Width) :
    Agrees (context.checkedPop width) (context.pop width) 1 0 :=
  .weaken
    (.bind (.save _ _) fun _ =>
      .compute (checkedStep_advance .sp _) (.bind (.op _) fun _ => .pure _))
    (by decide) (by decide)

theorem agrees_ret (width : Width) :
    Agrees (context.checkedRet width) (context.ret width) 1 0 :=
  .weaken (.bind (context.agrees_pop width) fun _ => .op _) (by decide) (by decide)

theorem agrees_reti : Agrees context.checkedReti context.reti 2 0 :=
  .weaken
    (.bind (context.agrees_pop .word) fun _ => .bind (.op _) fun _ =>
      .compute checkedFlagsFromStatus_eq (.bind (.ops _) fun _ => context.agrees_ret .word))
    (by decide) (by decide)

/-- A range that ends within the registers has its registers in the table. -/
theorem rangeIds?_eq {count : Nat} {highest : Register} (hpos : 1 ≤ count)
    (hcount : count ≤ highest.id + 1) :
    exists ids, rangeIds? count highest = some ids ∧
      ids.reverse.map Register.ofField = registerRange count highest := by
  have hguard : 1 ≤ count ∧ count - 1 ≤ highest.id := ⟨hpos, by omega⟩
  refine ⟨_, if_pos hguard, ?_⟩
  unfold registerRange
  rw [List.reverse_range', List.map_map]
  apply List.map_congr_left
  intro below hbelow
  have hlt := List.mem_range.mp hbelow
  have hid : highest.id - (count - 1) + count - 1 - below = highest.id - below := by omega
  exact congrArg Register.ofField hid

theorem checkedPushRange_eq {count : Nat} {highest : Register} (hpos : 1 ≤ count)
    (hcount : count ≤ highest.id + 1) :
    context.checkedPushRange count highest = .ok (context.pushRange count highest) := by
  rcases rangeIds?_eq hpos hcount with ⟨ids, hids, hregisters⟩
  have htable := Checked.mapM_eq fun field (_ : field ∈ ids.reverse) =>
    Register.checkedOfField_eq field
  have hpushes := Checked.mapM_eq fun register (_ : register ∈ registerRange count highest) =>
    context.checkedPush_eq context.width (.reg context.width register)
  simp only [checkedPushRange, hids, htable, hregisters, Checked.ok_bind, hpushes]
  rw [Checked.pure_eq_ok, ← List.flatMap_def]
  rfl

theorem checkedPopRange_eq {count : Nat} {highest : Register} (hpos : 1 ≤ count)
    (hcount : count ≤ highest.id + 1) :
    context.checkedPopRange count highest = .ok (context.popRange count highest) := by
  rcases rangeIds?_eq hpos hcount with ⟨ids, hids, hregisters⟩
  have htable := Checked.mapM_eq fun field (_ : field ∈ ids) =>
    Register.checkedOfField_eq field
  have hregisters' : ids.map Register.ofField = (registerRange count highest).reverse := by
    rw [← hregisters, List.map_reverse, List.reverse_reverse]
  simp only [checkedPopRange, hids, htable, hregisters', Checked.ok_bind,
    checkedStep_advance, Checked.pure_eq_ok]
  rw [Checked.mapM_eq fun _ _ => rfl, Checked.ok_bind, ← List.flatMap_def]
  rfl

end Stack

/-!
# Control
-/

def checkedCall (context : Context) (target : Operand) : CheckedEmit Unit :=
  match target with
  | .autoIncrement r step => do
      let location <- CheckedEmit.save context.addressWidth (.reg context.addressWidth r)
      let up <- checkedStep r step
      CheckedEmit.op up
      CheckedEmit.op (.call (.load context.width location))
  | .immediate address => do
      let pointer <- checkedCodePointer address
      CheckedEmit.op (.call pointer)
  | _ => do
      let location <- context.checkedRead target
      CheckedEmit.op (.call location)

def checkedLabelOrNew : Option Label -> CheckedEmit Label
  | some label => return label
  | none => CheckedEmit.newLabel

def checkedJump (context : Context) (condition : Condition) (offset : Int) :
    CheckedEmit Unit := do
  let target <- Instruction.checkedJumpTarget context.address offset
  let pointer <- checkedCodePointer target
  if condition.isUnconditional then
    CheckedEmit.op (branchTo context.known pointer)
  else do
    let knownTarget := context.known.label? (UInt64.ofNat target)
    let knownNext := context.known.label? context.next
    let ifTrue <- checkedLabelOrNew knownTarget
    let ifFalse <- checkedLabelOrNew knownNext
    CheckedEmit.op (.branch condition.expr ifTrue ifFalse)
    if knownTarget.isNone then
      CheckedEmit.ops [.label ifTrue, .jump pointer]
    if knownNext.isNone then
      CheckedEmit.op (.label ifFalse)

section Control

variable (context : Context)

theorem agrees_call (target : Operand) :
    Agrees (context.checkedCall target) (context.call target) 1 0 := by
  cases target with
  | autoIncrement r step =>
      exact .weaken
        (.bind (.save _ _) fun _ => .compute (checkedStep_advance r step)
          (.bind (.op _) fun _ => .op _))
        (by decide) (by decide)
  | immediate address =>
      exact .weaken (.compute (checkedCodePointer_eq address) (.op _))
        (by decide) (by decide)
  | _ => exact .weaken (.compute (checkedRead_eq _ _) (.op _)) (by decide) (by decide)

theorem agrees_labelOrNew (known : Option Label) :
    Agrees (checkedLabelOrNew known) (labelOrNew known) 0 1 := by
  cases known with
  | none => exact .newLabel
  | some label => exact .weaken (.pure label) (by decide) (by decide)

theorem agrees_jump (condition : Condition) {offset : Int}
    (hroom : Instruction.LeavesRoom context.address)
    (hoffset : -0x200 ≤ offset ∧ offset < 0x200) :
    Agrees (context.checkedJump condition offset) (context.jump condition offset) 0 2 := by
  refine .compute (Instruction.checkedJumpTarget_eq hroom hoffset.1 hoffset.2) ?_
  refine .compute (checkedCodePointer_eq _) ?_
  refine .ite (.weaken (.op _) (by decide) (by decide)) ?_
  have hlast : forall ifFalse : Label,
      Agrees
        (if (context.known.label? context.next).isNone then
          CheckedEmit.op (.label ifFalse)
        else
          pure ())
        (if (context.known.label? context.next).isNone then
          Emit.op (.label ifFalse)
        else
          pure ()) 0 0 :=
    fun _ => .ite (.op _) (.pure ())
  exact .weaken
    (.bind (agrees_labelOrNew _) fun _ => .bind (agrees_labelOrNew _) fun ifFalse =>
      .bind (.op _) fun _ => .ite (.bind (.ops _) fun _ => hlast ifFalse) (hlast ifFalse))
    (by decide) (by decide)

end Control

end Context
end Lift
end MSP430
