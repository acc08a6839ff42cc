import MSP430.Proofs.Lift.Status
import MSP430.Proofs.Lift.Straight

/-!
# Reading and writing operands

What an operand is worth to an instruction in a state, and what it means to
write to it, said apart from the code that does so.  The status register holds
the flags, the constant generator holds zero, the program counter points behind
the opcode word, and a memory operand is what lies at its effective address.
-/

namespace MSP430

open IL (Expr State)

/-!
# Operands
-/

/-- What a register is worth to an instruction at an address. -/
def Register.valueIn (address : UInt64) (state : State) : Register -> Nat
  | .pc => address.toNat + 2
  | .sr => state.status
  | .cg => 0
  | register => state.regs register

namespace Operand

/-- The address of a memory operand, in an address space of a width. -/
def effectiveAddress? (space : Width) (state : State) : Operand -> Option Nat
  | .indirect r | .autoIncrement r _ => some (space.truncate (state.regs r))
  | .indexed r offset => some (space.ofInt (state.regs r + offset))
  | .absolute address | .symbolic _ address => some (space.truncate address)
  | .register _ | .immediate _ | .constant _ => none

/-- What an operand is worth to an instruction at an address. -/
def valueIn (address : UInt64) (width space : Width) (state : State)
    (operand : Operand) : Nat :=
  match operand.effectiveAddress? space state with
  | some location => state.load width location
  | none =>
      match operand with
      | .register r => width.truncate (r.valueIn address state)
      | _ => (operand.value? width).getD 0

/-- The state after writing a value to an operand that is a place. -/
def written (width space : Width) (value : Nat) (state : State)
    (operand : Operand) : State :=
  match operand.effectiveAddress? space state with
  | some location => state.store width location value
  | none =>
      match operand with
      | .register .cg => state
      | .register r => state.setReg r value
      | _ => state

/-- The state after an operand has moved its register past what was read. -/
def advanced (state : State) : Operand -> State
  | .autoIncrement r step =>
      state.setReg r ((Lift.stepWidth step).truncate (state.regs r + step))
  | _ => state

/-- A place has the value that was written to it: the cell at the address from
before, or a register, which gets nothing else.  The constant generator takes no
value. -/
def Receives (width space : Width) (value : Nat) (before after : State)
    (operand : Operand) : Prop :=
  match operand.effectiveAddress? space before with
  | some location =>
      after.memory = (before.store width location value).memory
  | none =>
      after.memory = before.memory ∧
        match operand with
        | .register .cg => after.regs .cg = before.regs .cg
        | .register r => after.regs r = value
        | _ => False

/-- A place is what it was before. -/
def Keeps (before after : State) (operand : Operand) : Prop :=
  after.memory = before.memory ∧
    forall r, operand = .register r -> after.regs r = before.regs r

theorem effectiveAddress?_congr {first second : State}
    (h : first.regs = second.regs) (space : Width) (operand : Operand) :
    operand.effectiveAddress? space first =
      operand.effectiveAddress? space second := by
  cases operand <;> simp only [effectiveAddress?, h]

section Writing

variable (width space : Width) (value : Nat) (state : State) (operand : Operand)

@[simp] theorem written_flags :
    (operand.written width space value state).flags = state.flags := by
  unfold written
  split
  · rfl
  · split <;> rfl

@[simp] theorem advanced_flags : (operand.advanced state).flags = state.flags := by
  cases operand <;> rfl

@[simp] theorem advanced_memory :
    (operand.advanced state).memory = state.memory := by
  cases operand <;> rfl

variable {state operand}

/-- Only the register that is read through moves on. -/
theorem advanced_regs {r : Register}
    (h : forall step, operand ≠ .autoIncrement r step) :
    (operand.advanced state).regs r = state.regs r := by
  cases operand with
  | autoIncrement other step =>
      have hne : r ≠ other := by
        rintro rfl
        exact h step rfl
      exact if_neg hne
  | _ => rfl

theorem receives_written {before : State} (hregs : state.regs = before.regs)
    (hmemory : state.memory = before.memory) (hplace : operand.isValue = false)
    {source : Operand}
    (hsource : forall r step, source = .autoIncrement r step ->
      operand ≠ .register r) :
    operand.Receives width space value before
      (source.advanced (operand.written width space value state)) := by
  unfold Receives written
  rw [advanced_memory, effectiveAddress?_congr hregs]
  cases haddress : operand.effectiveAddress? space before with
  | some location => simp only [State.store, hmemory]
  | none =>
      cases operand with
      | register r =>
          have hkept : forall last : State,
              (source.advanced last).regs r = last.regs r := by
            intro last
            apply advanced_regs
            intro step hstep
            exact hsource r step hstep rfl
          cases r with
          | cg =>
              dsimp only
              rw [hkept]
              exact ⟨hmemory, congrFun hregs _⟩
          | _ =>
              dsimp only
              rw [hkept]
              exact ⟨hmemory, rfl⟩
      | immediate _ | constant _ => cases hplace
      | _ => cases haddress

theorem keeps_advanced {before : State} (hregs : state.regs = before.regs)
    (hmemory : state.memory = before.memory) {source : Operand}
    (hsource : forall r step, source = .autoIncrement r step ->
      operand ≠ .register r) :
    operand.Keeps before (source.advanced state) := by
  refine ⟨(source.advanced_memory state).trans hmemory, ?_⟩
  intro r hoperand
  rw [advanced_regs, hregs]
  intro step hstep
  exact hsource r step hstep hoperand

end Writing

theorem valueIn_lt (address : UInt64) (width space : Width) (state : State)
    (operand : Operand) :
    operand.valueIn address width space state < width.modulus := by
  cases operand with
  | constant value => exact width.ofInt_lt value
  | _ => exact width.truncate_lt _

end Operand

def Instruction.operandValue (inst : Instruction) (state : State)
    (operand : Operand) : Nat :=
  operand.valueIn inst.address inst.width (Lift.Context.addressWidthOf inst) state

theorem Instruction.operandValue_lt (inst : Instruction) (state : State)
    (operand : Operand) : inst.operandValue state operand < inst.width.modulus :=
  operand.valueIn_lt _ _ _ _

namespace Lift

/-!
# Reading
-/

theorem eval_indexed (space : Width) (r : Register) (offset : Int)
    (state : State) :
    (Expr.add space (.reg space r) (.int space (space.ofInt offset))).eval state =
      space.ofInt (state.regs r + offset) := by
  simp only [Expr.add, Expr.int, Expr.eval, IL.BinaryOp.apply]
  cases space <;>
    simp only [Width.truncate, Width.ofInt, Width.modulus] <;>
    omega

theorem exists_location {space : Width} {state : State} {operand : Operand}
    {address : Nat} (h : operand.effectiveAddress? space state = some address) :
    exists location,
      Place.of space operand = .memory location ∧ location.eval state = address := by
  cases operand with
  | register _ | immediate _ | constant _ => cases h
  | indexed r offset =>
      refine ⟨_, rfl, ?_⟩
      rw [eval_indexed]
      exact Option.some.inj h
  | _ => exact ⟨_, rfl, Option.some.inj h⟩

theorem eval_read (space width : Width) (address : UInt64) (state : State)
    (operand : Operand) :
    ((Place.of space operand).read address width).eval state =
      operand.valueIn address width space state := by
  cases haddress : operand.effectiveAddress? space state with
  | some cell =>
      rcases exists_location haddress with ⟨location, hplace, hlocation⟩
      unfold Operand.valueIn
      rw [hplace, haddress, Place.read, Expr.eval, hlocation]
  | none =>
      cases operand with
      | register r =>
          cases r with
          | sr => exact eval_statusRegister width state
          | _ => rfl
      | immediate value =>
          have hvalue : width.ofInt (value : Int) = width.truncate value := rfl
          show width.truncate (width.ofInt (value : Int)) = width.truncate value
          rw [hvalue, Width.truncate_truncate]
      | constant value =>
          exact Width.truncate_of_lt (width.ofInt_lt value)
      | _ => cases haddress

theorem valueIn_congr {first second : State} (h : first.SameVisible second)
    (address : UInt64) (width space : Width) (operand : Operand) :
    operand.valueIn address width space first =
      operand.valueIn address width space second := by
  have hscope : ((Place.of space operand).read address width).ScopedIn [] :=
    read_scopedIn space width address operand
  rw [← eval_read, ← eval_read]
  exact @Expr.eval_congr [] _ _ _ h.agreeBelow hscope

/-!
# Writing
-/

/-- A register gets the whole value; above a byte or a word it is cleared. -/
theorem outcome_setRegister (register : Register) {width : Width} {value : Expr}
    {state : State} {number : Nat} (hvalue : value.eval state = number)
    (hnumber : number < width.modulus) :
    IL.outcome [setRegister register width value] state =
      (.fallThrough, state.setReg register number) := by
  have hbyte : width = .byte -> Width.word.truncate number = number := by
    rintro rfl
    exact Width.truncate_of_lt (Nat.lt_trans hnumber (by decide))
  cases width with
  | byte =>
      show (IL.Exit.fallThrough, state.setReg register (Width.word.truncate
        (Width.word.truncate (value.eval state)))) = _
      rw [hvalue, hbyte rfl, hbyte rfl]
  | word | address =>
      simp only [setRegister, IL.outcome_setReg, IL.outcome_nil, hvalue,
        Width.truncate_of_lt hnumber]

/-- Writing to a place other than the program counter and the status register
reaches the end of the code. -/
theorem outcome_write (known : IL.KnownLabels) (space : Width) {width : Width}
    {operand : Operand} {value : Expr} {state : State} {number : Nat}
    (hplace : operand.isValue = false) (hpc : operand ≠ .register .pc)
    (hsr : operand ≠ .register .sr) (hvalue : value.eval state = number)
    (hnumber : number < width.modulus) :
    IL.outcome ((Place.of space operand).write known width value) state =
      (.fallThrough, operand.written width space number state) := by
  unfold Operand.written
  cases haddress : operand.effectiveAddress? space state with
  | some address =>
      rcases exists_location haddress with ⟨location, hlocation, heval⟩
      rw [hlocation, Place.write, IL.outcome_store, heval, hvalue]
      rfl
  | none =>
      cases operand with
      | register r =>
          cases r with
          | pc => exact absurd rfl hpc
          | sr => exact absurd rfl hsr
          | cg => rfl
          | _ => exact outcome_setRegister _ hvalue hnumber
      | immediate _ | constant _ => cases hplace
      | _ => cases haddress

theorem outcome_postIncrement (operand : Operand) (state : State) :
    IL.outcome (postIncrement operand) state =
      (.fallThrough, operand.advanced state) := by
  cases operand with
  | autoIncrement r step =>
      have hsum : forall width : Width, width.truncate (width.truncate
          (width.truncate (width.truncate (state.regs r)) +
            width.truncate step)) = width.truncate (state.regs r + step) := by
        intro width
        unfold Width.truncate
        rw [Nat.mod_mod, Nat.mod_mod, ← Nat.add_mod]
      exact congrArg (fun value => (IL.Exit.fallThrough, state.setReg r value))
        (hsum (stepWidth step))
  | _ => rfl

end Lift
end MSP430
