import MSP430.Proofs.Lift.AutoIncrement
import MSP430.Proofs.Lift.StatusWrite

/-!
# The order of a pop

A pop takes a value from the stack, moves the stack pointer past it and writes the
value to its destination.  The code writes the value before it moves the stack
pointer.  The two orders make a difference where the destination is the stack
pointer, or is reached through it.
-/

namespace MSP430

open IL (Emit RunsTo State outcome)
open IL.Emit (Reaches)

/-!
# Assignment
-/

namespace Operand

/-- The state after a value has been written to an operand that is a place.  The flags
are set from what is written to the status register. -/
def assigned (width space : Width) (value : Nat) (state : State)
    (operand : Operand) : State :=
  if operand = .register .sr then
    Lift.withStatus state value
  else
    operand.written width space value state

theorem assigned_of_location {width space : Width} {value : Nat} {state : State}
    {operand : Operand} {location : Nat}
    (h : operand.effectiveAddress? space state = some location) :
    operand.assigned width space value state = state.store width location value := by
  have hsr : operand ≠ .register .sr := by
    rintro rfl
    cases h
  unfold assigned written
  rw [if_neg hsr, h]

end Operand

namespace Lift

/-- Moves the stack pointer past a word. -/
def popped (state : State) : State :=
  state.setReg .sp (Width.word.truncate (state.regs .sp + 2))

/-- The stack pointer moves on before its value is written, so that the destination
is the one that it then is. -/
def popFirst (width : Width) (destination : Operand) (state : State) : State :=
  destination.assigned width .word (state.load width (state.regs .sp)) (popped state)

/-- The value is written before the stack pointer moves on. -/
def popLast (width : Width) (destination : Operand) (state : State) : State :=
  popped (destination.assigned width .word (state.load width (state.regs .sp)) state)

/-!
# Where the orders agree
-/

section Agree

variable {destination : Operand}

/-- The destination has its address whatever the stack pointer is. -/
theorem effectiveAddress?_popped (h : destination.register? ≠ some .sp)
    (space : Width) (state : State) :
    destination.effectiveAddress? space (popped state) =
      destination.effectiveAddress? space state := by
  have hregs : forall r, r ≠ Register.sp -> (popped state).regs r = state.regs r :=
    fun _ hr => if_neg hr
  cases destination with
  | indirect r | autoIncrement r _ | indexed r _ =>
      have hr : r ≠ .sp := fun heq => h (congrArg some heq)
      simp only [Operand.effectiveAddress?, hregs r hr]
  | _ => rfl

theorem setReg_comm (state : State) {r other : Register} (h : r ≠ other)
    (value number : Nat) :
    (state.setReg r value).setReg other number =
      (state.setReg other number).setReg r value := by
  unfold State.setReg
  congr 1
  funext register
  by_cases hr : register = r
  · subst hr
    simp [h]
  · simp [hr]

theorem popLast_eq_popFirst (h : destination.register? ≠ some .sp) (width : Width)
    (state : State) :
    popLast width destination state = popFirst width destination state := by
  have haddress := effectiveAddress?_popped h .word state
  unfold popLast popFirst
  cases hlocation : destination.effectiveAddress? .word state with
  | some location =>
      rw [hlocation] at haddress
      rw [Operand.assigned_of_location hlocation, Operand.assigned_of_location haddress]
      rfl
  | none =>
      let value := state.load width (state.regs .sp)
      cases destination with
      | register r =>
          have hr : r ≠ .sp := fun heq => h (congrArg some heq)
          have hcomm := setReg_comm state hr value
            (Width.word.truncate (state.regs .sp + 2))
          cases r with
          | sp => exact absurd rfl hr
          | cg => rfl
          | sr =>
              exact congrArg (fun after : State => { after with
                flags := fun flag => value.testBit flag.bit }) hcomm
          | _ => exact hcomm
      | immediate _ | constant _ => rfl
      | _ => cases hlocation

/-!
# Where the orders differ
-/

/-- An empty machine but for one byte, which the stack pointer points to. -/
def oneOnStack : State :=
  ⟨fun _ => 0, fun _ => false, fun address => if address = 0 then 1 else 0,
    fun _ => 0⟩

theorem load_oneOnStack {width : Width} (hwidth : width ≠ .address) :
    oneOnStack.load width 0 = 1 := by
  cases width with
  | byte | word => rfl
  | address => exact absurd rfl hwidth

theorem store_memory_self {width : Width} (hwidth : width ≠ .address)
    (address : Nat) : (oneOnStack.store width address 1).memory address = 1 := by
  cases width with
  | byte | word => exact if_pos rfl
  | address => exact absurd rfl hwidth

theorem store_memory_of_apart {width : Width} (hwidth : width ≠ .address)
    {address other : Nat} (hother : other ≠ 0)
    (h : other < address ∨ address + 2 ≤ other) :
    (oneOnStack.store width address 1).memory other = 0 := by
  have hkept : (oneOnStack.store width address 1).memory other =
      oneOnStack.memory other := by
    rcases h with h | h
    · exact State.storeBytes_of_lt _ _ _ _ h
    · apply State.storeBytes_of_ge
      cases width with
      | byte => exact Nat.le_trans (Nat.le_succ _) h
      | word => exact h
      | address => exact absurd rfl hwidth
  rw [hkept]
  exact if_neg hother

/-- Storing at two addresses that are two apart leaves two memories. -/
theorem store_ne_store {width : Width} (hwidth : width ≠ .address) (offset : Int) :
    (oneOnStack.store width (Width.word.ofInt offset) 1).memory ≠
      (oneOnStack.store width (Width.word.ofInt (offset + 2)) 1).memory := by
  generalize hfirst : Width.word.ofInt offset = first
  generalize hsecond : Width.word.ofInt (offset + 2) = second
  have hapart : second = (first + 2) % 0x10000 ∧ first < 0x10000 := by
    simp only [Width.ofInt, Width.modulus] at hfirst hsecond
    omega
  intro heq
  have hmemory := congrFun heq
  by_cases hzero : second = 0
  · -- The second address is that of the one byte, and nothing is at the first.
    have hbyte := hmemory first
    rw [store_memory_self hwidth,
      store_memory_of_apart hwidth (by omega) (by omega)] at hbyte
    cases hbyte
  · have hbyte := hmemory second
    rw [store_memory_self hwidth,
      store_memory_of_apart hwidth hzero (by omega)] at hbyte
    cases hbyte

/-- A state in which the two orders lead to states that look different. -/
theorem not_sameVisible_of_pop (h : destination.register? = some .sp) {width : Width}
    (hwidth : width ≠ .address) :
    ¬ (popLast width destination oneOnStack).SameVisible
      (popFirst width destination oneOnStack) := by
  have hload : oneOnStack.load width (oneOnStack.regs .sp) = 1 :=
    load_oneOnStack hwidth
  unfold popLast popFirst
  rw [hload]
  have hstored : forall offset : Int,
      destination.effectiveAddress? .word oneOnStack =
        some (Width.word.ofInt offset) ->
      destination.effectiveAddress? .word (popped oneOnStack) =
        some (Width.word.ofInt (offset + 2)) ->
      ¬ (popped (destination.assigned width .word 1 oneOnStack)).SameVisible
        (destination.assigned width .word 1 (popped oneOnStack)) := by
    intro offset hlast hfirst hsame
    rw [Operand.assigned_of_location hlast, Operand.assigned_of_location hfirst] at hsame
    exact store_ne_store hwidth offset hsame.memory
  cases destination with
  | register r =>
      cases h
      intro hsame
      have hsp : 3 = 1 := congrFun hsame.regs .sp
      exact absurd hsp (by decide)
  | indirect r | autoIncrement r _ =>
      cases h
      exact hstored 0 rfl rfl
  | indexed r offset =>
      cases h
      apply hstored offset
      · exact congrArg (fun sum => some (Width.word.ofInt sum)) (Int.zero_add offset)
      · exact congrArg (fun sum => some (Width.word.ofInt sum)) (Int.add_comm 2 offset)
  | absolute _ | symbolic _ _ | immediate _ | constant _ => cases h

end Agree

/-!
# The code
-/

/-- Writing to a place other than the program counter reaches the end of the code. -/
theorem outcome_assign (known : IL.KnownLabels) (space : Width) {width : Width}
    {operand : Operand} {value : IL.Expr} {state : State} {number : Nat}
    (hplace : operand.isValue = false) (hpc : operand ≠ .register .pc)
    (hvalue : value.eval state = number) (hnumber : number < width.modulus) :
    outcome ((Place.of space operand).write known width value) state =
      (.fallThrough, operand.assigned width space number state) := by
  unfold Operand.assigned
  split
  · next hsr =>
      rw [hsr]
      exact outcome_writeStatus known hvalue hnumber
  · next hsr => exact outcome_write known space hplace hpc hsr hvalue hnumber

/-- Where memory is addressed in sixteen bits, a move from the stack writes the value
before the stack pointer moves on. -/
theorem Context.reaches_popLast (context : Context)
    (hspace : context.addressWidth = .word) {destination : Operand}
    (hplace : destination.isValue = false) (hpc : destination ≠ .register .pc)
    {state : State} (hsp : state.regs .sp < Width.word.modulus)
    (supply : IL.Supply) :
    (context.move (.autoIncrement .sp 2) destination).Reaches supply state
      (popLast context.width destination state) := by
  have hvalue : (context.read (.autoIncrement .sp 2)).eval state =
      state.load context.width (state.regs .sp) := by
    have hread := eval_read context.addressWidth context.width context.address state
      (.autoIncrement .sp 2)
    rw [hspace] at hread
    unfold Context.read Context.place
    rw [hspace, hread]
    exact congrArg (state.load context.width) (Width.truncate_of_lt hsp)
  have hwrite := outcome_assign context.known .word hplace hpc hvalue
    (Width.truncate_lt _ _)
  have hreseed : forall value, .autoIncrement .sp 2 = Operand.immediate value ->
      destination ≠ .register .sp := nofun
  rw [context.move_eq_write hpc hreseed]
  unfold popLast
  rw [← hspace] at hwrite ⊢
  exact Reaches.bind (.ops hwrite) (.ops (outcome_postIncrement _ _))

section

variable {inst : Instruction} {step : Nat} {destination : Operand}
  (hdecoded : inst.Decoded)
  (hbody : inst.body = .double .mov (.autoIncrement .sp step) destination)
  (hpc : destination ≠ .register .pc)

include hbody

theorem format_ne_address_of_pop : inst.format ≠ .address := by
  unfold Instruction.format Instruction.opcode
  rw [hbody]
  exact nofun

theorem mem_operands_of_pop : .autoIncrement .sp step ∈ inst.body.operands := by
  rw [hbody]
  exact List.mem_cons_self

include hdecoded

theorem isValue_of_pop : destination.isValue = false := by
  apply hdecoded.destination_isPlace
  unfold Instruction.destination?
  rw [hbody]
  rfl

include hpc in
/-- A pop that is no return has no code of its own. -/
theorem Context.run_pop (context : Context) :
    context.run inst = context.move (.autoIncrement .sp step) destination := by
  have hsupported : unsupported? inst.body = none := by
    rw [hbody]
    unfold unsupported? writtenOperand?
    simp [DoubleOpcode.writesDestination, isValue_of_pop hdecoded hbody]
  have hadvances : inst.body.Advances .sp step := by
    rw [hbody]
    exact .double .mov destination
  have hreturn : forall step', movedToPc? inst.body ≠ some (.autoIncrement .sp step') := by
    intro step' hmoved
    rw [hbody] at hmoved
    rcases body_of_movedToPc? hmoved with heq | heq <;> cases heq
    exact hpc rfl
  rw [context.run_eq_body_of_advances hdecoded hadvances hsupported hreturn, hbody]
  rfl

variable (hextension : inst.extension = none)

include hextension

theorem width_ne_address_of_pop : inst.width ≠ .address :=
  hdecoded.width_ne_address hextension (format_ne_address_of_pop hbody)
    (mem_operands_of_pop hbody)

theorem addressWidthOf_pop : Context.addressWidthOf inst = .word := by
  have hformat := format_ne_address_of_pop hbody
  have hwidth := width_ne_address_of_pop hdecoded hbody hextension
  unfold Context.addressWidthOf Instruction.isExtended
  simp [hextension, hwidth, hformat]

/-- A pop takes a word from the stack, also where it moves a byte. -/
theorem step_of_pop : step = 2 := by
  have hwidth := width_ne_address_of_pop hdecoded hbody hextension
  rw [(hdecoded.advances (mem_operands_of_pop hbody)).2.1]
  cases hinst : inst.width with
  | byte | word => rfl
  | address => exact absurd hinst hwidth

include hpc in
theorem runsTo_popLast (options : Options) (buffer : IL.Buffer) {state : State}
    (hsp : state.regs .sp < Width.word.modulus) :
    RunsTo (appended buffer options inst) state .fallThrough
      (popLast inst.width destination state) := by
  cases step_of_pop hdecoded hbody hextension
  apply runsTo_of_reaches options buffer (.inl hextension)
  · rw [hbody]
    exact nofun
  · rw [Context.run_pop hdecoded hbody hpc]
    exact Context.reaches_popLast _ (addressWidthOf_pop hdecoded hbody hextension)
      (isValue_of_pop hdecoded hbody) hpc hsp _

end

/-- The code of a pop that is no return writes the value and then moves the stack
pointer.  From every state on, it leaves the same registers, flags and memory as
taking the value, moving the stack pointer and then writing the value, exactly if the
destination neither is the stack pointer nor is reached through it. -/
theorem pop_order_iff (options : Options) (buffer : IL.Buffer) {inst : Instruction}
    (hdecoded : inst.Decoded) (hextension : inst.extension = none) {step : Nat}
    {destination : Operand}
    (hbody : inst.body = .double .mov (.autoIncrement .sp step) destination)
    (hpc : destination ≠ .register .pc) :
    (forall state, state.regs .sp < Width.word.modulus ->
      RunsTo (appended buffer options inst) state .fallThrough
        (popLast inst.width destination state)) ∧
    ((forall state, state.regs .sp < Width.word.modulus ->
      exists last,
        RunsTo (appended buffer options inst) state .fallThrough last ∧
          last.SameVisible (popFirst inst.width destination state)) ↔
      destination.register? ≠ some .sp) := by
  have hwidth := width_ne_address_of_pop hdecoded hbody hextension
  have hruns : forall state, state.regs .sp < Width.word.modulus ->
      RunsTo (appended buffer options inst) state .fallThrough
        (popLast inst.width destination state) := fun _ hsp =>
    runsTo_popLast hdecoded hbody hpc hextension options buffer hsp
  refine ⟨hruns, ?_, ?_⟩
  · intro hfirst hsp
    have hstack : oneOnStack.regs .sp < Width.word.modulus := by decide
    rcases hfirst oneOnStack hstack with ⟨last, hrun, hsame⟩
    rcases (hruns oneOnStack hstack).deterministic hrun with ⟨_, rfl⟩
    exact not_sameVisible_of_pop hsp hwidth hsame
  · intro hsp state hstack
    refine ⟨_, hruns state hstack, ?_⟩
    rw [popLast_eq_popFirst hsp]
    exact .refl _

/-- Pops a register. -/
def popRegister : Instruction where
  address := 0x4400
  width := .word
  extension := none
  body := .double .mov (.autoIncrement .sp 2) (.register .r6)
  length := 2

theorem pop_order_iff_register :
    exists last,
      RunsTo (appended (.empty 0x4400) .standard popRegister) oneOnStack .fallThrough
          last ∧
        last.SameVisible ((oneOnStack.setReg .sp 2).setReg .r6 1) := by
  have hdecoded : popRegister.Decoded := ⟨.msp430, [0x36, 0x41], 0x4400, rfl⟩
  have horder := pop_order_iff .standard (.empty 0x4400) hdecoded rfl rfl nofun
  exact horder.2.mpr nofun oneOnStack (by decide)

/-- Pops the stack pointer. -/
def popStackPointer : Instruction :=
  { popRegister with body := .double .mov (.autoIncrement .sp 2) (.register .sp) }

/-- What is popped into the stack pointer is then moved on by a word. -/
theorem pop_moves_popped :
    decode .msp430 [0x31, 0x41] 0x4400 = .ok popStackPointer ∧
      exists state last,
        state.regs .sp < Width.word.modulus ∧
          RunsTo (appended (.empty 0x4400) .standard popStackPointer) state
            .fallThrough last ∧
          last.regs .sp ≠ (popFirst .word (.register .sp) state).regs .sp := by
  refine ⟨rfl, oneOnStack, _, by decide, .next rfl (.next rfl (.done _)), ?_⟩
  decide

end Lift
end MSP430
