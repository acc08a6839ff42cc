import MSP430.Proofs.Lift.AutoIncrement

/-!
# Pointers of extended instructions

Behind a prefix word, memory is addressed in twenty bits.  The width in which a
pointer moves on is that of its step, though: pointers to addresses move in twenty
bits, and pointers to bytes and words in sixteen.  Such a pointer loses the bits
above.
-/

namespace MSP430

open IL (Emit Expr RunsTo State Supply outcome)
open IL.Emit (Reaches)

namespace Lift

/-!
# Address spaces
-/

/-- A pointer to values of a width can be moved to an address. -/
def Attains (width : Width) (address : Nat) : Prop :=
  width = .address ∨ address < Width.word.modulus

theorem stepWidth_stackStep (width : Width) :
    stepWidth (stackStep width) = pointerWidth width := by
  cases width <;> rfl

/-- A pointer that has moved is where it is in twenty bits just if it can be moved
there. -/
theorem ofInt_pointerWidth_eq_iff (width : Width) (target : Int) :
    (pointerWidth width).ofInt target = Width.address.ofInt target ↔
      Attains width (Width.address.ofInt target) := by
  unfold Attains pointerWidth
  split
  · next hwidth => exact ⟨fun _ => .inl hwidth, fun _ => rfl⟩
  · next hwidth =>
      simp only [hwidth, false_or, Width.ofInt, Width.modulus]
      omega

/-!
# Sources that move on
-/

/-- What leaves by its result replaces its destination. -/
theorem destination?_of_leavesByResult {inst : Instruction} {r : Register} {step : Nat}
    (hbody : inst.body.Advances r step) (h : inst.LeavesByResult) :
    inst.destination? = some (.register .pc) := by
  rcases h with ⟨hwritten, _⟩
  unfold Instruction.destination?
  generalize inst.body = body at hbody hwritten
  cases hbody with
  | single opcode => cases opcode <;> cases hwritten
  | calla => cases hwritten
  | double opcode destination =>
      cases opcode <;> first | exact hwritten | cases hwritten
  | mova destination => exact hwritten

/-!
# Pushes
-/

/-- The address to which a push moves the stack pointer. -/
def pushedTo (space width : Width) (state : State) : Nat :=
  space.ofInt (state.regs .sp - stackStep width)

/-- The state after a value has been stored below the stack pointer. -/
def pushed (width : Width) (value : Nat) (state : State) : State :=
  let top := pushedTo (pointerWidth width) width state
  (state.setReg .sp top).store width top value

@[simp] theorem pushed_sp (width : Width) (value : Nat) (state : State) :
    (pushed width value state).regs .sp =
      pushedTo (pointerWidth width) width state := by
  simp [pushed, State.store, State.setReg]

@[simp] theorem pushed_memory (width : Width) (value : Nat) (state : State) :
    (pushed width value state).memory = (state.store width
      (pushedTo (pointerWidth width) width state) value).memory :=
  rfl

/-- The state in which the value is stored: the stack pointer has moved. -/
def lowered (width : Width) (state : State) : State :=
  state.setReg .sp (pushedTo (pointerWidth width) width state)

theorem outcome_retreat (r : Register) (step : Nat) (state : State) :
    outcome [retreat r step] state =
      (.fallThrough,
        state.setReg r ((stepWidth step).ofInt (state.regs r - step))) := by
  have hdifference : forall (space : Width) (value : Nat),
      space.truncate (space.truncate (space.truncate (space.truncate value) +
        (space.modulus - space.truncate (space.truncate step)))) =
          space.ofInt (value - step) := by
    intro space value
    cases space <;> simp only [Width.truncate, Width.ofInt, Width.modulus] <;> omega
  exact congrArg (fun value => (IL.Exit.fallThrough, state.setReg r value))
    (hdifference _ _)

namespace Context

variable (context : Context)

/-- The stack is addressed in a width that a moved stack pointer fits in. -/
theorem eval_stackTop_of_lt (hspace : context.addressWidth ≠ .byte) {width : Width}
    {state : State} (h : state.regs .sp < (pointerWidth width).modulus) :
    (context.stackTop width).eval state = state.regs .sp := by
  have hfits :
      (pointerWidth width).modulus ≤ (context.stackWidth width).modulus := by
    unfold stackWidth
    generalize context.addressWidth = space at hspace
    cases width <;> cases space <;> first | exact absurd rfl hspace | decide
  exact Width.truncate_of_lt (Nat.lt_of_lt_of_le h hfits)

theorem eval_stackTop (hspace : context.addressWidth ≠ .byte) (width : Width)
    (state : State) :
    (context.stackTop width).eval (lowered width state) =
      pushedTo (pointerWidth width) width state :=
  context.eval_stackTop_of_lt hspace
    ((pointerWidth width).ofInt_lt (state.regs .sp - stackStep width))

/-- The stack pointer moves, and then the value is computed and stored. -/
theorem outcome_push (hspace : context.addressWidth ≠ .byte) (width : Width)
    {value : Expr} {number : Nat} {state : State}
    (hvalue : value.eval (lowered width state) = number) :
    outcome (context.push width value) state =
      (.fallThrough, pushed width number state) := by
  have hretreat : outcome [retreat .sp (stackStep width)] state =
      (.fallThrough, lowered width state) := by
    rw [outcome_retreat, stepWidth_stackStep]
    rfl
  show outcome ([retreat .sp (stackStep width)] ++
    [.store width (context.stackTop width) value]) state = _
  rw [IL.outcome_append, hretreat, IL.Outcome.fallThrough_andThen, IL.outcome_store,
    context.eval_stackTop hspace, hvalue]
  rfl

theorem reaches_push (hspace : context.addressWidth ≠ .byte) (operand : Operand)
    {value : Expr} {number : Nat} {state : State} (supply : Supply)
    (hvalue : value.eval (lowered context.width state) = number) :
    let emission : Emit Unit := do
      Emit.ops (context.push context.width value)
      Emit.ops (postIncrement operand)
    emission.Reaches supply state
      (operand.advanced (pushed context.width number state)) := by
  have hpush := context.outcome_push hspace context.width hvalue
  exact Reaches.bind (.ops hpush) (.ops (outcome_postIncrement _ _))

/-- An operand is read before the stack pointer moves. -/
theorem exists_reaches_pushOperand (hspace : context.addressWidth ≠ .byte)
    (operand : Operand) (supply : Supply) (state : State) :
    exists kept : State,
      kept.SameVisible state ∧
        (context.pushOperand operand).Reaches supply state
          (operand.advanced (pushed context.width
            (operand.valueIn context.address context.width context.addressWidth state)
            kept)) := by
  have hread := eval_read context.addressWidth context.width context.address state
    operand
  have hlt := operand.valueIn_lt context.address context.width context.addressWidth state
  unfold pushOperand
  dsimp only
  split
  · next hconstant =>
      -- A constant is not kept, and moving the stack pointer leaves it as it is.
      rcases Option.isSome_iff_exists.mp hconstant with ⟨constant, hvalue⟩
      have heval := fun last : State => Expr.eval_of_constant? last hvalue
      refine ⟨state, .refl state, Reaches.bind (.pure _) ?_⟩
      apply context.reaches_push hspace
      exact (heval _).trans ((heval state).symm.trans hread)
  · rcases @Reaches.exists_kept supply _ _ _ _ hread hlt with
      ⟨kept, hkept, hagree, hvalue⟩
    refine ⟨kept, hagree.toSameVisible, hkept.bind ?_⟩
    apply context.reaches_push hspace
    exact hvalue _ rfl

end Context

theorem Context.addressWidthOf_ne_byte (inst : Instruction) :
    Context.addressWidthOf inst ≠ .byte := by
  unfold Context.addressWidthOf
  split <;> exact nofun

section

variable {inst : Instruction} {source : Operand}
  (hbody : inst.body = .single .push source)

include hbody

theorem Context.run_push (context : Context) :
    context.run inst = context.pushOperand source :=
  context.run_of_body hbody rfl rfl

/-- A push whose operand leaves the stack pointer alone stores what the operand was
worth at the start of the run. -/
theorem exists_pushed (options : Options) (buffer : IL.Buffer) {zeroCarry : Bool}
    (hextension : inst.extension =
      some { repetition := .times 1, zeroCarry := zeroCarry })
    (hsource : forall step, source ≠ .autoIncrement .sp step) (state : State) :
    let value := inst.operandValue (started zeroCarry state) source
    exists last,
      RunsTo (appended buffer options inst) state .fallThrough last ∧
        last.memory = (state.store inst.width (last.regs .sp) value).memory ∧
        last.regs .sp = pushedTo (pointerWidth inst.width) inst.width state := by
  rcases (Context.of options buffer.known inst).exists_reaches_pushOperand
      (Context.addressWidthOf_ne_byte inst) source { temp := 0, label := 0 }
      (started zeroCarry state) with ⟨kept, hsame, hreaches⟩
  rw [← Context.run_push hbody] at hreaches
  have hjump : forall condition offset, inst.body ≠ .jump condition offset := by
    rw [hbody]
    exact nofun
  have hrun := runsTo_of_reaches_started options buffer hextension hjump hreaches
  refine ⟨_, hrun, ?_, ?_⟩
  · rw [Operand.advanced_memory, Operand.advanced_regs hsource, pushed_memory, pushed_sp]
    unfold State.store
    rw [hsame.memory, started_memory]
    rfl
  · rw [Operand.advanced_regs hsource, pushed_sp]
    unfold pushedTo
    rw [hsame.regs, started_regs]
    rfl

end

/-!
# Pointers in twenty bits
-/

/-- A source that is read through a register moves it on, and behind a prefix word a
push stores its operand below the stack pointer.  Either pointer ends where it should
in twenty bits exactly if its instruction is one on addresses or the place is one that
a word can hold. -/
theorem extended_pointer_iff (options : Options) (buffer : IL.Buffer)
    {inst : Instruction} (hdecoded : inst.Decoded) (state : State) :
    (forall r step, inst.source? = some (.autoIncrement r step) ->
      inst.destination? ≠ some (.register r) ->
      inst.destination? ≠ some (.register .pc) ->
      inst.opcode ≠ .double .dadd -> inst.opcode ≠ .single .push ->
      let target := Width.address.truncate (state.regs r + step)
      exists exit last,
        RunsTo (appended buffer options inst) state exit last ∧
          (last.regs r = target ↔ Attains inst.width target)) ∧
    (forall source zeroCarry, inst.body = .single .push source ->
      inst.extension =
        some { repetition := .times 1, zeroCarry := zeroCarry } ->
      (forall step, source ≠ .autoIncrement .sp step) ->
      let value := inst.operandValue (started zeroCarry state) source
      let target := pushedTo .address inst.width state
      exists last,
        RunsTo (appended buffer options inst) state .fallThrough last ∧
          last.memory = (state.store inst.width (last.regs .sp) value).memory ∧
          (last.regs .sp = target ↔ Attains inst.width target)) := by
  constructor
  · intro r step hsource hdestination hpc hdadd hpush
    rcases exists_movesOn options buffer hdecoded hsource hdadd hpush hdestination state
      with ⟨exit, last, hrun, hmoved, _⟩
    rcases hdecoded.advances (mem_operands_of_source? hsource) with ⟨hbody, rfl, _⟩
    have hstays : ¬ inst.LeavesByResult := fun hleaves =>
      hpc (destination?_of_leavesByResult hbody hleaves)
    have hplace := hmoved hstays
    unfold MovedOn at hplace
    refine ⟨exit, last, hrun, ?_⟩
    rw [hplace, stepWidth_autoIncrementStep]
    exact ofInt_pointerWidth_eq_iff inst.width ((state.regs r + _ : Nat) : Int)
  · intro source zeroCarry hbody hextension hsource
    rcases exists_pushed hbody options buffer hextension hsource state with
      ⟨last, hrun, hmemory, hmoved⟩
    refine ⟨last, hrun, hmemory, ?_⟩
    rw [hmoved]
    exact ofInt_pointerWidth_eq_iff inst.width _

/-- Reads a word through a register that moves on, behind a prefix word. -/
def moveExtended : Instruction where
  address := 0x4400
  width := .word
  extension := some .once
  body := .double .mov (.autoIncrement .r5 2) (.register .r6)
  length := 4

/-- Pushes a word, behind a prefix word. -/
def pushExtended : Instruction :=
  { moveExtended with body := .single .push (.register .r5) }

def allRegisters (value : Nat) : State :=
  ⟨fun _ => value, fun _ => false, fun _ => 0, fun _ => 0⟩

theorem extended_pointer_iff_below :
    (exists exit last,
      RunsTo (appended (.empty 0x4400) .standard moveExtended) (allRegisters 0x8000)
          exit last ∧
        last.regs .r5 = 0x8002) ∧
    (exists last,
      RunsTo (appended (.empty 0x4400) .standard pushExtended) (allRegisters 0x8000)
          .fallThrough last ∧
        last.regs .sp = 0x7ffe ∧
        last.memory = ((allRegisters 0x8000).store .word 0x7ffe 0x8000).memory) := by
  constructor
  · rcases (@extended_pointer_iff .standard (.empty 0x4400) moveExtended
        ⟨.msp430x, [0x40, 0x18, 0x36, 0x45], 0x4400, rfl⟩ (allRegisters 0x8000)).1
        .r5 2 rfl nofun nofun nofun nofun with ⟨exit, last, hrun, hmoved⟩
    exact ⟨exit, last, hrun, hmoved.mpr (.inr (by decide))⟩
  · rcases (@extended_pointer_iff .standard (.empty 0x4400) pushExtended
        ⟨.msp430x, [0x40, 0x18, 0x05, 0x12], 0x4400, rfl⟩ (allRegisters 0x8000)).2
        (.register .r5) false rfl rfl nofun with ⟨last, hrun, hmemory, hmoved⟩
    have hsp : last.regs .sp = 0x7ffe := hmoved.mpr (.inr (by decide))
    rw [hsp] at hmemory
    exact ⟨last, hrun, hsp, hmemory⟩

/-- A pointer to words loses the bits above a word. -/
theorem extended_pointer_lost :
    decode .msp430x [0x40, 0x18, 0x36, 0x45] 0x4400 = .ok moveExtended ∧
      exists state exit last,
        (forall r, state.regs r < Width.address.modulus) ∧
          RunsTo (appended (.empty 0x4400) .standard moveExtended) state exit last ∧
          last.regs .r5 ≠ Width.address.truncate (state.regs .r5 + 2) := by
  refine ⟨rfl, allRegisters 0x10000, _, _, fun _ => show 0x10000 < 0x100000 by decide,
    .next rfl (.next rfl (.done _)), ?_⟩
  decide

end Lift
end MSP430
