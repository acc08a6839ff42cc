import MSP430.Proofs.Decode.Range
import MSP430.Proofs.Lift.Coherence
import MSP430.Proofs.Lift.PushRange

/-!
# Ranges of registers that are restored

A range of registers is pushed from the highest register on and popped from the lowest
on, so that each register finds its own slot of the stack again.  The slots lie in a
row below the stack pointer, and wrap around with it.  What is carried through a push is
how far the stack pointer has moved and what the slots above it hold; a pop goes
back over the same slots.
-/

namespace MSP430

open IL (RunsTo State outcome)
open IL.Emit (Reaches)

namespace Lift

/-!
# Slots of the stack
-/

/-- Where the value lies that is the given number of values below the stack pointer. -/
def stackSlot (width : Width) (state : State) (depth : Nat) : Nat :=
  width.ofInt (state.regs .sp - (depth * stackStep width : Nat))

/-- The bytes of the first slots below the stack pointer. -/
def InSlots (width : Width) (state : State) (count address : Nat) : Prop :=
  exists below, below < count ∧
    stackSlot width state (below + 1) ≤ address ∧
    address < stackSlot width state (below + 1) + stackStep width

section

variable {width : Width} (hwidth : width ≠ .byte)

include hwidth

theorem bytes_eq_stackStep : State.bytes width = stackStep width := by
  cases width <;> first | rfl | exact absurd rfl hwidth

theorem pointerWidth_eq : pointerWidth width = width := by
  cases width <;> first | rfl | exact absurd rfl hwidth

/-- A slot begins where the one below it ends. -/
theorem stackSlot_contiguous (state : State) (depth : Nat) :
    width.truncate (stackSlot width state (depth + 1) + stackStep width) =
      stackSlot width state depth := by
  cases width with
  | byte => exact absurd rfl hwidth
  | word | address =>
      simp only [stackSlot, Width.truncate, Width.ofInt, Width.modulus, stackStep]
      omega

/-- A stack pointer at a slot is moved to the next one by a push. -/
theorem ofInt_sub_stackStep {state : State} {depth pointer : Nat}
    (h : width.truncate pointer = stackSlot width state depth) :
    width.ofInt (pointer - stackStep width) = stackSlot width state (depth + 1) := by
  cases width with
  | byte => exact absurd rfl hwidth
  | word | address =>
      simp only [stackSlot, Width.truncate, Width.ofInt, Width.modulus, stackStep] at h ⊢
      omega

/-- There is room for many slots before they meet again. -/
theorem stackSlot_apart (state : State) {upper lower : Nat} (h : upper < lower)
    (hcount : lower ≤ upper + 16) :
    stackSlot width state lower + stackStep width ≤ stackSlot width state upper ∨
      stackSlot width state upper + stackStep width ≤ stackSlot width state lower := by
  cases width with
  | byte => exact absurd rfl hwidth
  | word | address =>
      simp only [stackSlot, Width.ofInt, Width.modulus, stackStep]
      omega

end

theorem ofField_ne_sp {field : Nat} (h : 4 ≤ field % 16) :
    Register.ofField field ≠ .sp := by
  intro heq
  rw [← Register.id_ofField, heq] at h
  exact absurd h (by decide)

/-!
# Pushing
-/

/-- What pushing the registers of a range leaves: the stack pointer has moved by as many
slots, these hold the registers, the highest first, and all else is as it was. -/
structure RangePushed (width : Width) (count : Nat) (highest : Register)
    (state saved : State) : Prop where
  regs : forall r, r ≠ .sp -> saved.regs r = state.regs r
  flags : saved.flags = state.flags
  pointer : width.truncate (saved.regs .sp) = stackSlot width state count
  fits : 1 ≤ count -> saved.regs .sp < width.modulus
  slots : forall below, below < count ->
    saved.load width (stackSlot width state (below + 1)) =
      width.truncate (state.regs (.ofField (highest.id - below)))
  others : forall address, ¬ InSlots width state count address ->
    saved.memory address = state.memory address

namespace RangePushed

variable {width : Width} {count : Nat} {highest : Register} {state saved : State}

theorem none (width : Width) (highest : Register) (state : State) :
    RangePushed width 0 highest state state where
  regs := fun _ _ => rfl
  flags := rfl
  pointer := by
    unfold stackSlot
    rw [Nat.zero_mul, Int.natCast_zero, Int.sub_zero, Width.ofInt_natCast]
  fits := nofun
  slots := nofun
  others := fun _ _ => rfl

/-- One more register is pushed. -/
theorem push (h : RangePushed width count highest state saved) (hwidth : width ≠ .byte)
    (hcount : count < 16) (hsp : Register.ofField (highest.id - count) ≠ .sp) :
    let r := Register.ofField (highest.id - count)
    RangePushed width (count + 1) highest state
      (pushed width (width.truncate (saved.regs r)) saved) := by
  intro r
  have htop : pushedTo (pointerWidth width) width saved =
      stackSlot width state (count + 1) := by
    rw [pointerWidth_eq hwidth]
    exact ofInt_sub_stackStep hwidth h.pointer
  have hbytes := bytes_eq_stackStep hwidth
  constructor
  case regs =>
    intro other hother
    exact (if_neg hother).trans (h.regs other hother)
  case flags => exact h.flags
  case pointer =>
    rw [pushed_sp, htop]
    exact Width.truncate_of_lt (width.ofInt_lt _)
  case fits =>
    intro _
    rw [pushed_sp, htop]
    exact width.ofInt_lt _
  case slots =>
    intro below hbelow
    by_cases hlast : below = count
    · subst hlast
      rw [← htop, ← h.regs _ hsp]
      exact (State.load_store_self _ _ _ _).trans (width.truncate_truncate _)
    · -- The slots above lie apart from the new one.
      have hold : below < count := by omega
      rw [← h.slots below hold]
      apply State.load_store_of_apart
      rw [htop, hbytes]
      exact (stackSlot_apart hwidth state (Nat.succ_lt_succ hold) (by omega)).symm
  case others =>
    intro address haddress
    have hnew : ¬ (stackSlot width state (count + 1) ≤ address ∧
        address < stackSlot width state (count + 1) + stackStep width) := fun hin =>
      haddress ⟨count, Nat.lt_succ_self _, hin⟩
    have hkept : ¬ InSlots width state count address := by
      rintro ⟨below, hbelow, hin⟩
      exact haddress ⟨below, Nat.lt_succ_of_lt hbelow, hin⟩
    rw [← h.others address hkept]
    apply State.store_memory_of_apart
    rw [htop, hbytes]
    omega

end RangePushed

namespace Context

variable (context : Context) (hspace : context.addressWidth ≠ .byte)
  (hwidth : context.width ≠ .byte) {highest : Register}

theorem pushRange_succ (count : Nat) (highest : Register) :
    context.pushRange (count + 1) highest =
      context.pushRange count highest ++
        context.push context.width
          (.reg context.width (.ofField (highest.id - count))) := by
  unfold pushRange
  rw [registerRange_succ, List.flatMap_append]
  exact congrArg _ (List.append_nil _)

include hspace hwidth

theorem exists_pushedRange (state : State) {count : Nat}
    (hrange : count + 4 ≤ highest.id + 1) :
    exists saved,
      outcome (context.pushRange count highest) state = (.fallThrough, saved) ∧
        RangePushed context.width count highest state saved := by
  induction count with
  | zero => exact ⟨state, rfl, .none _ _ _⟩
  | succ count ih =>
      rcases ih (by omega) with ⟨saved, houtcome, hsaved⟩
      have hid := highest.id_lt
      have hsp := ofField_ne_sp (show 4 ≤ (highest.id - count) % 16 by omega)
      refine ⟨_, ?_, hsaved.push hwidth (by omega) hsp⟩
      rw [context.pushRange_succ, IL.outcome_append, houtcome,
        IL.Outcome.fallThrough_andThen]
      apply context.outcome_push hspace
      exact congrArg context.width.truncate (if_neg hsp)

end Context

/-!
# Popping
-/

/-- The state after the value at the stack pointer has been popped into a register. -/
def poppedInto (width : Width) (r : Register) (state : State) : State :=
  (state.setReg r (state.load width (state.regs .sp))).setReg .sp
    ((pointerWidth width).truncate (state.regs .sp + stackStep width))

section

variable (width : Width) {r : Register} (state : State)

theorem poppedInto_sp : (poppedInto width r state).regs .sp =
    (pointerWidth width).truncate (state.regs .sp + stackStep width) := by
  simp [poppedInto, State.setReg]

theorem poppedInto_self (hr : r ≠ .sp) :
    (poppedInto width r state).regs r = state.load width (state.regs .sp) := by
  simp [poppedInto, State.setReg, hr]

theorem poppedInto_of_ne {other : Register} (hsp : other ≠ .sp) (hr : other ≠ r) :
    (poppedInto width r state).regs other = state.regs other := by
  simp [poppedInto, State.setReg, hsp, hr]

end

/-- What popping a range leaves: the registers hold the given values, the highest the
first of them, and all others but the stack pointer are as they were. -/
structure RangePopped (count : Nat) (highest : Register) (value : Nat -> Nat)
    (middle last : State) : Prop where
  range : forall below, below < count ->
    last.regs (.ofField (highest.id - below)) = value below
  regs : forall r, r ≠ .sp -> r ∉ registerRange count highest ->
    last.regs r = middle.regs r
  flags : last.flags = middle.flags
  memory : last.memory = middle.memory

/-- No register of a range comes again below it. -/
theorem ofField_not_mem_registerRange {count : Nat} {highest : Register}
    (h : count ≤ highest.id) :
    .ofField (highest.id - count) ∉ registerRange count highest := by
  intro hmem
  rcases List.mem_map.mp hmem with ⟨below, hbelow, heq⟩
  have hlt := List.mem_range.mp hbelow
  have hid := highest.id_lt
  have hids := congrArg Register.id heq
  rw [Register.id_ofField, Register.id_ofField] at hids
  omega

namespace Context

variable (context : Context) (hspace : context.addressWidth ≠ .byte)

theorem popRange_succ (count : Nat) (highest : Register) :
    context.popRange (count + 1) highest =
      context.popInto (.ofField (highest.id - count)) ++
        context.popRange count highest := by
  unfold popRange
  rw [registerRange_succ, List.reverse_append]
  rfl

include hspace

theorem outcome_popInto {r : Register} (hr : r ≠ .sp) {state : State}
    (hsp : state.regs .sp < (pointerWidth context.width).modulus) :
    outcome (context.popInto r) state =
      (.fallThrough, poppedInto context.width r state) := by
  have htop := context.eval_stackTop_of_lt hspace hsp
  have hadvance := outcome_postIncrement (.autoIncrement .sp (stackStep context.width))
  show outcome (.setReg context.width r
      (.load context.width (context.stackTop context.width)) ::
    postIncrement (.autoIncrement .sp (stackStep context.width))) state = _
  rw [IL.outcome_setReg, IL.Expr.eval, htop, hadvance]
  unfold State.load poppedInto
  rw [Width.truncate_truncate, Operand.advanced, stepWidth_stackStep]
  simp only [State.setReg, if_neg (Ne.symm hr)]
  rfl

/-- A pop that starts at the lowest slot fills the registers from the slots. -/
theorem exists_poppedRange (hwidth : context.width ≠ .byte) (state : State)
    {highest : Register} {value : Nat -> Nat} {count : Nat}
    (hrange : count + 4 ≤ highest.id + 1) {middle : State}
    (hsp : middle.regs .sp = stackSlot context.width state count)
    (hslots : forall below, below < count ->
      middle.load context.width (stackSlot context.width state (below + 1)) =
        value below) :
    exists last,
      outcome (context.popRange count highest) middle = (.fallThrough, last) ∧
        last.regs .sp = stackSlot context.width state 0 ∧
        RangePopped count highest value middle last := by
  induction count generalizing middle with
  | zero =>
      exact ⟨middle, rfl, hsp, nofun, fun _ _ _ => rfl, rfl, rfl⟩
  | succ count ih =>
      let r := Register.ofField (highest.id - count)
      have hid := highest.id_lt
      have hr : r ≠ .sp := ofField_ne_sp (show 4 ≤ (highest.id - count) % 16 by omega)
      have hfits : middle.regs .sp < (pointerWidth context.width).modulus := by
        rw [hsp, pointerWidth_eq hwidth]
        exact context.width.ofInt_lt _
      have hafter : (poppedInto context.width r middle).regs .sp =
          stackSlot context.width state count := by
        rw [poppedInto_sp, hsp, pointerWidth_eq hwidth]
        exact stackSlot_contiguous hwidth state count
      rcases ih (by omega) hafter (fun below hbelow =>
          hslots below (Nat.lt_succ_of_lt hbelow)) with
        ⟨last, houtcome, hpointer, hpopped⟩
      refine ⟨last, ?_, hpointer, ?_, ?_, hpopped.flags, hpopped.memory⟩
      · rw [context.popRange_succ, IL.outcome_append,
          context.outcome_popInto hspace hr hfits]
        exact houtcome
      · intro below hbelow
        by_cases hlast : below = count
        · -- The register that was popped first is in no lower slot.
          subst hlast
          have hkept := hpopped.regs r hr (ofField_not_mem_registerRange (by omega))
          rw [hkept, poppedInto_self _ _ hr, hsp]
          exact hslots below hbelow
        · exact hpopped.range below (by omega)
      · intro other hother hmem
        rw [registerRange_succ] at hmem
        have hne : other ≠ r := fun heq =>
          hmem (List.mem_append_right _ (List.mem_singleton.mpr heq))
        have hkept := hpopped.regs other hother fun h => hmem (List.mem_append_left _ h)
        exact hkept.trans (poppedInto_of_ne _ _ hother hne)

end Context

/-!
# The instructions
-/

section

variable (options : Options) (buffer : IL.Buffer) {inst : Instruction}
  (hdecoded : inst.Decoded) {count : Nat} {highest : Register}
  (hwidth : inst.width ≠ .byte) (hrange : count + 4 ≤ highest.id + 1)

include hdecoded hwidth hrange

theorem exists_runsTo_pushm (hbody : inst.body = .multiple .pushm count highest)
    (state : State) :
    exists saved,
      RunsTo (appended buffer options inst) state .fallThrough saved ∧
        RangePushed inst.width count highest state saved := by
  let context := Context.of options buffer.known inst
  have hextension := hdecoded.widthFits
  rw [hbody] at hextension
  rcases context.exists_pushedRange (Context.addressWidthOf_ne_byte inst) hwidth state
      hrange with ⟨saved, houtcome, hsaved⟩
  have hrun := runsTo_multiple options buffer hextension hbody (Reaches.ops houtcome)
  exact ⟨saved, hrun, hsaved⟩

theorem exists_runsTo_popm (hbody : inst.body = .multiple .popm count highest)
    (state : State) {value : Nat -> Nat} {middle : State}
    (hsp : middle.regs .sp = stackSlot inst.width state count)
    (hslots : forall below, below < count ->
      middle.load inst.width (stackSlot inst.width state (below + 1)) = value below) :
    exists last,
      RunsTo (appended buffer options inst) middle .fallThrough last ∧
        last.regs .sp = stackSlot inst.width state 0 ∧
        RangePopped count highest value middle last := by
  let context := Context.of options buffer.known inst
  have hextension := hdecoded.widthFits
  rw [hbody] at hextension
  rcases context.exists_poppedRange (Context.addressWidthOf_ne_byte inst) hwidth state
      hrange hsp hslots with ⟨last, houtcome, hlast⟩
  have hrun := runsTo_multiple options buffer hextension hbody (Reaches.ops houtcome)
  exact ⟨last, hrun, hlast⟩

end

/-- A range of ordinary registers can be pushed and popped again, in words and in
addresses.  The push fills as many slots below the stack pointer, with the highest
register in the highest slot, and changes no other byte.  The pop then restores the
registers, as far as the width goes, and the stack pointer, whatever has happened in
between to all that is not in the slots.  It changes no other register. -/
theorem popm_restores_pushm (options : Options) {width : Width} (hwidth : width ≠ .byte)
    {count : Nat} (hcount : 1 ≤ count) {highest : Register}
    (hrange : count + 4 ≤ highest.id + 1) :
    (forall opcode address, exists data inst,
      decode .msp430x data address = .ok inst ∧
        inst.body = .multiple opcode count highest ∧ inst.width = width) ∧
    forall (push pop : Instruction) (pushed popped : IL.Buffer),
      push.Decoded -> push.body = .multiple .pushm count highest ->
      push.width = width ->
      pop.Decoded -> pop.body = .multiple .popm count highest -> pop.width = width ->
      forall state, exists saved,
        RunsTo (appended pushed options push) state .fallThrough saved ∧
        saved.regs .sp = stackSlot width state count ∧
        (forall depth, stackSlot width state depth =
          width.truncate (stackSlot width state (depth + 1) + stackStep width)) ∧
        (forall below, below < count ->
          saved.load width (stackSlot width state (below + 1)) =
            width.truncate (state.regs (.ofField (highest.id - below)))) ∧
        (forall address, ¬ InSlots width state count address ->
          saved.memory address = state.memory address) ∧
        forall middle, middle.regs .sp = saved.regs .sp ->
          (forall address, InSlots width state count address ->
            middle.memory address = saved.memory address) ->
          exists last,
            RunsTo (appended popped options pop) middle .fallThrough last ∧
            (forall r, r ∈ registerRange count highest ->
              last.regs r = width.truncate (state.regs r)) ∧
            last.regs .sp = width.truncate (state.regs .sp) ∧
            forall r, r ≠ .sp -> r ∉ registerRange count highest ->
              last.regs r = middle.regs r := by
  refine ⟨?_, ?_⟩
  · intro opcode address
    exact ⟨_, _, decode_multiple opcode hwidth hcount (by omega) address, rfl, rfl⟩
  · rintro push pop pushBuffer popBuffer hpush hpushBody rfl hpop hpopBody hpopWidth
      state
    rcases exists_runsTo_pushm options pushBuffer hpush hwidth hrange hpushBody state with
      ⟨saved, hrun, hsaved⟩
    have hsp : saved.regs .sp = stackSlot push.width state count := by
      rw [← hsaved.pointer, Width.truncate_of_lt (hsaved.fits hcount)]
    refine ⟨saved, hrun, hsp, fun depth => (stackSlot_contiguous hwidth state depth).symm,
      hsaved.slots, hsaved.others, ?_⟩
    intro middle hmiddle hmemory
    have hslots : forall below, below < count ->
        middle.load push.width (stackSlot push.width state (below + 1)) =
          push.width.truncate (state.regs (.ofField (highest.id - below))) := by
      intro below hbelow
      rw [← hsaved.slots below hbelow]
      apply State.load_congr
      intro address hlow hhigh
      rw [bytes_eq_stackStep hwidth] at hhigh
      exact hmemory address ⟨below, hbelow, hlow, hhigh⟩
    rw [← hpopWidth] at hwidth hslots hsp
    rcases exists_runsTo_popm options popBuffer hpop hwidth hrange hpopBody state
        (hmiddle.trans hsp) hslots with ⟨last, hrun', hpointer, hpopped⟩
    refine ⟨last, hrun', ?_, ?_, hpopped.regs⟩
    · intro r hmem
      rcases List.mem_map.mp hmem with ⟨below, hbelow, rfl⟩
      rw [hpopped.range below (List.mem_range.mp hbelow), hpopWidth]
    · rw [hpointer, hpopWidth]
      exact (RangePushed.none push.width highest state).pointer.symm

/-- Pushes or pops two registers of twenty bits. -/
def addressPair (opcode : MultipleOpcode) : Instruction where
  address := 0x4400
  width := .address
  extension := none
  body := .multiple opcode 2 .r5
  length := 2

theorem popm_restores_pushm_addresses :
    exists saved last,
      RunsTo (appended (.empty 0x4400) .standard (addressPair .pushm))
          (allRegisters 0x12345) .fallThrough saved ∧
        RunsTo (appended (.empty 0x4402) .standard (addressPair .popm)) saved
          .fallThrough last ∧
        last.regs .r5 = 0x12345 ∧ last.regs .sp = 0x12345 := by
  have hpush : (addressPair .pushm).Decoded := ⟨.msp430x, [0x15, 0x14], 0x4400, rfl⟩
  have hpop : (addressPair .popm).Decoded := ⟨.msp430x, [0x14, 0x16], 0x4400, rfl⟩
  rcases (@popm_restores_pushm .standard .address nofun 2 (by decide) .r5 (by decide)).2
      (addressPair .pushm) (addressPair .popm) (.empty 0x4400) (.empty 0x4402)
      hpush rfl rfl hpop rfl rfl (allRegisters 0x12345) with
    ⟨saved, hrun, _, _, _, _, hrestored⟩
  rcases hrestored saved rfl fun _ _ => rfl with ⟨last, hrun', hrange, hsp, _⟩
  exact ⟨saved, last, hrun, hrun', hrange .r5 (by decide), hsp⟩

end Lift
end MSP430
