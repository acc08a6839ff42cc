import MSP430.Proofs.Decode.PrefixCode
import MSP430.Proofs.IL.Memory
import MSP430.Proofs.Lift.Pointer
import MSP430.Proofs.Lift.Sequence

/-!
# Ranges of registers that are pushed

Pushing a range stores its registers one below the other, the highest first, and so do
single pushes of these registers in the same order.  They differ in when and how a
register is read.  A single push keeps its operand before the stack pointer moves and
puts the live flags into the status register.  A range is read register by register,
each after the stack pointer has moved for it, and as the registers are.  Of the
registers that are more than storage this is seen in the stack pointer, which can only
be the last of a range, and in the status register.
-/

namespace MSP430

open IL (Expr RunsTo State outcome)
open IL.Emit (Reaches)

namespace Lift

/-!
# Values in a row
-/

/-- The state after registers have been pushed in a row, each with the value it has
when its turn comes. -/
def pushedAll (value : Register -> State -> Nat) : List Register -> State -> State
  | [], state => state
  | r :: rest, state => pushedAll value rest (pushed .word (value r state) state)

/-- What a single push stores for a register. -/
def seenValue (places : Register -> UInt64) (r : Register) (state : State) : Nat :=
  (Operand.register r).valueIn (places r) .word .word state

/-- What a range stores for a register: what it holds once the stack pointer has
moved. -/
def heldValue (r : Register) (state : State) : Nat :=
  (Expr.reg .word r).eval (lowered .word state)

section

variable (value : Register -> State -> Nat)

theorem pushedAll_append (first second : List Register) (state : State) :
    pushedAll value (first ++ second) state =
      pushedAll value second (pushedAll value first state) := by
  induction first generalizing state with
  | nil => rfl
  | cons r rest ih => exact ih _

/-- Where the values go does not depend on what they are. -/
theorem pushedAll_regs (other : Register -> State -> Nat) (registers : List Register)
    {first second : State} (h : first.regs = second.regs) :
    (pushedAll value registers first).regs =
      (pushedAll other registers second).regs := by
  induction registers generalizing first second with
  | nil => exact h
  | cons r rest ih =>
      apply ih
      simp only [pushed, State.store, State.setReg, pushedTo, h]

theorem pushedAll_flags (registers : List Register) (state : State) :
    (pushedAll value registers state).flags = state.flags := by
  induction registers generalizing state with
  | nil => rfl
  | cons r rest ih => exact ih _

theorem pushedAll_regs_of_ne (registers : List Register) (state : State) {r : Register}
    (hr : r ≠ .sp) : (pushedAll value registers state).regs r = state.regs r := by
  induction registers generalizing state with
  | nil => rfl
  | cons other rest ih =>
      apply (ih _).trans
      simp [pushed, State.store, State.setReg, hr]

variable {value}

theorem pushedAll_congr {other : Register -> State -> Nat} {registers : List Register}
    (h : forall r, r ∈ registers -> forall state, value r state = other r state)
    (state : State) :
    pushedAll value registers state = pushedAll other registers state := by
  induction registers generalizing state with
  | nil => rfl
  | cons r rest ih =>
      have hrest := ih fun r hmem => h r (List.mem_cons_of_mem _ hmem)
      rw [pushedAll, pushedAll, hrest, h r List.mem_cons_self state]

theorem pushed_sameVisible (width : Width) (number : Nat) {first second : State}
    (h : first.SameVisible second) :
    (pushed width number first).SameVisible (pushed width number second) where
  regs := by simp only [pushed, State.store, State.setReg, pushedTo, h.regs]
  flags := h.flags
  memory := by simp only [pushed, State.store, State.setReg, pushedTo, h.regs, h.memory]

theorem pushedAll_sameVisible
    (h : forall r {first second : State}, first.SameVisible second ->
      value r first = value r second)
    (registers : List Register) {first second : State}
    (hstate : first.SameVisible second) :
    (pushedAll value registers first).SameVisible
      (pushedAll value registers second) := by
  induction registers generalizing first second with
  | nil => exact hstate
  | cons r rest ih =>
      rw [pushedAll, pushedAll, h r hstate]
      exact ih (pushed_sameVisible .word _ hstate)

end

/-- The value that was pushed last lies at the stack pointer. -/
theorem load_pushed {number : Nat} (h : number < Width.word.modulus) (state : State) :
    (pushed .word number state).load .word ((pushed .word number state).regs .sp) =
      number := by
  rw [pushed_sp]
  exact (State.load_store_self _ _ _ _).trans (Width.truncate_of_lt h)

theorem eq_of_pushed_sameVisible {first second : Nat} {state other : State}
    (h : (pushed .word first state).SameVisible (pushed .word second other))
    (hfirst : first < Width.word.modulus) (hsecond : second < Width.word.modulus) :
    first = second := by
  have hload := load_pushed hfirst state
  unfold State.load at hload
  rw [h.regs, h.memory] at hload
  exact hload.symm.trans (load_pushed hsecond other)

/-!
# Registers in a range
-/

theorem registerRange_succ (count : Nat) (highest : Register) :
    registerRange (count + 1) highest =
      registerRange count highest ++ [.ofField (highest.id - count)] := by
  unfold registerRange
  rw [List.range_succ, List.map_append]
  rfl

/-- Below a register that is not the last of its range there is another one. -/
theorem below_mem {count : Nat} {highest r : Register}
    (h : r ∈ registerRange count highest) :
    .ofField (r.id - 1) ∈ registerRange (count + 1) highest := by
  rcases List.mem_map.mp h with ⟨below, hbelow, rfl⟩
  have hlt := List.mem_range.mp hbelow
  have hid := highest.id_lt
  refine List.mem_map.mpr ⟨below + 1, List.mem_range.mpr (by omega), ?_⟩
  have hbelow' : (highest.id - below) % 16 - 1 = highest.id - (below + 1) := by omega
  rw [Register.id_ofField, hbelow']

/-- A register stands last in a range that does not hold the one below it. -/
theorem eq_last_of_mem {count : Nat} {highest r : Register}
    (h : r ∈ registerRange (count + 1) highest)
    (hbelow : .ofField (r.id - 1) ∉ registerRange (count + 1) highest) :
    r = .ofField (highest.id - count) := by
  rw [registerRange_succ] at h
  rcases List.mem_append.mp h with h | h
  · exact absurd (below_mem h) hbelow
  · exact List.mem_singleton.mp h

/-- The registers that are nothing but storage. -/
theorem four_le_id {registers : List Register} {r : Register} (h : r ∈ registers)
    (hpc : .pc ∉ registers) (hsp : .sp ∉ registers) (hcg : .cg ∉ registers)
    (hsr : r ≠ .sr) : 4 ≤ r.id := by
  cases r with
  | pc => exact absurd h hpc
  | sp => exact absurd h hsp
  | sr => exact absurd rfl hsr
  | cg => exact absurd h hcg
  | _ => decide

section

variable (places : Register -> UInt64)

theorem seenValue_lt (r : Register) (state : State) :
    seenValue places r state < Width.word.modulus :=
  Operand.valueIn_lt _ _ _ _ _

theorem heldValue_lt (r : Register) (state : State) :
    heldValue r state < Width.word.modulus :=
  Width.word.truncate_lt _

/-- Registers that are nothing but storage are pushed alike. -/
theorem seenValue_eq_heldValue {r : Register} (hr : 4 ≤ r.id) (state : State) :
    seenValue places r state = heldValue r state := by
  cases r with
  | pc | sp | sr | cg => exact absurd hr (by decide)
  | _ => rfl

theorem seenValue_sp_ne {first second : State} (h : first.regs .sp = second.regs .sp) :
    seenValue places .sp first ≠ heldValue .sp second := by
  show Width.word.truncate (first.regs .sp) ≠
    Width.word.truncate (Width.word.ofInt (second.regs .sp - (2 : Nat)))
  simp only [Width.truncate, Width.ofInt, Width.modulus, h]
  omega

/-- What a range and a single push store for the status register, once other registers
have been pushed. -/
theorem statusValues (registers : List Register) (state : State) :
    let after := pushedAll heldValue registers state
    seenValue places .sr after = Width.word.truncate state.status ∧
      heldValue .sr after = Width.word.truncate (state.regs .sr) := by
  have hregs := pushedAll_regs_of_ne heldValue registers state
    (nofun : Register.sr ≠ .sp)
  constructor
  · show Width.word.truncate (State.status _) = _
    unfold State.status
    rw [hregs, pushedAll_flags]
  · exact congrArg Width.word.truncate hregs

section

variable {count : Nat} {highest : Register} (state : State)

/-- The stack pointer comes last, and the range stores its new value. -/
theorem not_sameVisible_of_stackPointer
    (hpc : .pc ∉ registerRange (count + 1) highest)
    (hsp : .sp ∈ registerRange (count + 1) highest) :
    let range := registerRange (count + 1) highest
    ¬ (pushedAll (seenValue places) range state).SameVisible
      (pushedAll heldValue range state) := by
  dsimp only
  rw [registerRange_succ, pushedAll_append, pushedAll_append,
    ← eq_last_of_mem hsp hpc]
  intro hsame
  have hvalue := eq_of_pushed_sameVisible hsame (seenValue_lt places _ _)
    (heldValue_lt _ _)
  have hregs := pushedAll_regs (seenValue places) heldValue
    (registerRange count highest) (rfl : state.regs = state.regs)
  exact seenValue_sp_ne places (congrFun hregs .sp) hvalue

/-- All registers before the last are mere storage. -/
theorem pushedAll_eq_before
    (hpc : .pc ∉ registerRange (count + 1) highest)
    (hsp : .sp ∉ registerRange (count + 1) highest)
    (hcg : .cg ∉ registerRange (count + 1) highest) :
    pushedAll (seenValue places) (registerRange count highest) state =
      pushedAll heldValue (registerRange count highest) state := by
  apply pushedAll_congr
  intro r hr
  have hr' : r ∈ registerRange (count + 1) highest := by
    rw [registerRange_succ]
    exact List.mem_append_left _ hr
  apply seenValue_eq_heldValue places
  apply four_le_id hr' hpc hsp hcg
  rintro rfl
  exact hsp (below_mem hr)

end

/-- The states that single pushes and a range lead to look the same just if the range
does not hold the stack pointer, nor the status register with flag bits that are not
those of the flags. -/
theorem pushedAll_sameVisible_iff {count : Nat} {highest : Register}
    (hpc : .pc ∉ registerRange count highest)
    (hcg : .cg ∉ registerRange count highest) (state : State) :
    (pushedAll (seenValue places) (registerRange count highest) state).SameVisible
        (pushedAll heldValue (registerRange count highest) state) ↔
      .sp ∉ registerRange count highest ∧
        (.sr ∈ registerRange count highest ->
          Width.word.truncate state.status =
            Width.word.truncate (state.regs .sr)) := by
  cases count with
  | zero => exact ⟨fun _ => ⟨nofun, nofun⟩, fun _ => .refl state⟩
  | succ count =>
      by_cases hsp : .sp ∈ registerRange (count + 1) highest
      · have hdiffer := not_sameVisible_of_stackPointer places state hpc hsp
        exact ⟨fun hsame => absurd hsame hdiffer, fun hgood => absurd hsp hgood.1⟩
      · have hpushed : forall value : Register -> State -> Nat,
            pushedAll value (registerRange (count + 1) highest) state =
              let before := pushedAll value (registerRange count highest) state
              pushed .word (value (.ofField (highest.id - count)) before) before := by
          intro value
          rw [registerRange_succ, pushedAll_append]
          rfl
        rw [hpushed, hpushed, pushedAll_eq_before places state hpc hsp hcg]
        dsimp only
        by_cases hsr : .sr ∈ registerRange (count + 1) highest
        · rcases statusValues places (registerRange count highest) state with
            ⟨hseen, hheld⟩
          rw [← eq_last_of_mem hsr hsp, hseen, hheld]
          constructor
          · intro hsame
            have hvalue := eq_of_pushed_sameVisible hsame (Width.word.truncate_lt _)
              (Width.word.truncate_lt _)
            exact ⟨hsp, fun _ => hvalue⟩
          · intro hgood
            rw [hgood.2 hsr]
            exact .refl _
        · have hmem : .ofField (highest.id - count) ∈
              registerRange (count + 1) highest := by
            rw [registerRange_succ]
            exact List.mem_append_right _ (List.mem_singleton.mpr rfl)
          have hordinary := four_le_id hmem hpc hsp hcg fun h => hsr (h ▸ hmem)
          rw [seenValue_eq_heldValue places hordinary]
          exact ⟨fun _ => ⟨hsp, fun h => absurd h hsr⟩, fun _ => .refl _⟩

end

/-!
# The code
-/

/-- Pushes a register in one word. -/
def pushRegister (address : UInt64) (r : Register) : Instruction where
  address := address
  width := .word
  extension := none
  body := .single .push (.register r)
  length := 2

/-- The bytes of a single push; the constant generator stands for a constant there. -/
theorem decode_pushRegister (address : UInt64) {r : Register} (hr : r ≠ .cg) :
    decode .msp430x [UInt8.ofNat r.id, 0x12] address =
      .ok (pushRegister address r) := by
  let target : OperandField := { mode := .register, register := r, width := .word }
  have hdemand : demand .msp430x [UInt8.ofNat r.id, 0x12] = 2 := by
    cases r <;> rfl
  have hsettled : Encoding.settled? .msp430x [UInt8.ofNat r.id, 0x12] =
      some { width := .word, body := .single .push (.field target) } := by
    cases r <;> rfl
  rw [decode_of_demand_le (Nat.le_of_eq hdemand), verdict, hsettled]
  cases r with
  | cg => exact absurd rfl hr
  | _ => rfl

theorem Context.outcome_pushRange (context : Context)
    (hspace : context.addressWidth ≠ .byte) (hwidth : context.width = .word)
    (count : Nat) (highest : Register) (state : State) :
    outcome (context.pushRange count highest) state =
      (.fallThrough, pushedAll heldValue (registerRange count highest) state) := by
  unfold pushRange
  rw [hwidth]
  generalize registerRange count highest = registers
  induction registers generalizing state with
  | nil => rfl
  | cons r rest ih =>
      rw [List.flatMap_cons, IL.outcome_append, context.outcome_push hspace .word rfl]
      exact ih _

section

variable (options : Options) {inst : Instruction} {count : Nat} {highest : Register}

/-- The code for a range of registers is that of its body. -/
theorem runsTo_multiple (buffer : IL.Buffer) (hextension : inst.extension = none)
    {opcode : MultipleOpcode} (hbody : inst.body = .multiple opcode count highest)
    {state last : State}
    (h : ((Context.of options buffer.known inst).body
      (.multiple opcode count highest)).Reaches { temp := 0, label := 0 } state last) :
    RunsTo (appended buffer options inst) state .fallThrough last := by
  have hjump : forall condition offset, inst.body ≠ .jump condition offset := by
    rw [hbody]
    exact nofun
  apply runsTo_of_reaches options buffer (.inl hextension) hjump
  rw [Context.run_multiple _ hbody]
  exact h

theorem runsTo_pushm (buffer : IL.Buffer) (hextension : inst.extension = none)
    (hbody : inst.body = .multiple .pushm count highest) (hwidth : inst.width = .word)
    (state : State) :
    RunsTo (appended buffer options inst) state .fallThrough
      (pushedAll heldValue (registerRange count highest) state) := by
  apply runsTo_multiple options buffer hextension hbody
  apply Reaches.ops
  exact Context.outcome_pushRange _ (Context.addressWidthOf_ne_byte inst) hwidth _ _ _

theorem exists_runsTo_pushRegister (places : Register -> UInt64) (r : Register)
    (state : State) :
    exists last,
      RunsTo (code options (pushRegister (places r) r)) state .fallThrough last ∧
        last.SameVisible (pushed .word (seenValue places r state) state) := by
  rcases (Context.of options [] (pushRegister (places r) r)).exists_reaches_pushOperand
      nofun (.register r) { temp := 0, label := 0 } state with
    ⟨kept, hsame, hreaches⟩
  rw [← @Context.run_push (pushRegister (places r) r) _ rfl] at hreaches
  have hjump : forall condition offset,
      (pushRegister (places r) r).body ≠ .jump condition offset :=
    fun _ _ => nofun
  have hrun := runsTo_of_reaches options (.empty (places r)) (.inl rfl) hjump hreaches
  exact ⟨_, hrun, pushed_sameVisible .word _ hsame⟩

/-- Single pushes run one after the other and leave what they push below the stack
pointer. -/
theorem exists_runsEach_pushes (places : Register -> UInt64)
    (registers : List Register) (state : State) :
    exists last,
      RunsEach options (registers.map fun r => pushRegister (places r) r) state
          .fallThrough last ∧
        last.SameVisible (pushedAll (seenValue places) registers state) := by
  induction registers generalizing state with
  | nil => exact ⟨state, .done state, .refl state⟩
  | cons r rest ih =>
      rcases exists_runsTo_pushRegister options places r state with
        ⟨middle, hrun, hmiddle⟩
      rcases ih middle with ⟨last, hruns, hlast⟩
      refine ⟨last, .next (.refl state) hrun hruns, hlast.trans ?_⟩
      apply pushedAll_sameVisible _ rest hmiddle
      intro r first second hsame
      exact valueIn_congr hsame _ _ _ _

/-- Pushing a range of words runs to its end, and so do single pushes of its registers,
the highest first, each decoded from its one word.  Without the program counter and the
constant generator in the range, both end with the same registers, flags and memory
exactly if the range does not hold the stack pointer, nor the status register with flag
bits that are not those of the flags. -/
theorem pushm_iterates_push_iff (buffer : IL.Buffer) (hdecoded : inst.Decoded)
    (hbody : inst.body = .multiple .pushm count highest) (hwidth : inst.width = .word)
    (hpc : .pc ∉ registerRange count highest)
    (hcg : .cg ∉ registerRange count highest) (places : Register -> UInt64)
    (state : State) :
    let range := registerRange count highest
    let pushes := range.map fun r => pushRegister (places r) r
    (forall r, r ∈ range ->
      decode .msp430x [UInt8.ofNat r.id, 0x12] (places r) =
        .ok (pushRegister (places r) r)) ∧
    exists last,
      RunsTo (appended buffer options inst) state .fallThrough last ∧
        (exists other, RunsEach options pushes state .fallThrough other) ∧
        forall exit other, RunsEach options pushes state exit other ->
          exit = .fallThrough ∧
            (other.SameVisible last ↔
              .sp ∉ range ∧
                (.sr ∈ range ->
                  Width.word.truncate state.status =
                    Width.word.truncate (state.regs .sr))) := by
  dsimp only
  have hfits := hdecoded.widthFits
  rw [hbody] at hfits
  have hrun := runsTo_pushm options buffer hfits hbody hwidth state
  rcases exists_runsEach_pushes options places (registerRange count highest) state with
    ⟨reached, hreached, hsame⟩
  have hstraight : forall inst,
      inst ∈ ((registerRange count highest).map fun r => pushRegister (places r) r) ->
        RepeatsStraight inst := by
    intro inst hmem
    rcases List.mem_map.mp hmem with ⟨r, _, rfl⟩
    exact nofun
  refine ⟨?_, _, hrun, ⟨reached, hreached⟩, ?_⟩
  · intro r hr
    apply decode_pushRegister
    rintro rfl
    exact hcg hr
  · intro exit other hother
    have hagree := hother.agree hstraight (.refl state)
    have hagree' := hreached.agree hstraight (.refl state)
    have hseen := hagree.state.toSameVisible.trans
      (hagree'.state.toSameVisible.symm.trans hsame)
    refine ⟨hagree.exit.trans hagree'.exit.symm, ?_⟩
    rw [← pushedAll_sameVisible_iff places hpc hcg state]
    exact ⟨fun h => hseen.symm.trans h, fun h => hseen.trans h⟩

end

/-- Pushes two ordinary registers. -/
def pushOrdinaryRange : Instruction :=
  { pushRegister 0x4400 .r5 with body := .multiple .pushm 2 .r5 }

theorem pushm_iterates_push_iff_ordinary :
    exists last other,
      RunsTo (appended (.empty 0x4400) .standard pushOrdinaryRange)
          (allRegisters 0x8000) .fallThrough last ∧
        RunsEach .standard [pushRegister 0x4400 .r5, pushRegister 0x4402 .r4]
          (allRegisters 0x8000) .fallThrough other ∧
        other.SameVisible last := by
  have hdecoded : pushOrdinaryRange.Decoded :=
    ⟨.msp430x, [0x15, 0x15], 0x4400, rfl⟩
  let places (r : Register) : UInt64 := if r = .r5 then 0x4400 else 0x4402
  rcases (pushm_iterates_push_iff .standard (.empty 0x4400) hdecoded rfl rfl (by decide)
      (by decide) places (allRegisters 0x8000)).2 with
    ⟨last, hrun, ⟨other, hother⟩, hsame⟩
  exact ⟨last, other, hrun, hother,
    (hsame _ other hother).2.mpr ⟨by decide, fun h => absurd h (by decide)⟩⟩

/-- Pushes the stack pointer as a range of one. -/
def pushStackRange : Instruction :=
  { pushRegister 0x4400 .sp with body := .multiple .pushm 1 .sp }

/-- A range stores the stack pointer as it is once it has moved. -/
theorem pushm_stores_moved_pointer :
    decode .msp430x [0x01, 0x15] 0x4400 = .ok pushStackRange ∧
      decode .msp430x [0x01, 0x12] 0x4400 = .ok (pushRegister 0x4400 .sp) ∧
      exists state last other,
        (forall r, state.regs r < Width.word.modulus) ∧
          RunsTo (appended (.empty 0x4400) .standard pushStackRange) state
            .fallThrough last ∧
          RunsEach .standard [pushRegister 0x4400 .sp] state .fallThrough other ∧
          ¬ other.SameVisible last := by
  refine ⟨rfl, rfl, allRegisters 0x8000, _, _, fun _ => show 0x8000 < 0x10000 by decide,
    .next rfl (.next rfl (.done _)),
    .next (.refl _) (.next rfl (.next rfl (.next rfl (.done _)))) (.done _), ?_⟩
  intro hsame
  have hbyte := congrFun hsame.memory 0x7ffe
  exact absurd hbyte (by decide)

end Lift
end MSP430
