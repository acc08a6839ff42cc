import MSP430.Proofs.Decode.Operands
import MSP430.Proofs.Lift.Arithmetic

/-!
# Clearing and setting bits of the status register

Instructions that clear or set bits of the status register read it with the flags
in their bits, compute, and write it back.  Those that do so to one flag of a word
are known by names of their own, and only that flag is set.
-/

namespace MSP430

open IL (Emit Expr Op RunsTo State Supply outcome)
open IL.Emit (Reaches)

/-- What clearing or setting the bits of a mask makes of a value. -/
def DoubleOpcode.masked? (opcode : DoubleOpcode) (width : Width)
    (value mask : Nat) : Option Nat :=
  match opcode with
  | .bic => some (width.truncate (value &&& width.complement mask))
  | .bis => some (width.truncate (value ||| mask))
  | _ => none

/-- The flag that the name of the instruction says it sets or clears. -/
def Instruction.namedFlag? (inst : Instruction) : Option (Flag × Bool) :=
  inst.emulated?.bind Lift.flagShortcut?

namespace Lift

/-!
# Writing the status register
-/

/-- The state after a value has been written to the status register. -/
def withStatus (state : State) (value : Nat) : State :=
  { state.setReg .sr value with flags := fun flag => value.testBit flag.bit }

/-- The test of a flag's bit in the status register. -/
theorem holds_statusBit (state : State) (flag : Flag) :
    (Expr.compare .notEqual .word
      (.and .word (.reg .word .sr) (.int .word flag.mask)) (.int .word 0)).holds
        state = (state.regs .sr).testBit flag.bit := by
  have hmask : Width.word.truncate flag.mask = 2 ^ flag.bit := by
    cases flag <;> rfl
  have hbit : flag.bit < Width.word.bits := by
    cases flag <;> decide
  have hvalue : (Expr.and .word (.reg .word .sr) (.int .word flag.mask)).eval
      state = if (state.regs .sr).testBit flag.bit then 2 ^ flag.bit else 0 := by
    apply Nat.eq_of_testBit_eq
    intro bit
    simp only [Expr.and, Expr.eval, Expr.eval_int, IL.BinaryOp.apply, hmask,
      Width.testBit_truncate, Nat.testBit_and, Nat.testBit_two_pow]
    by_cases heq : flag.bit = bit
    · rw [← heq]
      cases (state.regs .sr).testBit flag.bit <;> simp [hbit]
    · cases (state.regs .sr).testBit flag.bit <;> simp [heq]
  rw [Expr.holds_compare, hvalue, Expr.eval_int]
  cases (state.regs .sr).testBit flag.bit <;> cases flag <;> rfl

theorem outcome_flagsFromStatus (state : State) :
    outcome flagsFromStatus state =
      (.fallThrough,
        { state with flags := fun flag => (state.regs .sr).testBit flag.bit }) := by
  unfold flagsFromStatus
  rw [outcome_setFlags]
  · congr 2
    funext flag
    exact if_pos (by cases flag <;> decide)
  · intro flag _ others
    exact holds_statusBit { state with flags := others } flag

theorem outcome_writeStatus (known : IL.KnownLabels) {width : Width}
    {value : Expr} {state : State} {number : Nat}
    (hvalue : value.eval state = number) (hnumber : number < width.modulus) :
    outcome ((Place.register .sr).write known width value) state =
      (.fallThrough, withStatus state number) := by
  have hset := outcome_setRegister .sr hvalue hnumber
  show outcome ([setRegister .sr width value] ++ flagsFromStatus) state = _
  rw [IL.outcome_append, hset, IL.Outcome.fallThrough_andThen,
    outcome_flagsFromStatus]
  rfl

/-- What has been written is what the status register then is. -/
theorem status_withStatus (state : State) (value : Nat) :
    (withStatus state value).status = value := by
  apply Nat.eq_of_testBit_eq
  intro bit
  rw [testBit_status]
  cases hbit : Flag.ofBit? bit with
  | some flag =>
      rw [Flag.ofBit?_eq_some_iff.mp hbit]
      rfl
  | none => rfl

/-- Setting a flag sets its bit of the status register. -/
theorem testBit_status_setFlag (state : State) (flag : Flag) (on : Bool)
    (bit : Nat) :
    (state.setFlag flag on).status.testBit bit =
      if bit = flag.bit then on else state.status.testBit bit := by
  rw [testBit_status, testBit_status]
  cases hbit : Flag.ofBit? bit with
  | some other =>
      rw [Flag.ofBit?_eq_some_iff.mp hbit]
      cases other <;> cases flag <;> rfl
  | none => rw [if_neg (Flag.ne_bit_of_ofBit?_eq_none hbit flag)]; rfl

theorem status_advanced {source : Operand} (hsource : source.base? ≠ some .sr)
    (state : State) : (source.advanced state).status = state.status := by
  have hregs : (source.advanced state).regs .sr = state.regs .sr := by
    apply Operand.advanced_regs
    rintro step rfl
    exact hsource rfl
  unfold State.status
  rw [hregs, Operand.advanced_flags]

/-!
# Names
-/

theorem run_of_namedFlag? (context : Context) {inst : Instruction} {flag : Flag}
    {on : Bool} (hsupported : unsupported? inst.body = none)
    (h : inst.namedFlag? = some (flag, on)) :
    context.run inst = Emit.op (.setFlag flag (.bool on)) := by
  rcases Option.bind_eq_some_iff.mp h with ⟨emulated, hemulated, hflag⟩
  unfold Context.run
  rw [hsupported, hemulated]
  cases emulated <;> cases hflag <;> rfl

section

variable {inst : Instruction} {opcode : DoubleOpcode} {source : Operand}
  (hbody : inst.body = .double opcode source (.register .sr))
  {value mask expected : Nat}
  (hmasked : opcode.masked? inst.width value mask = some expected)

include hbody hmasked

theorem unsupported?_of_masked : unsupported? inst.body = none := by
  rw [hbody]
  cases opcode <;> first | rfl | cases hmasked

/-- The names of these instructions are those of single bits. -/
theorem status_of_emulated? {emulated : Emulated}
    (h : inst.emulated? = some emulated) :
    exists bits, source.value? inst.width = some bits ∧
      (opcode = .bic ∧ Emulated.ofClearedStatus? bits = some emulated ∨
        opcode = .bis ∧ Emulated.ofSetStatus? bits = some emulated) := by
  unfold Instruction.emulated? at h
  rw [hbody] at h
  unfold Emulated.ofDouble? at h
  cases opcode with
  | bic =>
      dsimp only at h
      split at h
      · rcases Option.bind_eq_some_iff.mp h with ⟨bits, hbits, hname⟩
        exact ⟨bits, hbits, .inl ⟨rfl, hname⟩⟩
      · cases h
  | bis =>
      dsimp only at h
      split at h
      · rcases Option.bind_eq_some_iff.mp h with ⟨bits, hbits, hname⟩
        exact ⟨bits, hbits, .inr ⟨rfl, hname⟩⟩
      · cases h
  | _ => cases hmasked

theorem run_of_unnamed (context : Context) (h : inst.namedFlag? = none) :
    context.run inst = context.double opcode source (.register .sr) := by
  rw [context.run_eq_body (unsupported?_of_masked hbody hmasked), hbody]
  · rfl
  · intro emulated hemulated
    have hflag : flagShortcut? emulated = none := by
      unfold Instruction.namedFlag? at h
      rw [hemulated] at h
      exact h
    rcases status_of_emulated? hbody hmasked hemulated with
      ⟨bits, _, ⟨_, hname⟩ | ⟨_, hname⟩⟩
    · unfold Emulated.ofClearedStatus? at hname
      split at hname <;> cases hname <;> first | rfl | cases hflag
    · unfold Emulated.ofSetStatus? at hname
      split at hname <;> cases hname <;> first | rfl | cases hflag

/-- The flag of a name is that of the one bit of the mask, and none of the upper
byte. -/
theorem mask_of_namedFlag? {flag : Flag} {on : Bool}
    (h : inst.namedFlag? = some (flag, on)) :
    source.value? inst.width = some flag.mask ∧ flag ≠ .v ∧
      (opcode = .bic ∧ on = false ∨ opcode = .bis ∧ on = true) := by
  rcases Option.bind_eq_some_iff.mp h with ⟨emulated, hemulated, hflag⟩
  rcases status_of_emulated? hbody hmasked hemulated with
    ⟨bits, hbits, ⟨hopcode, hname⟩ | ⟨hopcode, hname⟩⟩
  · unfold Emulated.ofClearedStatus? at hname
    split at hname <;> cases hname <;> cases hflag <;>
      exact ⟨hbits, nofun, .inl ⟨hopcode, rfl⟩⟩
  · unfold Emulated.ofSetStatus? at hname
    split at hname <;> cases hname <;> cases hflag <;>
      exact ⟨hbits, nofun, .inr ⟨hopcode, rfl⟩⟩

end

/-!
# Bits of a mask
-/

theorem testBit_mask (flag : Flag) (bit : Nat) :
    flag.mask.testBit bit = decide (flag.bit = bit) := by
  unfold Flag.mask
  rw [Nat.one_shiftLeft, Nat.testBit_two_pow]

/-- A mask of one flag makes of the status register what setting the flag
makes. -/
theorem masked?_mask {opcode : DoubleOpcode} {width : Width} {state : State}
    {flag : Flag} {on : Bool} {expected : Nat}
    (hmasked : opcode.masked? width state.status flag.mask = some expected)
    (hon : opcode = .bic ∧ on = false ∨ opcode = .bis ∧ on = true) :
    expected = width.truncate (state.setFlag flag on).status := by
  apply Nat.eq_of_testBit_eq
  intro bit
  rcases hon with ⟨rfl, rfl⟩ | ⟨rfl, rfl⟩
  · cases hmasked
    rw [width.testBit_truncate, width.testBit_truncate, Nat.testBit_and,
      width.testBit_complement, testBit_status_setFlag, testBit_mask]
    by_cases hbit : flag.bit = bit
    · simp [hbit]
    · simp [hbit, Ne.symm hbit, Bool.and_comm]
  · cases hmasked
    rw [width.testBit_truncate, width.testBit_truncate, Nat.testBit_or,
      testBit_status_setFlag, testBit_mask]
    by_cases hbit : flag.bit = bit
    · simp [hbit]
    · simp [hbit, Ne.symm hbit]

theorem lt_shift_of_testBit_eq {first second count : Nat}
    (h : forall bit, count ≤ bit -> first.testBit bit = second.testBit bit)
    (hlt : first < 1 <<< count) : second < 1 <<< count := by
  rw [Nat.one_shiftLeft] at hlt ⊢
  apply Nat.lt_pow_two_of_testBit
  intro bit hbit
  rw [← h bit hbit]
  exact Nat.testBit_lt_two_pow
    (Nat.lt_of_lt_of_le hlt (Nat.pow_le_pow_right (by decide) hbit))

/-- Setting a flag of the lower byte leaves the upper byte as it is. -/
theorem upper_setFlag {flag : Flag} (hflag : flag ≠ .v) (on : Bool)
    (state : State) :
    Width.word.truncate (state.setFlag flag on).status < 0x100 ↔
      Width.word.truncate state.status < 0x100 := by
  have hupper : forall bit, 8 ≤ bit ->
      (Width.word.truncate (state.setFlag flag on).status).testBit bit =
        (Width.word.truncate state.status).testBit bit := by
    intro bit hbit
    have hne : bit ≠ flag.bit := by
      rintro rfl
      cases flag <;> first | exact absurd rfl hflag | exact absurd hbit (by decide)
    rw [Width.testBit_truncate, Width.testBit_truncate, testBit_status_setFlag,
      if_neg hne]
  constructor
  · exact @lt_shift_of_testBit_eq _ _ 8 hupper
  · exact @lt_shift_of_testBit_eq _ _ 8 fun bit hbit => (hupper bit hbit).symm

theorem masked?_lt {opcode : DoubleOpcode} {width : Width}
    {value mask expected : Nat}
    (h : opcode.masked? width value mask = some expected) :
    expected < width.modulus := by
  cases opcode <;> cases h <;> exact width.truncate_lt _

/-!
# The status register after the code
-/

/-- The status register that programs see holds a word, and the flags are its
bits. -/
def StatusIs (state : State) (value : Nat) : Prop :=
  Width.word.truncate state.status = value ∧
    forall flag, state.flags flag = value.testBit flag.bit

theorem flags_eq_testBit (state : State) (flag : Flag) :
    state.flags flag = state.status.testBit flag.bit := by
  rw [testBit_status, Flag.ofBit?_bit]

theorem statusIs_of_eq {state : State} {value : Nat} (h : state.status = value)
    (hvalue : value < Width.word.modulus) : StatusIs state value := by
  refine ⟨?_, ?_⟩
  · rw [h, Width.truncate_of_lt hvalue]
  · intro flag
    rw [flags_eq_testBit, h]

/-- A status register holds what its width takes of it if there is nothing
above. -/
theorem statusIs_truncate_iff (state : State) {width : Width}
    (hwidth : width ≠ .address) :
    StatusIs state (width.truncate state.status) ↔
      (width = .byte -> Width.word.truncate state.status < 0x100) := by
  have hflags : forall value, Width.word.truncate state.status = value ->
      forall flag, state.flags flag = value.testBit flag.bit := by
    rintro value rfl flag
    rw [flags_eq_testBit, Width.testBit_truncate]
    cases flag <;> exact (Bool.true_and _).symm
  cases width with
  | address => exact absurd rfl hwidth
  | word => exact iff_of_true ⟨rfl, hflags _ rfl⟩ nofun
  | byte =>
      have hlow : Width.word.truncate state.status =
          Width.byte.truncate state.status ↔
            Width.word.truncate state.status < 0x100 := by
        simp only [Width.truncate, Width.modulus]
        omega
      constructor
      · intro h _
        exact hlow.mp h.1
      · intro h
        have heq := hlow.mpr (h rfl)
        exact ⟨heq, hflags _ heq⟩

theorem valueIn_of_value? {operand : Operand} {width : Width} {value : Nat}
    (h : operand.value? width = some value) (address : UInt64) (space : Width)
    (state : State) : operand.valueIn address width space state = value := by
  cases operand with
  | immediate _ | constant _ => exact Option.some.inj h
  | _ => cases h

section Values

variable {width : Width} {state : State} {value mask : Expr} {old bits : Nat}
  (hvalue : value.eval state = width.truncate old)
  (hmask : mask.eval state = bits)

include hvalue hmask

theorem eval_clearedBits :
    (Expr.and width value (.complement width mask)).eval state =
      width.truncate (old &&& width.complement bits) := by
  apply Nat.eq_of_testBit_eq
  intro bit
  simp only [Expr.and, Expr.complement, Expr.eval, IL.BinaryOp.apply,
    IL.UnaryOp.apply, hvalue, hmask, Width.testBit_truncate, Nat.testBit_and]
  cases decide (bit < width.bits) <;> rfl

theorem eval_setBits :
    (Expr.or width value mask).eval state = width.truncate (old ||| bits) := by
  apply Nat.eq_of_testBit_eq
  intro bit
  simp only [Expr.or, Expr.eval, IL.BinaryOp.apply, hvalue, hmask,
    Width.testBit_truncate, Nat.testBit_or]
  cases decide (bit < width.bits) <;> rfl

end Values

section

variable {inst : Instruction} {opcode : DoubleOpcode} {source : Operand}

theorem reaches_masked (options : Options) (known : IL.KnownLabels)
    (state : State) {expected : Nat}
    (hmasked : opcode.masked? inst.width state.status
      (inst.operandValue state source) = some expected) (supply : Supply) :
    ((Context.of options known inst).double opcode source
      (.register .sr)).Reaches supply state
        (source.advanced (withStatus state expected)) := by
  have hstatus : ((Context.of options known inst).read
      (.register .sr)).eval state = inst.width.truncate state.status :=
    eval_statusRegister inst.width state
  have hmask : ((Context.of options known inst).read source).eval state =
      inst.operandValue state source :=
    eval_read _ _ _ _ _
  have hwrite : forall {value : Expr}, value.eval state = expected ->
      expected < inst.width.modulus ->
      (do
        (Context.of options known inst).write (.register .sr) value
        Emit.ops (postIncrement source)).Reaches supply state
          (source.advanced (withStatus state expected)) := by
    intro value hvalue hlt
    exact Reaches.bind (.ops (outcome_writeStatus known hvalue hlt))
      (.ops (outcome_postIncrement source _))
  cases opcode with
  | bic =>
      cases hmasked
      exact hwrite (eval_clearedBits hstatus hmask) (inst.width.truncate_lt _)
  | bis =>
      cases hmasked
      exact hwrite (eval_setBits hstatus hmask) (inst.width.truncate_lt _)
  | _ => cases hmasked

theorem reaches_setFlag (flag : Flag) (on : Bool) (supply : Supply)
    (state : State) :
    (Emit.op (.setFlag flag (.bool on))).Reaches supply state
      (state.setFlag flag on) := by
  show IL.outcome [_] state = _
  rw [IL.outcome_setFlag, Expr.holds_bool]
  rfl

theorem base?_source_ne_sr (hdecoded : inst.Decoded)
    (hbody : inst.body = .double opcode source (.register .sr)) :
    source.base? ≠ some .sr := by
  apply hdecoded.base?_ne_sr
  · unfold Instruction.format Instruction.opcode
    rw [hbody]
    exact nofun
  · rw [hbody]
    exact List.mem_cons_self

/-- Clearing or setting bits of the status register, word or byte, leaves there
what the operation makes of the register as programs see it, with the upper byte
cleared by a byte operation, and leaves the flags as its bits.  Only a byte
operation that goes by the name of a flag leaves the upper byte as it was. -/
theorem masked_status (options : Options) (buffer : IL.Buffer)
    (hdecoded : inst.Decoded) (hextension : inst.extension = none)
    (hbody : inst.body = .double opcode source (.register .sr)) (state : State)
    {expected : Nat}
    (hexpected : opcode.masked? inst.width state.status
      (inst.operandValue state source) = some expected) :
    exists last,
      RunsTo (appended buffer options inst) state .fallThrough last ∧
        (StatusIs last expected ↔
          (inst.width = .byte -> inst.namedFlag?.isSome = true ->
            Width.word.truncate state.status < 0x100)) := by
  have hfits := hdecoded.widthFits
  rw [hbody] at hfits
  have hwidth := hfits hextension
  have hjump : forall condition offset, inst.body ≠ .jump condition offset := by
    rw [hbody]
    exact nofun
  cases hnamed : inst.namedFlag? with
  | none =>
      have hreaches := reaches_masked options buffer.known state hexpected
        { temp := 0, label := 0 }
      rw [← run_of_unnamed hbody hexpected _ hnamed] at hreaches
      have hstatus : (source.advanced (withStatus state expected)).status =
          expected := by
        rw [status_advanced (base?_source_ne_sr hdecoded hbody),
          status_withStatus]
      have hlt : expected < Width.word.modulus := by
        apply Nat.lt_of_lt_of_le (masked?_lt hexpected)
        cases hcase : inst.width <;> first | decide | exact absurd hcase hwidth
      exact ⟨_, runsTo_of_reaches options buffer (.inl hextension) hjump hreaches,
        iff_of_true (statusIs_of_eq hstatus hlt) nofun⟩
  | some named =>
      -- Only the flag is set, so that the upper byte stays, whatever the width.
      rcases named with ⟨flag, on⟩
      rcases mask_of_namedFlag? hbody hexpected hnamed with ⟨hmask, hlow, hon⟩
      have hvalue : inst.operandValue state source = flag.mask :=
        valueIn_of_value? hmask _ _ _
      have hrun := run_of_namedFlag? (Context.of options buffer.known inst)
        (unsupported?_of_masked hbody hexpected) hnamed
      rw [hvalue] at hexpected
      have hreaches := reaches_setFlag flag on { temp := 0, label := 0 } state
      rw [← hrun] at hreaches
      refine ⟨_, runsTo_of_reaches options buffer (.inl hextension) hjump hreaches,
        ?_⟩
      rw [masked?_mask hexpected hon, statusIs_truncate_iff _ hwidth,
        upper_setFlag hlow]
      exact ⟨fun h hbyte _ => h hbyte, fun h hbyte => h hbyte rfl⟩

end

/-- Clears the carry, by name. -/
def clearCarry : Instruction where
  address := 0x4400
  width := .word
  extension := none
  body := .double .bic (.constant 1) (.register .sr)
  length := 2

theorem masked_status_clearCarry :
    exists last,
      RunsTo (appended (.empty 0x4400) .standard clearCarry)
          ⟨fun _ => 0xffff, fun _ => true, fun _ => 0, fun _ => 0⟩ .fallThrough
          last ∧
        StatusIs last 0xfffe := by
  rcases @masked_status clearCarry .bic (.constant 1) .standard (.empty 0x4400)
      ⟨.msp430, [0x12, 0xc3], 0x4400, rfl⟩ rfl rfl
      ⟨fun _ => 0xffff, fun _ => true, fun _ => 0, fun _ => 0⟩ 0xfffe rfl with
    ⟨last, hrun, hstatus⟩
  exact ⟨last, hrun, hstatus.mpr nofun⟩

/-- A byte operation that goes by the name of the carry. -/
def clearCarryByte : Instruction :=
  { clearCarry with width := .byte }

/-- The upper byte of the status register stays, although a byte operation would
clear it. -/
theorem masked_status_keeps_upper :
    decode .msp430 [0x52, 0xc3] 0x4400 = .ok clearCarryByte ∧
      exists state last,
        DoubleOpcode.bic.masked? .byte state.status
            (clearCarryByte.operandValue state (.constant 1)) = some 0 ∧
          RunsTo (appended (.empty 0x4400) .standard clearCarryByte) state
            .fallThrough last ∧
          ¬ StatusIs last 0 := by
  refine ⟨rfl, ⟨fun _ => 0x200, fun _ => false, fun _ => 0, fun _ => 0⟩, _, rfl,
    .next rfl (.done _), ?_⟩
  intro hstatus
  exact absurd hstatus.1 (by decide)

end Lift
end MSP430
