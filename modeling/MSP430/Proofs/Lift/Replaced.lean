import MSP430.Proofs.Decode.Counts
import MSP430.Proofs.FlagRule.Mirror
import MSP430.Proofs.IL.Memory
import MSP430.Proofs.Lift.Shift

/-!
# Operations on one operand

Shifts, rotations and sign extensions replace their operand, in a register or in
memory.  One run leaves there what the rule makes of the value that the operand had,
and the flags that the rule sets are those of the rule.
-/

namespace MSP430

open IL (Emit Expr RunsTo State Supply)
open IL.Emit (Reaches)

/-- The rule by which a body replaces its operand. -/
inductive Body.Replaces : Body Operand -> FlagRule -> Operand -> Prop
  | rrc (operand : Operand) : Replaces (.single .rrc operand) (.rrc 1) operand
  | rra (operand : Operand) : Replaces (.single .rra operand) (.rra 1) operand
  | sxt (operand : Operand) : Replaces (.single .sxt operand) .sxt operand
  | rrcm (count : Nat) (register : Register) :
      Replaces (.shift .rrcm count register) (.rrc count) (.register register)
  | rram (count : Nat) (register : Register) :
      Replaces (.shift .rram count register) (.rra count) (.register register)
  | rlam (count : Nat) (register : Register) :
      Replaces (.shift .rlam count register) (.rla count) (.register register)
  | rrum (count : Nat) (register : Register) :
      Replaces (.shift .rrum count register) (.rru count) (.register register)

/-- The carry with which the first run starts. -/
def Instruction.carryIn (inst : Instruction) (state : State) : Bool :=
  !inst.clearsCarry && state.flags .c

/-!
# Rules
-/

namespace FlagRule

/-- What an operation makes of the flags, in terms of its outcome. -/
theorem flagsAfter_eq_evaluate (rule : FlagRule) {width : Width} {a b : Nat}
    (ha : a < width.modulus) (hb : b < width.modulus) (flags : Flag -> Bool)
    (flag : Flag) :
    rule.flagsAfter width a b flags flag =
      ((rule.evaluate width a b (flags .c)).flag? flag).getD (flags flag) := by
  unfold flagsAfter evaluate
  rw [Width.truncate_of_lt ha, Width.truncate_of_lt hb]
  dsimp only
  split
  · rfl
  · rfl

end FlagRule

namespace Body.Replaces

variable {body : Body Operand} {rule : FlagRule} {operand : Operand}
  (h : body.Replaces rule operand)

include h

theorem evaluate_eq (width : Width) (a b other : Nat) (carry : Bool) :
    rule.evaluate width a b carry = rule.evaluate width a other carry := by
  cases h <;> rfl

theorem countFits {width : Width} (hrange : body.InRange width) :
    rule.CountFits width := by
  have hbits : 4 ≤ width.bits := by
    cases width <;> decide
  cases h with
  | rrc _ | rra _ => exact ⟨Nat.le_refl 1, width.bits_pos⟩
  | sxt _ => trivial
  | rrcm count _ | rram count _ | rlam count _ | rrum count _ =>
      exact ⟨hrange.1.1, Nat.le_trans hrange.1.2 hbits⟩

theorem ne_jump (condition : Condition) (offset : Int) :
    body ≠ .jump condition offset := by
  cases h <;> exact nofun

end Body.Replaces

/-- The value of an operand other than the status register depends on registers and
memory only. -/
theorem Instruction.operandValue_congr (inst : Instruction) {first second : State}
    (hregs : first.regs = second.regs) (hmemory : first.memory = second.memory)
    {operand : Operand} (hsr : operand ≠ .register .sr) :
    inst.operandValue first operand = inst.operandValue second operand := by
  unfold operandValue Operand.valueIn
  rw [Operand.effectiveAddress?_congr hregs]
  cases operand.effectiveAddress? (Lift.Context.addressWidthOf inst) second with
  | some location => exact State.load_congr _ _ fun a _ _ => congrFun hmemory a
  | none =>
      cases operand with
      | register r =>
          cases r with
          | sr => exact absurd rfl hsr
          | _ => simp only [Register.valueIn, hregs]
      | _ => rfl

namespace Lift

/-!
# Code
-/

section

variable {body : Body Operand} {rule : FlagRule} {operand : Operand}
  (h : body.Replaces rule operand)

include h

/-- The body replaces the operand, and what it computes from the operand is the result
of the rule. -/
theorem Context.exists_compute (context : Context)
    (hrange : body.InRange context.width) :
    exists compute : Expr -> Expr,
      context.body body = context.replaceOperand rule operand compute ∧
        forall {a : Expr} {state : State} {value : Nat},
          value < context.width.modulus -> a.eval state = value ->
            (compute a).eval state =
              rule.result context.width value value (state.flags .c) := by
  have hpos := context.width.bits_pos
  have hbits : 4 ≤ context.width.bits := by
    cases context.width <;> decide
  cases h with
  | rrc operand =>
      refine ⟨_, rfl, ?_⟩
      intro a state value hvalue ha
      rw [eval_rotateCarry ha hvalue]
      rfl
  | rra operand =>
      refine ⟨_, rfl, ?_⟩
      intro a state value hvalue ha
      exact eval_shiftExpr ha .rram hvalue Nat.one_pos hpos value
  | sxt operand =>
      refine ⟨_, rfl, ?_⟩
      intro a state value hvalue ha
      show context.width.ofInt (Width.byte.toInt (Width.byte.truncate (a.eval state))) = _
      rw [toInt_truncate, ha]
      rfl
  | rrcm count _ | rram count _ | rlam count _ | rrum count _ =>
      refine ⟨_, rfl, ?_⟩
      intro a state value hvalue ha
      exact eval_shiftExpr ha _ hvalue hrange.1.1 (Nat.le_trans hrange.1.2 hbits) value

theorem Context.run_of_replaces (context : Context) {inst : Instruction}
    (hbody : inst.body = body) (hplace : operand.isValue = false) :
    context.run inst = context.body body := by
  apply context.run_of_body hbody
  · cases h <;> rfl
  · cases h with
    | rrc _ | rra _ | sxt _ =>
        simp [unsupported?, writtenOperand?, SingleOpcode.writesOperand, hplace]
    | rrcm _ _ | rram _ _ | rlam _ _ | rrum _ _ => rfl

/-- One run leaves the result in the operand, which then moves on, and the flags after
the rule. -/
theorem Context.exists_replaced (context : Context) {inst : Instruction}
    (hbody : inst.body = body) (hrange : body.InRange context.width)
    (hplace : operand.isValue = false) (hpc : operand ≠ .register .pc)
    (hsr : operand ≠ .register .sr) (supply : Supply) (state : State) :
    let value := context.valueOf state operand
    exists after,
      after.regs = state.regs ∧ after.memory = state.memory ∧
        after.flags = rule.flagsAfter context.width value value state.flags ∧
        (context.run inst).Reaches supply state
          (operand.advanced
            (operand.written context.width context.addressWidth
              (rule.result context.width value value (state.flags .c)) after)) := by
  have hvalue := context.valueOf_lt state operand
  have hsound := (h.countFits hrange).sound hvalue hvalue (state.flags .c)
  rcases Context.exists_compute h context hrange with ⟨compute, hcode, hcompute⟩
  rw [Context.run_of_replaces h context hbody hplace, hcode]
  apply context.exists_replaceOperand rfl hplace hpc hsr hsound
  intro a later ha hcarry
  rw [hcompute hvalue ha, hcarry]

end

theorem started_carry (inst : Instruction) (state : State) :
    (started inst.clearsCarry state).flags .c = inst.carryIn state := by
  unfold Instruction.carryIn
  cases inst.clearsCarry <;> rfl

theorem started_flags_of_ne (zeroCarry : Bool) (state : State) {flag : Flag}
    (h : flag ≠ .c) : (started zeroCarry state).flags flag = state.flags flag := by
  cases zeroCarry with
  | false => rfl
  | true => exact if_neg h

/-- A rule sets the carry, so clearing it first does not show in what is left alone. -/
theorem getD_started_flags (rule : FlagRule) (width : Width) (a b : Nat) (zeroCarry : Bool)
    (state : State) (carry : Bool) (flag : Flag) :
    ((rule.evaluate width a b carry).flag? flag).getD
        ((started zeroCarry state).flags flag) =
      ((rule.evaluate width a b carry).flag? flag).getD (state.flags flag) := by
  by_cases hc : flag = .c
  · subst hc
    have hset := (rule.isSome_evaluate_flag width a b carry .c).mpr
      (rule.mem_group_of_ne_overflow nofun)
    rcases Option.isSome_iff_exists.mp hset with ⟨value, hvalue⟩
    rw [hvalue]
    rfl
  · rw [started_flags_of_ne zeroCarry state hc]

/-- Only an operation of the single-operand format may have a prefix word. -/
theorem runsSingly_of_replaces {inst : Instruction} (hdecoded : inst.Decoded)
    {rule : FlagRule} {operand : Operand} (h : inst.body.Replaces rule operand)
    (hsingle : forall opcode target, inst.body = .single opcode target ->
      inst.RunsSingly) : inst.RunsSingly := by
  intro extension hextension
  have hsome : inst.extension.isSome = true := by
    rw [hextension]
    rfl
  rcases hdecoded.body_of_extension hsome with
    ⟨opcode, target, hbody⟩ | ⟨opcode, source, destination, hbody⟩
  · exact hsingle opcode target hbody extension hextension
  · rw [hbody] at h
    cases h

/-- Operations on one operand follow their rules.  The code that a decoded shift,
rotation or sign extension adds to a buffer reaches its end, if no prefix word repeats
it.  The operand has then what the rule makes of the value it had at the start, which
fits the width, so that a byte leaves the rest of a register clear.  The flags that the
rule sets are those of the rule, the others are those from before.  The carry that goes
in is the flag, unless a prefix word has it cleared first. -/
theorem replaced_follows_rule (options : Options) (buffer : IL.Buffer)
    {inst : Instruction} (hdecoded : inst.Decoded) {rule : FlagRule} {operand : Operand}
    (hbody : inst.body.Replaces rule operand)
    (hsingle : forall opcode target, inst.body = .single opcode target ->
      inst.RunsSingly)
    (hplace : operand.isValue = false) (hpc : operand ≠ .register .pc)
    (hsr : operand ≠ .register .sr) (state : State) (other : Nat) :
    let expected := rule.evaluate inst.width (inst.operandValue state operand) other
      (inst.carryIn state)
    expected.value < inst.width.modulus ∧
      exists last,
        RunsTo (appended buffer options inst) state .fallThrough last ∧
          operand.Receives inst.width (Context.addressWidthOf inst) expected.value state
            last ∧
          forall flag,
            last.flags flag = (expected.flag? flag).getD (state.flags flag) := by
  have hsingly := runsSingly_of_replaces hdecoded hbody hsingle
  have hlt := inst.operandValue_lt state operand
  have hsound := (hbody.countFits hdecoded.inRange).sound hlt hlt (inst.carryIn state)
  rcases Context.exists_replaced hbody (Context.of options buffer.known inst) rfl
      hdecoded.inRange hplace hpc hsr { temp := 0, label := 0 }
      (started inst.clearsCarry state) with
    ⟨after, hregs, hmemory, hflags, hreaches⟩
  have hinitial : (Context.of options buffer.known inst).valueOf
      (started inst.clearsCarry state) operand = inst.operandValue state operand :=
    inst.operandValue_congr (started_regs _ _) (started_memory _ _) hsr
  rw [hinitial, started_carry] at hreaches
  rw [hinitial] at hflags
  dsimp only
  rw [hbody.evaluate_eq _ _ other (inst.operandValue state operand),
    rule.evaluate_value hlt hlt]
  refine ⟨hsound.result_lt, _,
    runsTo_of_reaches_singly options buffer hsingly hbody.ne_jump hreaches, ?_, ?_⟩
  · apply Operand.receives_written
    · rw [hregs, started_regs]
    · rw [hmemory, started_memory]
    · exact hplace
    · rintro r step rfl
      exact nofun
  · intro flag
    rw [Operand.advanced_flags, Operand.written_flags, hflags, ← started_carry,
      ← getD_started_flags]
    exact rule.flagsAfter_eq_evaluate hlt hlt _ flag

/-- A rotation of bytes in memory, through a register that moves on. -/
def rotateByte : Instruction where
  address := 0x4400
  width := .byte
  extension := none
  body := .single .rrc (.autoIncrement .r5 1)
  length := 2

/-- The lowest bit becomes the carry, and the carry the top bit. -/
theorem replaced_follows_rule_byte :
    exists last,
      RunsTo (appended (.empty 0x4400) .standard rotateByte)
          ⟨fun _ => 0x1000, fun _ => true, fun _ => 0x03, fun _ => 0⟩ .fallThrough
          last ∧
        last.memory 0x1000 = 0x81 ∧ last.memory 0x1001 = 0x03 ∧
        last.flags .c = true ∧ last.flags .z = false ∧ last.flags .n = true ∧
        last.flags .v = false := by
  rcases @replaced_follows_rule .standard (.empty 0x4400) rotateByte
      ⟨.msp430x, [0x75, 0x10], 0x4400, rfl⟩ (.rrc 1) (.autoIncrement .r5 1)
      (.rrc _) (fun _ _ _ => nofun) rfl nofun nofun
      ⟨fun _ => 0x1000, fun _ => true, fun _ => 0x03, fun _ => 0⟩ 0 with
    ⟨_, last, hrun, hvalue, hflags⟩
  exact ⟨last, hrun, congrFun hvalue 0x1000, congrFun hvalue 0x1001, hflags .c,
    hflags .z, hflags .n, hflags .v⟩

end Lift
end MSP430
