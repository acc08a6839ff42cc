import MSP430.Proofs.FlagRule.Shift
import MSP430.Proofs.Lift.Arithmetic
import MSP430.Proofs.Lift.Repetition

/-!
# Shifts by several bits

A shift by several bits is one operation, whose value and carry are written down for all
steps at once.  It leaves what the shift by one bit leaves when it is repeated as often.
-/

namespace MSP430

open IL (Emit Expr RunsTo State Supply)
open IL.Emit (Reaches)

/-!
# Bits of expressions
-/

namespace IL.Expr

variable (state : State) {width : Width} (left right : Expr) {bit : Nat}

theorem testBit_eval_lsr :
    ((lsr width left right).eval state).testBit bit =
      (decide (right.eval state + bit < width.bits) &&
        (left.eval state).testBit (right.eval state + bit)) := by
  simp only [lsr, eval, BinaryOp.apply, Nat.testBit_shiftRight, Width.testBit_truncate]

variable (hbit : bit < width.bits)

include hbit

theorem testBit_eval_or :
    ((or width left right).eval state).testBit bit =
      ((left.eval state).testBit bit || (right.eval state).testBit bit) := by
  simp only [or, eval, BinaryOp.apply, Nat.testBit_or, Width.testBit_truncate,
    decide_eq_true hbit, Bool.true_and]

theorem testBit_eval_lsl :
    ((lsl width left right).eval state).testBit bit =
      (decide (right.eval state ≤ bit) &&
        (left.eval state).testBit (bit - right.eval state)) := by
  have hlow : bit - right.eval state < width.bits := by omega
  simp only [lsl, eval, BinaryOp.apply, Nat.testBit_shiftLeft, Width.testBit_truncate,
    decide_eq_true hbit, decide_eq_true hlow, Bool.true_and, ge_iff_le]

theorem testBit_eval_ofBool (value : Expr) :
    ((ofBool width value).eval state).testBit bit =
      (decide (bit = 0) && value.holds state) := by
  rw [eval_ofBool, Width.testBit_truncate, decide_eq_true hbit, Bool.true_and,
    Nat.testBit_bool_toNat]

end IL.Expr

namespace Lift
namespace Context

/-!
# Values
-/

theorem shiftsBy_shiftRule (opcode : ShiftOpcode) (count : Nat) :
    (shiftRule opcode count).ShiftsBy count := by
  cases opcode <;> constructor

theorem eval_amount (state : State) {width : Width} {amount : Nat}
    (h : amount ≤ width.bits) : (Expr.int width amount).eval state = amount :=
  Width.truncate_of_lt
    (Nat.lt_of_le_of_lt (Nat.le_succ_of_le h) width.bits_lt_modulus)

section

variable {width : Width} {value count : Nat} {a : Expr} {state : State}
  (ha : a.eval state = value)

include ha

/-- The bits of the three pieces: those that were shifted right, the carry, and those
that came around. -/
theorem testBit_rotateExpr (hpos : 0 < count) (hfits : count ≤ width.bits) {bit : Nat}
    (hbit : bit < width.bits) :
    ((shiftExpr .rrcm width count a).eval state).testBit bit =
      ((decide (bit + count < width.bits) && value.testBit (bit + count)) ||
        (decide (bit + count = width.bits) && state.flags .c) ||
        (decide (width.bits < bit + count) &&
          value.testBit (bit + count - (width.bits + 1)))) := by
  have hcarry : width.bits - count ≤ width.bits := Nat.sub_le _ _
  have haround : width.bits - count + 1 ≤ width.bits := by omega
  have htop : bit - (width.bits - count) < width.bits := by omega
  unfold shiftExpr
  dsimp only
  rw [Expr.testBit_eval_or _ _ _ hbit, Expr.testBit_eval_or _ _ _ hbit,
    Expr.testBit_eval_lsr, Expr.testBit_eval_lsl _ _ _ hbit,
    Expr.testBit_eval_lsl _ _ _ hbit, eval_amount state hfits,
    eval_amount state hcarry, eval_amount state haround,
    Expr.testBit_eval_ofBool _ htop, Expr.holds_flag, ha]
  congr 1
  · congr 1
    · rw [Nat.add_comm]
    · rw [← Bool.and_assoc, ← Bool.decide_and]
      congr 2
      rw [eq_iff_iff]
      omega
  · congr 2
    · rw [eq_iff_iff]
      omega
    · omega

/-- Bit for bit, the three pieces are the value that was rotated with the carry. -/
theorem eval_rotateExpr (hvalue : value < width.modulus) (hpos : 0 < count)
    (hfits : count ≤ width.bits) :
    (shiftExpr .rrcm width count a).eval state =
      (iterate (rotateStep width) count (value, state.flags .c)).1 := by
  have hrotated := @iterate_rotateStep_lt width (value, state.flags .c) hvalue count
  apply Width.eq_of_testBit (width.truncate_lt _) hrotated
  intro bit hbit
  refine (testBit_rotateExpr ha hpos hfits hbit).trans ?_
  rw [@testBit_iterate_rotateStep _ (value, _) hvalue count _ hbit]
  unfold carriedBit
  -- A bit comes from above, from the carry, or around from the low end.
  rcases Nat.lt_trichotomy (bit + count) width.bits with hlt | heq | hgt
  · have hnot : ¬ width.bits < bit + count := Nat.lt_asymm hlt
    rw [Nat.mod_eq_of_lt (Nat.lt_succ_of_lt hlt)]
    simp [hlt, hlt.ne, hnot]
  · rw [heq, Nat.mod_eq_of_lt (Nat.lt_succ_self _)]
    simp
  · have hmod : (bit + count) % (width.bits + 1) = bit + count - (width.bits + 1) := by
      rw [Nat.mod_eq_sub_mod hgt]
      exact Nat.mod_eq_of_lt (by omega)
    have hne : bit + count - (width.bits + 1) ≠ width.bits := by omega
    have hnot : ¬ bit + count < width.bits := Nat.lt_asymm hgt
    rw [hmod]
    simp [hgt, hgt.ne', hne, hnot]

theorem eval_rotateCarry (hvalue : value < width.modulus) :
    (Expr.rotateCarry width a (.flag .c)).eval state =
      (rotateStep width (value, state.flags .c)).1 := by
  have hlt := @rotateStep_lt width (value, state.flags .c) hvalue
  rw [← Width.truncate_of_lt hlt]
  unfold Expr.eval rotateStep
  rw [ha]
  cases hcarry : state.flags .c <;> simp [Expr.eval, hcarry]

/-- What a shift computes is the result of its rule. -/
theorem eval_shiftExpr (opcode : ShiftOpcode) (hvalue : value < width.modulus)
    (hpos : 0 < count) (hfits : count ≤ width.bits) (other : Nat) :
    (shiftExpr opcode width count a).eval state =
      (shiftRule opcode count).result width value other (state.flags .c) := by
  have hamount := eval_amount state hfits
  have htruncate := Width.truncate_of_lt hvalue
  cases opcode with
  | rrcm => exact eval_rotateExpr ha hvalue hpos hfits
  | rram =>
      simp only [shiftExpr, shiftRule, FlagRule.result, Expr.asr, Expr.eval,
        IL.BinaryOp.apply, ha, hamount, htruncate]
      exact (iterate_arithmeticStep_eq hvalue count).symm
  | rlam | rrum =>
      simp only [shiftExpr, shiftRule, FlagRule.result, Expr.lsl, Expr.lsr, Expr.eval,
        IL.BinaryOp.apply, ha, hamount, htruncate]

end

/-!
# One operand

The code of an operation on one operand, whose rule takes the operand's value twice.
-/

/-- The flags are set for the value that the operand has before.  Then the result is
written, and last the operand moves on. -/
theorem exists_replaceOperand (context : Context) {rule : FlagRule}
    {operand : Operand} {compute : Expr -> Expr} {state : State} {value : Nat}
    (hvalue : context.valueOf state operand = value) (hplace : operand.isValue = false)
    (hpc : operand ≠ .register .pc) (hsr : operand ≠ .register .sr)
    (hsound : rule.Sound context.width value value (state.flags .c))
    (hcompute : forall {a later}, a.eval later = value ->
      later.flags .c = state.flags .c ->
        (compute a).eval later =
          rule.result context.width value value (state.flags .c)) (supply : Supply) :
    let result := rule.result context.width value value (state.flags .c)
    exists after,
      after.regs = state.regs ∧ after.memory = state.memory ∧
        after.flags = rule.flagsAfter context.width value value state.flags ∧
        (context.replaceOperand rule operand compute).Reaches supply state
          (operand.advanced
            (operand.written context.width context.addressWidth result after)) := by
  subst hvalue
  dsimp only
  rcases context.exists_snapshot_read operand supply state with
    ⟨read, hread, hagree, _, ha⟩
  have hflags := hagree.flags
  rw [← hflags] at hsound hcompute ⊢
  rcases context.exists_resultAndFlags ha ha hsound (hcompute ha.eval_eq rfl) with
    ⟨after, hafter, hregs, hmemory, hset, hkept⟩
  refine ⟨after, hregs.trans hagree.regs, hmemory.trans hagree.memory, hset, ?_⟩
  have hwrite := outcome_write context.known context.addressWidth hplace hpc hsr hkept
    hsound.result_lt
  unfold Context.replaceOperand
  exact hread.bind (hafter.bind
    ((Reaches.ops hwrite).bind (.ops (outcome_postIncrement operand _))))

end Context

/-!
# Steps of a register
-/

/-- A register and the carry have taken a step, the flags of the result tell about the
register, and no other register and no memory has changed. -/
structure Stepped (width : Width) (register : Register)
    (step : Nat × Bool -> Nat × Bool) (before after : State) : Prop where
  fits : after.regs register < width.modulus
  moved :
    (after.regs register, after.flags .c) =
      step (width.truncate (before.regs register), before.flags .c)
  zero : after.flags .z = isZero width (after.regs register)
  negative : after.flags .n = isNegative width (after.regs register)
  others : forall r, r ≠ register -> after.regs r = before.regs r
  memory : after.memory = before.memory

namespace Stepped

variable {width : Width} {register : Register}

theorem trans {first second : Nat × Bool -> Nat × Bool} {before middle after : State}
    (hfirst : Stepped width register first before middle)
    (hsecond : Stepped width register second middle after) :
    Stepped width register (fun state => second (first state)) before after where
  fits := hsecond.fits
  moved := by
    rw [hsecond.moved, Width.truncate_of_lt hfirst.fits, hfirst.moved]
  zero := hsecond.zero
  negative := hsecond.negative
  others r hr := (hsecond.others r hr).trans (hfirst.others r hr)
  memory := hsecond.memory.trans hfirst.memory

/-- A step from where the carry is cleared is a step that ignores the carry. -/
theorem of_started {step : Nat × Bool -> Nat × Bool} {zeroCarry : Bool}
    {before after : State}
    (h : Stepped width register step (started zeroCarry before) after) :
    Stepped width register (fun state => step (state.1, !zeroCarry && state.2)) before
      after where
  fits := h.fits
  moved := by
    have hcarry : (started zeroCarry before).flags .c =
        (!zeroCarry && before.flags .c) := by
      cases zeroCarry <;> rfl
    rw [h.moved, started_regs, hcarry]
  zero := h.zero
  negative := h.negative
  others r hr := by
    rw [h.others r hr, started_regs]
  memory := by
    rw [h.memory, started_memory]

/-- An emission that takes a step takes one each time it is emitted. -/
theorem exists_replicate {emission : Emit Unit} {step : Nat × Bool -> Nat × Bool}
    (h : forall supply state, exists after,
      emission.Reaches supply state after ∧ Stepped width register step state after)
    (count : Nat) (supply : Supply) (state : State) :
    exists after,
      (Emit.replicate (count + 1) emission).Reaches supply state after ∧
        Stepped width register (iterate step (count + 1)) state after := by
  induction count generalizing supply state with
  | zero =>
      rcases h supply state with ⟨after, hreaches, hstep⟩
      exact ⟨after, hreaches.bind (.pure ()), hstep⟩
  | succ count ih =>
      rcases h supply state with ⟨middle, hreaches, hstep⟩
      rcases ih (emission supply).supply middle with ⟨after, hrest, hsteps⟩
      exact ⟨after, hreaches.bind hrest, hstep.trans hsteps⟩

/-- After steps to the same value and carry the states say the same about everything
that can be seen but the overflow. -/
theorem agree {step other : Nat × Bool -> Nat × Bool} {before first second : State}
    (hfirst : Stepped width register step before first)
    (hsecond : Stepped width register other before second)
    (h : forall value, value < width.modulus -> forall carry,
      step (value, carry) = other (value, carry)) :
    first.regs = second.regs ∧ first.memory = second.memory ∧
      forall flag, flag ≠ .v -> first.flags flag = second.flags flag := by
  have hmoved : (first.regs register, first.flags .c) =
      (second.regs register, second.flags .c) := by
    rw [hfirst.moved, hsecond.moved, h _ (width.truncate_lt _)]
  have hvalue : first.regs register = second.regs register := congrArg Prod.fst hmoved
  refine ⟨?_, hfirst.memory.trans hsecond.memory.symm, ?_⟩
  · funext r
    by_cases hr : r = register
    · rw [hr, hvalue]
    · rw [hfirst.others r hr, hsecond.others r hr]
  · intro flag hflag
    cases flag with
    | c => exact congrArg Prod.snd hmoved
    | z => rw [hfirst.zero, hsecond.zero, hvalue]
    | n => rw [hfirst.negative, hsecond.negative, hvalue]
    | v => exact absurd rfl hflag

end Stepped

/-!
# Steps of rules
-/

/-- Keeping the result of a rule in the register of its operand takes its step. -/
theorem Stepped.of_rule {rule : FlagRule} {width : Width} (register : Register)
    {before after : State} {value : Nat}
    (hvalue : width.truncate (before.regs register) = value)
    (hlt : rule.result width value value (before.flags .c) < width.modulus)
    (hregs : after.regs = before.regs) (hmemory : after.memory = before.memory)
    (hflags : after.flags = rule.flagsAfter width value value before.flags) :
    Stepped width register (rule.step width) before
      (after.setReg register (rule.result width value value (before.flags .c))) := by
  have hresult : (after.setReg register
      (rule.result width value value (before.flags .c))).regs register =
        rule.result width value value (before.flags .c) :=
    if_pos rfl
  have hset : forall flag, flag ≠ .v -> after.flags flag =
      rule.flagValue width value value (before.flags .c) flag := by
    intro flag hflag
    rw [hflags]
    exact rule.flagsAfter_of_ne_overflow width value value before.flags hflag
  constructor
  · rw [hresult]
    exact hlt
  · rw [hresult, hvalue]
    exact congrArg (Prod.mk _) (hset .c nofun)
  · rw [hresult]
    exact hset .z nofun
  · rw [hresult]
    exact hset .n nofun
  · intro r hr
    exact (if_neg hr).trans (congrFun hregs r)
  · exact hmemory

section

variable {register : Register} (hpc : register ≠ .pc) (hsr : register ≠ .sr)
  (hcg : register ≠ .cg)

include hpc hsr hcg

theorem Context.valueOf_register (context : Context) (state : State) :
    context.valueOf state (.register register) =
      context.width.truncate (state.regs register) := by
  cases register with
  | pc => exact absurd rfl hpc
  | sr => exact absurd rfl hsr
  | cg => exact absurd rfl hcg
  | _ => rfl

omit hpc hsr in
theorem written_register (width space : Width) (value : Nat) (state : State) :
    (Operand.register register).written width space value state =
      state.setReg register value := by
  cases register with
  | cg => exact absurd rfl hcg
  | _ => rfl

/-- An operation on a register takes the step of its rule.  What the rule leaves alone
stays. -/
theorem Context.exists_stepped_replace (context : Context) {rule : FlagRule}
    {compute : Expr -> Expr} (supply : Supply) {state : State} {value : Nat}
    (hvalue : context.width.truncate (state.regs register) = value)
    (hsound : rule.Sound context.width value value (state.flags .c))
    (hcompute : forall {a later}, a.eval later = value ->
      later.flags .c = state.flags .c ->
        (compute a).eval later =
          rule.result context.width value value (state.flags .c)) :
    exists after,
      (context.replaceOperand rule (.register register) compute).Reaches supply state
          after ∧
        Stepped context.width register (rule.step context.width) state after ∧
        forall flag, flag ∉ rule.group.flags ->
          after.flags flag = state.flags flag := by
  have hread := context.valueOf_register hpc hsr hcg state
  rcases context.exists_replaceOperand (hread.trans hvalue) rfl
      (fun h => hpc (Operand.register.inj h)) (fun h => hsr (Operand.register.inj h))
      hsound hcompute supply with
    ⟨after, hregs, hmemory, hflags, hreaches⟩
  rw [written_register hcg] at hreaches
  have hstep := Stepped.of_rule register hvalue hsound.result_lt hregs hmemory hflags
  refine ⟨_, hreaches, hstep, ?_⟩
  intro flag hflag
  exact (congrFun hflags flag).trans (if_neg hflag)

/-!
# Both forms
-/

/-- A shift by several bits takes the step of its rule. -/
theorem Context.exists_stepped_shift (context : Context) (opcode : ShiftOpcode)
    {count : Nat} (hpos : 0 < count) (hfits : count ≤ context.width.bits)
    (supply : Supply) (state : State) :
    exists after,
      (context.shift opcode count register).Reaches supply state after ∧
        Stepped context.width register ((shiftRule opcode count).step context.width)
          state after ∧
        (1 < count -> after.flags .v = state.flags .v) := by
  have hlt := context.width.truncate_lt (state.regs register)
  rcases count with _ | count
  · exact absurd hpos (Nat.lt_irrefl 0)
  have hsound := (shiftsBy_shiftRule opcode (count + 1)).sound hlt hfits
    (context.width.truncate (state.regs register)) (state.flags .c)
  rcases context.exists_stepped_replace hpc hsr hcg supply rfl hsound
      (fun ha hcarry => by
        rw [eval_shiftExpr ha opcode hlt hpos hfits, hcarry]) with
    ⟨after, hreaches, hstep, hkept⟩
  refine ⟨after, hreaches, hstep, fun hseveral => hkept .v ?_⟩
  cases opcode <;> simp [shiftRule, FlagRule.group, hseveral, FlagWrite.flags]

end

end Lift

/-!
# Shifts by one bit
-/

namespace ShiftOpcode

/-- The shift by one bit.  Adding a register to itself shifts it left. -/
def single (register : Register) : ShiftOpcode -> Body Operand
  | rrcm | rrum => .single .rrc (.register register)
  | rram => .single .rra (.register register)
  | rlam => .double .add (.register register) (.register register)

/-- Zeros are shifted in from the left by rotating without the carry. -/
def clearsCarry : ShiftOpcode -> Bool
  | rrum => true
  | rrcm | rram | rlam => false

def singleRule : ShiftOpcode -> FlagRule
  | rrcm | rrum => .rrc 1
  | rram => .rra 1
  | rlam => .add

/-- What one run of the shift by one bit makes of a value and the carry. -/
def singleStep (opcode : ShiftOpcode) (width : Width) (state : Nat × Bool) :
    Nat × Bool :=
  opcode.singleRule.step width (state.1, !opcode.clearsCarry && state.2)

/-- The rule of a shift by several bits is that of the shift by one bit, again and
again. -/
theorem iterate_singleStep (opcode : ShiftOpcode) {width : Width} {value count : Nat}
    (hvalue : value < width.modulus) (hpos : 0 < count) (hfits : count ≤ width.bits)
    (carry : Bool) :
    iterate (opcode.singleStep width) count (value, carry) =
      (Lift.Context.shiftRule opcode count).step width (value, carry) := by
  rcases count with _ | count
  · exact absurd hpos (Nat.lt_irrefl 0)
  cases opcode with
  | rrcm => exact FlagRule.iterate_step_rrc carry
  | rram => exact FlagRule.iterate_step_rra hvalue hfits carry
  | rlam => exact FlagRule.iterate_step_rla hvalue hfits carry
  | rrum => exact FlagRule.iterate_step_rru carry

/-- Two steps bring the carry and then the lowest bit in at the top. -/
example : iterate (singleStep .rrcm .word) 2 (0x8001, true) = (0xe000, false) := by
  decide

end ShiftOpcode

namespace Lift

section

variable {register : Register} (hpc : register ≠ .pc) (hsr : register ≠ .sr)
  (hcg : register ≠ .cg)

include hpc hsr hcg

theorem Context.exists_stepped_add (context : Context) (supply : Supply)
    (state : State) :
    exists after,
      (context.arithmetic .add true (.register register) (.register register)).Reaches
          supply state after ∧
        Stepped context.width register (FlagRule.add.step context.width) state after := by
  have hread := context.valueOf_register hpc hsr hcg state
  have hplace : true = true -> (Operand.register register).isValue = false ∧
      Operand.register register ≠ .register .pc ∧
      Operand.register register ≠ .register .sr :=
    fun _ => ⟨rfl, fun h => hpc (Operand.register.inj h),
      fun h => hsr (Operand.register.inj h)⟩
  rcases @Context.exists_arithmetic context .add true (.register register) _ hplace
      supply state with
    ⟨after, hregs, hmemory, hflags, hreaches⟩
  rw [if_pos rfl, written_register hcg] at hreaches
  refine ⟨_, hreaches,
    .of_rule register hread.symm (context.width.truncate_lt _) hregs hmemory ?_⟩
  rw [FlagRule.TwoOperand.add.flagsAfter_eq]
  exact hflags

theorem Context.exists_stepped_rotate (context : Context) (supply : Supply)
    (state : State) :
    exists after,
      (context.rotateRight (.register register)).Reaches supply state after ∧
        Stepped context.width register ((FlagRule.rrc 1).step context.width) state
          after := by
  have hlt := context.width.truncate_lt (state.regs register)
  have hrule : FlagRule.ShiftsBy 1 (.rrc 1) := .rrc
  have hsound := hrule.sound hlt context.width.bits_pos
    (context.width.truncate (state.regs register)) (state.flags .c)
  rcases context.exists_stepped_replace hpc hsr hcg supply rfl hsound
      (fun ha hcarry => by rw [eval_rotateCarry ha hlt, hcarry]; rfl) with
    ⟨after, hreaches, hstep, _⟩
  exact ⟨after, hreaches, hstep⟩

omit hpc hsr hcg in
/-- A shift by one bit has no other name that stands for code of its own. -/
theorem Context.run_single (context : Context) {inst : Instruction}
    {opcode : ShiftOpcode} (hbody : inst.body = opcode.single register) :
    context.run inst = context.body (opcode.single register) := by
  cases opcode with
  | rrcm | rram | rrum => exact context.run_of_body hbody rfl rfl
  | rlam =>
      have hrule : inst.opcode.flagRule? = some .add := by
        unfold Instruction.opcode
        rw [hbody]
        rfl
      have hsupported : unsupported? inst.body = none := by
        rw [hbody]
        rfl
      rw [← hbody]
      exact context.run_eq_body hsupported fun _ => hasOwnCode_of_flagRule? hrule

/-- One run of the shift by one bit takes the step of its rule. -/
theorem Context.exists_stepped_run (context : Context) {inst : Instruction}
    {opcode : ShiftOpcode} (hbody : inst.body = opcode.single register)
    (supply : Supply) (state : State) :
    exists after,
      (context.run inst).Reaches supply state after ∧
        Stepped context.width register (opcode.singleRule.step context.width) state
          after := by
  rw [context.run_single hbody]
  cases opcode with
  | rrcm | rrum => exact context.exists_stepped_rotate hpc hsr hcg supply state
  | rram =>
      rcases context.exists_stepped_shift hpc hsr hcg .rram Nat.one_pos
          context.width.bits_pos supply state with
        ⟨after, hreaches, hstep, _⟩
      exact ⟨after, hreaches, hstep⟩
  | rlam => exact context.exists_stepped_add hpc hsr hcg supply state

/-- Behind a prefix word the run may start without the carry. -/
theorem Context.exists_stepped_once (context : Context) {inst : Instruction}
    {opcode : ShiftOpcode} (hbody : inst.body = opcode.single register)
    (supply : Supply) (state : State) :
    exists after,
      (context.once opcode.clearsCarry inst).Reaches supply state after ∧
        Stepped context.width register (opcode.singleStep context.width) state
          after := by
  rcases context.exists_stepped_run hpc hsr hcg hbody supply
      (started opcode.clearsCarry state) with
    ⟨after, hreaches, hstep⟩
  have hcarry := outcome_clearedCarry opcode.clearsCarry state
  exact ⟨after, (Reaches.ops hcarry).bind hreaches, hstep.of_started⟩

theorem exists_stepped_repeated (options : Options) (buffer : IL.Buffer)
    {inst : Instruction} {opcode : ShiftOpcode} {count : Nat}
    (hbody : inst.body = opcode.single register)
    (hextension : inst.extension =
      some { repetition := .times (count + 1), zeroCarry := opcode.clearsCarry })
    (state : State) :
    exists last,
      RunsTo (appended buffer options inst) state .fallThrough last ∧
        Stepped inst.width register
          (iterate (opcode.singleStep inst.width) (count + 1)) state last := by
  have hjump : forall condition offset, inst.body ≠ .jump condition offset := by
    rw [hbody]
    cases opcode <;> exact nofun
  have hcount : forall counter zeroCarry, inst.extension ≠
      some { repetition := .register counter, zeroCarry := zeroCarry } := by
    rw [hextension]
    exact nofun
  let context := Context.of options buffer.known inst
  rcases Stepped.exists_replicate (context.exists_stepped_once hpc hsr hcg hbody) count
      { temp := 0, label := 0 } state with
    ⟨last, hreaches, hsteps⟩
  rw [← emit_of_times options buffer.known hextension] at hreaches
  exact ⟨last, runsTo_of_reaches_emit options buffer hcount hjump hreaches, hsteps⟩

/-- A shift by several bits is the shift by one bit, repeated.  Both reach the end of
their code with the same registers, the same memory and the same flags but the overflow.
Of the registers only the shifted one has changed.  A shift by more than one bit leaves
the overflow alone. -/
theorem shift_agrees_repeated (options : Options) (buffer other : IL.Buffer)
    {shift repeated : Instruction} {opcode : ShiftOpcode} {count : Nat}
    (honce : shift.RunsOnce) (hshift : shift.body = .shift opcode count register)
    (hrepeated : repeated.body = opcode.single register)
    (hextension : repeated.extension =
      some { repetition := .times count, zeroCarry := opcode.clearsCarry })
    (hwidth : repeated.width = shift.width) (hpos : 0 < count)
    (hfits : count ≤ shift.width.bits) (state : State) :
    exists last last',
      RunsTo (appended buffer options shift) state .fallThrough last ∧
        RunsTo (appended other options repeated) state .fallThrough last' ∧
        last.regs = last'.regs ∧ last.memory = last'.memory ∧
        (forall flag, flag ≠ .v -> last.flags flag = last'.flags flag) ∧
        (forall r, r ≠ register -> last.regs r = state.regs r) ∧
        last.memory = state.memory ∧
        (1 < count -> last.flags .v = state.flags .v) := by
  have hjump : forall condition offset, shift.body ≠ .jump condition offset := by
    rw [hshift]
    exact nofun
  rcases (Context.of options buffer.known shift).exists_stepped_shift hpc hsr hcg opcode
      hpos hfits { temp := 0, label := 0 } state with
    ⟨last, hreaches, hstep, hkept⟩
  have hcode : (Context.of options buffer.known shift).run shift =
      (Context.of options buffer.known shift).shift opcode count register :=
    Context.run_of_body _ hshift rfl rfl
  rw [← hcode] at hreaches
  have hrun := runsTo_of_reaches options buffer honce hjump hreaches
  rcases count with _ | count
  · exact absurd hpos (Nat.lt_irrefl 0)
  rcases exists_stepped_repeated hpc hsr hcg options other hrepeated hextension state with
    ⟨last', hrun', hsteps⟩
  rw [hwidth] at hsteps
  have hsame : forall value, value < shift.width.modulus -> forall carry,
      (Context.shiftRule opcode (count + 1)).step shift.width (value, carry) =
        iterate (opcode.singleStep shift.width) (count + 1) (value, carry) := by
    intro value hvalue carry
    exact (opcode.iterate_singleStep hvalue hpos hfits carry).symm
  rcases Stepped.agree hstep hsteps hsame with ⟨hregs, hmemory, hflags⟩
  exact ⟨last, last', hrun, hrun', hregs, hmemory, hflags, hstep.others, hstep.memory,
    hkept⟩

end

/-- A rotation by two bits. -/
def rotatedTwice : Instruction where
  address := 0x4400
  width := .word
  extension := none
  body := .shift .rrcm 2 .r5
  length := 2

def repeatedRotation : Instruction where
  address := 0x4400
  width := .word
  extension := some { repetition := .times 2, zeroCarry := false }
  body := .single .rrc (.register .r5)
  length := 4

/-- Two instructions that decode leave the same in the register, and the overflow stays
set. -/
theorem shift_agrees_repeated_rotation :
    rotatedTwice.Decoded ∧ repeatedRotation.Decoded ∧
      exists last last',
        RunsTo (appended (.empty 0x4400) .standard rotatedTwice)
            ⟨fun _ => 0x8001, fun _ => true, fun _ => 0, fun _ => 0⟩ .fallThrough
            last ∧
          RunsTo (appended (.empty 0x4400) .standard repeatedRotation)
            ⟨fun _ => 0x8001, fun _ => true, fun _ => 0, fun _ => 0⟩ .fallThrough
            last' ∧
          last.regs .r5 = last'.regs .r5 ∧ last.flags .c = last'.flags .c ∧
          last.flags .v = true := by
  refine ⟨⟨.msp430x, [0x55, 0x04], 0x4400, rfl⟩,
    ⟨.msp430x, [0x41, 0x18, 0x05, 0x10], 0x4400, rfl⟩, ?_⟩
  rcases @shift_agrees_repeated .r5 nofun nofun nofun .standard (.empty 0x4400)
      (.empty 0x4400) rotatedTwice repeatedRotation .rrcm 2 (.inl rfl) rfl rfl rfl rfl
      (by decide) (by decide)
      ⟨fun _ => 0x8001, fun _ => true, fun _ => 0, fun _ => 0⟩ with
    ⟨last, last', hrun, hrun', hregs, _, hflags, _, _, hoverflow⟩
  exact ⟨last, last', hrun, hrun', congrFun hregs .r5, hflags .c nofun,
    hoverflow (by decide)⟩

end Lift
end MSP430
