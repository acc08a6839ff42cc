import MSP430.Proofs.Decode.Operands

/-!
# Registers that advance

Only a source, or a single operand, is read through a register that advances.  The
register advances by the step of its instruction's width, and since the operand is
in memory, its instruction runs once behind a prefix word too.
-/

namespace MSP430

/-- The bodies whose source is read through a register that then advances. -/
inductive Body.Advances (r : Register) (step : Nat) : Body Operand -> Prop where
  | single (opcode : SingleOpcode) :
      Advances r step (.single opcode (.autoIncrement r step))
  | double (opcode : DoubleOpcode) (destination : Operand) :
      Advances r step (.double opcode (.autoIncrement r step) destination)
  | calla : Advances r step (.calla (.autoIncrement r step))
  | mova (destination : Register) :
      Advances r step
        (.address .mova (.autoIncrement r step) (.register destination))

namespace Encoding

/-!
# Fields and forms
-/

theorem toForm_of_resolved {slot : OperandSlot} {cursor : Cursor} {r : Register}
    {step : Nat} (h : slot.resolved cursor = .autoIncrement r step) :
    slot.toForm = .fixed (.autoIncrement r step) := by
  unfold OperandSlot.resolved OperandForm.resolved at h
  cases hform : slot.toForm with
  | fixed operand =>
      rw [hform] at h
      exact congrArg OperandForm.fixed h
  | absolute _ | immediate _ _ | indexed _ _ =>
      rw [hform] at h
      cases h
  | relative high space asAbsolute =>
      rw [hform] at h
      cases asAbsolute <;> cases h

/-- A register that a field advances does so by the step of the field's width. -/
theorem step_of_form {field : OperandField} {r : Register} {step : Nat}
    (h : field.form = .fixed (.autoIncrement r step)) :
    field.mode = .autoIncrement ∧ step = autoIncrementStep r field.width := by
  unfold OperandField.form at h
  split at h
  · cases h
  · split at h <;> cases h
    next hmode _ => exact ⟨hmode, rfl⟩

/-- A field that would move on the program counter stands for an immediate, and a
source that would move on the constant generator for a constant. -/
theorem advanced_ne {field : OperandField} {r : Register} {step : Nat}
    (hform : field.form = .fixed (.autoIncrement r step))
    (hsource : field.isDestination = false) : r ≠ .pc ∧ r ≠ .cg := by
  unfold OperandField.form OperandField.generated? at hform
  rw [hsource] at hform
  split at hform
  · cases hform
  · next hgenerated =>
      split at hform <;> cases hform
      next hmode hpc =>
        refine ⟨hpc, fun hcg => ?_⟩
        rw [hmode, hcg] at hgenerated
        cases hgenerated

theorem offsetForm_ne_fixed (register : Register) (high : Option Nat)
    (asAbsolute : Bool) (operand : Operand) :
    offsetForm register high asAbsolute ≠ .fixed operand := by
  unfold offsetForm
  split <;> exact nofun

theorem resolved_of_toForm {slot : OperandSlot} {operand : Operand}
    (h : slot.toForm = .fixed operand) (cursor : Cursor) :
    slot.resolved cursor = operand := by
  unfold OperandSlot.resolved
  rw [h]
  rfl

/-!
# Each format
-/

/-- The form reads through the register and moves it on. -/
def FormAdvances (r : Register) (step : Nat) (form : OperandForm) : Prop :=
  form = .fixed (.autoIncrement r step)

/-- The encoding advances a register by its own step, and is not repeated. -/
structure AdvancesOnce (encoding : Encoding) (r : Register) (step : Nat) : Prop where
  body : forall cursor, (encoding.body.resolved cursor).Advances r step
  step_eq : step = autoIncrementStep r encoding.width
  once : encoding.extension = none ∨ encoding.extension = some .once

/-- Behind a prefix word, a single operand in memory leaves no repetition. -/
theorem ofSingle?_once {prefixWord : Option PrefixWord} {word : Nat}
    {encoding : Encoding} (h : ofSingle? prefixWord word = some encoding)
    {opcode : SingleOpcode} {target : OperandField}
    (hbody : encoding.body = .single opcode (.field target))
    (hmode : target.mode ≠ .register) :
    encoding.extension = none ∨ encoding.extension = some .once := by
  unfold ofSingle? at h
  rcases Option.bind_eq_some_iff.mp h with ⟨_, _, h⟩
  rcases Option.bind_eq_some_iff.mp h with ⟨_, _, h⟩
  cases h
  cases hbody
  cases prefixWord with
  | none => exact .inl rfl
  | some prefixWord => exact .inr (by simp [hmode])

/-- Behind a prefix word, an operand in memory leaves no repetition. -/
theorem ofDouble?_once {prefixWord : Option PrefixWord} {word : Nat}
    {encoding : Encoding} (h : ofDouble? prefixWord word = some encoding)
    {opcode : DoubleOpcode} {source destination : OperandField}
    (hbody : encoding.body = .double opcode (.field source) (.field destination))
    (hmode : ¬ (source.mode = .register ∧ destination.mode = .register)) :
    encoding.extension = none ∨ encoding.extension = some .once := by
  unfold ofDouble? at h
  rcases Option.bind_eq_some_iff.mp h with ⟨_, _, h⟩
  rcases Option.bind_eq_some_iff.mp h with ⟨_, _, h⟩
  cases h
  cases hbody
  cases prefixWord with
  | none => exact .inl rfl
  | some prefixWord => exact .inr (congrArg some (if_neg (mt of_decide_eq_true hmode)))

section

variable {encoding : Encoding} {slot : OperandSlot} {r : Register} {step : Nat}
  (hslot : slot ∈ encoding.body.operands) (hform : FormAdvances r step slot.toForm)

include hslot hform

theorem ofSingle?_advances {prefixWord : Option PrefixWord} {word : Nat}
    (h : ofSingle? prefixWord word = some encoding) :
    encoding.AdvancesOnce r step := by
  rcases ofSingle?_fields h with ⟨opcode, target, hbody, _, hwidth, _⟩
  rw [hbody] at hslot
  cases List.mem_singleton.mp hslot
  rcases step_of_form hform with ⟨hmode, hstep⟩
  refine ⟨?_, hwidth ▸ hstep, ofSingle?_once h hbody ?_⟩
  · intro cursor
    rw [hbody, Body.resolved, resolved_of_toForm hform]
    exact .single opcode
  · rw [hmode]
    exact nofun

/-- No destination is read through a register that advances. -/
theorem ofDouble?_advances {prefixWord : Option PrefixWord} {word : Nat}
    (h : ofDouble? prefixWord word = some encoding) :
    encoding.AdvancesOnce r step := by
  rcases ofDouble?_fields h with ⟨opcode, source, destination, hbody, _, hwidth, _⟩
  rcases ofDouble?_body h with ⟨_, _, _, hbody', _, hdestination⟩
  rw [hbody] at hslot hbody'
  cases hbody'
  rcases List.mem_cons.mp hslot with rfl | hslot
  · rcases step_of_form hform with ⟨hmode, hstep⟩
    refine ⟨?_, hwidth ▸ hstep, ofDouble?_once h hbody ?_⟩
    · intro cursor
      rw [hbody, Body.resolved, resolved_of_toForm hform]
      exact .double opcode _
    · rw [hmode]
      exact nofun
  · cases List.mem_singleton.mp hslot
    rcases step_of_form hform with ⟨hmode, _⟩
    rcases hdestination with hdestination | hdestination <;>
      cases hdestination.symm.trans hmode

theorem ofCalla?_advances {word : Nat} (h : ofCalla? word = some encoding) :
    encoding.AdvancesOnce r step := by
  unfold ofCalla? at h
  dsimp only at h
  split at h <;> cases h <;> cases List.mem_singleton.mp hslot
  case h_4 =>
    cases hform
    exact ⟨fun _ => .calla, rfl, .inl rfl⟩
  case h_2 | h_6 => exact absurd hform (offsetForm_ne_fixed _ _ _ _)
  all_goals cases hform

end

theorem not_formAdvances_of_two {source destination : OperandForm}
    {slot : OperandSlot} {r : Register} {step : Nat}
    (hslot : slot ∈ [OperandSlot.form source, .form destination])
    (hsource : ¬ FormAdvances r step source)
    (hdestination : ¬ FormAdvances r step destination) :
    ¬ FormAdvances r step slot.toForm := by
  rcases List.mem_cons.mp hslot with rfl | hslot
  · exact hsource
  · cases List.mem_singleton.mp hslot
    exact hdestination

theorem ofAddress_advances {word : Nat} {slot : OperandSlot} {r : Register}
    {step : Nat} (hslot : slot ∈ (ofAddress word).body.operands)
    (hform : FormAdvances r step slot.toForm) :
    (ofAddress word).AdvancesOnce r step := by
  have hregister : forall register,
      ¬ FormAdvances r step (.fixed (.register register)) :=
    fun _ => nofun
  have hoffset : forall register,
      ¬ FormAdvances r step (offsetForm register none false) :=
    fun _ => offsetForm_ne_fixed _ _ _ _
  revert hslot
  unfold ofAddress
  dsimp only
  split <;> intro hslot
  case h_1 | h_3 =>
    exact (not_formAdvances_of_two hslot nofun (hregister _) hform).elim
  case h_2 =>
    rcases List.mem_cons.mp hslot with rfl | hslot
    · cases hform
      exact ⟨fun _ => .mova _, rfl, .inl rfl⟩
    · cases List.mem_singleton.mp hslot
      cases hform
  case h_4 =>
    exact (not_formAdvances_of_two hslot (hoffset _) (hregister _) hform).elim
  case h_5 | h_6 => cases hslot
  case h_7 => exact (not_formAdvances_of_two hslot (hregister _) nofun hform).elim
  case h_8 =>
    exact (not_formAdvances_of_two hslot (hregister _) (hoffset _) hform).elim
  case h_9 =>
    split at hslot
    · exact (not_formAdvances_of_two hslot nofun (hregister _) hform).elim
    · exact (not_formAdvances_of_two hslot (hregister _) (hregister _) hform).elim

theorem Family.advances {encoding : Encoding} (h : Family encoding)
    {slot : OperandSlot} (hslot : slot ∈ encoding.body.operands) {r : Register}
    {step : Nat} (hform : FormAdvances r step slot.toForm) :
    encoding.AdvancesOnce r step := by
  cases h with
  | reti => cases hslot
  | jump word => cases hslot
  | multiple hsettled =>
      rcases ofMultiple?_body hsettled with ⟨⟨_, _, _, hbody⟩, _⟩
      rw [hbody] at hslot
      cases hslot
  | single hsettled => exact ofSingle?_advances hslot hform hsettled
  | double hsettled => exact ofDouble?_advances hslot hform hsettled
  | calla hsettled => exact ofCalla?_advances hslot hform hsettled
  | address word => exact ofAddress_advances hslot hform

end Encoding

/-!
# Decoded instructions
-/

namespace Encoding

/-- Without a prefix word the byte bit chooses the width. -/
theorem singleWidth?_ne_address {opcode : SingleOpcode} {byteBit : Bool}
    {width : Width} (h : singleWidth? opcode none byteBit = some width) :
    width ≠ .address := by
  unfold singleWidth? at h
  split at h
  · cases h
  · cases h
    cases byteBit <;> exact nofun

end Encoding

namespace Instruction

variable {inst : Instruction} {r : Register} {step : Nat}

/-- Without a prefix word, operands of twenty bits are those of the address
format. -/
theorem Decoded.width_ne_address (h : inst.Decoded)
    (hextension : inst.extension = none) (hformat : inst.format ≠ .address)
    {operand : Operand} (hoperand : operand ∈ inst.body.operands) :
    inst.width ≠ .address := by
  have hfits := h.widthFits
  rcases h.exists_fields hformat hoperand with
    ⟨encoding, cursor, prefixWord, word, rfl, hsettled⟩
  rcases hsettled with hsettled | hsettled
  · rcases Encoding.ofSingle?_fields hsettled with
      ⟨_, _, _, _, _, hwidth, hextended⟩
    rw [hextended.mp hextension] at hwidth
    exact Encoding.singleWidth?_ne_address hwidth
  · rcases Encoding.ofDouble?_fields hsettled with ⟨_, _, _, hbody, _⟩
    unfold Encoding.instruction at hfits
    rw [hbody] at hfits
    exact hfits hextension

/-- Only the address format moves on the program counter or the constant generator. -/
theorem Decoded.advanced_ne (h : inst.Decoded) (hformat : inst.format ≠ .address)
    (hmem : .autoIncrement r step ∈ inst.body.operands) : r ≠ .pc ∧ r ≠ .cg := by
  rcases h.exists_fields hformat hmem with
    ⟨encoding, cursor, prefixWord, word, rfl, hsettled⟩
  rcases exists_slot hmem with ⟨slot, position, hslot, hresolved⟩
  have hform := Encoding.toForm_of_resolved hresolved.symm
  rcases hsettled with hsettled | hsettled
  · rcases Encoding.ofSingle?_fields hsettled with
      ⟨opcode, target, hbody, hsource, _⟩
    rw [hbody] at hslot
    cases List.mem_singleton.mp hslot
    exact Encoding.advanced_ne hform hsource
  · rcases Encoding.ofDouble?_fields hsettled with
      ⟨opcode, source, destination, hbody, hsource, _⟩
    rcases Encoding.ofDouble?_body hsettled with ⟨_, _, _, hbody', _, hmode⟩
    rw [hbody] at hslot hbody'
    cases hbody'
    rcases List.mem_cons.mp hslot with rfl | hslot
    · exact Encoding.advanced_ne hform hsource
    · cases List.mem_singleton.mp hslot
      have hadvances := (Encoding.step_of_form hform).1
      rcases hmode with hmode | hmode <;> cases hmode.symm.trans hadvances

/-- A register that an instruction advances is that of its source, it advances by
the step of the width, and the instruction is not repeated. -/
theorem Decoded.advances (h : inst.Decoded)
    (hmem : .autoIncrement r step ∈ inst.body.operands) :
    inst.body.Advances r step ∧ step = autoIncrementStep r inst.width ∧
      (inst.extension = none ∨ inst.extension = some .once) := by
  rcases h.exists_family with ⟨encoding, cursor, hfamily, rfl⟩
  rcases exists_slot hmem with ⟨slot, position, hslot, hresolved⟩
  have hform := Encoding.toForm_of_resolved hresolved.symm
  have hadvances := hfamily.advances hslot hform
  exact ⟨hadvances.body cursor, hadvances.step_eq, hadvances.once⟩

end Instruction

/-!
# Repetitions

A prefix word counts from one, so that the instruction behind it runs at least once.
-/

namespace Encoding

theorem ofSingle?_extension {prefixWord : PrefixWord} {word : Nat}
    {encoding : Encoding} (h : ofSingle? (some prefixWord) word = some encoding) :
    encoding.extension = some prefixWord.registerForm ∨
      encoding.extension = some .once := by
  unfold ofSingle? at h
  rcases Option.bind_eq_some_iff.mp h with ⟨_, _, h⟩
  rcases Option.bind_eq_some_iff.mp h with ⟨_, _, h⟩
  cases h
  dsimp only [Option.map_some]
  split
  · exact .inl rfl
  · exact .inr rfl

theorem ofDouble?_extension {prefixWord : PrefixWord} {word : Nat}
    {encoding : Encoding} (h : ofDouble? (some prefixWord) word = some encoding) :
    encoding.extension = some prefixWord.registerForm ∨
      encoding.extension = some .once := by
  unfold ofDouble? at h
  rcases Option.bind_eq_some_iff.mp h with ⟨_, _, h⟩
  rcases Option.bind_eq_some_iff.mp h with ⟨_, _, h⟩
  cases h
  dsimp only [Option.map_some]
  split
  · exact .inl rfl
  · exact .inr rfl

theorem ofPrefixed?_cases {prefixWord : PrefixWord} {word : Nat}
    {encoding : Encoding} (h : ofPrefixed? prefixWord word = some encoding) :
    encoding.extension = some prefixWord.registerForm ∨
      encoding.extension = some .once := by
  unfold ofPrefixed? at h
  split at h
  · cases h
  · split at h
    · exact ofSingle?_extension h
    · split at h
      · cases h
      · exact ofDouble?_extension h

theorem registerForm_ne_times_zero (word : Nat) (zeroCarry : Bool) :
    (PrefixWord.ofWord word).registerForm ≠
      { repetition := .times 0, zeroCarry := zeroCarry } := by
  unfold PrefixWord.ofWord
  dsimp only
  split <;> exact nofun

end Encoding

theorem Instruction.Decoded.extension_ne_times_zero {inst : Instruction}
    (h : inst.Decoded) (zeroCarry : Bool) :
    inst.extension ≠ some { repetition := .times 0, zeroCarry := zeroCarry } := by
  rcases h with ⟨variant, data, address, hdecode⟩
  rcases exists_encoding hdecode with ⟨encoding, hsettled, rfl⟩
  show encoding.extension ≠ _
  unfold Encoding.settled? at hsettled
  split at hsettled
  · rcases Encoding.ofPrefixed?_cases hsettled with hextension | hextension <;>
      rw [hextension]
    · exact fun heq => Encoding.registerForm_ne_times_zero _ _ (Option.some.inj heq)
    · exact nofun
  · rw [(Encoding.unprefixed_ofWord? hsettled).extension]
    exact nofun

end MSP430
