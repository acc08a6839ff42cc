import MSP430.Proofs.Decode.Addresses
import MSP430.Proofs.Decode.Counts

/-!
# Ranges of decoded operands

Every value, address, offset, step and count that an operand of a decoded instruction
holds lies in the range that its format leaves it.  Offsets have the width of their
extension word, which only a prefix word widens: the one other offset of twenty bits,
that of a call, is shown as the address it comes to.
-/

namespace MSP430

namespace Operand

/-- The offset that an operand shows. -/
def offset? : Operand -> Option Int
  | indexed _ offset | symbolic offset _ => some offset
  | _ => none

end Operand

theorem Width.toInt_bounds (width : Width) (value : Nat) :
    -(width.signBit : Int) ≤ width.toInt value ∧ width.toInt value < width.signBit := by
  have hlt := width.truncate_lt value
  have hmodulus := width.modulus_eq_two_mul_signBit
  unfold Width.truncate at hlt
  unfold Width.toInt
  split <;> omega

namespace Encoding

/-!
# Offsets
-/

/-- The offsets that a form shows have the width, or a smaller one. -/
def FormReaches (width : Width) : OperandForm -> Prop
  | .fixed operand => operand.offset? = none
  | .indexed _ high => (extensionWidth high).signBit ≤ width.signBit
  | .relative high _ asAbsolute =>
      asAbsolute = true ∨ (extensionWidth high).signBit ≤ width.signBit
  | .absolute _ | .immediate _ _ => True

theorem offset_bounds_of_formReaches {width : Width} {form : OperandForm}
    (h : FormReaches width form) {cursor : Cursor} {offset : Int}
    (hoffset : (form.resolved cursor).offset? = some offset) :
    -(width.signBit : Int) ≤ offset ∧ offset < width.signBit := by
  have hextended : forall high word,
      (extensionWidth high).signBit ≤ width.signBit ->
        -(width.signBit : Int) ≤ extendSigned high word ∧
          extendSigned high word < width.signBit := by
    intro high word hle
    have hbounds := (extensionWidth high).toInt_bounds (extendUnsigned high word)
    unfold extendSigned
    omega
  cases form with
  | fixed operand => cases h.symm.trans hoffset
  | absolute _ | immediate _ _ => cases hoffset
  | indexed register high =>
      cases hoffset
      exact hextended high _ h
  | relative high space asAbsolute =>
      cases asAbsolute with
      | true => cases hoffset
      | false =>
          cases hoffset
          exact hextended high _ (h.resolve_left nofun)

theorem formReaches_offsetForm (register : Register) {high : Option Nat}
    {asAbsolute : Bool} {width : Width}
    (h : (extensionWidth high).signBit ≤ width.signBit) :
    FormReaches width (offsetForm register high asAbsolute) := by
  unfold offsetForm
  split
  · exact .inr h
  · exact h

theorem formReaches_field {width : Width} (field : OperandField)
    (h : field.mode = .indexed ->
      (extensionWidth field.high).signBit ≤ width.signBit) :
    FormReaches width field.form := by
  unfold OperandField.form
  split
  · rfl
  · split
    case h_3 hmode _ => exact .inr (h hmode)
    case h_4 hmode _ _ => exact h hmode
    all_goals first | rfl | trivial

theorem signBit_le_address (width : Width) : width.signBit ≤ Width.address.signBit := by
  cases width <;> decide

theorem formLaw_reaches : FormLaw fun _ => FormReaches .address where
  field := fun field => formReaches_field field fun _ => signBit_le_address _
  fixed := by
    intro operand _ hwords
    cases operand <;> first | rfl | cases hwords
  offset := fun register _ _ => formReaches_offsetForm register (signBit_le_address _)
  absolute := fun _ => trivial
  immediate := fun _ => trivial

/-- The offset of twenty bits that a call has from the program counter is not shown. -/
theorem ofCalla?_reaches {word : Nat} {encoding : Encoding}
    (h : ofCalla? word = some encoding) :
    forall slot, slot ∈ encoding.body.operands -> FormReaches .word slot.toForm := by
  intro slot hslot
  unfold ofCalla? at h
  dsimp only at h
  split at h <;> cases h <;> cases List.mem_singleton.mp hslot
  case h_2 => exact formReaches_offsetForm _ (Nat.le_refl _)
  case h_6 => exact .inl rfl
  all_goals first | rfl | trivial

theorem ofAddress_reaches (word : Nat) :
    forall slot, slot ∈ (ofAddress word).body.operands ->
      FormReaches .word slot.toForm := by
  have hregister : forall register, FormReaches .word (.fixed (.register register)) :=
    fun _ => rfl
  have hoffset : forall register, FormReaches .word (offsetForm register none false) :=
    fun register => formReaches_offsetForm register (Nat.le_refl _)
  have htwo : forall {source destination : OperandForm}, FormReaches .word source ->
      FormReaches .word destination ->
      forall slot, slot ∈ [OperandSlot.form source, .form destination] ->
        FormReaches .word slot.toForm := by
    intro source destination hsource hdestination slot hslot
    rcases List.mem_cons.mp hslot with rfl | hslot
    · exact hsource
    · cases List.mem_singleton.mp hslot
      exact hdestination
  unfold ofAddress
  dsimp only
  split
  case h_1 | h_2 => exact htwo rfl (hregister _)
  case h_3 => exact htwo trivial (hregister _)
  case h_4 => exact htwo (hoffset _) (hregister _)
  case h_5 | h_6 => exact List.forall_mem_nil _
  case h_7 => exact htwo (hregister _) trivial
  case h_8 => exact htwo (hregister _) (hoffset _)
  case h_9 =>
    split
    · exact htwo trivial (hregister _)
    · exact htwo (hregister _) (hregister _)

/-- Without a prefix word, every offset that is shown has sixteen bits. -/
theorem Family.reaches {encoding : Encoding} (h : Family encoding)
    (hextension : encoding.extension = none) :
    forall slot, slot ∈ encoding.body.operands -> FormReaches .word slot.toForm := by
  have hfields : forall {prefixWord : Option PrefixWord} {word : Nat},
      (ofSingle? prefixWord word = some encoding ∨
        ofDouble? prefixWord word = some encoding) ->
      forall slot, slot ∈ encoding.body.operands -> FormReaches .word slot.toForm := by
    intro prefixWord word hsettled slot hslot
    rcases fields_unwidened hsettled hextension hslot with ⟨field, rfl, hhigh⟩
    apply formReaches_field
    intro hmode
    rw [hhigh hmode]
    exact Nat.le_refl _
  cases h with
  | reti => exact List.forall_mem_nil _
  | jump word => exact List.forall_mem_nil _
  | single hsettled => exact hfields (.inl hsettled)
  | double hsettled => exact hfields (.inr hsettled)
  | calla hsettled => exact ofCalla?_reaches hsettled
  | address word => exact ofAddress_reaches word
  | multiple hsettled =>
      rcases ofMultiple?_body hsettled with ⟨⟨_, _, _, hbody⟩, _⟩
      rw [hbody]
      exact List.forall_mem_nil _

/-!
# Constants
-/

/-- The values that the status register and the constant generator stand for. -/
def generatedConstants : List Int :=
  [4, 8, 0, 1, 2, -1]

theorem generatedConstant?_mem {mode : AddressingMode} {register : Register}
    {value : Int} (h : generatedConstant? mode register = some value) :
    value ∈ generatedConstants := by
  unfold generatedConstant? at h
  split at h <;> cases h <;> decide

/-- A constant that the form stands for is a generated one. -/
def FormGenerates (form : OperandForm) : Prop :=
  forall value, form = .fixed (.constant value) -> value ∈ generatedConstants

theorem formGenerates_field (field : OperandField) : FormGenerates field.form := by
  intro value hform
  unfold OperandField.form at hform
  split at hform
  · next hgenerated =>
      cases hform
      unfold OperandField.generated? at hgenerated
      exact generatedConstant?_mem (Option.ite_none_left_eq_some.mp hgenerated).2
  · split at hform <;> cases hform

theorem formLaw_generates : FormLaw fun _ => FormGenerates where
  field := formGenerates_field
  fixed := by
    rintro operand hvalue _ value heq
    cases heq
    cases hvalue
  offset := fun _ _ _ _ hform => absurd hform (offsetForm_ne_fixed _ _ _ _)
  absolute := fun _ => nofun
  immediate := fun _ => nofun

theorem form_of_constant {form : OperandForm} {cursor : Cursor} {value : Int}
    (h : form.resolved cursor = .constant value) : form = .fixed (.constant value) := by
  cases form with
  | fixed operand => exact congrArg OperandForm.fixed h
  | absolute _ | immediate _ _ | indexed _ _ => cases h
  | relative high space asAbsolute => cases asAbsolute <;> cases h

/-!
# Places
-/

/-- A form that names a place is no register that advances. -/
theorem resolved_ne_autoIncrement {form : OperandForm} (h : FormIsPlace form)
    (cursor : Cursor) (r : Register) (step : Nat) :
    form.resolved cursor ≠ .autoIncrement r step := by
  cases form with
  | fixed operand =>
      rcases h with ⟨register, rfl⟩
      exact nofun
  | immediate _ _ => exact h.elim
  | absolute _ | indexed _ _ => exact nofun
  | relative high space asAbsolute => cases asAbsolute <;> exact nofun

end Encoding

namespace Instruction

variable {inst : Instruction}

/-- The operand is the source or the destination. -/
def HasOperand (inst : Instruction) (operand : Operand) : Prop :=
  inst.source? = some operand ∨ inst.destination? = some operand

/-- Besides the operands with fields of their own there are counts and registers. -/
theorem HasOperand.cases {operand : Operand} (h : inst.HasOperand operand) :
    operand ∈ inst.body.operands ∨ (exists r, operand = .register r) ∨
      exists count : Nat, operand = .constant count ∧
        ((exists opcode, inst.opcode = .multiple opcode) ∨
          exists opcode, inst.opcode = .shift opcode) := by
  unfold HasOperand source? destination? at h
  unfold opcode
  cases hbody : inst.body with
  | reti | jump _ _ => rw [hbody] at h; rcases h with h | h <;> cases h
  | single opcode target | calla target =>
      rw [hbody] at h
      rcases h with h | h <;> cases h
      exact .inl List.mem_cons_self
  | double opcode source destination | address opcode source destination =>
      rw [hbody] at h
      rcases h with h | h <;> cases h
      · exact .inl List.mem_cons_self
      · exact .inl (List.mem_cons_of_mem _ List.mem_cons_self)
  | multiple opcode count highest =>
      rw [hbody] at h
      rcases h with h | h <;> cases h
      · exact .inr (.inr ⟨count, rfl, .inl ⟨opcode, rfl⟩⟩)
      · exact .inr (.inl ⟨highest, rfl⟩)
  | shift opcode count destination =>
      rw [hbody] at h
      rcases h with h | h <;> cases h
      · exact .inr (.inr ⟨count, rfl, .inr ⟨opcode, rfl⟩⟩)
      · exact .inr (.inl ⟨destination, rfl⟩)

/-- An operand that holds anything but a register or a constant has a field. -/
theorem HasOperand.mem {operand : Operand} (h : inst.HasOperand operand)
    (hregister : forall r, operand ≠ .register r)
    (hconstant : forall value, operand ≠ .constant value) :
    operand ∈ inst.body.operands := by
  rcases h.cases with hmem | ⟨r, heq⟩ | ⟨count, heq, _⟩
  · exact hmem
  · exact absurd heq (hregister r)
  · exact absurd heq (hconstant count)

/-- What the operands of an instruction hold lies in range. -/
structure OperandsFit (inst : Instruction) : Prop where
  immediate : forall value, inst.HasOperand (.immediate value) ->
    value < 2 ^ inst.width.bits
  /-- Addresses, of absolute and symbolic operands, have twenty bits, and sixteen without
  a prefix word and outside the address format. -/
  address : forall operand address, inst.HasOperand operand ->
    operand.memoryAddress? = some address ->
      address < 2 ^ 20 ∧
        (inst.extension = none -> inst.format ≠ .address -> address < 2 ^ 16)
  /-- Offsets, of indexed and symbolic operands, have twenty bits, and sixteen without a
  prefix word. -/
  offset : forall operand offset, inst.HasOperand operand ->
    operand.offset? = some offset ->
      (-(2 ^ 19 : Nat) ≤ offset ∧ offset < (2 ^ 19 : Nat)) ∧
        (inst.extension = none -> -(2 ^ 15 : Nat) ≤ offset ∧ offset < (2 ^ 15 : Nat))
  step : forall r step, inst.HasOperand (.autoIncrement r step) ->
    step = autoIncrementStep r inst.width
  /-- Constants that are no counts are generated ones. -/
  constant : forall value, inst.HasOperand (.constant value) ->
    (forall opcode, inst.opcode ≠ .shift opcode) ->
      (forall opcode, inst.opcode ≠ .multiple opcode) ->
        value ∈ Encoding.generatedConstants
  shift : forall opcode, inst.opcode = .shift opcode ->
    exists count : Nat, inst.source? = some (.constant count) ∧ 1 ≤ count ∧ count ≤ 4
  /-- A range ends within the registers. -/
  multiple : forall opcode, inst.opcode = .multiple opcode ->
    exists (count : Nat) (highest : Register),
      inst.source? = some (.constant count) ∧
        inst.destination? = some (.register highest) ∧
        1 ≤ count ∧ count ≤ highest.id + 1 ∧ highest.id ≤ 15
  destination : forall opcode destination, inst.opcode = .double opcode ->
    inst.destination? = some destination ->
      (forall value, destination ≠ .immediate value) ∧
        (forall value, destination ≠ .constant value) ∧
        forall r step, destination ≠ .autoIncrement r step

namespace Decoded

theorem offset_bounds (h : inst.Decoded) {operand : Operand}
    (hmem : operand ∈ inst.body.operands) {offset : Int}
    (hoffset : operand.offset? = some offset) :
    (-(2 ^ 19 : Nat) ≤ offset ∧ offset < (2 ^ 19 : Nat)) ∧
      (inst.extension = none -> -(2 ^ 15 : Nat) ≤ offset ∧ offset < (2 ^ 15 : Nat)) := by
  rcases h.exists_family with ⟨encoding, cursor, hfamily, rfl⟩
  rcases exists_slot hmem with ⟨slot, position, hslot, rfl⟩
  refine ⟨?_, fun hextension => ?_⟩
  · exact Encoding.offset_bounds_of_formReaches
      (hfamily.slots Encoding.formLaw_reaches slot hslot) hoffset
  · exact Encoding.offset_bounds_of_formReaches
      (hfamily.reaches hextension slot hslot) hoffset

theorem constant_mem (h : inst.Decoded) {value : Int}
    (hmem : .constant value ∈ inst.body.operands) :
    value ∈ Encoding.generatedConstants := by
  rcases h.exists_family with ⟨encoding, cursor, hfamily, rfl⟩
  rcases exists_slot hmem with ⟨slot, position, hslot, hresolved⟩
  exact hfamily.slots Encoding.formLaw_generates slot hslot value
    (Encoding.form_of_constant hresolved.symm)

/-- The operands of every decoded instruction are in range. -/
theorem operands_fit (h : inst.Decoded) : inst.OperandsFit where
  immediate := by
    intro value hoperand
    have hlt := h.immediate_lt (hoperand.mem nofun nofun)
    rwa [inst.width.modulus_eq_shift, Nat.one_shiftLeft] at hlt
  address := by
    intro operand address hoperand haddress
    have hmem := hoperand.mem
      (by rintro r rfl; cases haddress) (by rintro value rfl; cases haddress)
    exact ⟨h.memoryAddress_lt_address hmem haddress, fun hextension hformat =>
      h.memoryAddress_lt_word hextension hformat hmem haddress⟩
  offset := by
    intro operand offset hoperand hoffset
    have hmem := hoperand.mem
      (by rintro r rfl; cases hoffset) (by rintro value rfl; cases hoffset)
    exact h.offset_bounds hmem hoffset
  step := fun r step hoperand => (h.advances (hoperand.mem nofun nofun)).2.1
  constant := by
    intro value hoperand hshift hmultiple
    rcases hoperand.cases with hmem | ⟨r, heq⟩ | ⟨count, _, hopcode⟩
    · exact h.constant_mem hmem
    · cases heq
    · rcases hopcode with ⟨opcode, hopcode⟩ | ⟨opcode, hopcode⟩
      · exact absurd hopcode (hmultiple opcode)
      · exact absurd hopcode (hshift opcode)
  shift := by
    intro opcode hopcode
    have hrange := h.inRange
    unfold source?
    unfold Instruction.opcode at hopcode
    cases hbody : inst.body with
    | shift _ count _ =>
        rw [hbody] at hrange
        exact ⟨count, rfl, hrange.1⟩
    | _ =>
        rw [hbody] at hopcode
        cases hopcode
  multiple := by
    intro opcode hopcode
    have hrange := h.inRange
    unfold source? destination?
    unfold Instruction.opcode at hopcode
    cases hbody : inst.body with
    | multiple _ count highest =>
        rw [hbody] at hrange
        exact ⟨count, highest, rfl, rfl, hrange.1, hrange.2,
          Nat.le_of_lt_succ highest.id_lt⟩
    | _ =>
        rw [hbody] at hopcode
        cases hopcode
  destination := by
    intro opcode destination hopcode hdestination
    have hplace := h.destination_isPlace hdestination
    rcases h.exists_place hdestination with ⟨form, cursor, hform, heq⟩
    refine ⟨?_, ?_, fun r step hstep => ?_⟩
    · rintro value rfl
      cases hplace
    · rintro value rfl
      cases hplace
    · exact Encoding.resolved_ne_autoIncrement hform cursor r step (heq ▸ hstep)

/-- A move from behind the end of the low 64 KiB, by an offset that wraps in the
twenty-bit space. -/
def wideMove : Instruction where
  address := 0x4400
  width := .word
  extension := some .once
  body := .double .mov (.symbolic (-0x8000) 0xfc406) (.register .r5)
  length := 6

theorem operands_fit_wide :
    wideMove.Decoded ∧ wideMove.OperandsFit := by
  have hdecoded : wideMove.Decoded :=
    ⟨.msp430x, [0xc0, 0x1f, 0x15, 0x40, 0x00, 0x80], 0x4400, rfl⟩
  exact ⟨hdecoded, operands_fit hdecoded⟩

end Decoded
end Instruction
end MSP430
