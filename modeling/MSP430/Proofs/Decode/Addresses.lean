import MSP430.Proofs.Decode.Encode
import MSP430.Proofs.Decode.Relocation
import MSP430.Proofs.Decode.Steps

/-!
# Addresses of decoded operands

An address that an instruction holds, or comes to from the program counter, lies in the
twenty-bit space.  Without a prefix word it has no high bits, and then it lies in the
low 64 KiB, except in the address format.  An operand that is neither a register nor a
constant leaves no room for a repetition.
-/

namespace MSP430
namespace Encoding

/-- The addresses that a form comes to lie in the space. -/
def FormWithin (space : Width) : OperandForm -> Prop
  | .fixed operand => operand.memoryAddress? = none
  | .absolute high => (extensionWidth high).modulus ≤ space.modulus
  | .relative _ ownSpace _ => ownSpace.modulus ≤ space.modulus
  | .immediate _ _ | .indexed _ _ => True

theorem modulus_le_address (width : Width) : width.modulus ≤ Width.address.modulus := by
  cases width <;> decide

theorem extendUnsigned_lt (high : Option Nat) {word : Nat} (h : word < 0x10000) :
    extendUnsigned high word < (extensionWidth high).modulus := by
  cases high with
  | none => exact h
  | some bits =>
      show 0x10000 * (bits % 16) + word < 0x100000
      omega

theorem memoryAddress_lt_of_formWithin {space : Width} {form : OperandForm}
    (h : FormWithin space form) {cursor : Cursor} {address : Nat}
    (haddress : (form.resolved cursor).memoryAddress? = some address) :
    address < space.modulus := by
  cases form with
  | fixed operand => cases h.symm.trans haddress
  | immediate _ _ | indexed _ _ => cases haddress
  | absolute high =>
      cases haddress
      exact Nat.lt_of_lt_of_le (extendUnsigned_lt high (wordAt_lt _ _)) h
  | relative high ownSpace asAbsolute =>
      cases asAbsolute <;> cases haddress <;>
        exact Nat.lt_of_lt_of_le (ownSpace.ofInt_lt _) h

/-!
# Each format
-/

theorem formWithin_field {space : Width} (field : OperandField)
    (h : field.mode = .indexed ->
      (extensionWidth field.high).modulus ≤ space.modulus) :
    FormWithin space field.form := by
  unfold OperandField.form
  split
  · rfl
  · split
    case h_2 hmode _ | h_3 hmode _ => exact h hmode
    all_goals first | rfl | trivial

theorem formWithin_offsetForm (register : Register) (high : Option Nat)
    (asAbsolute : Bool) : FormWithin .address (offsetForm register high asAbsolute) := by
  unfold offsetForm
  split
  · exact Nat.le_refl _
  · trivial

theorem formLaw_within : FormLaw fun _ => FormWithin .address where
  field := fun field => formWithin_field field fun _ => modulus_le_address _
  fixed := by
    intro operand _ hwords
    cases operand <;> first | rfl | cases hwords
  offset := formWithin_offsetForm
  absolute := fun _ => modulus_le_address _
  immediate := fun _ => trivial

/-- Without a prefix word, indexed fields have no high bits. -/
theorem fields_unwidened {encoding : Encoding} {prefixWord : Option PrefixWord}
    {word : Nat}
    (h : ofSingle? prefixWord word = some encoding ∨
      ofDouble? prefixWord word = some encoding)
    (hextension : encoding.extension = none) {slot : OperandSlot}
    (hslot : slot ∈ encoding.body.operands) :
    exists field, slot = .field field ∧ (field.mode = .indexed -> field.high = none) := by
  have hnone : forall {field : OperandField} {high : PrefixWord -> Nat},
      (field.mode = .indexed -> field.high = prefixWord.map high) ->
      prefixWord = none -> field.mode = .indexed -> field.high = none := by
    intro field high hhigh hword hmode
    rw [hhigh hmode, hword]
    rfl
  rcases h with h | h
  · rcases ofSingle?_fields h with ⟨_, _, _, _, _, _, hword⟩
    rcases ofSingle?_high h with ⟨_, target, hbody, hhigh⟩
    rw [hbody] at hslot
    exact ⟨target, List.mem_singleton.mp hslot, hnone hhigh (hword.mp hextension)⟩
  · rcases ofDouble?_fields h with ⟨_, _, _, _, _, _, _, _, hword⟩
    rcases ofDouble?_high h with ⟨_, source, destination, hbody, hsource, hdestination, _⟩
    rw [hbody] at hslot
    rcases List.mem_cons.mp hslot with rfl | hslot
    · exact ⟨source, rfl, hnone hsource (hword.mp hextension)⟩
    · exact ⟨destination, List.mem_singleton.mp hslot,
        hnone hdestination (hword.mp hextension)⟩

theorem fields_within {encoding : Encoding} {prefixWord : Option PrefixWord}
    {word : Nat}
    (h : ofSingle? prefixWord word = some encoding ∨
      ofDouble? prefixWord word = some encoding)
    (hextension : encoding.extension = none) :
    forall slot, slot ∈ encoding.body.operands -> FormWithin .word slot.toForm := by
  intro slot hslot
  rcases fields_unwidened h hextension hslot with ⟨field, rfl, hhigh⟩
  apply formWithin_field
  intro hmode
  rw [hhigh hmode]
  exact Nat.le_refl _

/-!
# Operands that leave no repetition
-/

/-- In register mode a field stands for a register or for a constant. -/
theorem form_of_register {field : OperandField} (h : field.mode = .register) :
    (exists r, field.form = .fixed (.register r)) ∨
      exists value, field.form = .fixed (.constant value) := by
  unfold OperandField.form
  cases field.generated? with
  | some value => exact .inr ⟨value, rfl⟩
  | none =>
      rw [h]
      exact .inl ⟨_, rfl⟩

theorem mode_ne_register {field : OperandField} {cursor : Cursor}
    (hregister : forall r, (OperandSlot.field field).resolved cursor ≠ .register r)
    (hconstant : forall value,
      (OperandSlot.field field).resolved cursor ≠ .constant value) :
    field.mode ≠ .register := by
  have hresolved : forall {operand : Operand}, field.form = .fixed operand ->
      (OperandSlot.field field).resolved cursor = operand := fun hform =>
    @resolved_of_toForm (.field field) _ hform cursor
  intro hmode
  rcases form_of_register hmode with ⟨r, hform⟩ | ⟨value, hform⟩
  · exact hregister r (hresolved hform)
  · exact hconstant value (hresolved hform)

/-- Behind a prefix word there is a repetition only where all operands are registers or
constants. -/
theorem Family.once_of_operand {encoding : Encoding} (h : Family encoding)
    {slot : OperandSlot} (hslot : slot ∈ encoding.body.operands) {cursor : Cursor}
    (hregister : forall r, slot.resolved cursor ≠ .register r)
    (hconstant : forall value, slot.resolved cursor ≠ .constant value) :
    encoding.extension = none ∨ encoding.extension = some .once := by
  cases h with
  | reti => exact .inl rfl
  | jump word => exact .inl rfl
  | multiple hsettled => exact .inl (ofMultiple?_body hsettled).2
  | calla hsettled => exact .inl (ofCalla?_body hsettled).2
  | address word => exact .inl (ofAddress_body word).2
  | single hsettled =>
      rcases ofSingle?_fields hsettled with ⟨_, target, hbody, _⟩
      rw [hbody] at hslot
      cases List.mem_singleton.mp hslot
      exact ofSingle?_once hsettled hbody (mode_ne_register hregister hconstant)
  | double hsettled =>
      rcases ofDouble?_fields hsettled with ⟨_, source, destination, hbody, _⟩
      apply ofDouble?_once hsettled hbody
      rw [hbody] at hslot
      rcases List.mem_cons.mp hslot with rfl | hslot
      · exact fun hmodes => mode_ne_register hregister hconstant hmodes.1
      · cases List.mem_singleton.mp hslot
        exact fun hmodes => mode_ne_register hregister hconstant hmodes.2

end Encoding

namespace Instruction

variable {inst : Instruction}

/-- An address of an operand lies in the twenty-bit space. -/
theorem Decoded.memoryAddress_lt_address (h : inst.Decoded) {operand : Operand}
    (hmem : operand ∈ inst.body.operands) {address : Nat}
    (haddress : operand.memoryAddress? = some address) :
    address < Width.address.modulus := by
  rcases h.exists_family with ⟨encoding, cursor, hfamily, rfl⟩
  rcases exists_slot hmem with ⟨slot, position, hslot, rfl⟩
  exact Encoding.memoryAddress_lt_of_formWithin
    (hfamily.slots Encoding.formLaw_within slot hslot) haddress

/-- Without a prefix word, and outside the address format, it lies in the low
64 KiB. -/
theorem Decoded.memoryAddress_lt_word (h : inst.Decoded)
    (hextension : inst.extension = none) (hformat : inst.format ≠ .address)
    {operand : Operand} (hmem : operand ∈ inst.body.operands) {address : Nat}
    (haddress : operand.memoryAddress? = some address) :
    address < Width.word.modulus := by
  rcases h.exists_fields hformat hmem with
    ⟨encoding, cursor, prefixWord, word, rfl, hsettled⟩
  rcases exists_slot hmem with ⟨slot, position, hslot, rfl⟩
  exact Encoding.memoryAddress_lt_of_formWithin
    (Encoding.fields_within hsettled hextension slot hslot) haddress

/-- An instruction with an operand that is neither a register nor a constant runs
once. -/
theorem Decoded.once_of_operand (h : inst.Decoded) {operand : Operand}
    (hmem : operand ∈ inst.body.operands)
    (hregister : forall r, operand ≠ .register r)
    (hconstant : forall value, operand ≠ .constant value) :
    inst.extension = none ∨ inst.extension = some .once := by
  rcases h.exists_family with ⟨encoding, cursor, hfamily, rfl⟩
  rcases exists_slot hmem with ⟨slot, position, hslot, rfl⟩
  exact hfamily.once_of_operand hslot hregister hconstant

end Instruction
end MSP430
