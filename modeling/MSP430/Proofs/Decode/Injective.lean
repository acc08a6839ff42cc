import MSP430.Proofs.Decode.Encode
import MSP430.Proofs.Decode.Length
import MSP430.Proofs.Decode.Steps

/-!
# What decoding loses

An instruction without a prefix word tells almost everything about the words it was
decoded from, so that its encoding gives them back.  Two things get lost.  An immediate
of a byte operation drops the upper byte of its extension word.  And the target of a
call or a branch is made an absolute address, whether it was one or an offset from the
program counter.

The first half of the module is about extension words, the second about opcode words,
format by format.
-/

namespace MSP430

namespace Instruction

/-- The instructions in which an offset from the program counter is turned into an
absolute address. -/
def TakesAbsolute (inst : Instruction) : Prop :=
  inst.opcode = .single .call ∨ inst.opcode = .calla ∨
    (inst.opcode = .double .mov ∧ inst.destination? = some (.register .pc))

/-- The instruction tells all of its encoding. -/
structure Lossless (inst : Instruction) : Prop where
  unprefixed : inst.extension = none
  immediate : forall value,
    inst.source? = some (.immediate value) -> inst.width ≠ .byte
  absolute : forall address,
    inst.source? = some (.absolute address) -> ¬ inst.TakesAbsolute

end Instruction

/-!
# Extension words
-/

namespace Encoding

/-- The operand of the form has the extension word it was made of. -/
def FormKept : OperandForm -> Prop
  | .fixed operand => operand.extensionWords = 0
  | .immediate _ width => width ≠ .byte
  | .relative _ _ asAbsolute => asAbsolute = false
  | .absolute _ | .indexed _ _ => True

theorem formKept_of {width : Width} {form : OperandForm} (hfits : FormFits width form)
    (hcounts : FormCounts form)
    (himmediate : forall high, form = .immediate high width -> width ≠ .byte)
    (habsolute : forall high space, form ≠ .relative high space true) :
    FormKept form := by
  cases form with
  | fixed operand => exact hcounts
  | immediate high ownWidth =>
      cases hfits
      exact himmediate high rfl
  | relative high space asAbsolute =>
      cases asAbsolute with
      | false => rfl
      | true => exact absurd rfl (habsolute high space)
  | absolute _ | indexed _ _ => trivial

theorem truncate_extendUnsigned (high : Option Nat) {word : Nat}
    (h : word < 0x10000) : Width.word.truncate (extendUnsigned high word) = word := by
  unfold Width.truncate Width.modulus
  cases high <;> simp only [extendUnsigned] <;> omega

theorem ofInt_extendSigned (high : Option Nat) {word : Nat} (h : word < 0x10000) :
    Width.word.ofInt (extendSigned high word) = word := by
  unfold Width.ofInt extendSigned Width.toInt
  cases high <;>
    simp only [extendUnsigned, extensionWidth, Width.modulus, Width.signBit] <;>
    omega

theorem extension_resolved {form : OperandForm} (h : FormKept form)
    (cursor : Cursor) :
    (form.resolved cursor).extension =
      wordsAt cursor.data cursor.position form.words := by
  have hword := wordAt_lt cursor.data cursor.position
  cases form with
  | fixed operand => exact Operand.extension_eq_nil h
  | absolute high =>
      exact congrArg (fun word => [word]) (truncate_extendUnsigned high hword)
  | indexed register high =>
      exact congrArg (fun word => [word]) (ofInt_extendSigned high hword)
  | relative high space asAbsolute =>
      cases h
      exact congrArg (fun word => [word]) (ofInt_extendSigned high hword)
  | immediate high width =>
      have hvalue := truncate_extendUnsigned high hword
      have htruncate : forall value,
          Width.word.truncate (width.truncate value) = Width.word.truncate value := by
        intro value
        unfold Width.truncate
        cases width with
        | byte => exact absurd rfl h
        | word | address => simp only [Width.modulus]; omega
      exact congrArg (fun word => [word]) ((htruncate _).trans hvalue)

theorem extension_body {body : Body OperandSlot}
    (h : forall slot, slot ∈ body.operands -> FormKept slot.toForm)
    (cursor : Cursor) :
    (body.resolved cursor).extension =
      wordsAt cursor.data cursor.position body.words := by
  cases body with
  | reti | jump _ _ | multiple _ _ _ | shift _ _ _ => rfl
  | single opcode target | calla target =>
      have htarget := extension_resolved (h target List.mem_cons_self) cursor
      exact (List.append_nil _).trans htarget
  | double opcode source destination | address opcode source destination =>
      have hsource := extension_resolved (h source List.mem_cons_self) cursor
      have hdestination := extension_resolved
        (h destination (List.mem_cons_of_mem _ List.mem_cons_self))
        (source.behind cursor)
      show (source.resolved cursor).extension ++
          ((destination.resolved (source.behind cursor)).extension ++ []) =
        wordsAt cursor.data cursor.position (source.words + destination.words)
      rw [List.append_nil, wordsAt_append]
      exact congr (congrArg _ hsource) hdestination

/-!
# Opcode words of single-operand and double-operand instructions
-/

theorem field_resolved {field : OperandField} (h : FormKept field.form)
    (cursor : Cursor) :
    (field.form.resolved cursor).field = (field.mode, field.register) := by
  rcases field with ⟨mode, register, width, isDestination, preferAbsolute, high⟩
  revert h
  unfold OperandField.form
  cases hgenerated : OperandField.generated? _ with
  | some value =>
      intro _
      unfold OperandField.generated? generatedConstant? at hgenerated
      dsimp only at hgenerated
      split at hgenerated
      · cases hgenerated
      · split at hgenerated <;> cases hgenerated <;> rfl
  | none =>
      dsimp only
      split
      case h_3 =>
        intro h
        cases h
        rfl
      all_goals
        intro _
        rfl

theorem relative_of_preferAbsolute {field : OperandField} {high : Option Nat}
    {space : Width} (h : field.form = .relative high space true) :
    field.preferAbsolute = true := by
  unfold OperandField.form at h
  split at h
  · cases h
  · split at h <;> injection h

theorem ofSingle?_none {word : Nat} {encoding : Encoding}
    (h : ofSingle? none word = some encoding) :
    exists opcode target,
      encoding =
          { width := .ofByteBit (byteBit word)
            body := .single opcode (.field target) } ∧
        opcode.slot = word / 0x80 % 8 ∧
        target.mode = .ofBits (word / 0x10) ∧ target.register = .ofField word ∧
        target.width = .ofByteBit (byteBit word) ∧
        (target.preferAbsolute = true -> opcode = .call) := by
  unfold ofSingle? at h
  rcases Option.bind_eq_some_iff.mp h with ⟨opcode, hopcode, h⟩
  rcases Option.bind_eq_some_iff.mp h with ⟨width, hwidth, h⟩
  have hbyte : width = .ofByteBit (byteBit word) := by
    unfold singleWidth? at hwidth
    split at hwidth <;> cases hwidth
    rfl
  cases hbyte
  cases h
  exact ⟨opcode, _, rfl, SingleOpcode.slot_of_ofSlot? hopcode, rfl, rfl,
    rfl, of_decide_eq_true⟩

theorem ofDouble?_none {word : Nat} {encoding : Encoding}
    (h : ofDouble? none word = some encoding) :
    exists opcode source destination,
      encoding =
          { width := .ofByteBit (byteBit word)
            body := .double opcode (.field source) (.field destination) } ∧
        opcode.nibble = word / 0x1000 ∧
        source.mode = .ofBits (word / 0x10) ∧
        source.register = .ofField (word / 0x100) ∧
        source.width = .ofByteBit (byteBit word) ∧
        destination.mode = .ofBits (word / 0x80 % 2) ∧
        destination.register = .ofField word ∧
        destination.isDestination = true ∧ destination.preferAbsolute = false ∧
        (source.preferAbsolute = true ->
          opcode = .mov ∧ destination.mode = .register ∧
            destination.register = .pc) := by
  unfold ofDouble? at h
  rcases Option.bind_eq_some_iff.mp h with ⟨opcode, hopcode, h⟩
  rcases Option.bind_eq_some_iff.mp h with ⟨width, hwidth, h⟩
  cases hwidth
  cases h
  exact ⟨opcode, _, _, rfl, DoubleOpcode.nibble_of_ofNibble? hopcode, rfl, rfl,
    rfl, rfl, rfl, rfl, rfl, of_decide_eq_true⟩

/-- The opcode words have lost nothing: the opcode word can be told from the body, and
each operand will have its extension word. -/
structure Tells (encoding : Encoding) (word : Nat) : Prop where
  opcodeWord : forall cursor,
    (encoding.body.resolved cursor).opcodeWord encoding.width = word
  kept : forall slot, slot ∈ encoding.body.operands -> FormKept slot.toForm

section

variable {word : Nat} {encoding : Encoding} {cursor : Cursor}

theorem formKept_field {field : OperandField} {cursor : Cursor}
    (himmediate : forall value, field.form.resolved cursor = .immediate value ->
      field.width ≠ .byte)
    (habsolute : field.preferAbsolute = true ->
      forall address, field.form.resolved cursor ≠ .absolute address) :
    FormKept field.form := by
  apply formKept_of (formFits_field field) (formCounts_field field)
  · intro high hform
    apply himmediate
    rw [hform]
    rfl
  · intro high space hform
    apply habsolute (relative_of_preferAbsolute hform)
    rw [hform]
    rfl

theorem tells_single (hlow : 0x1000 ≤ word) (hhigh : word < 0x1340)
    (h : ofSingle? none word = some encoding)
    (hlossless : (encoding.instruction cursor).Lossless) : encoding.Tells word := by
  rcases ofSingle?_none h with
    ⟨opcode, target, rfl, hslot, hmode, hregister, hwidth, hprefer⟩
  have hkept : FormKept target.form := by
    apply @formKept_field _ cursor
    · intro value hvalue
      rw [hwidth]
      exact hlossless.immediate value (congrArg some hvalue)
    · intro htaken address haddress
      exact hlossless.absolute address (congrArg some haddress)
        (.inl (congrArg Opcode.single (hprefer htaken)))
  constructor
  · intro cursor
    have hfield : ((OperandSlot.field target).resolved cursor).field = _ :=
      field_resolved hkept cursor
    simp only [Body.resolved, Body.opcodeWord, hfield, hslot, hmode, hregister,
      AddressingMode.bits_ofBits, Register.id_ofField, byteBit_ofByteBit]
    omega
  · intro slot hslot
    rw [List.mem_singleton.mp hslot]
    exact hkept

theorem tells_double (h : ofDouble? none word = some encoding)
    (hlossless : (encoding.instruction cursor).Lossless) : encoding.Tells word := by
  rcases ofDouble?_none h with
    ⟨opcode, source, destination, rfl, hnibble, hmode, hregister, hwidth, hmode',
      hregister', hdestination, hplain, hprefer⟩
  have hsource : FormKept source.form := by
    apply @formKept_field _ cursor
    · intro value hvalue
      rw [hwidth]
      exact hlossless.immediate value (congrArg some hvalue)
    · intro htaken address haddress
      rcases hprefer htaken with ⟨rfl, hinRegister, hpc⟩
      apply hlossless.absolute address (congrArg some haddress)
      have hform : (OperandSlot.field destination).toForm =
          .fixed (.register .pc) := by
        simp [OperandSlot.toForm, OperandField.form, OperandField.generated?,
          hdestination, hinRegister, hpc]
      exact .inr (.inr ⟨rfl, congrArg some (resolved_of_toForm hform _)⟩)
  have hplace : FormIsPlace destination.form := by
    apply formIsPlace_destination hdestination
    rw [hmode']
    exact ofBits_mod_two (word / 0x80)
  have hkept : FormKept destination.form := by
    apply @formKept_field _ cursor
    · intro value hvalue
      have hvalue' := Instruction.isValue_resolved hplace cursor
      rw [hvalue] at hvalue'
      cases hvalue'
    · intro htaken
      cases hplain.symm.trans htaken
  constructor
  · intro cursor
    have hfield : forall cursor, ((OperandSlot.field source).resolved cursor).field = _ :=
      field_resolved hsource
    have hfield' :
        forall cursor, ((OperandSlot.field destination).resolved cursor).field = _ :=
      field_resolved hkept
    simp only [Body.resolved, Body.opcodeWord, hfield, hfield', hnibble, hmode,
      hregister, hmode', hregister', AddressingMode.bits_ofBits, Register.id_ofField,
      byteBit_ofByteBit]
    omega
  · intro slot hslot
    rcases List.mem_cons.mp hslot with rfl | hslot
    · exact hsource
    · rw [List.mem_singleton.mp hslot]
      exact hkept

theorem tells_of_nil (hnil : encoding.body.operands = [])
    (h : forall cursor,
      (encoding.body.resolved cursor).opcodeWord encoding.width = word) :
    encoding.Tells word := by
  refine ⟨h, ?_⟩
  intro slot hslot
  rw [hnil] at hslot
  cases hslot

theorem tells_jump (hlow : 0x2000 ≤ word) (hhigh : word < 0x4000) :
    (ofJump word).Tells word := by
  apply tells_of_nil rfl
  intro cursor
  have hoffset : (jumpOffset word % 0x400).toNat = word % 0x400 := by
    unfold jumpOffset
    omega
  simp only [ofJump, Body.resolved, Body.opcodeWord, hoffset, Condition.bits_ofBits]
  omega

theorem tells_multiple (hlow : 0x1400 ≤ word) (hhigh : word < 0x1800)
    (h : ofMultiple? word = some encoding) : encoding.Tells word := by
  have hwidth : forall bit, bit < 2 ->
      (if (if bit = 1 then Width.word else Width.address) = .word then 0x100 else 0) =
        0x100 * bit := by
    decide
  have hbit := hwidth (word / 0x100 % 2) (Nat.mod_lt _ (by decide))
  have hblock : word / 0x200 = 0xa ∨ word / 0x200 = 0xb := by omega
  have hdigits : word =
      0x1400 + 0x200 * (word / 0x200 % 2) + 0x100 * (word / 0x100 % 2) +
        0x10 * (word / 0x10 % 16) + word % 16 := by
    omega
  unfold ofMultiple? at h
  dsimp only at h
  split at h <;> split at h <;> cases h
  · apply tells_of_nil rfl
    intro cursor
    have hhighest : (word % 16 + (word / 0x10 % 16 + 1) - 1) % 16 =
        word % 16 + word / 0x10 % 16 := by
      omega
    simp only [Body.resolved, Body.opcodeWord, hbit, Register.id_ofField, hhighest]
    omega
  · apply tells_of_nil rfl
    intro cursor
    simp only [Body.resolved, Body.opcodeWord, hbit, Register.id_ofField]
    omega

/-!
# Opcode words of instructions on addresses
-/

/-- The four bits of a form can be told from its operand, which will have its
extension word. -/
structure FormTells (field : Nat) (form : OperandForm) : Prop where
  field_eq : forall cursor, (form.resolved cursor).addressField = field % 16
  kept : FormKept form

theorem formTells_register (field : Nat) :
    FormTells field (.fixed (.register (.ofField field))) :=
  ⟨fun _ => Register.id_ofField field, rfl⟩

theorem formTells_absolute (field : Nat) :
    FormTells field (.absolute (some field)) := by
  refine ⟨fun cursor => ?_, trivial⟩
  have hword := wordAt_lt cursor.data cursor.position
  show (0x10000 * (field % 16) + wordAt cursor.data cursor.position) / 0x10000 = _
  omega

theorem formTells_immediate (field : Nat) :
    FormTells field (.immediate (some field) .address) := by
  refine ⟨fun cursor => ?_, nofun⟩
  have hword := wordAt_lt cursor.data cursor.position
  show (0x10000 * (field % 16) + wordAt cursor.data cursor.position) % 0x100000 /
    0x10000 = _
  omega

theorem formTells_indexed (field : Nat) :
    FormTells field (.indexed (.ofField field) none) :=
  ⟨fun _ => Register.id_ofField field, trivial⟩

/-- An offset in the address format is one from the program counter or from another
register. -/
theorem offsetForm_cases (field : Nat) :
    (field % 16 = 0 ∧
      offsetForm (.ofField field) none false = .relative none .address false) ∨
      offsetForm (.ofField field) none false = .indexed (.ofField field) none := by
  unfold offsetForm
  by_cases hpc : Register.ofField field = .pc
  · have hid := Register.id_ofField field
    rw [hpc] at hid
    exact .inl ⟨hid.symm, if_pos hpc⟩
  · exact .inr (if_neg hpc)

theorem formTells_offset (field : Nat) :
    FormTells field (offsetForm (.ofField field) none false) := by
  rcases offsetForm_cases field with ⟨hfield, hform⟩ | hform
  · rw [hform]
    exact ⟨fun _ => hfield.symm, rfl⟩
  · rw [hform]
    exact formTells_indexed field

theorem tells_operation {opcode : AddressOpcode} {source destination : OperandForm}
    (h : word < 0x1000) (hsource : FormTells (word / 0x100 % 16) source)
    (hdestination : FormTells (word % 16) destination)
    (hnibble : forall first second,
      Body.addressNibble opcode (source.resolved first) (destination.resolved second) =
        word / 0x10 % 16) :
    Encoding.Tells
      { width := .address
        body := .address opcode (.form source) (.form destination) } word := by
  constructor
  · intro cursor
    have hfield : ((OperandSlot.form source).resolved cursor).addressField = _ :=
      hsource.field_eq cursor
    have hfield' : forall cursor,
        ((OperandSlot.form destination).resolved cursor).addressField = _ :=
      hdestination.field_eq
    have hnibble' : forall first second,
        Body.addressNibble opcode ((OperandSlot.form source).resolved first)
          ((OperandSlot.form destination).resolved second) = _ :=
      hnibble
    simp only [Body.resolved, Body.opcodeWord, hfield, hfield', hnibble']
    omega
  · intro slot hslot
    rcases List.mem_cons.mp hslot with rfl | hslot
    · exact hsource.kept
    · rw [List.mem_singleton.mp hslot]
      exact hdestination.kept

theorem addressNibble_immediate (opcode : AddressOpcode) (value : Nat)
    (destination : Operand) :
    Body.addressNibble opcode (.immediate value) destination = 0x8 + opcode.bits := by
  cases opcode <;> rfl

theorem addressNibble_registers (opcode : AddressOpcode)
    (source destination : Register) :
    Body.addressNibble opcode (.register source) (.register destination) =
      0xc + opcode.bits := by
  cases opcode <;> rfl

theorem tells_address (h : word < 0x1000) : (ofAddress word).Tells word := by
  have hregister := formTells_register (word % 16)
  have hregister' := formTells_register (word / 0x100 % 16)
  unfold ofAddress
  dsimp only
  split
  case h_1 hnibble =>
    exact tells_operation h ⟨hregister'.field_eq, rfl⟩ hregister
      (fun _ _ => hnibble.symm)
  case h_2 hnibble =>
    exact tells_operation h ⟨hregister'.field_eq, rfl⟩ hregister
      (fun _ _ => hnibble.symm)
  case h_3 hnibble =>
    exact tells_operation h (formTells_absolute _) hregister (fun _ _ => hnibble.symm)
  case h_4 hnibble =>
    apply tells_operation h (formTells_offset _) hregister
    intro first second
    rcases offsetForm_cases (word / 0x100 % 16) with ⟨_, hform⟩ | hform <;>
      rw [hform, hnibble] <;> rfl
  case h_7 hnibble =>
    exact tells_operation h hregister' (formTells_absolute _) (fun _ _ => hnibble.symm)
  case h_8 hnibble =>
    apply tells_operation h hregister' (formTells_offset _)
    intro first second
    rcases offsetForm_cases (word % 16) with ⟨_, hform⟩ | hform <;>
      rw [hform, hnibble] <;> rfl
  case h_5 hnibble =>
    apply tells_of_nil rfl
    intro cursor
    simp only [Body.resolved, Body.opcodeWord, ShiftOpcode.bits_ofBits,
      Register.id_ofField, reduceCtorEq, if_false]
    omega
  case h_6 hnibble =>
    apply tells_of_nil rfl
    intro cursor
    simp only [Body.resolved, Body.opcodeWord, ShiftOpcode.bits_ofBits,
      Register.id_ofField, if_true]
    omega
  case h_9 h0 h1 h2 h3 h4 h5 h6 h7 =>
    simp only [imp_false] at h0 h1 h2 h3 h4 h5 h6 h7
    have hbits := AddressOpcode.bits_ofBits (word / 0x10 % 16)
    split
    · apply tells_operation h (formTells_immediate _) hregister
      intro first second
      refine (addressNibble_immediate _ _ _).trans ?_
      omega
    · apply tells_operation h hregister' hregister
      intro first second
      refine (addressNibble_registers _ _ _).trans ?_
      omega

theorem tells_call {form : OperandForm} {nibble : Nat} (hlow : 0x1340 ≤ word)
    (hhigh : word < 0x1400) (hnibble : word / 0x10 % 16 = nibble)
    (hform : FormTells (word % 16) form)
    (hcall : forall cursor, Body.callNibble (form.resolved cursor) = nibble) :
    Encoding.Tells { width := .address, body := .calla (.form form) } word := by
  constructor
  · intro cursor
    have hfield : ((OperandSlot.form form).resolved cursor).addressField = _ :=
      hform.field_eq cursor
    have hcall' : Body.callNibble ((OperandSlot.form form).resolved cursor) = _ :=
      hcall cursor
    simp only [Body.resolved, Body.opcodeWord, hfield, hcall']
    omega
  · intro slot hslot
    rw [List.mem_singleton.mp hslot]
    exact hform.kept

theorem tells_calla (hlow : 0x1340 ≤ word) (hhigh : word < 0x1400)
    (h : ofCalla? word = some encoding)
    (hlossless : (encoding.instruction cursor).Lossless) : encoding.Tells word := by
  -- A call to an absolute address is not lossless, wherever the address came from.
  have htaken : forall {form : OperandForm} {address : Nat},
      encoding = { width := .address, body := .calla (.form form) } ->
        form.resolved cursor ≠ .absolute address := by
    rintro form address rfl haddress
    exact hlossless.absolute address (congrArg some haddress) (.inr (.inl rfl))
  have hregister := formTells_register (word % 16)
  unfold ofCalla? at h
  dsimp only at h
  split at h <;> cases h
  case h_1 hnibble => exact tells_call hlow hhigh hnibble hregister fun _ => rfl
  case h_2 hnibble =>
    by_cases hpc : Register.ofField (word % 16) = .pc
    · have hform : offsetForm (Register.ofField (word % 16)) none true =
          .relative none .address true := if_pos hpc
      exact absurd (congrArg (OperandForm.resolved · cursor) hform) (htaken rfl)
    · have hform : offsetForm (Register.ofField (word % 16)) none true =
          .indexed (.ofField (word % 16)) none := if_neg hpc
      rw [hform]
      exact tells_call hlow hhigh hnibble (formTells_indexed _) fun _ => rfl
  case h_3 hnibble =>
    exact tells_call hlow hhigh hnibble ⟨hregister.field_eq, rfl⟩ fun _ => rfl
  case h_4 hnibble =>
    exact tells_call hlow hhigh hnibble ⟨hregister.field_eq, rfl⟩ fun _ => rfl
  case h_5 => exact absurd rfl (htaken rfl)
  case h_6 => exact absurd rfl (htaken rfl)
  case h_7 hnibble =>
    exact tells_call hlow hhigh hnibble (formTells_immediate _) fun _ => rfl

theorem Unprefixed.tells (h : Unprefixed word encoding)
    (hlossless : (encoding.instruction cursor).Lossless) : encoding.Tells word := by
  cases h with
  | reti hword => exact tells_of_nil rfl (fun _ => hword.symm)
  | jump hlow hhigh => exact tells_jump hlow hhigh
  | single hlow hhigh hsettled => exact tells_single hlow hhigh hsettled hlossless
  | double hsettled => exact tells_double hsettled hlossless
  | multiple hlow hhigh hsettled => exact tells_multiple hlow hhigh hsettled
  | calla hlow hhigh hsettled => exact tells_calla hlow hhigh hsettled hlossless
  | address hlow => exact tells_address hlow

end

end Encoding

/-!
# Decoded instructions
-/

section

variable {variant : Variant} {data : List UInt8} {address : UInt64}
  {inst : Instruction}

theorem words_of_decode (h : decode variant data address = .ok inst)
    (hlossless : inst.Lossless) :
    exists count, inst.length = 2 * count ∧ inst.words = wordsAt data 0 count := by
  rcases Instruction.exists_encoding h with ⟨encoding, hsettled, rfl⟩
  have hprefix : ¬ (variant = .msp430x ∧
      PrefixWord.recognises (wordAt data 0) = true) := by
    intro hprefix
    have hsome := Encoding.isSome_extension hsettled
    rw [decide_eq_true hprefix] at hsome
    have hnone : encoding.extension = none := hlossless.unprefixed
    rw [hnone] at hsome
    cases hsome
  have hcursor : Encoding.behindOpcode variant data address =
      { data := data, base := address, position := 2 } := by
    unfold Encoding.behindOpcode Encoding.opcodeBytes
    rw [if_neg hprefix]
  unfold Encoding.settled? at hsettled
  rw [if_neg hprefix] at hsettled
  have htells := (Encoding.unprefixed_ofWord? hsettled).tells hlossless
  refine ⟨1 + encoding.body.words, ?_, ?_⟩
  · rw [hcursor, Nat.mul_add]
    rfl
  · rw [wordsAt_append]
    have hextension := Encoding.extension_body htells.kept
      (Encoding.behindOpcode variant data address)
    rw [Instruction.words, Encoding.instruction, htells.opcodeWord, hextension, hcursor]
    rfl

/-- An instruction that tells its encoding is decoded from no bytes but its own. -/
theorem take_of_decode (h : decode variant data address = .ok inst)
    (hlossless : inst.Lossless) : data.take inst.length = inst.bytes := by
  have hdemand := demand_le_of_decode h
  have hlength := length_of_decode h
  rcases words_of_decode h hlossless with ⟨count, hcount, hwords⟩
  have hbytes := bytes_wordsAt count 0 (by omega : 0 + 2 * count ≤ data.length)
  rw [Instruction.bytes, hwords, hbytes, hcount]
  rfl

/-- Decoding without a prefix word loses nothing but the upper byte of a byte
operation's immediate and whether the target of a call or a branch was absolute: apart
from these, bytes that decode to one instruction begin with the same bytes. -/
theorem decode_injective {first second : List UInt8}
    (hfirst : decode variant first address = .ok inst)
    (hsecond : decode variant second address = .ok inst)
    (hlossless : inst.Lossless) :
    first.take inst.length = second.take inst.length := by
  rw [take_of_decode hfirst hlossless, take_of_decode hsecond hlossless]

theorem decode_injective_move :
    exists inst : Instruction,
      inst.Lossless ∧
        decode .msp430x [0x35, 0x40, 0x34, 0x12] 0x4400 = .ok inst ∧
        decode .msp430x [0x35, 0x40, 0x34, 0x12, 0xff, 0x3f] 0x4400 = .ok inst ∧
        [0x35, 0x40, 0x34, 0x12].take inst.length =
          ([0x35, 0x40, 0x34, 0x12, 0xff, 0x3f] : List UInt8).take inst.length := by
  let inst : Instruction :=
    { address := 0x4400
      width := .word
      extension := none
      body := .double .mov (.immediate 0x1234) (.register .r5)
      length := 4 }
  have hfirst : decode .msp430x [0x35, 0x40, 0x34, 0x12] 0x4400 = .ok inst := rfl
  have hsecond :
      decode .msp430x [0x35, 0x40, 0x34, 0x12, 0xff, 0x3f] 0x4400 = .ok inst := rfl
  have hlossless : inst.Lossless := ⟨rfl, fun _ _ => nofun, fun _ => nofun⟩
  exact ⟨inst, hlossless, hfirst, hsecond,
    decode_injective hfirst hsecond hlossless⟩

end

end MSP430
