import MSP430.Proofs.Decode.Demand

/-!
# Decoded instructions

The instructions that lifting meets are those that decoding yields.  This module
says which forms their encodings have, and from that what every decoded
instruction is like.
-/

namespace MSP430

/-- Some bytes decode to the instruction. -/
def Instruction.Decoded (inst : Instruction) : Prop :=
  exists variant data address, decode variant data address = .ok inst

namespace Encoding

/-- The encodings that opcode words settle, by format. -/
inductive Family : Encoding -> Prop where
  | reti : Family { width := .word, body := .reti }
  | jump (word : Nat) : Family (ofJump word)
  | single {prefixWord : Option PrefixWord} {word : Nat} {encoding : Encoding} :
      ofSingle? prefixWord word = some encoding -> Family encoding
  | double {prefixWord : Option PrefixWord} {word : Nat} {encoding : Encoding} :
      ofDouble? prefixWord word = some encoding -> Family encoding
  | multiple {word : Nat} {encoding : Encoding} :
      ofMultiple? word = some encoding -> Family encoding
  | calla {word : Nat} {encoding : Encoding} :
      ofCalla? word = some encoding -> Family encoding
  | address (word : Nat) : Family (ofAddress word)

/-- The encodings of first words that are no prefix words, each format with the
words that belong to it. -/
inductive Unprefixed (word : Nat) : Encoding -> Prop where
  | reti : word = 0x1300 -> Unprefixed word { width := .word, body := .reti }
  | jump : 0x2000 ≤ word -> word < 0x4000 -> Unprefixed word (ofJump word)
  | single {encoding : Encoding} : 0x1000 ≤ word -> word < 0x1340 ->
      ofSingle? none word = some encoding -> Unprefixed word encoding
  | double {encoding : Encoding} :
      ofDouble? none word = some encoding -> Unprefixed word encoding
  | multiple {encoding : Encoding} : 0x1400 ≤ word -> word < 0x1800 ->
      ofMultiple? word = some encoding -> Unprefixed word encoding
  | calla {encoding : Encoding} : 0x1340 ≤ word -> word < 0x1400 ->
      ofCalla? word = some encoding -> Unprefixed word encoding
  | address : word < 0x1000 -> Unprefixed word (ofAddress word)

theorem unprefixed_ofSingleBlock? {variant : Variant} {word : Nat}
    {encoding : Encoding} (hlow : 0x1000 ≤ word) (hhigh : word < 0x1400)
    (h : ofSingleBlock? variant word = some encoding) :
    Unprefixed word encoding := by
  unfold ofSingleBlock? at h
  split at h
  · cases h
    exact .reti ‹_›
  · split at h
    · split at h
      · exact .calla ‹_› hhigh h
      · cases h
    · exact .single hlow (Nat.lt_of_not_le ‹_›) h

theorem unprefixed_ofWord? {variant : Variant} {word : Nat} {encoding : Encoding}
    (h : ofWord? variant word = some encoding) : Unprefixed word encoding := by
  unfold ofWord? at h
  split at h
  · split at h
    · cases h
      exact .address ‹_›
    · cases h
  · split at h
    · exact unprefixed_ofSingleBlock? (Nat.le_of_not_lt ‹_›) ‹_› h
    · split at h
      · split at h
        · exact .multiple (Nat.le_of_not_lt ‹_›) ‹_› h
        · cases h
      · split at h
        · cases h
        · split at h
          · cases h
            exact .jump (Nat.le_of_not_lt ‹_›) ‹_›
          · exact .double h

theorem Unprefixed.family {word : Nat} {encoding : Encoding}
    (h : Unprefixed word encoding) : Family encoding := by
  cases h with
  | reti _ => exact .reti
  | jump _ _ => exact .jump word
  | single _ _ hsettled => exact .single hsettled
  | double hsettled => exact .double hsettled
  | multiple _ _ hsettled => exact .multiple hsettled
  | calla _ _ hsettled => exact .calla hsettled
  | address _ => exact .address word

theorem family_ofPrefixed? {prefixWord : PrefixWord} {word : Nat}
    {encoding : Encoding} (h : ofPrefixed? prefixWord word = some encoding) :
    Family encoding := by
  unfold ofPrefixed? at h
  split at h
  · cases h
  · split at h
    · exact .single h
    · split at h
      · cases h
      · exact .double h

theorem family_settled? {variant : Variant} {data : List UInt8}
    {encoding : Encoding} (h : settled? variant data = some encoding) :
    Family encoding := by
  unfold settled? at h
  split at h
  · exact family_ofPrefixed? h
  · exact (unprefixed_ofWord? h).family

/-!
# Each format
-/

theorem ofSingle?_body {prefixWord : Option PrefixWord} {word : Nat}
    {encoding : Encoding} (h : ofSingle? prefixWord word = some encoding) :
    exists opcode target, encoding.body = .single opcode target := by
  unfold ofSingle? at h
  rcases Option.bind_eq_some_iff.mp h with ⟨opcode, _, h⟩
  rcases Option.bind_eq_some_iff.mp h with ⟨width, _, h⟩
  cases h
  exact ⟨_, _, rfl⟩

/-- The mode of a destination has one bit. -/
theorem ofBits_mod_two (bits : Nat) :
    AddressingMode.ofBits (bits % 2) = .register ∨
      AddressingMode.ofBits (bits % 2) = .indexed := by
  rcases Nat.mod_two_eq_zero_or_one bits with hbit | hbit
  · rw [hbit]
    exact .inl rfl
  · rw [hbit]
    exact .inr rfl

theorem ofDouble?_body {prefixWord : Option PrefixWord} {word : Nat}
    {encoding : Encoding} (h : ofDouble? prefixWord word = some encoding) :
    exists opcode source destination,
      encoding.body = .double opcode source (.field destination) ∧
        destination.isDestination = true ∧
        (destination.mode = .register ∨ destination.mode = .indexed) := by
  unfold ofDouble? at h
  rcases Option.bind_eq_some_iff.mp h with ⟨opcode, _, h⟩
  rcases Option.bind_eq_some_iff.mp h with ⟨width, _, h⟩
  cases h
  exact ⟨_, _, _, rfl, rfl, ofBits_mod_two (word / 0x80)⟩

theorem ofMultiple?_body {word : Nat} {encoding : Encoding}
    (h : ofMultiple? word = some encoding) :
    (exists opcode count highest,
      encoding.body = .multiple opcode count highest) ∧
        encoding.extension = none := by
  unfold ofMultiple? at h
  dsimp only at h
  split at h
  · split at h
    · cases h
      exact ⟨⟨_, _, _, rfl⟩, rfl⟩
    · cases h
  · split at h
    · cases h
      exact ⟨⟨_, _, _, rfl⟩, rfl⟩
    · cases h

theorem ofCalla?_body {word : Nat} {encoding : Encoding}
    (h : ofCalla? word = some encoding) :
    (exists target, encoding.body = .calla target) ∧ encoding.extension = none := by
  unfold ofCalla? at h
  dsimp only at h
  split at h <;> cases h <;> exact ⟨⟨_, rfl⟩, rfl⟩

/-- The forms that name a place. -/
def FormIsPlace : OperandForm -> Prop
  | .fixed operand => exists r, operand = .register r
  | .immediate _ _ => False
  | .absolute _ | .indexed _ _ | .relative _ _ _ => True

theorem formIsPlace_offsetForm (register : Register) (high : Option Nat)
    (asAbsolute : Bool) : FormIsPlace (offsetForm register high asAbsolute) := by
  unfold offsetForm
  split <;> trivial

theorem ofAddress_body (word : Nat) :
    ((exists opcode source destination,
        (ofAddress word).body = .address opcode source (.form destination) ∧
          FormIsPlace destination) ∨
      exists opcode count destination,
        (ofAddress word).body = .shift opcode count destination) ∧
      (ofAddress word).extension = none := by
  unfold ofAddress
  dsimp only
  split
  case h_5 | h_6 => exact ⟨.inr ⟨_, _, _, rfl⟩, rfl⟩
  case h_7 => exact ⟨.inl ⟨_, _, _, rfl, trivial⟩, rfl⟩
  case h_8 => exact ⟨.inl ⟨_, _, _, rfl, formIsPlace_offsetForm _ _ _⟩, rfl⟩
  case h_9 =>
    split <;> exact ⟨.inl ⟨_, _, _, rfl, ⟨_, rfl⟩⟩, rfl⟩
  all_goals exact ⟨.inl ⟨_, _, _, rfl, ⟨_, rfl⟩⟩, rfl⟩

theorem formIsPlace_destination {field : OperandField}
    (hdestination : field.isDestination = true)
    (hmode : field.mode = .register ∨ field.mode = .indexed) :
    FormIsPlace field.form := by
  have hgenerated : field.generated? = none := by
    unfold OperandField.generated?
    rw [if_pos hdestination]
  unfold OperandField.form
  rw [hgenerated]
  dsimp only
  rcases hmode with hmode | hmode
  · rw [hmode]
    exact ⟨_, rfl⟩
  · rw [hmode]
    cases field.register <;> trivial

end Encoding

/-!
# What decoding yields
-/

namespace Instruction

theorem exists_encoding {variant : Variant} {data : List UInt8}
    {address : UInt64} {inst : Instruction}
    (h : decode variant data address = .ok inst) :
    exists encoding,
      Encoding.settled? variant data = some encoding ∧
        inst =
          encoding.instruction (Encoding.behindOpcode variant data address) := by
  rw [decode_eq] at h
  split at h
  · cases h
  · unfold verdict at h
    cases hsettled : Encoding.settled? variant data with
    | none =>
        rw [hsettled] at h
        cases h
    | some encoding =>
        rw [hsettled] at h
        cases h
        exact ⟨encoding, rfl, rfl⟩

theorem Decoded.exists_family {inst : Instruction} (h : inst.Decoded) :
    exists encoding cursor,
      Encoding.Family encoding ∧ inst = encoding.instruction cursor := by
  rcases h with ⟨variant, data, address, hdecode⟩
  rcases exists_encoding hdecode with ⟨encoding, hsettled, hinst⟩
  exact ⟨encoding, _, Encoding.family_settled? hsettled, hinst⟩

/-- Only single-operand and double-operand instructions have a prefix word. -/
theorem Decoded.body_of_extension {inst : Instruction} (h : inst.Decoded)
    (hextension : inst.extension.isSome = true) :
    (exists opcode target, inst.body = .single opcode target) ∨
      exists opcode source destination,
        inst.body = .double opcode source destination := by
  rcases h.exists_family with ⟨encoding, cursor, hfamily, rfl⟩
  have hnone : encoding.extension = none -> False := by
    intro hnone
    rw [Encoding.instruction, hnone] at hextension
    cases hextension
  cases hfamily with
  | reti => exact (hnone rfl).elim
  | jump word => exact (hnone rfl).elim
  | address word => exact (hnone (Encoding.ofAddress_body word).2).elim
  | multiple hsettled => exact (hnone (Encoding.ofMultiple?_body hsettled).2).elim
  | calla hsettled => exact (hnone (Encoding.ofCalla?_body hsettled).2).elim
  | single hsettled =>
      rcases Encoding.ofSingle?_body hsettled with ⟨opcode, target, hbody⟩
      refine .inl ⟨opcode, target.resolved cursor, ?_⟩
      rw [Encoding.instruction, hbody]
      rfl
  | double hsettled =>
      rcases Encoding.ofDouble?_body hsettled with
        ⟨opcode, source, destination, hbody, _⟩
      refine .inr ⟨opcode, source.resolved cursor, ?_, ?_⟩
      · exact (OperandSlot.field destination).resolved (source.behind cursor)
      · rw [Encoding.instruction, hbody]
        rfl

theorem Decoded.body_ne_jump {inst : Instruction} (h : inst.Decoded)
    (hextension : inst.extension.isSome = true) (condition : Condition)
    (offset : Int) : inst.body ≠ .jump condition offset := by
  intro hjump
  rcases h.body_of_extension hextension with ⟨_, _, hbody⟩ | ⟨_, _, _, hbody⟩
  · cases hjump.symm.trans hbody
  · cases hjump.symm.trans hbody

/-- A destination is made of a form that names a place, a register by itself. -/
theorem Decoded.exists_place {inst : Instruction} (h : inst.Decoded)
    {destination : Operand} (hdestination : inst.destination? = some destination) :
    exists form cursor,
      Encoding.FormIsPlace form ∧ destination = form.resolved cursor := by
  rcases h.exists_family with ⟨encoding, cursor, hfamily, rfl⟩
  have hregister : forall r : Register, exists form cursor,
      Encoding.FormIsPlace form ∧ .register r = form.resolved cursor :=
    fun r => ⟨.fixed (.register r), cursor, ⟨r, rfl⟩, rfl⟩
  unfold Instruction.destination? Encoding.instruction at hdestination
  cases hfamily with
  | reti => cases hdestination
  | jump word => cases hdestination
  | single hsettled =>
      rcases Encoding.ofSingle?_body hsettled with ⟨opcode, target, hbody⟩
      rw [hbody] at hdestination
      cases hdestination
  | calla hsettled =>
      rcases Encoding.ofCalla?_body hsettled with ⟨⟨target, hbody⟩, _⟩
      rw [hbody] at hdestination
      cases hdestination
  | multiple hsettled =>
      rcases Encoding.ofMultiple?_body hsettled with ⟨⟨_, _, _, hbody⟩, _⟩
      rw [hbody] at hdestination
      cases hdestination
      exact hregister _
  | double hsettled =>
      rcases Encoding.ofDouble?_body hsettled with
        ⟨opcode, source, field, hbody, hfield, hmode⟩
      rw [hbody] at hdestination
      cases hdestination
      exact ⟨_, _, Encoding.formIsPlace_destination hfield hmode, rfl⟩
  | address word =>
      rcases Encoding.ofAddress_body word with ⟨hbody | hbody, _⟩
      · rcases hbody with ⟨opcode, source, form, hbody, hform⟩
        rw [hbody] at hdestination
        cases hdestination
        exact ⟨_, _, hform, rfl⟩
      · rcases hbody with ⟨opcode, count, register, hbody⟩
        rw [hbody] at hdestination
        cases hdestination
        exact hregister _

theorem isValue_resolved {form : OperandForm} (h : Encoding.FormIsPlace form)
    (cursor : Cursor) : (form.resolved cursor).isValue = false := by
  cases form with
  | fixed operand =>
      rcases h with ⟨r, rfl⟩
      rfl
  | immediate _ _ => exact h.elim
  | absolute _ | indexed _ _ => rfl
  | relative high space asAbsolute => cases asAbsolute <;> rfl

theorem Decoded.destination_isPlace {inst : Instruction} (h : inst.Decoded)
    {destination : Operand} (hdestination : inst.destination? = some destination) :
    destination.isValue = false := by
  rcases h.exists_place hdestination with ⟨form, cursor, hform, rfl⟩
  exact isValue_resolved hform cursor

end Instruction

end MSP430
