import MSP430.Proofs.Decode.Decoded

/-!
# Operands of decoded instructions

What the opcode words say about the operands before any extension word is read:
which widths and which immediates go together, and which registers memory is
reached through.
-/

namespace MSP430

/-- The register through which an operand reaches memory. -/
def Operand.base? : Operand -> Option Register
  | .indirect r | .autoIncrement r _ | .indexed r _ => some r
  | .register _ | .absolute _ | .symbolic _ _ | .immediate _ | .constant _ => none

/-- The widths a body has, and whether it may have a prefix word. -/
def Body.WidthFits {operand : Type} (width : Width)
    (extension : Option Extension) : Body operand -> Prop
  | .single .call _ => extension = none ∧ width = .word
  | .calla _ | .address _ _ _ => extension = none ∧ width = .address
  | .double _ _ _ => extension = none -> width ≠ .address
  | .single _ _ => True
  | .reti | .jump _ _ | .multiple _ _ _ | .shift _ _ _ => extension = none

namespace Encoding

/-!
# Widths

The immediates of an instruction have its width.  Which widths there are depends
on the format, and on whether there is a prefix word.
-/

/-- An immediate that the form makes has the width. -/
def FormFits (width : Width) : OperandForm -> Prop
  | .fixed operand => forall value, operand ≠ .immediate value
  | .immediate _ ownWidth => ownWidth = width
  | .absolute _ | .indexed _ _ | .relative _ _ _ => True

theorem formFits_fixed (width : Width) {operand : Operand}
    (h : operand.isValue = false) : FormFits width (.fixed operand) := by
  rintro value rfl
  cases h

theorem formFits_field (field : OperandField) :
    FormFits field.width field.form := by
  unfold OperandField.form
  split
  · intro value heq
    cases heq
  · split <;> first | trivial | exact formFits_fixed _ rfl

theorem formFits_offsetForm (width : Width) (register : Register)
    (high : Option Nat) (asAbsolute : Bool) :
    FormFits width (offsetForm register high asAbsolute) := by
  unfold offsetForm
  split <;> trivial

theorem ofSingle?_fields {prefixWord : Option PrefixWord} {word : Nat}
    {encoding : Encoding} (h : ofSingle? prefixWord word = some encoding) :
    exists opcode target,
      encoding.body = .single opcode (.field target) ∧
        target.isDestination = false ∧ target.width = encoding.width ∧
        singleWidth? opcode prefixWord (byteBit word) = some encoding.width ∧
        (encoding.extension = none ↔ prefixWord = none) := by
  unfold ofSingle? at h
  rcases Option.bind_eq_some_iff.mp h with ⟨opcode, _, h⟩
  rcases Option.bind_eq_some_iff.mp h with ⟨width, hwidth, h⟩
  cases h
  exact ⟨opcode, _, rfl, rfl, rfl, hwidth, Option.map_eq_none_iff⟩

theorem ofDouble?_fields {prefixWord : Option PrefixWord} {word : Nat}
    {encoding : Encoding} (h : ofDouble? prefixWord word = some encoding) :
    exists opcode source destination,
      encoding.body = .double opcode (.field source) (.field destination) ∧
        source.isDestination = false ∧ source.width = encoding.width ∧
        destination.width = encoding.width ∧
        doubleWidth? prefixWord (byteBit word) = some encoding.width ∧
        (encoding.extension = none ↔ prefixWord = none) := by
  unfold ofDouble? at h
  rcases Option.bind_eq_some_iff.mp h with ⟨opcode, _, h⟩
  rcases Option.bind_eq_some_iff.mp h with ⟨width, hwidth, h⟩
  cases h
  exact ⟨opcode, _, _, rfl, rfl, rfl, rfl, hwidth, Option.map_eq_none_iff⟩

/-- Without a prefix word nothing is repeated. -/
theorem Unprefixed.extension {word : Nat} {encoding : Encoding}
    (h : Unprefixed word encoding) : encoding.extension = none := by
  cases h with
  | reti _ => rfl
  | jump _ _ => rfl
  | address _ => exact (ofAddress_body word).2
  | multiple _ _ hsettled => exact (ofMultiple?_body hsettled).2
  | calla _ _ hsettled => exact (ofCalla?_body hsettled).2
  | single _ _ hsettled =>
      rcases ofSingle?_fields hsettled with ⟨_, _, _, _, _, _, hextension⟩
      exact hextension.mpr rfl
  | double hsettled =>
      rcases ofDouble?_fields hsettled with ⟨_, _, _, _, _, _, _, _, hextension⟩
      exact hextension.mpr rfl

/-!
# Operand slots

A slot holds a field, or a form that the address format names.  What every one of
these has, every slot of an encoding has.
-/

/-- A property of forms, at the width of their instruction, that every way of
describing an operand has. -/
structure FormLaw (P : Width -> OperandForm -> Prop) : Prop where
  field : forall field : OperandField, P field.width field.form
  fixed : forall operand : Operand, operand.isValue = false ->
    operand.extensionWords = 0 -> P .address (.fixed operand)
  offset : forall register high asAbsolute,
    P .address (offsetForm register high asAbsolute)
  absolute : forall high, P .address (.absolute high)
  immediate : forall high, P .address (.immediate high .address)

theorem formLaw_fits : FormLaw FormFits where
  field := formFits_field
  fixed _ hvalue _ := formFits_fixed .address hvalue
  offset := formFits_offsetForm .address
  absolute _ := trivial
  immediate _ := rfl

section

variable {P : Width -> OperandForm -> Prop} (law : FormLaw P)

include law

theorem ofCalla?_eq {word : Nat} {encoding : Encoding}
    (h : ofCalla? word = some encoding) :
    exists form,
      encoding = { width := .address, body := .calla (.form form) } ∧
        P .address form := by
  unfold ofCalla? at h
  dsimp only at h
  split at h <;> cases h <;> refine ⟨_, rfl, ?_⟩
  case h_1 | h_3 | h_4 => exact law.fixed _ rfl rfl
  case h_2 | h_6 => exact law.offset _ _ _
  case h_5 => exact law.absolute _
  case h_7 => exact law.immediate _

/-- The address format has two operands of twenty bits, or none. -/
theorem ofAddress_eq (word : Nat) :
    (exists opcode source destination,
      ofAddress word =
          { width := .address
            body := .address opcode (.form source) (.form destination) } ∧
        P .address source ∧ P .address destination) ∨
      exists width opcode count destination,
        ofAddress word =
          { width := width, body := .shift opcode count destination } := by
  have hregister : forall register, P .address (.fixed (.register register)) :=
    fun _ => law.fixed _ rfl rfl
  unfold ofAddress
  dsimp only
  split
  case h_1 | h_2 => exact .inl ⟨_, _, _, rfl, law.fixed _ rfl rfl, hregister _⟩
  case h_3 => exact .inl ⟨_, _, _, rfl, law.absolute _, hregister _⟩
  case h_4 => exact .inl ⟨_, _, _, rfl, law.offset _ _ _, hregister _⟩
  case h_5 | h_6 => exact .inr ⟨_, _, _, _, rfl⟩
  case h_7 => exact .inl ⟨_, _, _, rfl, hregister _, law.absolute _⟩
  case h_8 => exact .inl ⟨_, _, _, rfl, hregister _, law.offset _ _ _⟩
  case h_9 =>
    split
    · exact .inl ⟨_, _, _, rfl, law.immediate _, hregister _⟩
    · exact .inl ⟨_, _, _, rfl, hregister _, hregister _⟩

theorem Family.slots {encoding : Encoding} (h : Family encoding) :
    forall slot, slot ∈ encoding.body.operands -> P encoding.width slot.toForm := by
  intro slot hslot
  cases h with
  | reti => cases hslot
  | jump word => cases hslot
  | multiple hsettled =>
      rcases ofMultiple?_body hsettled with ⟨⟨_, _, _, hbody⟩, _⟩
      rw [hbody] at hslot
      cases hslot
  | calla hsettled =>
      rcases ofCalla?_eq law hsettled with ⟨form, rfl, hform⟩
      rw [List.mem_singleton.mp hslot]
      exact hform
  | address word =>
      rcases ofAddress_eq law word with
        ⟨opcode, source, destination, heq, hsource, hdestination⟩ | hshift
      · rw [heq] at hslot ⊢
        rcases List.mem_cons.mp hslot with rfl | hslot
        · exact hsource
        · rw [List.mem_singleton.mp hslot]
          exact hdestination
      · rcases hshift with ⟨width, opcode, count, destination, heq⟩
        rw [heq] at hslot
        cases hslot
  | single hsettled =>
      rcases ofSingle?_fields hsettled with ⟨opcode, target, hbody, _, hwidth, _⟩
      rw [hbody] at hslot
      rw [List.mem_singleton.mp hslot, ← hwidth]
      exact law.field target
  | double hsettled =>
      rcases ofDouble?_fields hsettled with
        ⟨opcode, source, destination, hbody, _, hsource, hdestination, _⟩
      rw [hbody] at hslot
      rcases List.mem_cons.mp hslot with rfl | hslot
      · rw [← hsource]
        exact law.field source
      · rw [List.mem_singleton.mp hslot, ← hdestination]
        exact law.field destination

end

/-!
# Widths of bodies
-/

theorem ofSingle?_widthFits {prefixWord : Option PrefixWord} {word : Nat}
    {encoding : Encoding} (h : ofSingle? prefixWord word = some encoding) :
    encoding.body.WidthFits encoding.width encoding.extension := by
  rcases ofSingle?_fields h with ⟨opcode, _, hbody, _, _, hwidth, hextension⟩
  rw [hbody]
  cases opcode with
  | call =>
      unfold singleWidth? at hwidth
      cases hbyte : byteBit word with
      | true => simp [hbyte, SingleOpcode.hasByteForm] at hwidth
      | false =>
          cases prefixWord with
          | some prefixWord => simp [hbyte] at hwidth
          | none =>
              simp only [hbyte, Width.ofByteBit] at hwidth
              exact ⟨hextension.mpr rfl, (Option.some.inj hwidth).symm⟩
  | _ => trivial

theorem ofDouble?_widthFits {prefixWord : Option PrefixWord} {word : Nat}
    {encoding : Encoding} (h : ofDouble? prefixWord word = some encoding) :
    encoding.body.WidthFits encoding.width encoding.extension := by
  rcases ofDouble?_fields h with ⟨_, _, _, hbody, _, _, _, hwidth, hextension⟩
  rw [hbody]
  intro hnone
  rw [hextension.mp hnone] at hwidth
  rw [← Option.some.inj hwidth]
  cases byteBit word <;> exact nofun

theorem ofAddress_widthFits (word : Nat) :
    (ofAddress word).body.WidthFits (ofAddress word).width
      (ofAddress word).extension := by
  rcases ofAddress_eq formLaw_fits word with
    ⟨_, _, _, heq, _⟩ | ⟨_, _, _, _, heq⟩
  · rw [heq]
    exact ⟨rfl, rfl⟩
  · rw [heq]
    rfl

theorem Family.widthFits {encoding : Encoding} (h : Family encoding) :
    encoding.body.WidthFits encoding.width encoding.extension := by
  cases h with
  | reti => rfl
  | jump word => rfl
  | single hsettled => exact ofSingle?_widthFits hsettled
  | double hsettled => exact ofDouble?_widthFits hsettled
  | address word => exact ofAddress_widthFits word
  | multiple hsettled =>
      rcases ofMultiple?_body hsettled with ⟨⟨_, _, _, hbody⟩, hextension⟩
      rw [hbody]
      exact hextension
  | calla hsettled =>
      rcases ofCalla?_eq formLaw_fits hsettled with ⟨form, rfl, _⟩
      exact ⟨rfl, rfl⟩

/-!
# Bases
-/

/-- The status register is no base for a field: it stands for constants and for
absolute addresses there. -/
theorem base?_ne_sr {field : OperandField}
    (h : field.isDestination = false ∨ field.mode = .register ∨
      field.mode = .indexed) (cursor : Cursor) :
    (field.form.resolved cursor).base? ≠ some .sr := by
  -- An indirect status register is a constant in a source, and no destination has
  -- an indirect mode.
  have hgenerates : field.register = .sr ->
      field.mode = .indirect ∨ field.mode = .autoIncrement ->
        field.generated? ≠ none := by
    intro hregister hmode hnone
    have hsource : field.isDestination = false := by
      rcases h with hsource | hmode' | hmode'
      · exact hsource
      all_goals rcases hmode with hmode | hmode <;> cases hmode.symm.trans hmode'
    unfold OperandField.generated? at hnone
    rw [hsource, hregister] at hnone
    rcases hmode with hmode | hmode <;> rw [hmode] at hnone <;> cases hnone
  unfold OperandField.form
  cases hgenerated : field.generated? with
  | some value => exact nofun
  | none =>
      dsimp only
      split
      case h_3 =>
        show (OperandForm.resolved (.relative _ _ _) cursor).base? ≠ _
        cases field.preferAbsolute <;> exact nofun
      case h_4 hsr _ =>
        intro hbase
        exact hsr (Option.some.inj hbase)
      case h_5 hmode =>
        intro hbase
        exact hgenerates (Option.some.inj hbase) (.inl hmode) hgenerated
      case h_7 hmode _ =>
        intro hbase
        exact hgenerates (Option.some.inj hbase) (.inr hmode) hgenerated
      all_goals exact nofun

end Encoding

/-!
# Decoded instructions
-/

namespace Instruction

theorem immediate_lt_of_formFits {width : Width} {form : OperandForm}
    (h : Encoding.FormFits width form) {cursor : Cursor} {value : Nat}
    (hvalue : form.resolved cursor = .immediate value) :
    value < width.modulus := by
  cases form with
  | fixed operand => exact absurd hvalue (h value)
  | immediate high ownWidth =>
      cases h
      cases hvalue
      exact Width.truncate_lt _ _
  | absolute _ | indexed _ _ => cases hvalue
  | relative high space asAbsolute =>
      cases asAbsolute <;> cases hvalue

theorem exists_slot {body : Body OperandSlot} {cursor : Cursor}
    {operand : Operand} (h : operand ∈ (body.resolved cursor).operands) :
    exists slot position,
      slot ∈ body.operands ∧ operand = slot.resolved position := by
  cases body with
  | reti | jump _ _ | multiple _ _ _ | shift _ _ _ => cases h
  | single opcode target | calla target =>
      exact ⟨target, cursor, List.mem_cons_self, List.mem_singleton.mp h⟩
  | double opcode source destination | address opcode source destination =>
      rcases List.mem_cons.mp h with rfl | h
      · exact ⟨source, cursor, List.mem_cons_self, rfl⟩
      · refine ⟨destination, source.behind cursor, ?_, List.mem_singleton.mp h⟩
        exact List.mem_cons_of_mem _ List.mem_cons_self

/-- A source that is no count has a field of its own. -/
theorem mem_operands_of_source {body : Body Operand} {operand : Operand}
    (h : body.source? = some operand) (hcount : forall count, operand ≠ .constant count) :
    operand ∈ body.operands := by
  cases body with
  | reti | jump _ _ => cases h
  | single _ _ | calla _ | double _ _ _ | address _ _ _ =>
      cases h
      exact List.mem_cons_self
  | multiple _ _ _ | shift _ _ _ =>
      cases h
      exact absurd rfl (hcount _)

/-- An immediate is below the modulus of its instruction's width. -/
theorem Decoded.immediate_lt {inst : Instruction} (h : inst.Decoded)
    {value : Nat} (hvalue : .immediate value ∈ inst.body.operands) :
    value < inst.width.modulus := by
  rcases h.exists_family with ⟨encoding, cursor, hfamily, rfl⟩
  rcases exists_slot hvalue with ⟨slot, position, hslot, hresolved⟩
  exact immediate_lt_of_formFits (hfamily.slots Encoding.formLaw_fits slot hslot)
    hresolved.symm

theorem Decoded.widthFits {inst : Instruction} (h : inst.Decoded) :
    inst.body.WidthFits inst.width inst.extension := by
  rcases h.exists_family with ⟨encoding, cursor, hfamily, rfl⟩
  have hfits := hfamily.widthFits
  unfold Encoding.instruction
  cases hbody : encoding.body with
  | single opcode target =>
      rw [hbody] at hfits
      cases opcode <;> exact hfits
  | _ =>
      rw [hbody] at hfits
      exact hfits

/-- Outside the address format, operands are those of the single-operand and the
double-operand format. -/
theorem Decoded.exists_fields {inst : Instruction} (h : inst.Decoded)
    (hformat : inst.format ≠ .address) {operand : Operand}
    (hoperand : operand ∈ inst.body.operands) :
    exists encoding cursor prefixWord word,
      inst = Encoding.instruction encoding cursor ∧
        (Encoding.ofSingle? prefixWord word = some encoding ∨
          Encoding.ofDouble? prefixWord word = some encoding) := by
  rcases h.exists_family with ⟨encoding, cursor, hfamily, rfl⟩
  have haddress : forall body : Body OperandSlot, encoding.body = body ->
      (body.resolved cursor).opcode.format ≠ .address := by
    rintro body rfl
    exact hformat
  have hslot : encoding.body.operands ≠ [] := by
    intro hnil
    rcases exists_slot hoperand with ⟨slot, _, hslot, _⟩
    rw [hnil] at hslot
    cases hslot
  cases hfamily with
  | reti => exact absurd rfl hslot
  | jump word => exact absurd rfl hslot
  | multiple hsettled =>
      rcases Encoding.ofMultiple?_body hsettled with ⟨⟨_, _, _, hbody⟩, _⟩
      rw [hbody] at hslot
      exact absurd rfl hslot
  | calla hsettled =>
      rcases Encoding.ofCalla?_body hsettled with ⟨⟨_, hbody⟩, _⟩
      exact absurd rfl (haddress _ hbody)
  | address word =>
      rcases (Encoding.ofAddress_body word).1 with
        ⟨_, _, _, hbody, _⟩ | ⟨_, _, _, hbody⟩
      · exact absurd rfl (haddress _ hbody)
      · exact absurd rfl (haddress _ hbody)
  | @single prefixWord word _ hsettled =>
      exact ⟨encoding, cursor, prefixWord, word, rfl, .inl hsettled⟩
  | @double prefixWord word _ hsettled =>
      exact ⟨encoding, cursor, prefixWord, word, rfl, .inr hsettled⟩

/-- Only the address format has the status register as a base. -/
theorem Decoded.base?_ne_sr {inst : Instruction} (h : inst.Decoded)
    (hformat : inst.format ≠ .address) {operand : Operand}
    (hoperand : operand ∈ inst.body.operands) : operand.base? ≠ some .sr := by
  rcases h.exists_fields hformat hoperand with
    ⟨encoding, cursor, prefixWord, word, rfl, hsettled⟩
  rcases exists_slot hoperand with ⟨slot, position, hslot, rfl⟩
  rcases hsettled with hsettled | hsettled
  · rcases Encoding.ofSingle?_fields hsettled with
      ⟨opcode, target, hbody, hsource, _⟩
    rw [hbody] at hslot
    rw [List.mem_singleton.mp hslot]
    exact Encoding.base?_ne_sr (.inl hsource) position
  · rcases Encoding.ofDouble?_fields hsettled with
      ⟨opcode, source, destination, hbody, hsource, _⟩
    rcases Encoding.ofDouble?_body hsettled with ⟨_, _, _, hbody', _, hmode⟩
    rw [hbody] at hslot hbody'
    cases hbody'
    rcases List.mem_cons.mp hslot with rfl | hslot
    · exact Encoding.base?_ne_sr (.inl hsource) position
    · rw [List.mem_singleton.mp hslot]
      exact Encoding.base?_ne_sr (.inr hmode) position

end Instruction

end MSP430
