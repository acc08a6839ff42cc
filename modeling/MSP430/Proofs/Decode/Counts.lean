import MSP430.Proofs.Decode.Steps

/-!
# Counts of decoded instructions

Counts in opcode words start from one.  A range of registers ends within the
registers, a shift goes by at most four bits, and what works on words only is never
asked to work on bytes.
-/

namespace MSP430

/-- The counts of a body are those that its format has, and so is its width. -/
def Body.InRange {operand : Type} (width : Width) : Body operand -> Prop
  | .multiple _ count highest => 1 ≤ count ∧ count ≤ highest.id + 1
  | .shift _ count _ => (1 ≤ count ∧ count ≤ 4) ∧ width ≠ .byte
  | .single opcode _ => opcode.hasByteForm = false -> width ≠ .byte
  | .reti | .jump _ _ | .double _ _ _ | .calla _ | .address _ _ _ => True

namespace Encoding

/-!
# Opcode words
-/

theorem ofMultiple?_inRange {word : Nat} {encoding : Encoding}
    (h : ofMultiple? word = some encoding) :
    encoding.body.InRange encoding.width := by
  unfold ofMultiple? at h
  dsimp only at h
  have hhighest : forall {count field : Nat}, 1 ≤ count -> count ≤ field + 1 ->
      field < 16 -> 1 ≤ count ∧ count ≤ (Register.ofField field).id + 1 := by
    intro count field hpos hcount hfield
    rw [Register.id_ofField]
    omega
  split at h
  · split at h <;> cases h
    exact hhighest (by omega) (by omega) (by omega)
  · split at h <;> cases h
    exact hhighest (by omega) (by omega) (by omega)

theorem ofAddress_inRange (word : Nat) :
    (ofAddress word).body.InRange (ofAddress word).width := by
  have hcount : 1 ≤ word / 0x400 % 4 + 1 ∧ word / 0x400 % 4 + 1 ≤ 4 := by
    omega
  unfold ofAddress
  dsimp only
  split
  case h_5 | h_6 => exact ⟨hcount, nofun⟩
  case h_9 => split <;> trivial
  all_goals trivial

/-- Without a byte form, the byte bit is clear, and then no width is that of bytes. -/
theorem singleWidth?_ne_byte {opcode : SingleOpcode} {prefixWord : Option PrefixWord}
    {byteBit : Bool} {width : Width}
    (h : singleWidth? opcode prefixWord byteBit = some width)
    (hopcode : opcode.hasByteForm = false) : width ≠ .byte := by
  unfold singleWidth? at h
  cases byteBit with
  | true => simp [hopcode] at h
  | false =>
      cases prefixWord with
      | none =>
          cases h
          exact nofun
      | some prefixWord =>
          have hwidth :=
            (Option.ite_none_left_eq_some.mp (Option.ite_none_left_eq_some.mp h).2).2
          rintro rfl
          cases hlength : prefixWord.lengthBit <;>
            cases hclear : hasClearSizeForm opcode <;>
            rw [hlength, hclear] at hwidth <;> cases hwidth

theorem Family.inRange {encoding : Encoding} (h : Family encoding) :
    encoding.body.InRange encoding.width := by
  cases h with
  | reti => trivial
  | jump word => trivial
  | multiple hsettled => exact ofMultiple?_inRange hsettled
  | address word => exact ofAddress_inRange word
  | single hsettled =>
      rcases ofSingle?_fields hsettled with ⟨_, _, hbody, _, _, hwidth, _⟩
      rw [hbody]
      exact singleWidth?_ne_byte hwidth
  | double hsettled =>
      rcases ofDouble?_body hsettled with ⟨_, _, _, hbody, _⟩
      rw [hbody]
      trivial
  | calla hsettled =>
      rcases ofCalla?_body hsettled with ⟨⟨_, hbody⟩, _⟩
      rw [hbody]
      trivial

end Encoding

/-!
# Decoded instructions
-/

theorem Instruction.Decoded.inRange {inst : Instruction} (h : inst.Decoded) :
    inst.body.InRange inst.width := by
  rcases h.exists_family with ⟨encoding, cursor, hfamily, rfl⟩
  have hrange := hfamily.inRange
  unfold Encoding.instruction
  cases hbody : encoding.body with
  | _ =>
      rw [hbody] at hrange
      exact hrange

end MSP430
