import MSP430.Proofs.Decode.Length

/-!
# The two instruction sets

The sixteen-bit processor knows the words of three formats, jumps and the return from
an interrupt.  Its extension gives a meaning to words that are illegal there, and
takes none away.  So the two decoders ask for the same bytes and say the same of them
as soon as the smaller one knows the opcode word.
-/

namespace MSP430

/-- The opcodes of the sixteen-bit processor. -/
def Opcode.isClassic : Opcode -> Bool
  | reti | jump _ | single _ | double _ => true
  | calla | multiple _ | address _ | shift _ => false

namespace Encoding

/-- What the opcode words settle is an instruction of the sixteen-bit processor. -/
structure Classic (encoding : Encoding) : Prop where
  unprefixed : encoding.extension = none
  opcode : encoding.body.opcode.isClassic = true

/-!
# Formats
-/

section

variable {word : Nat} {encoding : Encoding}

theorem Classic.ofSingle? (h : Encoding.ofSingle? none word = some encoding) :
    encoding.Classic := by
  rcases ofSingle?_fields h with ⟨opcode, target, hbody, _, _, _, hextension⟩
  constructor
  · exact hextension.mpr rfl
  · rw [hbody]
    rfl

theorem Classic.ofDouble? (h : Encoding.ofDouble? none word = some encoding) :
    encoding.Classic := by
  rcases ofDouble?_fields h with
    ⟨opcode, source, destination, hbody, _, _, _, _, hextension⟩
  constructor
  · exact hextension.mpr rfl
  · rw [hbody]
    rfl

theorem not_classic_ofAddress (word : Nat) : ¬ (ofAddress word).Classic := by
  intro h
  have hopcode := h.opcode
  rcases (ofAddress_body word).1 with
    ⟨opcode, source, destination, hbody, _⟩ | ⟨opcode, count, destination, hbody⟩
  · rw [hbody] at hopcode
    cases hopcode
  · rw [hbody] at hopcode
    cases hopcode

theorem not_classic_ofCalla? (h : ofCalla? word = some encoding) :
    ¬ encoding.Classic := by
  intro hclassic
  have hopcode := hclassic.opcode
  rcases ofCalla?_body h with ⟨⟨target, hbody⟩, _⟩
  rw [hbody] at hopcode
  cases hopcode

theorem not_classic_ofMultiple? (h : ofMultiple? word = some encoding) :
    ¬ encoding.Classic := by
  intro hclassic
  have hopcode := hclassic.opcode
  rcases ofMultiple?_body h with ⟨⟨opcode, count, highest, hbody⟩, _⟩
  rw [hbody] at hopcode
  cases hopcode

/-!
# Opcode words
-/

/-- Among the words of single operands, only the calls to twenty-bit addresses are
new. -/
theorem ofSingleBlock?_msp430 :
    ofSingleBlock? .msp430 word = some encoding ↔
      ofSingleBlock? .msp430x word = some encoding ∧ encoding.Classic := by
  unfold ofSingleBlock?
  split
  · constructor
    · intro h
      cases h
      exact ⟨rfl, rfl, rfl⟩
    · exact And.left
  · split
    · constructor
      · exact nofun
      · rintro ⟨h, hclassic⟩
        exact absurd hclassic (not_classic_ofCalla? h)
    · constructor
      · intro h
        exact ⟨h, .ofSingle? h⟩
      · exact And.left

theorem ofWord?_msp430 :
    ofWord? .msp430 word = some encoding ↔
      ofWord? .msp430x word = some encoding ∧ encoding.Classic := by
  unfold ofWord?
  split
  · constructor
    · exact nofun
    · rintro ⟨h, hclassic⟩
      cases h
      exact absurd hclassic (not_classic_ofAddress word)
  · split
    · exact ofSingleBlock?_msp430
    · split
      · constructor
        · exact nofun
        · rintro ⟨h, hclassic⟩
          exact absurd hclassic (not_classic_ofMultiple? h)
      · split
        · constructor
          · exact nofun
          · exact And.left
        · split
          · constructor
            · intro h
              cases h
              exact ⟨rfl, rfl, rfl⟩
            · exact And.left
          · constructor
            · intro h
              exact ⟨h, .ofDouble? h⟩
            · exact And.left

/-- A prefix word alone settles nothing. -/
theorem ofWord?_of_recognises {variant : Variant}
    (h : PrefixWord.recognises word = true) : ofWord? variant word = none := by
  have hrange := of_decide_eq_true h
  unfold ofWord?
  rw [if_neg (by omega), if_neg (by omega), if_neg (by omega), if_pos hrange.2]

end

/-!
# Whole buffers
-/

variable {data : List UInt8} {encoding : Encoding}

theorem settled?_msp430 :
    settled? .msp430 data = some encoding ↔
      settled? .msp430x data = some encoding ∧ encoding.Classic := by
  have hword : settled? .msp430 data = ofWord? .msp430 (wordAt data 0) :=
    if_neg nofun
  rw [hword]
  by_cases hprefix : PrefixWord.recognises (wordAt data 0) = true
  · constructor
    · intro h
      rw [ofWord?_of_recognises hprefix] at h
      cases h
    · rintro ⟨h, hclassic⟩
      unfold settled? at h
      rw [if_pos ⟨rfl, hprefix⟩] at h
      exact absurd hclassic.unprefixed (ofPrefixed?_extension h)
  · have hword' : settled? .msp430x data = ofWord? .msp430x (wordAt data 0) :=
      if_neg fun h => hprefix h.2
    rw [hword']
    exact ofWord?_msp430

/-- Where the smaller processor knows the opcode word, the larger one reads no more
opcode words. -/
theorem opcodeBytes_of_settled? (h : settled? .msp430 data = some encoding) :
    opcodeBytes .msp430x data = opcodeBytes .msp430 data := by
  rcases settled?_msp430.mp h with ⟨hlarger, hclassic⟩
  rw [opcodeBytes_eq h, opcodeBytes_eq hlarger]

end Encoding

open Encoding (opcodeBytes settled?)

section

variable {data : List UInt8} {encoding : Encoding}

theorem demand_of_settled? (h : settled? .msp430 data = some encoding) :
    demand .msp430x data = demand .msp430 data := by
  have hlarger := (Encoding.settled?_msp430.mp h).1
  unfold demand
  rw [Encoding.opcodeBytes_of_settled? h, h, hlarger]

theorem verdict_of_settled? (h : settled? .msp430 data = some encoding)
    (address : UInt64) :
    verdict .msp430x data address = verdict .msp430 data address := by
  have hlarger := (Encoding.settled?_msp430.mp h).1
  unfold verdict Encoding.behindOpcode
  rw [Encoding.opcodeBytes_of_settled? h, h, hlarger]

/-- The two decoders say the same of bytes whose opcode word the smaller one
knows. -/
theorem decode_of_settled? (h : settled? .msp430 data = some encoding)
    (address : UInt64) :
    decode .msp430x data address = decode .msp430 data address := by
  rw [decode_eq, decode_eq, demand_of_settled? h, verdict_of_settled? h]

/-- Bytes that are too few for the sixteen-bit processor have no opcode word yet, or
one that it knows. -/
theorem settled?_of_truncated (h : data.length < demand .msp430 data)
    (hword : 2 ≤ data.length) :
    exists encoding, settled? .msp430 data = some encoding := by
  have hopcode : opcodeBytes .msp430 data = 2 := if_neg nofun
  cases hsettled : settled? .msp430 data with
  | some encoding => exact ⟨encoding, rfl⟩
  | none =>
      rw [demand_of_opcode (by omega), hsettled, hopcode] at h
      exact absurd hword (Nat.not_le.mpr h)

end

/-- An instruction of the sixteen-bit processor has no twenty-bit operation. -/
theorem Encoding.width_of_settled? {data : List UInt8} {encoding : Encoding}
    (h : settled? .msp430 data = some encoding) : encoding.width ≠ .address := by
  rcases settled?_msp430.mp h with ⟨hlarger, hclassic⟩
  have hfits := (family_settled? h).widthFits
  have hword : ofWord? .msp430 (wordAt data 0) = some encoding := h
  have hsettled := unprefixed_ofWord? hword
  cases hsettled with
  | reti _ => exact nofun
  | jump _ _ => exact nofun
  | address _ => exact absurd hclassic (not_classic_ofAddress _)
  | multiple _ _ hrange => exact absurd hclassic (not_classic_ofMultiple? hrange)
  | calla _ _ hcall => exact absurd hclassic (not_classic_ofCalla? hcall)
  | single _ _ hsingle =>
      rcases ofSingle?_fields hsingle with ⟨_, _, _, _, _, hwidth, _⟩
      exact singleWidth?_ne_address hwidth
  | double hdouble =>
      rcases ofDouble?_fields hdouble with ⟨_, _, _, hbody, _⟩
      rw [hbody] at hfits
      exact hfits hclassic.unprefixed

/-!
# Decoded instructions
-/

/-- An instruction of the sixteen-bit processor: no prefix word, no twenty-bit
operation and an opcode that the processor has. -/
structure Instruction.Classic (inst : Instruction) : Prop where
  unprefixed : inst.extension = none
  width : inst.width ≠ .address
  opcode : inst.opcode.isClassic = true

namespace Encoding

theorem opcode_resolved (body : Body OperandSlot) (cursor : Cursor) :
    (body.resolved cursor).opcode = body.opcode := by
  cases body <;> rfl

/-- Reading the extension words changes nothing that makes an encoding one of the
sixteen-bit processor. -/
theorem classic_iff_instruction {encoding : Encoding} (cursor : Cursor) :
    encoding.Classic ↔
      (encoding.instruction cursor).extension = none ∧
        (encoding.instruction cursor).opcode.isClassic = true := by
  have hopcode : (encoding.instruction cursor).opcode = encoding.body.opcode :=
    opcode_resolved encoding.body cursor
  rw [hopcode]
  constructor
  · intro h
    exact ⟨h.unprefixed, h.opcode⟩
  · rintro ⟨hunprefixed, hopcode⟩
    exact ⟨hunprefixed, hopcode⟩

end Encoding

section

variable {data : List UInt8} {address : UInt64} {inst : Instruction}

theorem classic_of_decode (h : decode .msp430 data address = .ok inst) :
    inst.Classic := by
  rcases Instruction.exists_encoding h with ⟨encoding, hsettled, rfl⟩
  have hclassic := (Encoding.settled?_msp430.mp hsettled).2
  rcases (Encoding.classic_iff_instruction _).mp hclassic with ⟨hunprefixed, hopcode⟩
  constructor
  · exact hunprefixed
  · exact Encoding.width_of_settled? hsettled
  · exact hopcode

theorem decode_msp430x_of_ok (h : decode .msp430 data address = .ok inst) :
    decode .msp430x data address = .ok inst := by
  rcases Instruction.exists_encoding h with ⟨encoding, hsettled, _⟩
  rw [decode_of_settled? hsettled]
  exact h

theorem decode_msp430_of_ok (h : decode .msp430x data address = .ok inst)
    (hunprefixed : inst.extension = none) (hopcode : inst.opcode.isClassic = true) :
    decode .msp430 data address = .ok inst := by
  rcases Instruction.exists_encoding h with ⟨encoding, hsettled, rfl⟩
  have hclassic := (Encoding.classic_iff_instruction _).mpr ⟨hunprefixed, hopcode⟩
  have hsmaller := Encoding.settled?_msp430.mpr ⟨hsettled, hclassic⟩
  rw [← decode_of_settled? hsmaller]
  exact h

/-- Both decoders ask for the first word of less than a word.  With the word there,
the smaller one asks for more only if it knows it. -/
theorem decode_msp430x_of_truncated {base : UInt64} {needed available : Nat}
    (h : decode .msp430 data address = .error (.truncated base needed available)) :
    decode .msp430x data address = .error (.truncated base needed available) := by
  rcases decode_eq_truncated_iff.mp h with ⟨hshort, hbase, hneeded, havailable⟩
  by_cases hword : data.length < 2
  · have hsmaller : demand .msp430 data = 2 := if_pos hword
    have hlarger : demand .msp430x data = 2 := if_pos hword
    rw [hsmaller, ← hlarger] at hshort hneeded
    exact decode_eq_truncated_iff.mpr ⟨hshort, hbase, hneeded, havailable⟩
  · rcases settled?_of_truncated hshort (Nat.le_of_not_lt hword) with
      ⟨encoding, hsettled⟩
    rw [decode_of_settled? hsettled]
    exact h

end

/-- The sixteen-bit decoder is the twenty-bit one restricted to the instructions of
the sixteen-bit processor.  Whatever it decodes, and whatever it finds too short, the
larger one answers alike; what the larger one decodes without a prefix word and with
an opcode of the sixteen-bit processor, the smaller one decodes; and it decodes
nothing else. -/
theorem decode_msp430_restricts (data : List UInt8) (address : UInt64) :
    (forall inst, decode .msp430 data address = .ok inst ->
      decode .msp430x data address = .ok inst) ∧
    (forall base needed available,
      decode .msp430 data address = .error (.truncated base needed available) ->
        decode .msp430x data address =
          .error (.truncated base needed available)) ∧
    (forall inst, decode .msp430x data address = .ok inst ->
      inst.extension = none -> inst.opcode.isClassic = true ->
        decode .msp430 data address = .ok inst) ∧
    (forall inst, decode .msp430 data address = .ok inst -> inst.Classic) := by
  refine ⟨?_, ?_, ?_, ?_⟩
  · intro inst h
    exact decode_msp430x_of_ok h
  · intro base needed available h
    exact decode_msp430x_of_truncated h
  · intro inst h hunprefixed hopcode
    exact decode_msp430_of_ok h hunprefixed hopcode
  · intro inst h
    exact classic_of_decode h

theorem decode_msp430_restricts_move :
    (exists inst, decode .msp430x [0x35, 0x40, 0x34, 0x12] 0x4400 = .ok inst ∧
      decode .msp430 [0x35, 0x40, 0x34, 0x12] 0x4400 = .ok inst ∧ inst.Classic) ∧
    decode .msp430x [0x35, 0x40, 0x34] 0x4400 = .error (.truncated 0x4400 4 3) := by
  rcases decode_msp430_restricts [0x35, 0x40, 0x34, 0x12] 0x4400 with
    ⟨hlarger, _, hsmaller, hclassic⟩
  constructor
  · refine ⟨_, hlarger _ rfl, hsmaller _ (hlarger _ rfl) rfl rfl, hclassic _ rfl⟩
  · exact (decode_msp430_restricts [0x35, 0x40, 0x34] 0x4400).2.1 _ _ _ rfl

end MSP430
