import MSP430.Proofs.Decode.Demand

/-!
# Instructions are a prefix code

What follows the bytes of an instruction plays no part in its decoding, and no
proper prefix of an instruction is one.  Both come from how the demand for bytes
behaves when bytes are added: it never falls, and once met it stays as it is.
-/

namespace MSP430

/-!
# Bytes that are added
-/

theorem wordAt_append (data suffix : List UInt8) {position : Nat}
    (h : position + 2 ≤ data.length) :
    wordAt (data ++ suffix) position = wordAt data position := by
  unfold wordAt
  simp only [List.getD_eq_getElem?_getD]
  rw [List.getElem?_append_left (by omega), List.getElem?_append_left (by omega)]

def Cursor.extend (cursor : Cursor) (suffix : List UInt8) : Cursor :=
  { cursor with data := cursor.data ++ suffix }

theorem OperandForm.resolved_extend (form : OperandForm) (cursor : Cursor)
    (suffix : List UInt8)
    (h : cursor.position + 2 * form.words ≤ cursor.data.length) :
    form.resolved (cursor.extend suffix) = form.resolved cursor := by
  cases form with
  | fixed operand => rfl
  | _ =>
      have hword : wordAt (cursor.data ++ suffix) cursor.position =
          wordAt cursor.data cursor.position :=
        wordAt_append cursor.data suffix h
      unfold resolved
      simp only [Cursor.extend, hword]
      rfl

theorem Body.resolved_extend (body : Body OperandSlot) (cursor : Cursor)
    (suffix : List UInt8)
    (h : cursor.position + 2 * body.words ≤ cursor.data.length) :
    body.resolved (cursor.extend suffix) = body.resolved cursor := by
  cases body with
  | reti | jump _ _ | multiple _ _ _ | shift _ _ _ => rfl
  | single opcode target | calla target =>
      have htarget := target.toForm.resolved_extend cursor suffix h
      simp only [resolved, OperandSlot.resolved, htarget]
  | double opcode source destination | address opcode source destination =>
      simp only [words, operands, List.foldr_cons, List.foldr_nil] at h
      have hsource := source.toForm.resolved_extend cursor suffix
        (by unfold OperandSlot.words at h; omega)
      have hdestination :=
        destination.toForm.resolved_extend (source.behind cursor) suffix (by
          show cursor.position + 2 * source.words + 2 * destination.words ≤
            cursor.data.length
          omega)
      have hbehind : source.behind (cursor.extend suffix) =
          (source.behind cursor).extend suffix := rfl
      simp only [resolved, OperandSlot.resolved, hsource, hbehind, hdestination]

namespace Encoding

variable (variant : Variant) {data : List UInt8} (suffix : List UInt8)

theorem opcodeBytes_append (h : 2 ≤ data.length) :
    opcodeBytes variant (data ++ suffix) = opcodeBytes variant data := by
  unfold opcodeBytes
  rw [wordAt_append data suffix h]

theorem settled?_append (h : opcodeBytes variant data ≤ data.length) :
    settled? variant (data ++ suffix) = settled? variant data := by
  have hfirst : wordAt (data ++ suffix) 0 = wordAt data 0 :=
    wordAt_append data suffix
      (Nat.le_trans (two_le_opcodeBytes variant data) h)
  unfold settled?
  rw [hfirst]
  by_cases hprefix : variant = .msp430x ∧
      PrefixWord.recognises (wordAt data 0) = true
  · have hbytes : opcodeBytes variant data = 4 := if_pos hprefix
    rw [hbytes] at h
    rw [if_pos hprefix, if_pos hprefix, wordAt_append data suffix h]
  · rw [if_neg hprefix, if_neg hprefix]

theorem instruction_append (encoding : Encoding) (address : UInt64)
    (hopcode : opcodeBytes variant data ≤ data.length)
    (h : opcodeBytes variant data + 2 * encoding.words ≤ data.length) :
    encoding.instruction (behindOpcode variant (data ++ suffix) address) =
      encoding.instruction (behindOpcode variant data address) := by
  have hbytes := opcodeBytes_append variant suffix
    (Nat.le_trans (two_le_opcodeBytes variant data) hopcode)
  have hcursor : behindOpcode variant (data ++ suffix) address =
      (behindOpcode variant data address).extend suffix := by
    simp only [behindOpcode, Cursor.extend, hbytes]
  have hbody :=
    encoding.body.resolved_extend (behindOpcode variant data address) suffix h
  unfold instruction
  rw [hcursor, hbody]
  rfl

end Encoding

/-!
# The demand for bytes
-/

open Encoding (opcodeBytes settled? opcodeBytes_append settled?_append
  two_le_opcodeBytes)

section Demand

variable (variant : Variant) {data : List UInt8} (suffix : List UInt8)

theorem two_le_demand (data : List UInt8) : 2 ≤ demand variant data := by
  have hopcode := two_le_opcodeBytes variant data
  unfold demand
  split
  · exact Nat.le_refl 2
  · split
    · exact hopcode
    · omega

theorem opcodeBytes_le_demand (h : 2 ≤ data.length) :
    opcodeBytes variant data ≤ demand variant data := by
  unfold demand
  rw [if_neg (Nat.not_lt.mpr h)]
  split
  · exact Nat.le_refl _
  · exact Nat.le_add_right _ _

theorem demand_append_of_opcode (h : opcodeBytes variant data ≤ data.length) :
    demand variant (data ++ suffix) = demand variant data := by
  have htwo := Nat.le_trans (two_le_opcodeBytes variant data) h
  have hbytes := opcodeBytes_append variant suffix htwo
  have hlonger :
      opcodeBytes variant (data ++ suffix) ≤ (data ++ suffix).length := by
    rw [hbytes, List.length_append]
    omega
  rw [demand_of_opcode hlonger, demand_of_opcode h, hbytes,
    settled?_append variant suffix h]

theorem opcodeBytes_le_length (h : demand variant data ≤ data.length) :
    opcodeBytes variant data ≤ data.length :=
  Nat.le_trans
    (opcodeBytes_le_demand variant (Nat.le_trans (two_le_demand variant data) h)) h

/-- More bytes never make the demand smaller. -/
theorem demand_le_append :
    demand variant data ≤ demand variant (data ++ suffix) := by
  by_cases hopcode : opcodeBytes variant data ≤ data.length
  · exact Nat.le_of_eq (demand_append_of_opcode variant suffix hopcode).symm
  · by_cases hfirst : data.length < 2
    · have hdemand : demand variant data = 2 := if_pos hfirst
      rw [hdemand]
      exact two_le_demand variant _
    · have htwo := Nat.le_of_not_lt hfirst
      have hdemand : demand variant data = opcodeBytes variant data := by
        unfold demand
        rw [if_neg hfirst, if_pos (Nat.lt_of_not_le hopcode)]
      rw [hdemand, ← opcodeBytes_append variant suffix htwo]
      apply opcodeBytes_le_demand
      rw [List.length_append]
      omega

theorem demand_append_of_lt (h : (data ++ suffix).length < demand variant data) :
    demand variant (data ++ suffix) = demand variant data := by
  by_cases hopcode : opcodeBytes variant data ≤ data.length
  · exact demand_append_of_opcode variant suffix hopcode
  · by_cases hfirst : data.length < 2
    · have hdemand : demand variant data = 2 := if_pos hfirst
      rw [hdemand] at h ⊢
      exact if_pos h
    · have hdemand : demand variant data = opcodeBytes variant data := by
        unfold demand
        rw [if_neg hfirst, if_pos (Nat.lt_of_not_le hopcode)]
      rw [hdemand] at h ⊢
      have hbytes :=
        opcodeBytes_append variant suffix (Nat.le_of_not_lt hfirst)
      have hlength : ¬ (data ++ suffix).length < 2 := by
        rw [List.length_append]
        omega
      unfold demand
      rw [if_neg hlength, hbytes, if_pos h]

theorem verdict_append (address : UInt64)
    (h : demand variant data ≤ data.length) :
    verdict variant (data ++ suffix) address = verdict variant data address := by
  have hopcode := opcodeBytes_le_length variant h
  have htwo := Nat.le_trans (two_le_opcodeBytes variant data) hopcode
  have hword : wordAt (data ++ suffix) (opcodeBytes variant data - 2) =
      wordAt data (opcodeBytes variant data - 2) := by
    apply wordAt_append
    have hbytes := two_le_opcodeBytes variant data
    omega
  rw [demand_of_opcode hopcode] at h
  unfold verdict
  rw [settled?_append variant suffix hopcode,
    opcodeBytes_append variant suffix htwo, hword]
  cases hsettled : settled? variant data with
  | none => rfl
  | some encoding =>
      rw [hsettled] at h
      have hinst := Encoding.instruction_append variant suffix encoding address
        hopcode h
      exact congrArg Except.ok hinst

theorem length_of_verdict {address : UInt64} {inst : Instruction}
    (h : demand variant data ≤ data.length)
    (hverdict : verdict variant data address = .ok inst) :
    inst.length = demand variant data := by
  rw [demand_of_opcode (opcodeBytes_le_length variant h)]
  unfold verdict at hverdict
  cases hsettled : settled? variant data with
  | none =>
      rw [hsettled] at hverdict
      cases hverdict
  | some encoding =>
      rw [hsettled] at hverdict
      cases hverdict
      rfl

end Demand

/-!
# Decoding of longer and shorter bytes
-/

section Decode

variable {variant : Variant} {data : List UInt8} {address : UInt64}

theorem demand_le_of_decode {inst : Instruction}
    (h : decode variant data address = .ok inst) :
    demand variant data ≤ data.length := by
  rw [decode_eq] at h
  by_cases hshort : data.length < demand variant data
  · rw [if_pos hshort] at h
    cases h
  · exact Nat.le_of_not_lt hshort

theorem demand_le_of_illegal {base : UInt64} {word : Nat}
    (h : decode variant data address = .error (.illegal base word)) :
    demand variant data ≤ data.length := by
  rw [decode_eq] at h
  by_cases hshort : data.length < demand variant data
  · rw [if_pos hshort] at h
    cases h
  · exact Nat.le_of_not_lt hshort

theorem verdict_ne_truncated {base : UInt64} {needed available : Nat} :
    verdict variant data address ≠ .error (.truncated base needed available) := by
  unfold verdict
  intro h
  split at h
  · cases h
  · cases h

/-- Bytes are truncated exactly when they do not meet the demand. -/
theorem decode_eq_truncated_iff {base : UInt64} {needed available : Nat} :
    decode variant data address = .error (.truncated base needed available) ↔
      data.length < demand variant data ∧ base = address ∧
        needed = demand variant data ∧ available = data.length := by
  rw [decode_eq]
  by_cases hshort : data.length < demand variant data
  · rw [if_pos hshort]
    constructor
    · intro h
      cases h
      exact ⟨hshort, rfl, rfl, rfl⟩
    · rintro ⟨_, rfl, rfl, rfl⟩
      rfl
  · rw [if_neg hshort]
    constructor
    · intro h
      exact absurd h verdict_ne_truncated
    · rintro ⟨h, _⟩
      exact absurd h hshort

theorem decode_of_demand_le (h : demand variant data ≤ data.length) :
    decode variant data address = verdict variant data address := by
  rw [decode_eq, if_neg (Nat.not_lt.mpr h)]

/-- What decoding says with its demand met, it says of all longer bytes. -/
theorem decode_append (suffix : List UInt8)
    (h : demand variant data ≤ data.length) :
    decode variant (data ++ suffix) address = decode variant data address := by
  have hdemand :=
    demand_append_of_opcode variant suffix (opcodeBytes_le_length variant h)
  rw [decode_of_demand_le h, decode_of_demand_le, verdict_append variant suffix address h]
  rw [hdemand, List.length_append]
  omega

theorem length_of_decode {inst : Instruction}
    (h : decode variant data address = .ok inst) :
    inst.length = demand variant data := by
  have hdemand := demand_le_of_decode h
  rw [decode_of_demand_le hdemand] at h
  exact length_of_verdict variant hdemand h

/-- A proper prefix of an instruction is truncated, and asks for no more than the
instruction has. -/
theorem decode_take {inst : Instruction}
    (h : decode variant data address = .ok inst) {count : Nat}
    (hcount : count < inst.length) :
    decode variant (data.take count) address =
        .error (.truncated address (demand variant (data.take count)) count) ∧
      count < demand variant (data.take count) ∧
      demand variant (data.take count) ≤ inst.length := by
  have hdemand := demand_le_of_decode h
  have hlength := length_of_decode h
  have htake : (data.take count).length = count :=
    List.length_take_of_le (by omega)
  have hmono := @demand_le_append variant (data.take count) (data.drop count)
  rw [List.take_append_drop] at hmono
  have hshort : count < demand variant (data.take count) := by
    apply Nat.lt_of_not_le
    intro hmet
    have hopcode :
        opcodeBytes variant (data.take count) ≤ (data.take count).length := by
      apply opcodeBytes_le_length
      rw [htake]
      exact hmet
    have hsame := demand_append_of_opcode variant (data.drop count) hopcode
    rw [List.take_append_drop] at hsame
    omega
  refine ⟨?_, hshort, by omega⟩
  rw [decode_eq_truncated_iff, htake]
  exact ⟨hshort, rfl, rfl, rfl⟩

theorem decode_error_address {error : DecodeError}
    (h : decode variant data address = .error error) : error.address = address := by
  rw [decode_eq] at h
  split at h
  · cases h
    rfl
  · unfold verdict at h
    split at h
    · cases h
      rfl
    · cases h

/-- Decoding is a prefix code.  An instruction or an illegal opcode is decoded
alike from all longer bytes.  Fewer bytes than an instruction has are truncated
and ask for no more than it has.  Truncated bytes ask for the same number of bytes
until these are there.  Every failure names the address that was given. -/
theorem decode_prefix_code (variant : Variant) (data : List UInt8)
    (address : UInt64) :
    (forall inst, decode variant data address = .ok inst ->
      (forall suffix, decode variant (data ++ suffix) address = .ok inst) ∧
        forall count, count < inst.length ->
          exists needed,
            decode variant (data.take count) address =
                .error (.truncated address needed count) ∧
              count < needed ∧ needed ≤ inst.length) ∧
    (forall base word,
      decode variant data address = .error (.illegal base word) ->
        forall suffix,
          decode variant (data ++ suffix) address =
            .error (.illegal base word)) ∧
    (forall base needed available,
      decode variant data address = .error (.truncated base needed available) ->
        forall suffix, (data ++ suffix).length < needed ->
          decode variant (data ++ suffix) address =
            .error (.truncated base needed (data ++ suffix).length)) ∧
    (forall error, decode variant data address = .error error ->
      error.address = address) := by
  refine ⟨?_, ?_, ?_, ?_⟩
  · intro inst h
    constructor
    · intro suffix
      rw [decode_append suffix (demand_le_of_decode h)]
      exact h
    · intro count hcount
      exact ⟨_, decode_take h hcount⟩
  · intro base word h suffix
    rw [decode_append suffix (demand_le_of_illegal h)]
    exact h
  · intro base needed available h suffix hlength
    rcases decode_eq_truncated_iff.mp h with ⟨_, hbase, hneeded, _⟩
    rw [hneeded] at hlength
    have hdemand := demand_append_of_lt variant suffix hlength
    rw [decode_eq_truncated_iff, hdemand]
    exact ⟨hlength, hbase, hneeded, rfl⟩
  · intro error h
    exact decode_error_address h

theorem decode_prefix_code_move :
    decode .msp430x ([0x35, 0x40, 0x34, 0x12] ++ [0xff]) 0x4400 =
        decode .msp430x [0x35, 0x40, 0x34, 0x12] 0x4400 ∧
      exists needed,
        decode .msp430x [0x35, 0x40, 0x34] 0x4400 =
            .error (.truncated 0x4400 needed 3) ∧
          3 < needed ∧ needed ≤ 4 := by
  have hmove : decode .msp430x [0x35, 0x40, 0x34, 0x12] 0x4400 = .ok
      { address := 0x4400
        width := .word
        extension := none
        body := .double .mov (.immediate 0x1234) (.register .r5)
        length := 4 } := rfl
  rcases (decode_prefix_code .msp430x [0x35, 0x40, 0x34, 0x12] 0x4400).1 _ hmove
    with ⟨hlonger, hshorter⟩
  exact ⟨(hlonger [0xff]).trans hmove.symm, hshorter 3 (by decide)⟩

end Decode

end MSP430
