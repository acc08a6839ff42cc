import MSP430.Proofs.Checked.Emulated
import MSP430.Proofs.Checked.Encoding
import MSP430.Proofs.Checked.Operand

/-!
# Checked decoding

The words that an instruction needs are added up and have to be there before they are
read.  What was decoded is named and reported, which takes its text.
-/

namespace MSP430

open Reading (ComesTo)

/-!
# Bodies
-/

namespace Body

/-- The extension words of the operands, added up. -/
def checkedWords (body : Body OperandSlot) : Checked Nat :=
  body.operands.foldrM (fun slot words => Unsigned.size.add slot.expectedWords words) 0

def checkedRead (body : Body OperandSlot) (cursor : Cursor) :
    Reading (Body Operand × Cursor) :=
  match body with
  | .reti => return (.reti, cursor)
  | .jump condition offset => return (.jump condition offset, cursor)
  | .multiple opcode count highest => return (.multiple opcode count highest, cursor)
  | .shift opcode count destination => return (.shift opcode count destination, cursor)
  | .single opcode target => do
      let (target, rest) <- target.checkedRead cursor
      return (.single opcode target, rest)
  | .calla target => do
      let (target, rest) <- target.checkedRead cursor
      return (.calla target, rest)
  | .double opcode source destination => do
      let (source, rest) <- source.checkedRead cursor
      let (destination, rest) <- destination.checkedRead rest
      return (.double opcode source destination, rest)
  | .address opcode source destination => do
      let (source, rest) <- source.checkedRead cursor
      let (destination, rest) <- destination.checkedRead rest
      return (.address opcode source destination, rest)

theorem checkedWords_eq (body : Body OperandSlot) : body.checkedWords = .ok body.words := by
  have hadd : forall (slot : OperandSlot) (words : Nat), words ≤ 1 ->
      Unsigned.size.add slot.expectedWords words = .ok (slot.words + words) := by
    intro slot words hwords
    have hone : slot.words ≤ 1 := Encoding.words_le_one slot
    rw [slot.expectedWords_eq]
    exact Unsigned.size_add (by omega)
  unfold checkedWords words
  cases body with
  | reti | jump _ _ | multiple _ _ _ | shift _ _ _ => rfl
  | single opcode target | calla target =>
      simp only [operands, List.foldrM_cons, List.foldrM_nil, Checked.pure_eq_ok,
        Checked.ok_bind, hadd target 0 (by decide), List.foldr_cons, List.foldr_nil]
  | double opcode source destination | address opcode source destination =>
      simp only [operands, List.foldrM_cons, List.foldrM_nil, Checked.pure_eq_ok,
        Checked.ok_bind, hadd destination 0 (by decide), Nat.add_zero,
        hadd source _ (Encoding.words_le_one destination), List.foldr_cons,
        List.foldr_nil]

theorem checkedRead_eq (body : Body OperandSlot) {cursor : Cursor} {limit : Nat}
    (h : cursor.Stands limit) (hlimit : limit + 4 < 0x10000) :
    ComesTo (body.checkedRead cursor) (body.read cursor) := by
  have hread := fun slot : OperandSlot => slot.checkedRead_eq h (by omega)
  cases body with
  | reti | jump _ _ | multiple _ _ _ | shift _ _ _ => rfl
  | single opcode target | calla target => exact .bind (hread target) fun _ _ => rfl
  | double opcode source destination | address opcode source destination =>
      refine .bind (hread source) ?_
      rintro ⟨operand, rest⟩ hsource
      have hrest := OperandSlot.stands_of_read h hsource
      exact .bind (destination.checkedRead_eq hrest (by omega)) fun _ _ => rfl

end Body

/-!
# Encodings
-/

namespace Encoding

/-- Reads the opcode words. -/
def checkedRead (variant : Variant) (cursor : Cursor) : Reading (Encoding × Cursor) := do
  let (word, rest) <- cursor.checkedRead
  if variant = .msp430x ∧ PrefixWord.recognises word = true then do
    let (second, rest) <- rest.checkedRead
    let prefixWord <- PrefixWord.checkedOfWord word
    let encoding <- checkedPrefixed? prefixWord second
    Reading.ofResult (orIllegal encoding rest second)
  else do
    let encoding <- checkedWord? variant word
    Reading.ofResult (orIllegal encoding rest word)

def checkedComplete (encoding : Encoding) (cursor : Cursor) : Reading Instruction := do
  let words <- encoding.body.checkedWords
  let bytes <- Unsigned.size.mul words 2
  cursor.checkedEnsure bytes
  let (body, rest) <- encoding.body.checkedRead cursor
  return {
    address := rest.base
    width := encoding.width
    extension := encoding.extension
    body := body
    length := rest.position }

variable {cursor : Cursor} {limit : Nat} (h : cursor.Stands limit)

include h

theorem checkedRead_eq (variant : Variant) (hlimit : limit + 4 < 0x10000) :
    ComesTo (checkedRead variant cursor) (Encoding.read variant cursor) := by
  refine .bind (Cursor.checkedRead_eq h (by omega)) ?_
  rintro ⟨word, rest⟩ hread
  rcases Cursor.stands_of_read h hread with ⟨hword, hrest⟩
  by_cases hextended : variant = .msp430x ∧ PrefixWord.recognises word = true
  · simp only [if_pos hextended]
    refine .bind (Cursor.checkedRead_eq hrest (by omega)) ?_
    rintro ⟨second, behind⟩ hsecond
    have hlt := (Cursor.stands_of_read hrest hsecond).1
    refine .lift (PrefixWord.checkedOfWord_eq word) ?_
    exact .lift (checkedPrefixed?_eq _ hlt) (.ofResult _)
  · simp only [if_neg hextended]
    exact .lift (checkedWord?_eq variant hword) (.ofResult _)

theorem checkedComplete_eq (encoding : Encoding) (hlimit : limit + 4 < 0x10000) :
    ComesTo (encoding.checkedComplete cursor) (encoding.complete cursor) := by
  have hwords : encoding.body.words ≤ 2 := words_le_two encoding
  have hbytes : Unsigned.size.mul encoding.body.words 2 = .ok (2 * encoding.words) :=
    Unsigned.size_double (by omega)
  have hroom : limit + 2 * encoding.words < 0x10000 := by
    have hwords : encoding.words ≤ 2 := hwords
    omega
  refine .lift encoding.body.checkedWords_eq ?_
  refine .lift hbytes ?_
  refine .bind (Cursor.checkedEnsure_eq h hroom) fun _ _ => ?_
  exact .bind (encoding.body.checkedRead_eq h hlimit) fun _ _ => rfl

omit h in
/-- The cursor behind the opcode words stands within its bytes. -/
theorem stands_of_read {variant : Variant} {data : List UInt8} {address : UInt64}
    {encoding : Encoding} {rest : Cursor}
    (hread : Encoding.read variant (.start data address) = .ok (encoding, rest)) :
    rest.Stands 4 := by
  rw [read_eq] at hread
  by_cases hfirst : data.length < 2
  · rw [if_pos hfirst] at hread
    cases hread
  rw [if_neg hfirst] at hread
  by_cases hsecond : data.length < opcodeBytes variant data
  · rw [if_pos hsecond] at hread
    cases hread
  rw [if_neg hsecond] at hread
  cases hsettled : settled? variant data with
  | none =>
      rw [hsettled] at hread
      cases hread
  | some settled =>
      rw [hsettled] at hread
      cases hread
      have hbytes : opcodeBytes variant data ≤ 4 := by
        unfold opcodeBytes
        split <;> decide
      exact ⟨Nat.le_of_not_lt hsecond, hbytes⟩

end Encoding

/-!
# Decoded instructions
-/

namespace Instruction

section Decoded

variable {inst : Instruction}

theorem HasOperand.of_displayed {operand : Operand}
    (h : operand ∈ inst.displayedOperands) : inst.HasOperand operand := by
  have hsource : operand ∈ inst.source?.toList -> inst.HasOperand operand :=
    fun hmem => .inl (Option.mem_toList.mp hmem)
  have hdestination : operand ∈ inst.destination?.toList -> inst.HasOperand operand :=
    fun hmem => .inr (Option.mem_toList.mp hmem)
  unfold displayedOperands at h
  split at h
  · cases h
  · exact hsource h
  · exact hdestination h
  · exact (List.mem_append.mp h).elim hsource hdestination

/-- The numbers of decoded operands have a magnitude: only counts have no form, and they
are no negative numbers. -/
theorem Decoded.hasMagnitude (h : inst.Decoded) {operand : Operand}
    (hoperand : inst.HasOperand operand) : operand.HasMagnitude := by
  rcases hoperand.cases with hmem | ⟨r, rfl⟩ | ⟨count, rfl, _⟩
  · rcases h.exists_family with ⟨encoding, cursor, hfamily, rfl⟩
    rcases exists_slot hmem with ⟨slot, position, hslot, rfl⟩
    exact Encoding.hasMagnitude_resolved
      (hfamily.slots Encoding.formLaw_reaches slot hslot)
      (hfamily.slots Encoding.formLaw_generates slot hslot) position
  · exact nofun
  · intro value hvalue
    cases hvalue
    omega

/-- The displacement of a decoded jump has ten bits. -/
theorem Decoded.jumpOffset_bounds (h : inst.Decoded) {offset : Int}
    (hoffset : inst.jumpOffset? = some offset) : -0x200 ≤ offset ∧ offset < 0x200 := by
  rcases h.exists_family with ⟨encoding, cursor, hfamily, rfl⟩
  unfold jumpOffset? Encoding.instruction at hoffset
  cases hfamily with
  | jump word =>
      cases hoffset
      unfold Encoding.jumpOffset
      split <;> omega
  | reti => cases hoffset
  | single hsettled =>
      rcases Encoding.ofSingle?_body hsettled with ⟨_, _, hbody⟩
      rw [hbody] at hoffset
      cases hoffset
  | double hsettled =>
      rcases Encoding.ofDouble?_body hsettled with ⟨_, _, _, hbody, _⟩
      rw [hbody] at hoffset
      cases hoffset
  | multiple hsettled =>
      rcases Encoding.ofMultiple?_body hsettled with ⟨⟨_, _, _, hbody⟩, _⟩
      rw [hbody] at hoffset
      cases hoffset
  | calla hsettled =>
      rcases Encoding.ofCalla?_body hsettled with ⟨⟨_, hbody⟩, _⟩
      rw [hbody] at hoffset
      cases hoffset
  | address word =>
      rcases Encoding.ofAddress_body word with ⟨⟨_, _, _, hbody, _⟩ | ⟨_, _, _, hbody⟩, _⟩
      · rw [hbody] at hoffset
        cases hoffset
      · rw [hbody] at hoffset
        cases hoffset

/-- All that a decoded instruction shows can be computed, if its address leaves room. -/
theorem Decoded.showsNumbers (h : inst.Decoded) (hroom : LeavesRoom inst.address) :
    inst.ShowsNumbers where
  operands := fun _ hmem => h.hasMagnitude (.of_displayed hmem)
  jump := fun _ hoffset => h.jumpOffset_bounds hoffset
  room := hroom

theorem showsNumbers_of_decode {variant : Variant} {data : List UInt8} {address : UInt64}
    (haddress : LeavesRoom address) (h : decode variant data address = .ok inst) :
    inst.ShowsNumbers := by
  have hat : inst.address = address := by
    rcases exists_encoding h with ⟨_, _, rfl⟩
    rfl
  exact Decoded.showsNumbers ⟨variant, data, address, h⟩ (hat ▸ haddress)

end Decoded
end Instruction

/-!
# Decoding
-/

/-- Decodes, names and reports an instruction. -/
def checkedDecode (variant : Variant) (data : List UInt8) (address : UInt64) :
    Reading (Instruction × Option Emulated) := do
  let (encoding, cursor) <- Encoding.checkedRead variant (.start data address)
  let inst <- encoding.checkedComplete cursor
  let emulated <- inst.checkedEmulated?
  let _ <- inst.checkedText
  return (inst, emulated)

/-- No check of decoding fails, whether the bytes are an instruction or not. -/
theorem checkedDecode_eq (variant : Variant) (data : List UInt8) {address : UInt64}
    (haddress : Instruction.LeavesRoom address) :
    ComesTo (checkedDecode variant data address)
      ((decode variant data address).map fun inst => (inst, inst.emulated?)) := by
  have hsteps : (decode variant data address).map (fun inst => (inst, inst.emulated?)) =
      (Encoding.read variant (.start data address) >>= fun (encoding, cursor) =>
        encoding.complete cursor >>= fun inst => pure (inst, inst.emulated?)) := by
    unfold decode
    cases Encoding.read variant (.start data address) with
    | error error => rfl
    | ok read =>
        rcases read with ⟨encoding, cursor⟩
        show (encoding.complete cursor).map _ =
          (encoding.complete cursor >>= fun inst => pure (inst, inst.emulated?))
        cases encoding.complete cursor with
        | error error => rfl
        | ok inst => rfl
  rw [hsteps]
  refine .bind (Encoding.checkedRead_eq (Cursor.stands_start data address) variant
    (by decide)) ?_
  rintro ⟨encoding, cursor⟩ hread
  have hstands := Encoding.stands_of_read hread
  refine .bind (Encoding.checkedComplete_eq hstands encoding (by decide)) ?_
  intro inst hcomplete
  have hdecode : decode variant data address = .ok inst := by
    unfold decode
    rw [hread]
    exact hcomplete
  have hshows := Instruction.showsNumbers_of_decode haddress hdecode
  refine .lift inst.checkedEmulated?_eq ?_
  exact .lift (Instruction.checkedText_eq hshows) rfl

end MSP430
