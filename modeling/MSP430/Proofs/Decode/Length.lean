import Mathlib.Algebra.GroupWithZero.Nat
import MSP430.Architecture
import MSP430.Proofs.Decode.PrefixCode
import MSP430.Proofs.Decode.Steps

/-!
# The length of an instruction

The length is the number of bytes that decoding consumed: the opcode word, a prefix
word before it, and the extension words of the operand slots.  The operands that come
out say how many extension words they are encoded by, and the two counts agree:
whatever constant generators and the program counter make of a field, its operand has
an extension word exactly if its form has one.
-/

namespace MSP430

/-- The extension words that encode the source and the destination. -/
def Instruction.extensionWords (inst : Instruction) : Nat :=
  ((inst.source?.toList ++ inst.destination?.toList).map
    Operand.extensionWords).sum

namespace Encoding

/-!
# Operands
-/

/-- An operand that the opcode words settle has no extension word. -/
def FormCounts : OperandForm -> Prop
  | .fixed operand => operand.extensionWords = 0
  | .absolute _ | .immediate _ _ | .indexed _ _ | .relative _ _ _ => True

theorem extensionWords_resolved {form : OperandForm} (h : FormCounts form)
    (cursor : Cursor) : (form.resolved cursor).extensionWords = form.words := by
  cases form with
  | fixed operand => exact h
  | absolute _ | immediate _ _ | indexed _ _ => rfl
  | relative high space asAbsolute => cases asAbsolute <;> rfl

theorem formCounts_field (field : OperandField) : FormCounts field.form := by
  unfold OperandField.form
  split
  · rfl
  · split <;> trivial

theorem formCounts_offsetForm (register : Register) (high : Option Nat)
    (asAbsolute : Bool) : FormCounts (offsetForm register high asAbsolute) := by
  unfold offsetForm
  split <;> trivial

theorem formLaw_counts : FormLaw (fun _ => FormCounts) where
  field := formCounts_field
  fixed _ _ hwords := hwords
  offset := formCounts_offsetForm
  absolute _ := trivial
  immediate _ := trivial

theorem extensionWords_instruction {encoding : Encoding} (h : Family encoding)
    (cursor : Cursor) :
    (encoding.instruction cursor).extensionWords = encoding.words := by
  have hcounts := h.slots formLaw_counts
  unfold Instruction.extensionWords Instruction.source? Instruction.destination?
  unfold instruction words
  revert hcounts
  cases encoding.body with
  | reti | jump _ _ | multiple _ _ _ | shift _ _ _ =>
      intro _
      rfl
  | single opcode target | calla target =>
      intro h
      exact congrArg (· + 0)
        (extensionWords_resolved (h target List.mem_cons_self) cursor)
  | double opcode source destination | address opcode source destination =>
      intro h
      have hsource : (source.resolved cursor).extensionWords = source.words :=
        extensionWords_resolved (h source List.mem_cons_self) cursor
      have hdestination :
          (destination.resolved (source.behind cursor)).extensionWords =
            destination.words :=
        extensionWords_resolved
          (h destination (List.mem_cons_of_mem _ List.mem_cons_self)) _
      show (source.resolved cursor).extensionWords +
          ((destination.resolved (source.behind cursor)).extensionWords + 0) = _
      rw [hsource, hdestination]
      rfl

/-!
# Prefix words
-/

theorem ofPrefixed?_extension {prefixWord : PrefixWord} {word : Nat}
    {encoding : Encoding} (h : ofPrefixed? prefixWord word = some encoding) :
    encoding.extension ≠ none := by
  rcases ofPrefixed?_cases h with hextension | hextension <;> rw [hextension] <;>
    exact nofun

theorem isSome_extension {variant : Variant} {data : List UInt8}
    {encoding : Encoding} (h : settled? variant data = some encoding) :
    encoding.extension.isSome =
      decide (variant = .msp430x ∧
        PrefixWord.recognises (wordAt data 0) = true) := by
  unfold settled? at h
  by_cases hprefix : variant = .msp430x ∧
      PrefixWord.recognises (wordAt data 0) = true
  · rw [if_pos hprefix] at h
    rw [decide_eq_true hprefix]
    exact Option.isSome_iff_ne_none.mpr (ofPrefixed?_extension h)
  · rw [if_neg hprefix] at h
    rw [decide_eq_false hprefix, (unprefixed_ofWord? h).extension]
    rfl

theorem opcodeBytes_eq {variant : Variant} {data : List UInt8}
    {encoding : Encoding} (h : settled? variant data = some encoding) :
    opcodeBytes variant data = 2 + 2 * encoding.extension.isSome.toNat := by
  rw [isSome_extension h]
  unfold opcodeBytes
  split
  · rw [decide_eq_true ‹_›]
    rfl
  · rw [decide_eq_false ‹_›]
    rfl

/-!
# The longest instruction
-/

theorem words_le_one (slot : OperandSlot) : slot.words ≤ 1 := by
  unfold OperandSlot.words
  cases slot.toForm <;> simp [OperandForm.words]

theorem words_le_two (encoding : Encoding) : encoding.words ≤ 2 := by
  unfold words
  cases encoding.body with
  | reti | jump _ _ | multiple _ _ _ | shift _ _ _ => exact Nat.zero_le 2
  | single opcode target | calla target =>
      exact Nat.le_succ_of_le (words_le_one target)
  | double opcode source destination | address opcode source destination =>
      have hsource := words_le_one source
      have hdestination := words_le_one destination
      show source.words + (destination.words + 0) ≤ 2
      omega

end Encoding

namespace Architecture

open Encoding (opcodeBytes settled?)

theorem opcodeBytes_le (arch : Architecture) (data : List UInt8) :
    opcodeBytes arch.variant data + 4 ≤ arch.maxInstructionLength := by
  unfold Encoding.opcodeBytes maxInstructionLength
  cases arch.variant with
  | msp430 => simp
  | msp430x => split <;> decide

theorem demand_le (arch : Architecture) (data : List UInt8) :
    demand arch.variant data ≤ arch.maxInstructionLength := by
  have hopcode := arch.opcodeBytes_le data
  have hwords : Encoding.extensionBytes (settled? arch.variant data) ≤ 4 := by
    cases settled? arch.variant data with
    | none => exact Nat.zero_le 4
    | some encoding => exact Nat.mul_le_mul_left 2 encoding.words_le_two
  unfold demand
  split
  · omega
  · split <;> omega

/-- A decoded instruction stands at the address that was given and consists of the
opcode word, the prefix word if there is one, and the extension words of its
operands.  All of them were there, and they are no more than the longest instruction
has.  So bytes that the longest instruction fits in are never truncated. -/
theorem decode_length (arch : Architecture) (data : List UInt8) (address : UInt64) :
    (forall inst, decode arch.variant data address = .ok inst ->
      inst.address = address ∧
      inst.length % 2 = 0 ∧
      inst.length = 2 + 2 * inst.isExtended.toNat + 2 * inst.extensionWords ∧
      (inst.isExtended = true ↔
        arch.variant = .msp430x ∧ PrefixWord.recognises (wordAt data 0) = true) ∧
      inst.length ≤ data.length ∧
      inst.length ≤ arch.maxInstructionLength) ∧
    (arch.maxInstructionLength ≤ data.length ->
      forall base needed available,
        decode arch.variant data address ≠
          .error (.truncated base needed available)) := by
  have hmax := arch.demand_le data
  constructor
  · intro inst h
    have hdemand := demand_le_of_decode h
    have hlength := length_of_decode h
    rcases Instruction.exists_encoding h with ⟨encoding, hsettled, rfl⟩
    have hopcode := Encoding.opcodeBytes_eq hsettled
    have hwords := Encoding.extensionWords_instruction
      (Encoding.family_settled? hsettled)
      (Encoding.behindOpcode arch.variant data address)
    have hsum :
        (encoding.instruction
            (Encoding.behindOpcode arch.variant data address)).length =
          2 + 2 * encoding.extension.isSome.toNat + 2 * encoding.words := by
      rw [← hopcode]
      rfl
    refine ⟨rfl, by omega, ?_, ?_, by omega, by omega⟩
    · rw [hsum, hwords]
      rfl
    · show encoding.extension.isSome = true ↔ _
      rw [Encoding.isSome_extension hsettled, decide_eq_true_iff]
  · intro hlong base needed available h
    have hshort := (decode_eq_truncated_iff.mp h).1
    omega

theorem decode_length_longest :
    exists inst,
      decode .msp430x [0x40, 0x18, 0xb2, 0x40, 0x34, 0x12, 0x00, 0x02] 0x4400 =
          .ok inst ∧
        inst.length = 2 + 2 * inst.isExtended.toNat + 2 * inst.extensionWords ∧
        inst.length = 8 ∧
        forall base needed available,
          decode .msp430x [0x40, 0x18, 0xb2, 0x40, 0x34, 0x12, 0x00, 0x02] 0x4400 ≠
            .error (.truncated base needed available) := by
  let arch : Architecture := { variant := .msp430x, options := .standard }
  have hmove :
      decode .msp430x [0x40, 0x18, 0xb2, 0x40, 0x34, 0x12, 0x00, 0x02] 0x4400 = .ok
        { address := 0x4400
          width := .word
          extension := some .once
          body := .double .mov (.immediate 0x1234) (.absolute 0x200)
          length := 8 } := rfl
  rcases arch.decode_length _ 0x4400 with ⟨hdecoded, hcomplete⟩
  rcases hdecoded _ hmove with ⟨_, _, hlength, _⟩
  exact ⟨_, hmove, hlength, rfl, hcomplete (by decide)⟩

end Architecture

end MSP430
