import MSP430.Proofs.Decode.Encode
import MSP430.Proofs.Decode.PrefixCode

/-!
# Decoding of ranges

The words that push or pop a range of registers name it by one of its ends, a push by
the highest register and a pop by the lowest.  Every range of consecutive registers has
a word of both kinds, and nothing else belongs to the instruction.
-/

namespace MSP430

theorem wordAt_bytesOfWord {word : Nat} (h : word < 0x10000) :
    wordAt (bytesOfWord word) 0 = word := by
  show (UInt8.ofNat word).toNat + 0x100 * (UInt8.ofNat (word / 0x100)).toNat = word
  rw [UInt8.toNat_ofNat', UInt8.toNat_ofNat']
  omega

/-- The bits of a word that names a range, and its two digits. -/
theorem rangeWord_digits {opcodeBit wordBit count field word : Nat}
    (hopcode : opcodeBit < 2) (hwordBit : wordBit < 2) (hcount : 1 ≤ count)
    (hlast : count ≤ 16) (hfield : field < 16)
    (hword : word =
      0x1400 + 0x200 * opcodeBit + 0x100 * wordBit + 0x10 * (count - 1) + field) :
    word / 0x200 % 2 = opcodeBit ∧ word / 0x100 % 2 = wordBit ∧
      word / 0x10 % 16 + 1 = count ∧ word % 16 = field := by
  omega

section

variable (opcode : MultipleOpcode) {width : Width} (hwidth : width ≠ .byte) {count : Nat}
  {highest : Register} (hcount : 1 ≤ count) (hrange : count ≤ highest.id + 1)

include hwidth hcount hrange

/-- The words of ranges have a block of their own. -/
theorem opcodeWord_multiple_bounds :
    let word := (Body.multiple opcode count highest).opcodeWord width
    0x1400 ≤ word ∧ word < 0x1800 := by
  have hid := highest.id_lt
  unfold Body.opcodeWord
  cases opcode <;> cases width <;>
    simp only [reduceCtorEq, if_true, if_false] <;> omega

theorem ofMultiple?_opcodeWord :
    Encoding.ofMultiple? ((Body.multiple opcode count highest).opcodeWord width) =
      some { width := width, body := .multiple opcode count highest } := by
  have hid := highest.id_lt
  let wordBit := if width = .word then 1 else 0
  have hbit : wordBit < 2 := by
    cases width <;> decide
  have hselected : (if wordBit = 1 then Width.word else Width.address) = width := by
    cases width <;> first | rfl | exact absurd rfl hwidth
  have hweight : (if width = .word then 0x100 else 0) = 0x100 * wordBit := by
    cases width <;> rfl
  generalize hword : (Body.multiple opcode count highest).opcodeWord width = word
  cases opcode with
  | pushm =>
      have hvalue : word =
          0x1400 + 0x200 * 0 + 0x100 * wordBit + 0x10 * (count - 1) + highest.id := by
        rw [← hword, ← hweight]
        rfl
      rcases rangeWord_digits (by decide) hbit hcount (by omega) hid hvalue with
        ⟨hopcode, hwordBit, hdigit, hfield⟩
      unfold Encoding.ofMultiple?
      simp only [hopcode, hwordBit, hdigit, hfield, hselected, hrange,
        Nat.zero_ne_one, if_false, if_true, Register.ofField_id]
  | popm =>
      have hvalue : word =
          0x1400 + 0x200 * 1 + 0x100 * wordBit + 0x10 * (count - 1) +
            (highest.id + 1 - count) := by
        rw [← hword, ← hweight]
        rfl
      rcases rangeWord_digits (by decide) hbit hcount (by omega) (by omega) hvalue with
        ⟨hopcode, hwordBit, hdigit, hfield⟩
      have hfits : highest.id + 1 - count + count ≤ 16 := by omega
      have hhighest : highest.id + 1 - count + count - 1 = highest.id := by omega
      unfold Encoding.ofMultiple?
      simp only [hopcode, hwordBit, hdigit, hfield, hselected, hfits, hhighest,
        if_true, Register.ofField_id]

/-- A range is pushed and popped by instructions of one word each. -/
theorem decode_multiple (address : UInt64) :
    let inst : Instruction :=
      { address := address
        width := width
        extension := none
        body := .multiple opcode count highest
        length := 2 }
    decode .msp430x inst.bytes address = .ok inst := by
  intro inst
  have hbounds := opcodeWord_multiple_bounds opcode hwidth hcount hrange
  have hsettled := ofMultiple?_opcodeWord opcode hwidth hcount hrange
  have hbytes : inst.bytes =
      bytesOfWord ((Body.multiple opcode count highest).opcodeWord width) :=
    List.append_nil _
  rw [hbytes]
  generalize (Body.multiple opcode count highest).opcodeWord width = word at *
  have hword : wordAt (bytesOfWord word) 0 = word :=
    wordAt_bytesOfWord (Nat.lt_trans hbounds.2 (by decide))
  have hplain : PrefixWord.recognises word = false := by
    unfold PrefixWord.recognises
    exact decide_eq_false (by omega)
  have hopcode : Encoding.opcodeBytes .msp430x (bytesOfWord word) = 2 := by
    unfold Encoding.opcodeBytes
    rw [hword, hplain]
    rfl
  have hsettled' : Encoding.settled? .msp430x (bytesOfWord word) =
      some { width := width, body := .multiple opcode count highest } := by
    have haddress : ¬ word < 0x1000 := by omega
    have hsingle : ¬ word < 0x1400 := by omega
    unfold Encoding.settled? Encoding.ofWord?
    rw [hword, hplain, ← hsettled]
    simp only [Bool.false_eq_true, and_false, haddress, hsingle, hbounds.2, if_false,
      if_true]
  have hdemand : demand .msp430x (bytesOfWord word) = 2 := by
    rw [demand_of_opcode (Nat.le_of_eq hopcode), hopcode, hsettled']
    rfl
  rw [decode_of_demand_le (Nat.le_of_eq hdemand), verdict, hsettled']
  unfold Encoding.behindOpcode
  rw [hopcode]
  rfl

end

end MSP430
