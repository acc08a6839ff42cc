import MSP430.Proofs.Checked.Cursor
import MSP430.Proofs.Checked.Text
import MSP430.Proofs.Decode.Length
import MSP430.Proofs.Decode.Resolve

/-!
# Checked operands

Extension words are shifted together, sign-extended and masked, and an address relative
to the program counter is a signed sum.  An operand field is checked for the words it
consumes, and its operand is shown.
-/

namespace MSP430

open Reading (ComesTo)

/-!
# Extension words
-/

/-- A value of twenty bits is shifted to the top of its type and back. -/
theorem Width.toInt_address (value : Nat) :
    Signed.i32.ofUnsigned (value * 2 ^ 12 % 2 ^ Unsigned.u32.bits) / (2 ^ 12 : Nat) =
      Width.address.toInt value := by
  have hmodulus : Width.address.modulus = 0x100000 := rfl
  have hsignBit : Width.address.signBit = 0x80000 := rfl
  unfold Signed.ofUnsigned Int.bmod toInt
  rw [hmodulus, hsignBit]
  simp only [Signed.bits, Unsigned.bits]
  omega

theorem Width.toInt_word (value : Nat) :
    Int.bmod value (2 ^ 16) = Width.word.toInt value := by
  have hmodulus : Width.word.modulus = 0x10000 := rfl
  have hsignBit : Width.word.signBit = 0x8000 := rfl
  unfold Int.bmod toInt
  rw [hmodulus, hsignBit]
  dsimp only
  omega

/-- The high bits stand above those of the word. -/
def checkedExtendUnsigned (high : Option Nat) (word : Nat) : Checked Nat :=
  match high with
  | none => return word
  | some bits => do
      let above <- Unsigned.u32.shiftLeft (bits &&& 0xf) 16
      return above ||| word

/-- The sign is that of the highest bit, which is shifted to the top and back. -/
def checkedExtendSigned (high : Option Nat) (word : Nat) : Checked Int :=
  match high with
  | none => return Signed.i16.ofUnsigned word
  | some _ => do
      let value <- checkedExtendUnsigned high word
      let atTop <- Unsigned.u32.shiftLeft value 12
      Signed.i32.shiftRight (Signed.i32.ofUnsigned atTop) 12

section Extend

variable {word : Nat} (hword : word < 0x10000)

include hword

theorem checkedExtendUnsigned_eq (high : Option Nat) :
    checkedExtendUnsigned high word = .ok (extendUnsigned high word) := by
  cases high with
  | none => rfl
  | some bits =>
      have hbits : bits &&& 0xf = bits % 16 := Nat.and_two_pow_sub_one_eq_mod bits 4
      have hshift : bits % 16 * 2 ^ 16 % 2 ^ 32 = 2 ^ 16 * (bits % 16) := by omega
      have hsum := Nat.two_pow_add_eq_or_of_lt (show word < 2 ^ 16 from hword) (bits % 16)
      simp only [checkedExtendUnsigned, hbits]
      rw [Unsigned.shiftLeft_of_lt (by decide), Checked.ok_bind, Checked.pure_eq_ok]
      exact congrArg Except.ok ((congrArg (· ||| word) hshift).trans hsum.symm)

theorem checkedExtendSigned_eq (high : Option Nat) :
    checkedExtendSigned high word = .ok (extendSigned high word) := by
  cases high with
  | none => exact congrArg Except.ok (Width.toInt_word word)
  | some bits =>
      have hatTop : Unsigned.u32.shiftLeft (extendUnsigned (some bits) word) 12 = .ok _ :=
        Unsigned.shiftLeft_of_lt (by decide)
      unfold checkedExtendSigned extendSigned
      rw [checkedExtendUnsigned_eq hword, Checked.ok_bind, hatTop, Checked.ok_bind,
        Signed.shiftRight_of_lt (by decide), Width.toInt_address]
      exact congrArg Except.ok rfl

end Extend

/-!
# Operands
-/

namespace OperandForm

/-- The address at an offset from the next one, within its space. -/
def checkedTarget (space : Width) (next : UInt64) (offset : Int) : Checked Nat := do
  let mask <- space.checkedMask
  let target <- Signed.i64.add (Signed.i64.ofUnsigned (next.toNat &&& mask)) offset
  return Unsigned.u64.ofInt target &&& mask

/-- The masked address and the offset have twenty bits, so their sum has room. -/
theorem checkedTarget_eq (space : Width) (next : UInt64) {offset : Int}
    (h : -0x80000 ≤ offset ∧ offset < 0x80000) :
    checkedTarget space next offset = .ok (space.ofInt (next.toNat + offset)) := by
  have hcounter := space.truncate_lt next.toNat
  have hmodulus : space.modulus ≤ 0x100000 := by cases space <;> decide
  have hread : Signed.i64.ofUnsigned (space.truncate next.toNat) =
      space.truncate next.toNat := by
    apply Int.bmod_eq_of_le <;> simp only [Signed.bits] <;> omega
  have htarget : Signed.i64.add (space.truncate next.toNat) offset =
      .ok (space.truncate next.toNat + offset) := by
    apply Signed.add_of_bounds
    simp only [Signed.half, Signed.bits]
    omega
  unfold checkedTarget
  rw [Width.checkedMask_eq, Checked.ok_bind, Width.and_mask, hread, htarget,
    Checked.ok_bind, Width.and_mask, Width.truncate_ofInt, Width.ofInt_truncate_add,
    Checked.pure_eq_ok]

/-- Immediates are masked to the width of their instruction. -/
def checkedOperand (form : OperandForm) (next : UInt64) (word : Nat) : Checked Operand :=
  match form with
  | fixed operand => return operand
  | absolute high => do
      let address <- checkedExtendUnsigned high word
      return .absolute address
  | immediate high width => do
      let value <- checkedExtendUnsigned high word
      let mask <- width.checkedMask
      return .immediate (value &&& mask)
  | indexed register high => do
      let offset <- checkedExtendSigned high word
      return .indexed register offset
  | relative high space asAbsolute => do
      let offset <- checkedExtendSigned high word
      let target <- checkedTarget space next offset
      return if asAbsolute then .absolute target else .symbolic offset target

def checkedRead (form : OperandForm) (cursor : Cursor) : Reading (Operand × Cursor) :=
  match form with
  | fixed operand => return (operand, cursor)
  | _ => do
      let (word, rest) <- cursor.checkedRead
      let operand <- form.checkedOperand rest.address word
      return (operand, rest)

theorem checkedOperand_eq (form : OperandForm) (next : UInt64) {word : Nat}
    (hword : word < 0x10000) :
    form.checkedOperand next word = .ok (form.operand next word) := by
  cases form with
  | fixed operand => rfl
  | absolute high =>
      simp only [checkedOperand, checkedExtendUnsigned_eq hword, Checked.ok_bind]
      rfl
  | immediate high width =>
      simp only [checkedOperand, checkedExtendUnsigned_eq hword, Width.checkedMask_eq,
        Checked.ok_bind, Width.and_mask]
      rfl
  | indexed register high =>
      simp only [checkedOperand, checkedExtendSigned_eq hword, Checked.ok_bind]
      rfl
  | relative high space asAbsolute =>
      have hsignBit : (extensionWidth high).signBit ≤ 0x80000 :=
        Encoding.signBit_le_address _
      have hoffset : -0x80000 ≤ extendSigned high word ∧
          extendSigned high word < 0x80000 := by
        have hbounds := (extensionWidth high).toInt_bounds (extendUnsigned high word)
        unfold extendSigned
        omega
      simp only [checkedOperand, checkedExtendSigned_eq hword, Checked.ok_bind,
        checkedTarget_eq space next hoffset]
      rfl

theorem checkedRead_eq (form : OperandForm) {cursor : Cursor} {limit : Nat}
    (h : cursor.Stands limit) (hlimit : limit + 2 < 0x10000) :
    ComesTo (form.checkedRead cursor) (form.read cursor) := by
  cases form with
  | fixed operand => rfl
  | _ =>
      refine .bind (Cursor.checkedRead_eq h hlimit) ?_
      rintro ⟨word, rest⟩ hread
      have hword := (Cursor.stands_of_read h hread).1
      exact .lift (checkedOperand_eq _ _ hword) rfl

/-- A form that was read makes its operand of the word at the cursor. -/
theorem resolved_of_read {form : OperandForm} {cursor : Cursor} {limit : Nat}
    (h : cursor.Stands limit) {operand : Operand} {rest : Cursor}
    (hread : form.read cursor = .ok (operand, rest)) :
    operand = form.resolved cursor ∧ rest.Stands (limit + 2 * form.words) := by
  by_cases hle : cursor.position + 2 * form.words ≤ cursor.data.length
  · rw [form.read_of_le cursor hle] at hread
    cases hread
    exact ⟨rfl, hle, Nat.add_le_add_right h.early _⟩
  · rw [form.read_of_lt cursor h.inside (Nat.lt_of_not_le hle)] at hread
    cases hread

end OperandForm

/-- Offsets have twenty bits, and generated constants are small. -/
theorem Encoding.hasMagnitude_resolved {form : OperandForm}
    (hreaches : FormReaches .address form) (hgenerates : FormGenerates form)
    (cursor : Cursor) : (form.resolved cursor).HasMagnitude := by
  intro value hvalue
  cases hoperand : form.resolved cursor with
  | indexed register offset =>
      rw [hoperand] at hvalue
      cases hvalue
      have hoffset : (form.resolved cursor).offset? = some value := by
        rw [hoperand]
        rfl
      have hbounds : -(0x80000 : Nat) ≤ value :=
        (offset_bounds_of_formReaches hreaches hoffset).1
      omega
  | constant number =>
      rw [hoperand] at hvalue
      cases hvalue
      have hmem := hgenerates value (form_of_constant hoperand)
      have hbound : forall constant, constant ∈ generatedConstants -> -1 ≤ constant := by
        decide
      have hlow := hbound value hmem
      omega
  | _ =>
      rw [hoperand] at hvalue
      cases hvalue

/-- Asking for the extension words first changes nothing: reading asks for them as
well. -/
theorem OperandForm.ensure_read (form : OperandForm) {cursor : Cursor} {limit : Nat}
    (h : cursor.Stands limit) :
    (do
      cursor.ensure (2 * form.words)
      form.read cursor) = form.read cursor := by
  have hinside := h.inside
  by_cases hle : cursor.position + 2 * form.words ≤ cursor.data.length
  · have hthere : ¬ cursor.remaining < 2 * form.words := by
      unfold Cursor.remaining
      omega
    unfold Cursor.ensure
    rw [if_neg hthere]
    rfl
  · have hmissing : cursor.remaining < 2 * form.words := by
      unfold Cursor.remaining
      omega
    unfold Cursor.ensure
    rw [if_pos hmissing, form.read_of_lt cursor hinside (Nat.lt_of_not_le hle)]
    rfl

namespace OperandSlot

/-- The extension words of a field as its mode and its register tell them. -/
def expectedWords : OperandSlot -> Nat
  | field described => described.expectedWords
  | form named => named.words

theorem expectedWords_eq (slot : OperandSlot) : slot.expectedWords = slot.words := by
  cases slot with
  | field described => exact described.expectedWords_eq_words
  | form named => rfl

/-- A field consumes the words that are expected of it, and is then reported. -/
def checkedRead (slot : OperandSlot) (cursor : Cursor) : Reading (Operand × Cursor) :=
  match slot with
  | field described => do
      let words := described.expectedWords
      let bytes <- Unsigned.size.mul words 2
      cursor.checkedEnsure bytes
      let (operand, rest) <- described.form.checkedRead cursor
      Checked.assert (operand.extensionWords = words)
      let _ <- operand.checkedText
      return (operand, rest)
  | form named => named.checkedRead cursor

section Read

variable {cursor : Cursor} {limit : Nat} (h : cursor.Stands limit)

include h

theorem checkedRead_eq (slot : OperandSlot) (hlimit : limit + 2 < 0x10000) :
    ComesTo (slot.checkedRead cursor) (slot.read cursor) := by
  cases slot with
  | form named => exact named.checkedRead_eq h hlimit
  | field described =>
      have hwords : described.expectedWords = described.form.words :=
        described.expectedWords_eq_words
      have hone : described.form.words ≤ 1 :=
        Encoding.words_le_one (.field described)
      have hbytes : Unsigned.size.mul described.form.words 2 =
          .ok (2 * described.form.words) :=
        Unsigned.size_double (by omega)
      have hread : (OperandSlot.field described).read cursor =
          (cursor.ensure (2 * described.form.words) >>= fun _ =>
            described.form.read cursor >>= pure) := by
        rw [bind_pure]
        exact (described.form.ensure_read h).symm
      unfold checkedRead
      simp only [hwords]
      rw [hread]
      refine .lift hbytes ?_
      refine .bind (Cursor.checkedEnsure_eq h (by omega)) fun _ _ => ?_
      refine .bind (described.form.checkedRead_eq h hlimit) ?_
      rintro ⟨operand, rest⟩ hoperand
      rcases OperandForm.resolved_of_read h hoperand with ⟨rfl, _⟩
      have hcount := Encoding.extensionWords_resolved
        (Encoding.formCounts_field described) cursor
      have hmagnitude := Encoding.hasMagnitude_resolved
        (Encoding.formLaw_reaches.field described)
        (Encoding.formLaw_generates.field described) cursor
      refine .lift (Checked.assert_eq hcount) ?_
      exact .lift (Operand.checkedText_eq hmagnitude) rfl

theorem stands_of_read {slot : OperandSlot} {operand : Operand} {rest : Cursor}
    (hread : slot.read cursor = .ok (operand, rest)) : rest.Stands (limit + 2) := by
  have hstands := (OperandForm.resolved_of_read h hread).2
  have hone : slot.toForm.words ≤ 1 := Encoding.words_le_one slot
  have hearly := hstands.early
  exact ⟨hstands.inside, by omega⟩

end Read

end OperandSlot

end MSP430
