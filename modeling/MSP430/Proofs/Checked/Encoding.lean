import MSP430.Encoding
import MSP430.Proofs.Checked.Arithmetic

/-!
# Checked opcode words

The fields of an opcode word, taken by shifts and masks, and the tables that they index.
The ranges that tell the formats apart keep every index within its table, and the guards
of the counts come behind sums that have room for them.
-/

namespace MSP430

/-!
# Tables
-/

theorem SingleOpcode.ofSlot?_eq (slot : Nat) : ofSlot? slot = all[slot]? := by
  match slot with
  | 0 | 1 | 2 | 3 | 4 | 5 => rfl
  | _ + 6 => rfl

theorem DoubleOpcode.ofNibble?_eq {nibble : Nat} (h : 4 ≤ nibble) :
    ofNibble? nibble = all[nibble - 4]? := by
  match nibble with
  | 4 | 5 | 6 | 7 | 8 | 9 | 10 | 11 | 12 | 13 | 14 | 15 => rfl
  | _ + 16 => rfl

theorem ShiftOpcode.getElem?_all (field : Nat) : all[field % 4]? = some (ofBits field) := by
  have hfield : field % 4 < 4 := Nat.mod_lt _ (by decide)
  unfold ofBits
  generalize field % 4 = low at hfield
  revert low
  decide

theorem AddressOpcode.getElem?_all (field : Nat) :
    all[field % 4]? = some (ofBits field) := by
  have hfield : field % 4 < 4 := Nat.mod_lt _ (by decide)
  unfold ofBits
  generalize field % 4 = low at hfield
  revert low
  decide

namespace Condition

/-- The conditions in the order of their field. -/
def all : List Condition :=
  [notZero, zero, noCarry, carry, negative, greaterEqual, less, always]

theorem getElem?_all (field : Nat) : all[field % 8]? = some (ofBits field) := by
  have hfield : field % 8 < 8 := Nat.mod_lt _ (by decide)
  unfold ofBits
  generalize field % 8 = low at hfield
  revert low
  decide

end Condition

namespace Register

/-- The register of a field, taken from the table. -/
def checkedOfField (field : Nat) : Checked Register :=
  Checked.index all (field &&& 0xf)

@[simp] theorem checkedOfField_eq (field : Nat) :
    checkedOfField field = .ok (ofField field) := by
  have hmask : field &&& 0xf = (ofField field).id :=
    (Nat.and_two_pow_sub_one_eq_mod field 4).trans (id_ofField field).symm
  have hall : forall register : Register, all[register.id]? = some register := by
    intro register
    cases register <;> rfl
  exact Checked.index_eq (hmask ▸ hall (ofField field))

theorem ofField_of_mod {field other : Nat} (h : field % 16 = other % 16) :
    ofField field = ofField other := by
  unfold ofField
  rw [h]

end Register

/-!
# Prefix words
-/

namespace PrefixWord

def checkedOfWord (word : Nat) : Checked PrefixWord := do
  let sourceHigh <- Unsigned.u16.field word 7 4
  let repetition <-
    if word &&& 0x80 ≠ 0 then do
      let counter <- Register.checkedOfField (Unsigned.u8.truncate word)
      pure (Repetition.register counter)
    else do
      let count <- Unsigned.u8.add (word &&& 0xf) 1
      pure (.times count)
  return {
    sourceHigh := sourceHigh
    destinationHigh := word &&& 0xf
    lengthBit := decide (word &&& 0x40 ≠ 0)
    registerForm :=
      { repetition := repetition, zeroCarry := decide (word &&& 0x100 ≠ 0) } }

end PrefixWord

namespace Encoding

theorem and_low (word : Nat) : word &&& 0xf = word % 16 :=
  Nat.and_two_pow_sub_one_eq_mod word 4

theorem byteBit_eq (word : Nat) : decide (word &&& 0x40 ≠ 0) = byteBit word :=
  decide_eq_decide.mpr (and_two_pow_ne_zero_iff word 6)

end Encoding

theorem PrefixWord.checkedOfWord_eq (word : Nat) :
    checkedOfWord word = .ok (ofWord word) := by
  have hlength : (word &&& 0x40 ≠ 0) ↔ word / 0x40 % 2 = 1 := and_two_pow_ne_zero_iff word 6
  have hregister : (word &&& 0x80 ≠ 0) ↔ word / 0x80 % 2 = 1 :=
    and_two_pow_ne_zero_iff word 7
  have hcarry : (word &&& 0x100 ≠ 0) ↔ word / 0x100 % 2 = 1 :=
    and_two_pow_ne_zero_iff word 8
  have hcount : Unsigned.u8.add (word % 16) 1 = .ok (word % 16 + 1) :=
    Unsigned.u8_add (by omega)
  have hcounter : Register.ofField (Unsigned.u8.truncate word) = .ofField word := by
    apply Register.ofField_of_mod
    simp only [Unsigned.truncate, Unsigned.bits]
    omega
  unfold checkedOfWord ofWord
  rw [Unsigned.field_of_lt (by decide), Checked.ok_bind]
  by_cases h : word / 0x80 % 2 = 1
  · simp only [if_pos (hregister.mpr h), if_pos h, Register.checkedOfField_eq,
      Checked.ok_bind, Checked.pure_eq_ok, hcounter, hlength, hcarry, Encoding.and_low,
      Nat.reducePow]
  · simp only [if_neg (mt hregister.mp h), if_neg h, Checked.ok_bind, Checked.pure_eq_ok,
      hcount, hlength, hcarry, Encoding.and_low, Nat.reducePow]

namespace Encoding

/-!
# Formats
-/

def checkedSingle? (prefixWord : Option PrefixWord) (word : Nat) :
    Checked (Option Encoding) := do
  let slot <- Unsigned.u16.field word 7 3
  if 5 < slot then
    return none
  let opcode <- Checked.index SingleOpcode.all slot
  let modeField <- Unsigned.u16.shiftRight word 4
  let register <- Register.checkedOfField (word &&& 0xf)
  let mode := AddressingMode.ofBits modeField
  let inRegister := decide (mode = .register)
  return (singleWidth? opcode prefixWord (decide (word &&& 0x40 ≠ 0))).map fun width =>
    { width := width
      extension := prefixWord.map fun prefixWord =>
        if inRegister then prefixWord.registerForm else .once
      body := .single opcode (.field
        { mode := mode
          register := register
          width := width
          preferAbsolute := decide (opcode = .call)
          high :=
            if inRegister then none else prefixWord.map PrefixWord.destinationHigh }) }

theorem checkedSingle?_eq (prefixWord : Option PrefixWord) (word : Nat) :
    checkedSingle? prefixWord word = .ok (ofSingle? prefixWord word) := by
  have hregister : Register.ofField (word % 16) = .ofField word :=
    Register.ofField_of_mod (Nat.mod_mod word 16)
  unfold checkedSingle? ofSingle?
  rw [Unsigned.field_of_lt (by decide), Unsigned.shiftRight_of_lt (by decide),
    SingleOpcode.ofSlot?_eq]
  simp only [Checked.ok_bind, Nat.reducePow]
  by_cases hslot : 5 < word / 0x80 % 8
  · have hnone : SingleOpcode.all[word / 0x80 % 8]? = none :=
      List.getElem?_eq_none hslot
    rw [if_pos hslot, hnone]
    rfl
  · have hsome : exists opcode, SingleOpcode.all[word / 0x80 % 8]? = some opcode :=
      ⟨_, List.getElem?_eq_getElem (Nat.lt_succ_of_le (Nat.not_lt.mp hslot))⟩
    rcases hsome with ⟨opcode, hopcode⟩
    rw [if_neg hslot, Checked.index_eq hopcode, hopcode]
    simp only [Checked.ok_bind, Register.checkedOfField_eq, Checked.pure_eq_ok,
      byteBit_eq, and_low, hregister, Option.map_eq_bind]
    rfl

def checkedDouble? (prefixWord : Option PrefixWord) (word : Nat) :
    Checked (Option Encoding) := do
  let nibble <- Unsigned.u16.shiftRight word 12
  let position <- Unsigned.size.sub nibble 4
  let opcode <- Checked.index DoubleOpcode.all position
  let sourceModeField <- Unsigned.u16.shiftRight word 4
  let sourceField <- Unsigned.u16.field word 8 4
  let destinationModeField <- Unsigned.u16.field word 7 1
  let sourceRegister <- Register.checkedOfField sourceField
  let destinationRegister <- Register.checkedOfField (word &&& 0xf)
  let sourceMode := AddressingMode.ofBits sourceModeField
  let destinationMode := AddressingMode.ofBits destinationModeField
  let inRegisters :=
    decide (sourceMode = .register ∧ destinationMode = .register)
  let widened := if inRegisters then none else prefixWord
  return (doubleWidth? prefixWord (decide (word &&& 0x40 ≠ 0))).map fun width =>
    { width := width
      extension := prefixWord.map fun prefixWord =>
        if inRegisters then prefixWord.registerForm else .once
      body := .double opcode
        (.field
          { mode := sourceMode
            register := sourceRegister
            width := width
            preferAbsolute :=
              decide (opcode = .mov ∧ destinationMode = .register ∧
                destinationRegister = .pc)
            high := widened.map PrefixWord.sourceHigh })
        (.field
          { mode := destinationMode
            register := destinationRegister
            width := width
            isDestination := true
            high := widened.map PrefixWord.destinationHigh }) }

/-- Words of this format have an opcode in their top four bits, of which the table starts
with the fourth. -/
theorem checkedDouble?_eq (prefixWord : Option PrefixWord) {word : Nat}
    (hle : 0x4000 ≤ word) (hlt : word < 0x10000) :
    checkedDouble? prefixWord word = .ok (ofDouble? prefixWord word) := by
  have hnibble : 4 ≤ word / 0x1000 := by omega
  have hlow : Register.ofField (word % 16) = .ofField word :=
    Register.ofField_of_mod (Nat.mod_mod word 16)
  have hhigh : Register.ofField (word / 0x100 % 16) = .ofField (word / 0x100) :=
    Register.ofField_of_mod (Nat.mod_mod _ 16)
  have hsome : exists opcode, DoubleOpcode.all[word / 0x1000 - 4]? = some opcode :=
    ⟨_, List.getElem?_eq_getElem (show word / 0x1000 - 4 < 12 by omega)⟩
  rcases hsome with ⟨opcode, hopcode⟩
  unfold checkedDouble? ofDouble?
  rw [Unsigned.shiftRight_of_lt (by decide), Unsigned.shiftRight_of_lt (by decide),
    Unsigned.field_of_lt (by decide), Unsigned.field_of_lt (by decide),
    DoubleOpcode.ofNibble?_eq hnibble]
  simp only [Checked.ok_bind, Nat.reducePow, Unsigned.sub_of_le hnibble,
    Checked.index_eq hopcode, hopcode, Register.checkedOfField_eq, Checked.pure_eq_ok,
    byteBit_eq, and_low, hlow, hhigh, Option.map_eq_bind]
  rfl

/-- The displacement is shifted to the top of its type and back. -/
def checkedJump (word : Nat) : Checked Encoding := do
  let conditionField <- Unsigned.u16.field word 10 3
  let condition <- Checked.index Condition.all conditionField
  let atTop <- Unsigned.u16.shiftLeft (word &&& 0x3ff) 6
  let offset <- Signed.i16.shiftRight (Signed.i16.ofUnsigned atTop) 6
  return { width := .word, body := .jump condition offset }

theorem checkedJump_eq (word : Nat) : checkedJump word = .ok (ofJump word) := by
  have hfield : word &&& 0x3ff = word % 0x400 := Nat.and_two_pow_sub_one_eq_mod word 10
  have hoffset : Signed.i16.ofUnsigned (word % 0x400 * 2 ^ 6 % 2 ^ 16) / (2 ^ 6 : Nat) =
      jumpOffset word := by
    simp only [Signed.ofUnsigned, Signed.bits, Int.bmod, jumpOffset]
    omega
  have hcondition : Checked.index Condition.all (word / 2 ^ 10 % 2 ^ 3) =
      .ok (.ofBits (word / 0x400)) :=
    Checked.index_eq (Condition.getElem?_all (word / 0x400))
  unfold checkedJump ofJump
  rw [Unsigned.field_of_lt (by decide), Checked.ok_bind, hcondition, Checked.ok_bind,
    hfield, Unsigned.shiftLeft_of_lt (by decide), Checked.ok_bind,
    Signed.shiftRight_of_lt (by decide), Checked.ok_bind]
  exact congrArg (fun offset => Except.ok (Encoding.mk .word none (.jump _ offset)))
    hoffset

/-- A range, if its guard holds: the register that a range ends with has to leave room for
what is pushed below it, and what is popped must not leave the registers. -/
def checkedRange? (opcode : MultipleOpcode) (width : Width) (count field : Nat) :
    Checked (Option Encoding) :=
  let range (highest : Nat) : Checked (Option Encoding) := do
    let register <- Register.checkedOfField highest
    return some { width := width, body := .multiple opcode count register }
  match opcode with
  | .pushm => do
      let room <- Unsigned.u8.add field 1
      if count ≤ room then range field else return none
  | .popm => do
      let behind <- Unsigned.u8.add field count
      let last <- Unsigned.u8.sub behind 1
      if last ≤ 15 then range last else return none

def checkedMultiple? (word : Nat) : Checked (Option Encoding) := do
  let countField <- Unsigned.u16.field word 4 4
  let count <- Unsigned.u8.add countField 1
  let selector <- Unsigned.u16.field word 8 2
  match selector with
  | 0 => checkedRange? .pushm .address count (word &&& 0xf)
  | 1 => checkedRange? .pushm .word count (word &&& 0xf)
  | 2 => checkedRange? .popm .address count (word &&& 0xf)
  | _ => checkedRange? .popm .word count (word &&& 0xf)

section Range

variable {count field : Nat} (width : Width) (hfield : field < 16)

include hfield

theorem checkedRange?_pushm :
    checkedRange? .pushm width count field =
      .ok (if count ≤ field + 1 then
        some { width := width, body := .multiple .pushm count (.ofField field) }
      else
        none) := by
  have hroom : Unsigned.u8.add field 1 = .ok (field + 1) :=
    Unsigned.u8_add (by omega)
  simp only [checkedRange?, hroom, Register.checkedOfField_eq, Checked.ok_bind,
    Checked.pure_eq_ok]
  exact (apply_ite Except.ok _ _ _).symm

theorem checkedRange?_popm (hpos : 1 ≤ count) (hcount : count ≤ 16) :
    checkedRange? .popm width count field =
      .ok (if field + count ≤ 16 then
        some
          { width := width
            body := .multiple .popm count (.ofField (field + count - 1)) }
      else
        none) := by
  have hbehind : Unsigned.u8.add field count = .ok (field + count) :=
    Unsigned.u8_add (by omega)
  have hlast : Unsigned.u8.sub (field + count) 1 = .ok (field + count - 1) :=
    Unsigned.sub_of_le (by omega)
  have hguard : (field + count - 1 ≤ 15) ↔ field + count ≤ 16 := by omega
  simp only [checkedRange?, hbehind, hlast, hguard, Register.checkedOfField_eq,
    Checked.ok_bind, Checked.pure_eq_ok]
  exact (apply_ite Except.ok _ _ _).symm

end Range

/-- Counts and fields have four bits, so their sums have room in a byte. -/
theorem checkedMultiple?_eq (word : Nat) :
    checkedMultiple? word = .ok (ofMultiple? word) := by
  have hfield : word % 16 < 16 := Nat.mod_lt _ (by decide)
  have hcount : Unsigned.u8.add (word / 0x10 % 16) 1 = .ok (word / 0x10 % 16 + 1) :=
    Unsigned.u8_add (by omega)
  have hpopm := fun width => checkedRange?_popm width hfield
    (show 1 ≤ word / 0x10 % 16 + 1 by omega) (by omega)
  have hselector : word / 0x100 % 4 < 4 := Nat.mod_lt _ (by decide)
  have hwidth : word / 0x100 % 2 = word / 0x100 % 4 % 2 := by omega
  have hpops : word / 0x200 % 2 = word / 0x100 % 4 / 2 := by omega
  unfold checkedMultiple? ofMultiple?
  rw [Unsigned.field_of_lt (by decide), Unsigned.field_of_lt (by decide), hwidth, hpops]
  simp only [Checked.ok_bind, and_low, Nat.reducePow, hcount]
  generalize word / 0x100 % 4 = selector at hselector
  have hcases : selector = 0 ∨ selector = 1 ∨ selector = 2 ∨ selector = 3 := by omega
  rcases hcases with rfl | rfl | rfl | rfl
  · exact checkedRange?_pushm .address hfield
  · exact checkedRange?_pushm .word hfield
  · exact hpopm .address
  · exact hpopm .word

def checkedCalla? (word : Nat) : Checked (Option Encoding) := do
  let field := word &&& 0xf
  let register <- Register.checkedOfField field
  let mode <- Unsigned.u16.field word 4 4
  let call (form : OperandForm) : Option Encoding :=
    some { width := .address, body := .calla (.form form) }
  return match mode with
    | 0x4 => call (.fixed (.register register))
    | 0x5 => call (offsetForm register none true)
    | 0x6 => call (.fixed (.indirect register))
    | 0x7 => call (.fixed (.autoIncrement register 4))
    | 0x8 => call (.absolute (some field))
    | 0x9 => call (offsetForm .pc (some field) true)
    | 0xb => call (.immediate (some field) .address)
    | _ => none

theorem checkedCalla?_eq (word : Nat) : checkedCalla? word = .ok (ofCalla? word) := by
  unfold checkedCalla?
  rw [Unsigned.field_of_lt (by decide), and_low]
  simp only [Checked.ok_bind, Register.checkedOfField_eq, Checked.pure_eq_ok,
    Nat.reducePow]
  rfl

/-- The count of a shift is a field and one more. -/
def checkedShift (word : Nat) (width : Width) (destination : Register) :
    Checked Encoding := do
  let countField <- Unsigned.u16.field word 10 2
  let count <- Signed.i32.add countField 1
  let opcodeField <- Unsigned.u16.field word 8 2
  let opcode <- Checked.index ShiftOpcode.all opcodeField
  return { width := width, body := .shift opcode count.toNat destination }

def checkedAddress (word : Nat) : Checked Encoding := do
  let sourceField <- Unsigned.u16.field word 8 4
  let destinationField := word &&& 0xf
  let source <- Register.checkedOfField sourceField
  let destination <- Register.checkedOfField destinationField
  let nibble <- Unsigned.u16.field word 4 4
  let operation (opcode : AddressOpcode) (source destination : OperandForm) : Encoding :=
    { width := .address
      body := .address opcode (.form source) (.form destination) }
  let toRegister (opcode : AddressOpcode) (source : OperandForm) : Encoding :=
    operation opcode source (.fixed (.register destination))
  match nibble with
  | 0x0 => return toRegister .mova (.fixed (.indirect source))
  | 0x1 => return toRegister .mova (.fixed (.autoIncrement source 4))
  | 0x2 => return toRegister .mova (.absolute (some sourceField))
  | 0x3 => return toRegister .mova (offsetForm source none false)
  | 0x4 => checkedShift word .address destination
  | 0x5 => checkedShift word .word destination
  | 0x6 =>
      return operation .mova (.fixed (.register source))
        (.absolute (some destinationField))
  | 0x7 =>
      return operation .mova (.fixed (.register source))
        (offsetForm destination none false)
  | nibble => do
      let opcode <- Checked.index AddressOpcode.all (nibble &&& 0x3)
      if nibble < 0xc then
        return toRegister opcode (.immediate (some sourceField) .address)
      else
        return toRegister opcode (.fixed (.register source))

theorem checkedShift_eq (word : Nat) (width : Width) (destination : Register) :
    checkedShift word width destination =
      .ok { width := width
            body :=
              .shift (.ofBits (word / 0x100)) (word / 0x400 % 4 + 1) destination } := by
  have hcount : Signed.i32.add (word / 0x400 % 4 : Nat) 1 =
      .ok ((word / 0x400 % 4 : Nat) + 1) := by
    apply Signed.add_of_bounds
    simp only [Signed.half, Signed.bits]
    omega
  have htoNat : ((word / 0x400 % 4 : Nat) + 1 : Int).toNat = word / 0x400 % 4 + 1 := by
    omega
  have hcountField : Unsigned.u16.field word 10 2 = .ok (word / 0x400 % 4) :=
    Unsigned.field_of_lt (by decide) 2
  have hopcodeField : Unsigned.u16.field word 8 2 = .ok (word / 0x100 % 4) :=
    Unsigned.field_of_lt (by decide) 2
  have hopcode := Checked.index_eq (ShiftOpcode.getElem?_all (word / 0x100))
  unfold checkedShift
  rw [hcountField, Checked.ok_bind, hcount, Checked.ok_bind, hopcodeField, Checked.ok_bind,
    hopcode, Checked.ok_bind, htoNat, Checked.pure_eq_ok]

theorem checkedAddress_eq (word : Nat) : checkedAddress word = .ok (ofAddress word) := by
  have hopcode : forall nibble : Nat, Checked.index AddressOpcode.all (nibble &&& 0x3) =
      .ok (.ofBits nibble) := by
    intro nibble
    have hmask : nibble &&& 0x3 = nibble % 4 := Nat.and_two_pow_sub_one_eq_mod nibble 2
    exact hmask ▸ Checked.index_eq (AddressOpcode.getElem?_all nibble)
  unfold checkedAddress ofAddress
  rw [Unsigned.field_of_lt (by decide), Unsigned.field_of_lt (by decide), and_low]
  simp only [Checked.ok_bind, Register.checkedOfField_eq, Checked.pure_eq_ok,
    Nat.reducePow, checkedShift_eq]
  generalize word / 0x10 % 16 = nibble
  by_cases hmove : nibble < 8
  · have hcases : nibble = 0 ∨ nibble = 1 ∨ nibble = 2 ∨ nibble = 3 ∨ nibble = 4 ∨
        nibble = 5 ∨ nibble = 6 ∨ nibble = 7 := by omega
    rcases hcases with rfl | rfl | rfl | rfl | rfl | rfl | rfl | rfl <;> rfl
  · rcases Nat.exists_eq_add_of_le' (Nat.le_of_not_lt hmove) with ⟨above, rfl⟩
    show (Checked.index AddressOpcode.all ((above + 8) &&& 0x3) >>= _) = _
    rw [hopcode, Checked.ok_bind]
    by_cases hlow : above + 8 < 0xc
    · rw [if_pos hlow]
      exact congrArg Except.ok (if_pos hlow).symm
    · rw [if_neg hlow]
      exact congrArg Except.ok (if_neg hlow).symm

/-!
# All opcode words
-/

def checkedSingleBlock? (variant : Variant) (word : Nat) : Checked (Option Encoding) := do
  let slot <- Unsigned.u16.field word 7 3
  if slot = 6 ∧ word = 0x1300 then
    return some { width := .word, body := .reti }
  else if 5 < slot ∧ 0x1340 ≤ word ∧ variant = .msp430x then
    checkedCalla? word
  else
    checkedSingle? none word

def checkedWord? (variant : Variant) (word : Nat) : Checked (Option Encoding) := do
  if word < 0x1000 then
    if variant = .msp430x then
      let encoding <- checkedAddress word
      return some encoding
    else
      return none
  else if word < 0x1400 then
    checkedSingleBlock? variant word
  else if word < 0x1800 then
    if variant = .msp430x then checkedMultiple? word else return none
  else if word < 0x2000 then
    return none
  else if word < 0x4000 then
    let encoding <- checkedJump word
    return some encoding
  else
    checkedDouble? none word

def checkedPrefixed? (prefixWord : PrefixWord) (word : Nat) : Checked (Option Encoding) :=
  if word < 0x1000 then
    return none
  else if word < 0x1300 then
    checkedSingle? (some prefixWord) word
  else if word < 0x4000 then
    return none
  else
    checkedDouble? (some prefixWord) word

theorem ofSingle?_eq_none {prefixWord : Option PrefixWord} {word : Nat}
    (h : 5 < word / 0x80 % 8) : ofSingle? prefixWord word = none := by
  have hnone : SingleOpcode.all[word / 0x80 % 8]? = none := List.getElem?_eq_none h
  unfold ofSingle?
  rw [SingleOpcode.ofSlot?_eq, hnone]
  rfl

/-- The words behind the table of single-operand opcodes are told apart by their
slots. -/
theorem checkedSingleBlock?_eq (variant : Variant) {word : Nat} (hle : 0x1000 ≤ word)
    (hlt : word < 0x1400) :
    checkedSingleBlock? variant word = .ok (ofSingleBlock? variant word) := by
  have hslot : Unsigned.u16.field word 7 3 = .ok (word / 0x80 % 8) :=
    Unsigned.field_of_lt (by decide) 3
  have hreti : (word / 0x80 % 8 = 6 ∧ word = 0x1300) ↔ word = 0x1300 := by omega
  have hbehind : 0x1340 ≤ word -> 5 < word / 0x80 % 8 := by omega
  unfold checkedSingleBlock? ofSingleBlock?
  rw [hslot, Checked.ok_bind]
  by_cases hword : word = 0x1300
  · rw [if_pos (hreti.mpr hword), if_pos hword, Checked.pure_eq_ok]
  · rw [if_neg (mt hreti.mp hword), if_neg hword]
    by_cases hcalla : 0x1340 ≤ word
    · rw [if_pos hcalla]
      by_cases hvariant : variant = .msp430x
      · rw [if_pos ⟨hbehind hcalla, hcalla, hvariant⟩, if_pos hvariant, checkedCalla?_eq]
      · rw [if_neg fun h => hvariant h.2.2, if_neg hvariant, checkedSingle?_eq,
          ofSingle?_eq_none (hbehind hcalla)]
    · rw [if_neg fun h => hcalla h.2.1, if_neg hcalla, checkedSingle?_eq]

theorem checkedWord?_eq (variant : Variant) {word : Nat} (hlt : word < 0x10000) :
    checkedWord? variant word = .ok (ofWord? variant word) := by
  unfold checkedWord? ofWord?
  by_cases haddress : word < 0x1000
  · rw [if_pos haddress, if_pos haddress, checkedAddress_eq]
    exact (apply_ite Except.ok _ _ _).symm
  rw [if_neg haddress, if_neg haddress]
  by_cases hsingle : word < 0x1400
  · rw [if_pos hsingle, if_pos hsingle,
      checkedSingleBlock?_eq variant (Nat.not_lt.mp haddress) hsingle]
  rw [if_neg hsingle, if_neg hsingle]
  by_cases hmultiple : word < 0x1800
  · rw [if_pos hmultiple, if_pos hmultiple, checkedMultiple?_eq]
    exact (apply_ite Except.ok _ _ _).symm
  rw [if_neg hmultiple, if_neg hmultiple]
  by_cases hprefix : word < 0x2000
  · rw [if_pos hprefix, if_pos hprefix, Checked.pure_eq_ok]
  rw [if_neg hprefix, if_neg hprefix]
  by_cases hjump : word < 0x4000
  · rw [if_pos hjump, if_pos hjump, checkedJump_eq, Checked.ok_bind, Checked.pure_eq_ok]
  · rw [if_neg hjump, if_neg hjump, checkedDouble?_eq none (Nat.not_lt.mp hjump) hlt]

theorem checkedPrefixed?_eq (prefixWord : PrefixWord) {word : Nat} (hlt : word < 0x10000) :
    checkedPrefixed? prefixWord word = .ok (ofPrefixed? prefixWord word) := by
  unfold checkedPrefixed? ofPrefixed?
  by_cases hlow : word < 0x1000
  · rw [if_pos hlow, if_pos hlow, Checked.pure_eq_ok]
  rw [if_neg hlow, if_neg hlow]
  by_cases hsingle : word < 0x1300
  · rw [if_pos hsingle, if_pos hsingle, checkedSingle?_eq]
  rw [if_neg hsingle, if_neg hsingle]
  by_cases hbetween : word < 0x4000
  · rw [if_pos hbetween, if_pos hbetween, Checked.pure_eq_ok]
  · rw [if_neg hbetween, if_neg hbetween,
      checkedDouble?_eq (some prefixWord) (Nat.not_lt.mp hbetween) hlt]

end Encoding
end MSP430
