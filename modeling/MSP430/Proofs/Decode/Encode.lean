import MSP430.Decode

/-!
# Encoding of instructions

The words of an instruction that has no prefix word: the opcode word, which is made of
the opcode, the width and the fields of the operands, and behind it the extension words
of the operands.
-/

namespace MSP430

/-!
# Fields of opcode words
-/

def AddressingMode.bits : AddressingMode -> Nat
  | register => 0
  | indexed => 1
  | indirect => 2
  | autoIncrement => 3

theorem AddressingMode.bits_ofBits (field : Nat) :
    (AddressingMode.ofBits field).bits = field % 4 := by
  have hfield : field % 4 < 4 := Nat.mod_lt _ (by decide)
  unfold AddressingMode.ofBits
  generalize field % 4 = low at hfield
  revert low
  decide

theorem Condition.bits_ofBits (field : Nat) :
    (Condition.ofBits field).bits = field % 8 := by
  have hfield : field % 8 < 8 := Nat.mod_lt _ (by decide)
  unfold Condition.ofBits
  generalize field % 8 = low at hfield
  revert low
  decide

def SingleOpcode.slot : SingleOpcode -> Nat
  | rrc => 0
  | swpb => 1
  | rra => 2
  | sxt => 3
  | push => 4
  | call => 5

theorem SingleOpcode.slot_of_ofSlot? {field : Nat} {opcode : SingleOpcode}
    (h : ofSlot? field = some opcode) : opcode.slot = field := by
  unfold ofSlot? at h
  split at h <;> cases h <;> rfl

def DoubleOpcode.nibble : DoubleOpcode -> Nat
  | mov => 4
  | add => 5
  | addc => 6
  | subc => 7
  | sub => 8
  | cmp => 9
  | dadd => 10
  | bit => 11
  | bic => 12
  | bis => 13
  | xor => 14
  | and => 15

theorem DoubleOpcode.nibble_of_ofNibble? {field : Nat} {opcode : DoubleOpcode}
    (h : ofNibble? field = some opcode) : opcode.nibble = field := by
  unfold ofNibble? at h
  split at h <;> cases h <;> rfl

def AddressOpcode.bits : AddressOpcode -> Nat
  | mova => 0
  | cmpa => 1
  | adda => 2
  | suba => 3

theorem AddressOpcode.bits_ofBits (field : Nat) :
    (AddressOpcode.ofBits field).bits = field % 4 := by
  have hfield : field % 4 < 4 := Nat.mod_lt _ (by decide)
  unfold AddressOpcode.ofBits
  generalize field % 4 = low at hfield
  revert low
  decide

def ShiftOpcode.bits : ShiftOpcode -> Nat
  | rrcm => 0
  | rram => 1
  | rlam => 2
  | rrum => 3

theorem ShiftOpcode.bits_ofBits (field : Nat) :
    (ShiftOpcode.ofBits field).bits = field % 4 := by
  have hfield : field % 4 < 4 := Nat.mod_lt _ (by decide)
  unfold ShiftOpcode.ofBits
  generalize field % 4 = low at hfield
  revert low
  decide

/-- The byte bit of an opcode word. -/
def Width.byteBit : Width -> Nat
  | byte => 1
  | word | address => 0

theorem byteBit_ofByteBit (word : Nat) :
    (Width.ofByteBit (Encoding.byteBit word)).byteBit = word / 0x40 % 2 := by
  unfold Encoding.byteBit
  rcases Nat.mod_two_eq_zero_or_one (word / 0x40) with hbit | hbit <;> rw [hbit] <;> rfl

/-!
# Operands
-/

namespace Operand

/-- The field that stands for a constant. -/
def constantField (value : Int) : AddressingMode × Register :=
  match value with
  | 0 => (.register, .cg)
  | 1 => (.indexed, .cg)
  | 2 => (.indirect, .cg)
  | 4 => (.indirect, .sr)
  | 8 => (.autoIncrement, .sr)
  | _ => (.autoIncrement, .cg)

/-- The mode and the register of the field that an operand has in the opcode word of a
single-operand or double-operand instruction. -/
def field : Operand -> AddressingMode × Register
  | register r => (.register, r)
  | indirect r => (.indirect, r)
  | autoIncrement r _ => (.autoIncrement, r)
  | indexed r _ => (.indexed, r)
  | absolute _ => (.indexed, .sr)
  | symbolic _ _ => (.indexed, .pc)
  | immediate _ => (.autoIncrement, .pc)
  | constant value => constantField value

/-- The four bits that an operand has in the opcode word of an instruction on
addresses: a register, or the high bits of an address. -/
def addressField : Operand -> Nat
  | register r | indirect r | autoIncrement r _ | indexed r _ => r.id
  | absolute value | immediate value => value / 0x10000
  | symbolic _ _ | constant _ => 0

/-- The extension words of an operand. -/
def extension : Operand -> List Nat
  | indexed _ offset | symbolic offset _ => [Width.word.ofInt offset]
  | absolute value | immediate value => [Width.word.truncate value]
  | register _ | indirect _ | autoIncrement _ _ | constant _ => []

theorem extension_eq_nil {operand : Operand} (h : operand.extensionWords = 0) :
    operand.extension = [] := by
  cases operand <;> first | rfl | cases h

end Operand

/-!
# Words of instructions
-/

namespace Body

/-- The format of the operands of a call to a twenty-bit address. -/
def callNibble : Operand -> Nat
  | .register _ => 0x4
  | .indexed _ _ => 0x5
  | .indirect _ => 0x6
  | .autoIncrement _ _ => 0x7
  | .immediate _ => 0xb
  | .absolute _ | .symbolic _ _ | .constant _ => 0x8

/-- The format of the operands of an instruction on addresses, and for the opcodes
that have only two formats the opcode too. -/
def addressNibble : AddressOpcode -> Operand -> Operand -> Nat
  | .mova, .indirect _, _ => 0x0
  | .mova, .autoIncrement _ _, _ => 0x1
  | .mova, .absolute _, _ => 0x2
  | .mova, .indexed _ _, _ | .mova, .symbolic _ _, _ => 0x3
  | .mova, .register _, .absolute _ => 0x6
  | .mova, .register _, .indexed _ _ | .mova, .register _, .symbolic _ _ => 0x7
  | opcode, .immediate _, _ => 0x8 + opcode.bits
  | opcode, _, _ => 0xc + opcode.bits

/-- The opcode word of an instruction that has no prefix word. -/
def opcodeWord (width : Width) : Body Operand -> Nat
  | reti => 0x1300
  | jump condition offset =>
      0x2000 + 0x400 * condition.bits + (offset % 0x400).toNat
  | single opcode target =>
      0x1000 + 0x80 * opcode.slot + 0x40 * width.byteBit +
        0x10 * target.field.1.bits + target.field.2.id
  | double opcode source destination =>
      0x1000 * opcode.nibble + 0x100 * source.field.2.id +
        0x80 * destination.field.1.bits + 0x40 * width.byteBit +
        0x10 * source.field.1.bits + destination.field.2.id
  | calla target => 0x1300 + 0x10 * callNibble target + target.addressField
  | address opcode source destination =>
      0x100 * source.addressField + 0x10 * addressNibble opcode source destination +
        destination.addressField
  | multiple opcode count highest =>
      let wordBit := if width = .word then 0x100 else 0
      match opcode with
      | .pushm => 0x1400 + wordBit + 0x10 * (count - 1) + highest.id
      | .popm => 0x1600 + wordBit + 0x10 * (count - 1) + (highest.id + 1 - count)
  | shift opcode count destination =>
      let nibble := if width = .word then 0x5 else 0x4
      0x400 * (count - 1) + 0x100 * opcode.bits + 0x10 * nibble + destination.id

/-- The extension words of an instruction, those of the source first. -/
def extension (body : Body Operand) : List Nat :=
  body.operands.flatMap Operand.extension

end Body

/-- The bytes of a word, the lower one first. -/
def bytesOfWord (word : Nat) : List UInt8 :=
  [UInt8.ofNat word, UInt8.ofNat (word / 0x100)]

namespace Instruction

def words (inst : Instruction) : List Nat :=
  inst.body.opcodeWord inst.width :: inst.body.extension

def bytes (inst : Instruction) : List UInt8 :=
  inst.words.flatMap bytesOfWord

end Instruction

/-!
# Words that are read
-/

theorem wordAt_lt (data : List UInt8) (position : Nat) :
    wordAt data position < 0x10000 := by
  have hlow := (data.getD position 0).toNat_lt
  have hhigh := (data.getD (position + 1) 0).toNat_lt
  unfold wordAt
  omega

/-- The words that stand in a row from a byte position on. -/
def wordsAt (data : List UInt8) (position : Nat) : Nat -> List Nat
  | 0 => []
  | count + 1 => wordAt data position :: wordsAt data (position + 2) count

theorem wordsAt_append (data : List UInt8) (first second : Nat) :
    forall position,
      wordsAt data position (first + second) =
        wordsAt data position first ++
          wordsAt data (position + 2 * first) second := by
  induction first with
  | zero =>
      intro position
      rw [Nat.zero_add]
      rfl
  | succ first ih =>
      intro position
      have hposition :
          position + 2 + 2 * first = position + 2 * (first + 1) := by
        omega
      rw [Nat.succ_add, wordsAt, ih, hposition]
      rfl

theorem bytesOfWord_wordAt {data : List UInt8} {position : Nat}
    (h : position + 2 ≤ data.length) :
    bytesOfWord (wordAt data position) = (data.drop position).take 2 := by
  have hlow : position < data.length := by omega
  have hhigh : position + 1 < data.length := by omega
  have hdrop : data.drop position =
      data[position] :: data[position + 1] :: data.drop (position + 2) := by
    rw [List.drop_eq_getElem_cons hlow, List.drop_eq_getElem_cons hhigh]
  have hword : wordAt data position =
      data[position].toNat + 0x100 * data[position + 1].toNat := by
    unfold wordAt
    simp only [List.getD_eq_getElem?_getD, List.getElem?_eq_getElem hlow,
      List.getElem?_eq_getElem hhigh, Option.getD_some]
  have hlowByte := data[position].toNat_lt
  have hhighByte := data[position + 1].toNat_lt
  have hfirst : UInt8.ofNat (wordAt data position) = data[position] := by
    apply UInt8.toNat_inj.mp
    rw [UInt8.toNat_ofNat', hword]
    omega
  have hsecond : UInt8.ofNat (wordAt data position / 0x100) = data[position + 1] := by
    apply UInt8.toNat_inj.mp
    rw [UInt8.toNat_ofNat', hword]
    omega
  rw [bytesOfWord, hfirst, hsecond, hdrop]
  rfl

theorem bytes_wordsAt {data : List UInt8} (count : Nat) :
    forall position, position + 2 * count ≤ data.length ->
      (wordsAt data position count).flatMap bytesOfWord =
        (data.drop position).take (2 * count) := by
  induction count with
  | zero =>
      intro position _
      rfl
  | succ count ih =>
      intro position h
      have htake : 2 * (count + 1) = 2 + 2 * count := by omega
      rw [wordsAt, List.flatMap_cons, bytesOfWord_wordAt (by omega),
        ih (position + 2) (by omega), htake, List.take_add, List.drop_drop]

end MSP430
