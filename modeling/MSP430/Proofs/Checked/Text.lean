import MSP430.Architecture
import MSP430.Proofs.Checked.Arithmetic
import MSP430.Proofs.Decode.WellFormed

/-!
# Checked text

The text and the tokens of an instruction, its name and its branches, with the arithmetic
they take: the target of a jump is a signed sum, a negative number is shown by its
magnitude, a mnemonic is filled up by what it lacks of the column, and values are masked
to a width.  The sums have room as long as the address leaves room for the longest jump.
-/

namespace MSP430

/-!
# Numbers and operands
-/

/-- A negative number is negated before it is shown. -/
def Hex.checkedSigned (value : Int) : Checked String :=
  if value < 0 then do
    let magnitude <- Signed.i64.neg value
    return "-" ++ Hex.text magnitude.toNat
  else
    return Hex.text value.toNat

/-- Every number but the smallest has a magnitude. -/
theorem Hex.checkedSigned_eq {value : Int} (h : -(2 ^ 63 : Nat) < value) :
    checkedSigned value = .ok (signed value) := by
  unfold checkedSigned signed
  by_cases hneg : value < 0
  · have hmagnitude : Signed.i64.neg value = .ok (-value) := by
      apply Signed.neg_of_bounds
      simp only [Signed.half, Signed.bits]
      omega
    rw [if_pos hneg, if_pos hneg, hmagnitude, Checked.ok_bind, Checked.pure_eq_ok]
  · rw [if_neg hneg, if_neg hneg, Checked.pure_eq_ok]

namespace Operand

/-- The offset and the constant of an operand, which are shown with a sign. -/
def number? : Operand -> Option Int
  | indexed _ offset => some offset
  | constant value => some value
  | _ => none

/-- The numbers of the operand have a magnitude. -/
def HasMagnitude (operand : Operand) : Prop :=
  forall value, operand.number? = some value -> -(2 ^ 63 : Nat) < value

def checkedText (operand : Operand) : Checked String :=
  match operand with
  | indexed r offset => do
      let shown <- Hex.checkedSigned offset
      return shown ++ "(" ++ r.name ++ ")"
  | _ => return operand.text

theorem checkedText_eq {operand : Operand} (h : operand.HasMagnitude) :
    operand.checkedText = .ok operand.text := by
  cases operand with
  | indexed r offset =>
      simp only [checkedText, Hex.checkedSigned_eq (h offset rfl), Checked.ok_bind]
      rfl
  | _ => rfl

def checkedInteger (value : Int) : Checked Token := do
  let text <- Hex.checkedSigned value
  return { kind := .integer value, text := text }

def checkedTokens (operand : Operand) (isCode : Bool) : Checked (List Token) :=
  match operand with
  | indexed r offset => do
      let shown <- checkedInteger offset
      return [shown, .plain "(", .ofRegister r, .plain ")"]
  | constant value => do
      let shown <- checkedInteger value
      return [.plain "#", shown]
  | _ => return operand.tokens isCode

theorem checkedTokens_eq {operand : Operand} (h : operand.HasMagnitude) (isCode : Bool) :
    operand.checkedTokens isCode = .ok (operand.tokens isCode) := by
  cases operand with
  | indexed _ value | constant value =>
      simp only [checkedTokens, checkedInteger, Hex.checkedSigned_eq (h value rfl),
        Checked.ok_bind]
      rfl
  | _ => rfl

def checkedListTokens (isCode : Bool) : List Operand -> Checked (List Token)
  | [] => return []
  | [operand] => operand.checkedTokens isCode
  | operand :: rest => do
      let first <- operand.checkedTokens isCode
      let others <- checkedListTokens isCode rest
      return first ++ { kind := .separator, text := ", " } :: others

theorem checkedListTokens_eq (isCode : Bool) {operands : List Operand}
    (h : forall operand, operand ∈ operands -> operand.HasMagnitude) :
    checkedListTokens isCode operands = .ok (listTokens isCode operands) := by
  induction operands with
  | nil => rfl
  | cons operand rest ih =>
      have hfirst := checkedTokens_eq (h operand List.mem_cons_self) isCode
      cases rest with
      | nil => exact hfirst
      | cons next rest =>
          have hrest := ih fun other hother => h other (List.mem_cons_of_mem operand hother)
          unfold checkedListTokens
          rw [hfirst, Checked.ok_bind, hrest, Checked.ok_bind]
          rfl

end Operand

/-- What a mnemonic lacks of the column. -/
def Token.checkedPadding (mnemonic : String) : Checked (List Token) :=
  if mnemonic.length < mnemonicColumn then do
    let count <- Unsigned.size.sub mnemonicColumn mnemonic.length
    return [plain (String.ofList (List.replicate count ' '))]
  else
    return []

@[simp] theorem Token.checkedPadding_eq (mnemonic : String) :
    checkedPadding mnemonic = .ok (padding mnemonic) := by
  unfold checkedPadding padding
  by_cases h : mnemonic.length < mnemonicColumn
  · rw [if_pos h, if_pos h, Unsigned.sub_of_le (Nat.le_of_lt h), Checked.ok_bind,
      Checked.pure_eq_ok]
  · rw [if_neg h, if_neg h, Checked.pure_eq_ok]

namespace Instruction

/-!
# Jump targets
-/

/-- The address is read as a signed number, and the target is masked to its space. -/
def checkedJumpTarget (address : UInt64) (offset : Int) : Checked Nat := do
  let mask := if 0xffff < address.toNat then 0xfffff else 0xffff
  let behind <- Signed.i64.add (Signed.i64.ofUnsigned address.toNat) 2
  let distance <- Signed.i64.mul 2 offset
  let target <- Signed.i64.add behind distance
  return Unsigned.u64.ofInt target &&& mask

/-- Behind the address there is room for the longest jump, which goes by 512 words. -/
def LeavesRoom (address : UInt64) : Prop :=
  address.toNat < 2 ^ 63 - 1024

theorem checkedJumpTarget_eq {address : UInt64} (haddress : LeavesRoom address)
    {offset : Int} (hle : -0x200 ≤ offset) (hlt : offset < 0x200) :
    checkedJumpTarget address offset = .ok (jumpTarget address offset) := by
  unfold LeavesRoom at haddress
  have hread : Signed.i64.ofUnsigned address.toNat = address.toNat := by
    apply Int.bmod_eq_of_le <;> simp only [Signed.bits] <;> omega
  have hbehind : Signed.i64.add address.toNat 2 = .ok (address.toNat + 2) := by
    apply Signed.add_of_bounds
    simp only [Signed.half, Signed.bits]
    omega
  have hdistance : Signed.i64.mul 2 offset = .ok (2 * offset) := by
    apply Signed.mul_of_bounds
    simp only [Signed.half, Signed.bits]
    omega
  have htarget : Signed.i64.add (address.toNat + 2) (2 * offset) =
      .ok (address.toNat + 2 + 2 * offset) := by
    apply Signed.add_of_bounds
    simp only [Signed.half, Signed.bits]
    omega
  have hmask : (if 0xffff < address.toNat then 0xfffff else 0xffff) =
      (jumpSpace address).mask := by
    unfold jumpSpace
    by_cases h : address.toNat < 0x10000
    · rw [if_pos h, if_neg (by omega)]
      rfl
    · rw [if_neg h, if_pos (by omega)]
      rfl
  unfold checkedJumpTarget jumpTarget
  rw [hread, hbehind, Checked.ok_bind, hdistance, Checked.ok_bind, htarget,
    Checked.ok_bind, Checked.pure_eq_ok, hmask, Width.and_mask, Width.truncate_ofInt]

def checkedJumpTarget? (inst : Instruction) : Checked (Option Nat) :=
  match inst.jumpOffset? with
  | some offset => do
      let target <- checkedJumpTarget inst.address offset
      return some target
  | none => return none

/-!
# Instructions

All that the text of an instruction needs: offsets have twenty bits, displacements of
jumps ten, and counts are small.
-/

/-- The numbers that the instruction shows have a magnitude, and its jump comes to a
target. -/
structure ShowsNumbers (inst : Instruction) : Prop where
  operands : forall operand, operand ∈ inst.displayedOperands -> operand.HasMagnitude
  jump : forall offset, inst.jumpOffset? = some offset -> -0x200 ≤ offset ∧ offset < 0x200
  room : LeavesRoom inst.address

section Shown

variable {inst : Instruction}

theorem checkedJumpTarget?_eq (h : inst.ShowsNumbers) :
    inst.checkedJumpTarget? = .ok inst.jumpTarget? := by
  unfold checkedJumpTarget? jumpTarget?
  cases hoffset : inst.jumpOffset? with
  | none => rfl
  | some offset =>
      have hbounds := h.jump offset hoffset
      simp only [checkedJumpTarget_eq h.room hbounds.1 hbounds.2, Checked.ok_bind]
      rfl

def checkedText (inst : Instruction) : Checked String := do
  let target? <- inst.checkedJumpTarget?
  match target?, inst.displayedOperands with
  | some target, _ => return inst.mnemonic ++ " " ++ Hex.text target
  | none, [] => return inst.mnemonic
  | none, operands => do
      let texts <- operands.mapM Operand.checkedText
      return inst.mnemonic ++ " " ++ String.intercalate ", " texts

theorem checkedText_eq (h : inst.ShowsNumbers) : inst.checkedText = .ok inst.text := by
  have htexts := Checked.mapM_eq fun operand hmem =>
    Operand.checkedText_eq (h.operands operand hmem)
  unfold checkedText text
  rw [checkedJumpTarget?_eq h, Checked.ok_bind]
  cases inst.jumpTarget? with
  | some target => rfl
  | none =>
      cases hoperands : inst.displayedOperands with
      | nil => rfl
      | cons operand rest =>
          rw [hoperands] at htexts
          simp only [htexts, Checked.ok_bind]
          rfl

def checkedOperandTokens (inst : Instruction) : Checked (List Token) := do
  let target? <- inst.checkedJumpTarget?
  match target?, inst.displayedOperands with
  | some target, _ => do
      let padding <- Token.checkedPadding inst.mnemonic
      return padding ++ [.ofCode target]
  | none, [] => return []
  | none, operands => do
      let padding <- Token.checkedPadding inst.mnemonic
      let tokens <- Operand.checkedListTokens inst.namesCode operands
      return padding ++ tokens

def checkedTokens (inst : Instruction) : Checked (List Token) := do
  let operandTokens <- inst.checkedOperandTokens
  return inst.repetitionTokens ++
    { kind := .instruction, text := inst.mnemonic } :: operandTokens

theorem checkedTokens_eq (h : inst.ShowsNumbers) :
    inst.checkedTokens = .ok inst.tokens := by
  have hlist := Operand.checkedListTokens_eq inst.namesCode h.operands
  have hoperands : inst.checkedOperandTokens = .ok inst.operandTokens := by
    unfold checkedOperandTokens operandTokens
    rw [checkedJumpTarget?_eq h, Checked.ok_bind]
    cases inst.jumpTarget? with
    | some target =>
        simp only [Token.checkedPadding_eq, Checked.ok_bind]
        rfl
    | none =>
        cases hoperands : inst.displayedOperands with
        | nil => rfl
        | cons operand rest =>
            rw [hoperands] at hlist
            simp only [Token.checkedPadding_eq, hlist, Checked.ok_bind]
            rfl
  unfold checkedTokens tokens
  rw [hoperands, Checked.ok_bind, Checked.pure_eq_ok]

/-- Only the branches of a jump are computed. -/
def checkedInfo (inst : Instruction) : Checked InstructionInfo :=
  match inst.body with
  | .jump condition offset => do
      let info := InstructionInfo.new inst.length false
      let target <- checkedJumpTarget inst.address offset
      if condition.isUnconditional then
        return info.addBranch (.unconditional target)
      else
        return (info.addBranch (.ifTrue target)).addBranch
          (.ifFalse inst.nextAddress.toNat)
  | _ => return inst.info

theorem checkedInfo_eq (h : inst.ShowsNumbers) : inst.checkedInfo = .ok inst.info := by
  rcases inst with ⟨address, width, extension, body, length⟩
  cases body with
  | jump condition offset =>
      have hbounds := h.jump offset rfl
      simp only [checkedInfo, checkedJumpTarget_eq h.room hbounds.1 hbounds.2,
        Checked.ok_bind]
      cases condition <;> rfl
  | _ => rfl

end Shown

end Instruction
end MSP430
