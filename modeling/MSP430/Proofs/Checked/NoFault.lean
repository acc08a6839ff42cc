import MSP430.Architecture
import MSP430.Proofs.Checked.Lift

/-!
# No fault

No check fails on the way from bytes to an instruction and to what is shown, told and
emitted of it: every checked computation comes to the result of the unchecked one.  What
this takes of the address is room for the longest jump, and of a buffer that its next two
labels have numbers.
-/

namespace MSP430

open IL (Buffer)
open Reading (ComesTo)

/-- What a host is told of the bytes at an address. -/
def Architecture.checkedInstructionInfo? (arch : Architecture) (data : List UInt8)
    (address : UInt64) : Checked (Option InstructionInfo) := do
  let decoded <- (checkedDecode arch.variant data address).run
  match decoded with
  | .ok (inst, _) => do
      let info <- inst.checkedInfo
      return some info
  | .error _ => return none

section Bytes

variable (arch : Architecture) (data : List UInt8) {address : UInt64}
  (haddress : Instruction.LeavesRoom address)

include haddress

theorem Architecture.checkedInstructionInfo?_eq :
    arch.checkedInstructionInfo? data address =
      .ok (arch.instructionInfo? data address) := by
  have hdecoded := checkedDecode_eq arch.variant data haddress
  unfold ComesTo at hdecoded
  unfold checkedInstructionInfo? instructionInfo? decode?
  rw [hdecoded, Checked.ok_bind]
  cases hdecode : decode arch.variant data address with
  | error error => rfl
  | ok inst =>
      have hinfo := Instruction.checkedInfo_eq
        (Instruction.showsNumbers_of_decode haddress hdecode)
      show (inst.checkedInfo >>= _) = _
      rw [hinfo, Checked.ok_bind]
      rfl

/-- Decoding, the text, the tokens, the branches and the code of an instruction: no sum
overflows, no shift goes too far, no index leaves its table and no assertion fails. -/
theorem no_fault :
    ComesTo (checkedDecode arch.variant data address)
        ((decode arch.variant data address).map fun inst => (inst, inst.emulated?)) ∧
      arch.checkedInstructionInfo? data address =
        .ok (arch.instructionInfo? data address) ∧
      forall inst, decode arch.variant data address = .ok inst ->
        inst.checkedText = .ok inst.text ∧ inst.checkedTokens = .ok inst.tokens ∧
          forall (options : Lift.Options) (buffer : Buffer),
            buffer.supply.label < 2 ^ 32 - 2 ->
              Lift.checkedInto buffer options inst =
                .ok (Lift.into buffer options inst) := by
  refine ⟨checkedDecode_eq arch.variant data haddress,
    arch.checkedInstructionInfo?_eq data haddress, ?_⟩
  intro inst hdecode
  have hshows := Instruction.showsNumbers_of_decode haddress hdecode
  have hdecoded : inst.Decoded := ⟨arch.variant, data, address, hdecode⟩
  refine ⟨Instruction.checkedText_eq hshows, Instruction.checkedTokens_eq hshows, ?_⟩
  intro options buffer hlabel
  exact hdecoded.checkedInto_eq hshows.room options hlabel

end Bytes

/-- The longest jump from the last address that leaves room for it. -/
def lastJump : Instruction where
  address := 0x7ffffffffffffbff
  width := .word
  extension := none
  body := .jump .always 0x1ff
  length := 2

theorem no_fault_last :
    Instruction.LeavesRoom lastJump.address ∧
      ComesTo (checkedDecode .msp430 [0xff, 0x3d] lastJump.address)
        (.ok (lastJump, none)) ∧
      (Architecture.mk .msp430 .standard).checkedInstructionInfo? [0xff, 0x3d]
        lastJump.address = .ok (some lastJump.info) ∧
      lastJump.checkedText = .ok "jmp 0xfffff" ∧
      lastJump.checkedTokens = .ok lastJump.tokens ∧
      Lift.checkedInto (.empty 0) .standard lastJump =
        .ok (Lift.into (.empty 0) .standard lastJump) := by
  have hroom : Instruction.LeavesRoom lastJump.address := by
    unfold Instruction.LeavesRoom
    decide
  have hdecode : decode .msp430 [0xff, 0x3d] lastJump.address = .ok lastJump := rfl
  have hinfo : (Architecture.mk .msp430 .standard).instructionInfo? [0xff, 0x3d]
      lastJump.address = some lastJump.info := rfl
  have htext : lastJump.text = "jmp 0xfffff" := by decide +kernel
  rcases no_fault (.mk .msp430 .standard) [0xff, 0x3d] hroom with
    ⟨hdecoded, hchecked, hshown⟩
  rcases hshown lastJump hdecode with ⟨hchecked', htokens, hlifted⟩
  rw [hdecode] at hdecoded
  rw [hinfo] at hchecked
  rw [htext] at hchecked'
  exact ⟨hroom, hdecoded, hchecked, hchecked', htokens,
    hlifted .standard (.empty 0) (by decide)⟩

/-- One address further the target of the same jump overflows. -/
example : Instruction.checkedJumpTarget (lastJump.address + 1) 0x1ff =
    .error .overflow := by
  decide

end MSP430
