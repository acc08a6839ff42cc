import MSP430.Proofs.Lift.Flags
import MSP430.Proofs.Lift.Overwritten
import MSP430.Proofs.Lift.Registers

/-!
# What an instruction leaves alone

The registers that the body does not set, the bytes that the instruction does not
overwrite and the flags that the body does not set are the same before and after a run.
-/

namespace MSP430

open IL (KnownLabels RunsTo State)

/-- The opcodes that compute no flags. -/
def Opcode.leavesFlags : Opcode -> Bool
  | .jump _ | .calla | .multiple _ | .address .mova => true
  | .single .swpb | .single .push | .single .call => true
  | .double .mov | .double .bic | .double .bis => true
  | _ => false

/-- The part of the state that an instruction leaves alone. -/
structure Instruction.Frames (inst : Instruction) (before after : State) : Prop where
  registers : forall r, ¬ inst.body.Sets r -> after.regs r = before.regs r
  memory : forall address, ¬ inst.Overwrites before address ->
    after.memory address = before.memory address
  flags : inst.opcode.leavesFlags = true ->
    Lift.writtenOperand? inst.body ≠ some (.register .sr) ->
    inst.clearsCarry = false ->
    after.flags = before.flags
  /-- Shifting by several bits computes no overflow. -/
  overflow : forall opcode count destination,
    inst.body = .shift opcode count destination -> 1 < count -> destination ≠ .sr ->
    after.flags .v = before.flags .v

namespace Body

variable {body : Body Operand} {flag : Flag}

theorem rule?_of_leavesFlags (h : body.opcode.leavesFlags = true) :
    body.rule? = none := by
  cases body with
  | reti | shift _ _ _ => cases h
  | jump _ _ | calla _ | multiple _ _ _ => rfl
  | single opcode _ => cases opcode <;> first | rfl | cases h
  | double opcode _ _ => cases opcode <;> first | rfl | cases h
  | address opcode _ _ => cases opcode <;> first | rfl | cases h

theorem not_setsFlag_of_leavesFlags (h : body.opcode.leavesFlags = true)
    (hsr : Lift.writtenOperand? body ≠ some (.register .sr)) : ¬ body.SetsFlag flag := by
  intro hsets
  cases hsets with
  | computed hrule _ =>
      rw [rule?_of_leavesFlags h] at hrule
      cases hrule
  | written hwritten => exact hsr hwritten
  | popped hreti =>
      rw [hreti] at h
      cases h

/-- The flags of a shift by several bits are the carry, zero and negative flags. -/
theorem not_setsFlag_overflow {opcode : ShiftOpcode} {count : Nat}
    {destination : Register} (hcount : 1 < count) (hsr : destination ≠ .sr) :
    ¬ (shift opcode count destination : Body Operand).SetsFlag .v := by
  intro hsets
  cases hsets with
  | computed hrule hmem =>
      have hgroup : (Lift.Context.shiftRule opcode count).group = .cnz := by
        cases opcode <;> exact if_pos hcount
      rw [← Option.some.inj hrule, hgroup] at hmem
      exact absurd hmem (by decide)
  | written hwritten =>
      cases hwritten
      exact hsr rfl
  | popped hreti => cases hreti

end Body

namespace Lift

/-- A decoded instruction changes no register but those that its body sets and no byte
but those that it overwrites.  It keeps the flags if its opcode computes none, nothing
writes the status register and the carry is not cleared first, and the overflow flag if
it shifts by several bits. -/
theorem frame_kept (options : Options) (start : UInt64) (known : KnownLabels)
    {inst : Instruction} (hdecoded : inst.Decoded) (state : State) :
    exists exit last,
      RunsTo (into (.withLabels start known) options inst).ops state exit last ∧
        inst.Frames state last := by
  have hrun := runsTo_into options start known hdecoded state
  refine ⟨_, _, hrun, ?_⟩
  constructor
  case registers =>
    intro r h
    exact registers_kept options start known hdecoded h hrun
  case memory =>
    intro address h
    exact memory_kept options known hdecoded h
  case flags =>
    intro hleaves hsr hcarry
    funext flag
    apply flags_kept options start known _ _ hrun
    · exact Body.not_setsFlag_of_leavesFlags hleaves hsr
    · intro hclears
      rw [hcarry] at hclears
      cases hclears
  case overflow =>
    intro opcode count destination hbody hcount hsr
    have hspared : ¬ inst.body.SetsFlag .v := by
      rw [hbody]
      exact Body.not_setsFlag_overflow hcount hsr
    exact flags_kept options start known hspared (fun _ => nofun) hrun

/-- A byte stored at an address of its own. -/
def storeByte : Instruction where
  address := 0x4400
  width := .byte
  extension := none
  body := .double .mov (.register .r5) (.absolute 0x200)
  length := 4

/-- The byte above it stays, and so do all registers and flags. -/
theorem frame_kept_byte :
    exists exit last,
      RunsTo (into (.withLabels 0x4400 []) .standard storeByte).ops
          ⟨fun _ => 0x1234, fun _ => true, fun _ => 0xaa, fun _ => 0⟩ exit last ∧
        last.memory 0x201 = 0xaa ∧ (forall r, last.regs r = 0x1234) ∧
        forall flag, last.flags flag = true := by
  rcases @frame_kept .standard 0x4400 [] storeByte
      ⟨.msp430x, [0xc2, 0x45, 0x00, 0x02], 0x4400, rfl⟩
      ⟨fun _ => 0x1234, fun _ => true, fun _ => 0xaa, fun _ => 0⟩ with
    ⟨exit, last, hrun, hframes⟩
  refine ⟨exit, last, hrun, hframes.memory 0x201 ?_, fun r => hframes.registers r ?_,
    congrFun (hframes.flags rfl nofun rfl)⟩
  · intro hoverwrites
    cases hoverwrites with
    | written hwritten hlocation hlow hhigh =>
        cases hwritten
        cases hlocation
        exact absurd hhigh (by decide)
    | pushed hin =>
        rcases hin with ⟨below, hbelow, _⟩
        exact absurd hbelow (Nat.not_lt_zero below)
  · intro hsets
    cases hsets with
    | written hwritten _ _ => cases hwritten
    | advanced hmem => exact absurd hmem (by simp [storeByte, Body.operands])
    | stack hstack _ => cases hstack
    | status hreti _ => cases hreti
    | popped hpopped _ => cases hpopped

end Lift
end MSP430
