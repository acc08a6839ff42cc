import MSP430.Architecture
import MSP430.Proofs.Lift.Transfer

/-!
# Branches a host is told of

A host learns the branches of an instruction without lifting it.  Whatever it is
told, the code of the instruction does; and what the code does it is told,
except for a target that the instruction does not hold: one from the constant
generator, from the program counter itself, of a byte move or behind a prefix
word.
-/

namespace MSP430

open IL (Buffer Expr Label Op)

theorem InstructionInfo.foldl_addBranch (branches : List Branch)
    (info : InstructionInfo) :
    branches.foldl addBranch info =
      { info with branches := info.branches ++ branches } := by
  induction branches generalizing info with
  | nil => simp
  | cons branch rest ih => simp [ih, addBranch]

namespace Instruction

theorem info_eq (inst : Instruction) :
    inst.info =
      { length := inst.length, branchDelay := false, branches := inst.branches } :=
  InstructionInfo.foldl_addBranch inst.branches _

end Instruction

namespace Architecture

variable {arch : Architecture} {data : List UInt8} {address : UInt64}
  {inst : Instruction}

theorem decode_of_decode? (h : arch.decode? data address = some inst) :
    decode arch.variant data address = .ok inst := by
  unfold decode? at h
  split at h
  · next hdecode =>
      cases h
      exact hdecode
  · cases h

theorem address_of_decode? (h : arch.decode? data address = some inst) :
    inst.address = address := by
  rcases Instruction.exists_encoding (decode_of_decode? h) with
    ⟨encoding, _, rfl⟩
  rfl

theorem instructionInfo?_eq (h : arch.decode? data address = some inst) :
    arch.instructionInfo? data address =
      some { length := inst.length, branchDelay := false,
             branches := inst.branches } := by
  unfold instructionInfo?
  rw [h, Option.map_some, inst.info_eq]

theorem lift_eq (h : arch.decode? data address = some inst) (buffer : Buffer) :
    arch.lift buffer data address =
      (some { length := inst.length, continues := true },
        Lift.into buffer arch.options inst) := by
  unfold lift
  rw [h]

/-- What lifting appends to a buffer without labels transfers control in one of
the few ways. -/
theorem transfers_appended (h : arch.decode? data address = some inst)
    {buffer : Buffer} (hknown : buffer.known = []) :
    inst.Transfers inst.branches (Lift.appended buffer arch.options inst) :=
  Lift.transfers ⟨_, _, _, decode_of_decode? h⟩ hknown _

end Architecture

/-!
# What a host is told is so
-/

/-- How code realises the branches that a host is told of; `next` is the address
of the instruction that follows. -/
inductive Branch.RealisedBy (condition? : Option Condition) (next : UInt64) :
    List Branch -> List Op -> Prop where
  | none (code : List Op) : RealisedBy condition? next [] code
  | unconditional {address : Nat} {target : Expr} :
      target.constant? = some address ->
      RealisedBy condition? next [.unconditional address] [.jump target]
  | conditional {condition : Condition} {address : Nat} {target : Expr}
      {ifTrue ifFalse : Label} :
      condition? = some condition ->
      target.constant? = some address ->
      ifTrue ≠ ifFalse ->
      RealisedBy condition? next [.ifTrue address, .ifFalse next.toNat]
        [.branch condition.expr ifTrue ifFalse, .label ifTrue, .jump target,
          .label ifFalse]
  | call {address : Nat} {target : Expr} {before : List Op} :
      target.constant? = some address ->
      RealisedBy condition? next [.call address] (before ++ [.call target])
  | functionReturn {before : List Op} {target : Expr} :
      RealisedBy condition? next [.functionReturn] (before ++ [.ret target])

theorem Instruction.Transfers.realisedBy {inst : Instruction}
    {branches : List Branch} {code : List Op}
    (h : inst.Transfers branches code) :
    Branch.RealisedBy inst.condition? inst.nextAddress branches code := by
  cases h with
  | jump htarget _ => exact .unconditional htarget
  | conditional hcondition htarget hne =>
      exact .conditional hcondition htarget hne
  | @call address target htarget _ =>
      have hcall : Branch.RealisedBy inst.condition? inst.nextAddress
          [.call address] ([] ++ [.call target]) := .call htarget
      exact hcall
  | functionReturn _ => exact .functionReturn
  | untold _ _ => exact .none _
  | computed _ => exact .none _

namespace Architecture

/-- Branch information is sound.  Where a host is told of branches, the code that
lifting appends to a buffer without labels realises them, and there are no more
than these. -/
theorem branches_realised (arch : Architecture) {buffer : Buffer}
    (hknown : buffer.known = []) {data : List UInt8} {address : UInt64}
    {info : InstructionInfo}
    (hinfo : arch.instructionInfo? data address = some info) :
    exists inst code after,
      arch.decode? data address = some inst ∧
        arch.lift buffer data address =
          (some { length := info.length, continues := true }, after) ∧
        after.ops = buffer.ops ++ code ∧
        Branch.RealisedBy inst.condition?
          (address + UInt64.ofNat info.length) info.branches code := by
  rcases Option.map_eq_some_iff.mp hinfo with ⟨inst, hinst, rfl⟩
  have hrealised := (transfers_appended hinst hknown).realisedBy
  unfold Instruction.nextAddress at hrealised
  rw [address_of_decode? hinst] at hrealised
  rw [inst.info_eq]
  exact ⟨inst, _, _, hinst, lift_eq hinst buffer, rfl, hrealised⟩

/-- A conditional jump, with both of its branches. -/
theorem branches_realised_conditional :
    Branch.RealisedBy (some .notZero) 0x4406 [.ifTrue 0x4400, .ifFalse 0x4406]
      ((Architecture.mk .msp430 .standard).lift (.empty 0x4404) [0xfd, 0x23]
        0x4404).2.ops := by
  rcases @branches_realised (.mk .msp430 .standard) (.empty 0x4404) rfl
      [0xfd, 0x23] 0x4404 ⟨2, false, [.ifTrue 0x4400, .ifFalse 0x4406]⟩ rfl with
    ⟨inst, code, after, hinst, hlift, hops, hrealised⟩
  cases hinst
  rw [hlift, hops]
  exact hrealised

end Architecture

/-!
# What the code does is told
-/

/-- The branches are complete with respect to the code, where the instruction
holds the constant it jumps to or calls. -/
structure Instruction.Tells (inst : Instruction) (branches : List Branch)
    (code : List Op) : Prop where
  jump : forall {target : Expr} {address : Nat},
    .jump target ∈ code -> target.constant? = some address ->
    (forall condition ifTrue ifFalse,
      Op.branch condition ifTrue ifFalse ∉ code) ->
    (branches = [.unconditional address] ↔ inst.HoldsTarget)
  call : forall {target : Expr} {address : Nat},
    .call target ∈ code -> target.constant? = some address ->
    (branches = [.call address] ↔ inst.HoldsTarget)
  ret : forall {target : Expr}, .ret target ∈ code ->
    branches = [.functionReturn]
  conditional : Lift.isConditionalJump inst.body = true ->
    exists address, inst.jumpTarget? = some address ∧
      branches = [.ifTrue address, .ifFalse inst.nextAddress.toNat]

theorem Instruction.branches_of_conditional {inst : Instruction}
    (h : Lift.isConditionalJump inst.body = true) :
    exists address, inst.jumpTarget? = some address ∧
      inst.branches = [.ifTrue address, .ifFalse inst.nextAddress.toNat] := by
  unfold jumpTarget? jumpOffset? branches
  cases hbody : inst.body with
  | jump condition offset =>
      rw [hbody] at h
      have hconditional : condition.isUnconditional = false := by
        simpa [Lift.isConditionalJump] using h
      refine ⟨jumpTarget inst.address offset, rfl, ?_⟩
      simp [hconditional]
  | _ =>
      rw [hbody] at h
      cases h

theorem Instruction.Transfers.tells {inst : Instruction} {code : List Op}
    (h : inst.Transfers inst.branches code) : inst.Tells inst.branches code := by
  have hconditional := @Instruction.branches_of_conditional inst
  generalize inst.branches = branches at h hconditional
  cases h with
  | @jump own ownTarget htarget hholds =>
      refine ⟨?_, ?_, ?_, hconditional⟩
      · intro target address hmem haddress _
        cases List.mem_singleton.mp hmem
        cases htarget.symm.trans haddress
        exact iff_of_true rfl hholds
      · intro _ _ hmem _
        cases List.mem_singleton.mp hmem
      · intro _ hmem
        cases List.mem_singleton.mp hmem
  | conditional hcondition htarget hne =>
      refine ⟨?_, ?_, ?_, hconditional⟩
      · intro _ _ _ _ hnone
        exact absurd List.mem_cons_self (hnone _ _ _)
      · intro _ _ hmem _
        simp at hmem
      · intro _ hmem
        simp at hmem
  | call htarget hholds =>
      refine ⟨?_, ?_, ?_, hconditional⟩
      · intro _ _ hmem _ _
        cases List.mem_singleton.mp hmem
      · intro target address hmem haddress
        cases List.mem_singleton.mp hmem
        cases htarget.symm.trans haddress
        exact iff_of_true rfl hholds
      · intro _ hmem
        cases List.mem_singleton.mp hmem
  | untold hholds hret =>
      refine ⟨?_, ?_, ?_, hconditional⟩
      · intro _ _ _ _ _
        exact iff_of_false nofun hholds
      · intro _ _ _ _
        exact iff_of_false nofun hholds
      · intro target hmem
        exact absurd hmem (hret target)
  | @functionReturn before own hbefore =>
      refine ⟨?_, ?_, fun _ => rfl, hconditional⟩
      · intro target address hmem haddress _
        rcases List.mem_append.mp hmem with hmem | hmem
        · cases (hbefore _ hmem).symm.trans haddress
        · cases List.mem_singleton.mp hmem
      · intro target address hmem _
        rcases List.mem_append.mp hmem with hmem | hmem
        · exact (hbefore _ hmem).elim
        · cases List.mem_singleton.mp hmem
  | computed hcode =>
      refine ⟨?_, ?_, ?_, hconditional⟩
      · intro target address hmem haddress _
        cases (hcode _ hmem).symm.trans haddress
      · intro target address hmem _
        exact (hcode _ hmem).elim
      · intro target hmem
        exact (hcode _ hmem).elim

namespace Architecture

/-- Branch information is complete where the instruction holds its target.  Of the
code that lifting appends to a buffer without labels, a host is told every return
and every choice, and of a jump or a call to a constant exactly if the instruction
holds that constant. -/
theorem branches_complete_of_held (arch : Architecture) {buffer : Buffer}
    (hknown : buffer.known = []) {data : List UInt8} {address : UInt64}
    {inst : Instruction} (hinst : arch.decode? data address = some inst) :
    exists info code,
      arch.instructionInfo? data address = some info ∧
        (arch.lift buffer data address).2.ops = buffer.ops ++ code ∧
        inst.Tells info.branches code := by
  refine ⟨_, _, instructionInfo?_eq hinst, ?_,
    (transfers_appended hinst hknown).tells⟩
  rw [lift_eq hinst]
  rfl

/-- The branch to an immediate, which a host is told of. -/
theorem branches_complete_of_held_branch :
    exists info,
      (Architecture.mk .msp430 .standard).instructionInfo?
          [0x30, 0x40, 0x00, 0x50] 0x4400 = some info ∧
        info.branches = [.unconditional 0x5000] := by
  rcases @branches_complete_of_held (.mk .msp430 .standard) (.empty 0x4400) rfl
      [0x30, 0x40, 0x00, 0x50] 0x4400 _ rfl with ⟨info, code, hinfo, hops, htells⟩
  cases hops
  refine ⟨info, hinfo, (htells.jump List.mem_cons_self rfl ?_).mpr ?_⟩
  · intro condition ifTrue ifFalse hmem
    cases List.mem_singleton.mp hmem
  · exact .inr ⟨rfl, rfl, nofun⟩

/-- The branch to zero has its target from the constant generator.  Its code is
the jump to that constant, and a host is told of no branch. -/
theorem branches_miss_generated :
    exists target,
      ((Architecture.mk .msp430 .standard).lift (.empty 0x4400) [0x00, 0x43]
          0x4400).2.ops = [.jump target] ∧
        target.constant? = some 0 ∧
        (Architecture.mk .msp430 .standard).instructionInfo? [0x00, 0x43]
            0x4400 =
          some { length := 2, branchDelay := false, branches := [] } :=
  ⟨.const .word 0, rfl, rfl, rfl⟩

end Architecture

end MSP430
