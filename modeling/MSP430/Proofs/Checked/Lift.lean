import MSP430.Proofs.Checked.Body
import MSP430.Proofs.Checked.Decode

/-!
# Checked lifting

The code of an instruction in a buffer, repetitions included.  A prefix word counts to
sixteen, so that an instruction takes a few dozen temporaries, and no jump stands behind
one, so that it takes two labels at most.  Temporaries start again with each instruction:
what lifting needs is room for the labels.
-/

namespace MSP430

open IL (Buffer CheckedEmit Emit Expr KnownLabels Op)
open IL.CheckedEmit (Agrees)

namespace Lift

/-!
# Repetitions
-/

def checkedLoop (counter : Register) (once : CheckedEmit Unit) : CheckedEmit Unit := do
  let count <- CheckedEmit.newTemp
  let mask <- Expr.checkedInt .word 0xf
  let one <- Expr.checkedInt .word 1
  CheckedEmit.op (.setTemp .word count
    (.add .word (.and .word (.reg .word counter) mask) one))
  let start <- CheckedEmit.newLabel
  let done <- CheckedEmit.newLabel
  CheckedEmit.op (.label start)
  once
  let one <- Expr.checkedInt .word 1
  CheckedEmit.op (.setTemp .word count (.sub .word (.temp .word count) one))
  let zero <- Expr.checkedInt .word 0
  CheckedEmit.op (.branch (.compare .notEqual .word (.temp .word count) zero) start done)
  CheckedEmit.op (.label done)

def checkedEmit (options : Options) (known : KnownLabels) (inst : Instruction) :
    CheckedEmit Unit :=
  let context := Context.of options known inst
  match inst.extension with
  | none => context.checkedRun inst
  | some extension =>
      let once : CheckedEmit Unit := do
        CheckedEmit.ops (clearedCarry extension.zeroCarry)
        context.checkedRun inst
      match extension.repetition with
      | .times count => CheckedEmit.replicate count once
      | .register counter => checkedLoop counter once

/-- Appends the code of an instruction to a buffer. -/
def checkedInto (buffer : Buffer) (options : Options) (inst : Instruction) :
    Checked Buffer := do
  let moved := buffer.moveTo inst.address
  let emission <- checkedEmit options moved.known inst moved.supply
  return { moved with ops := moved.ops ++ emission.code, supply := emission.supply }

theorem agrees_loop (counter : Register) {checked : CheckedEmit Unit} {once : Emit Unit}
    {temps : Nat} (h : Agrees checked once temps 0) :
    Agrees (checkedLoop counter checked) (loop counter once) (1 + temps) 2 :=
  .weaken
    (.bind .newTemp fun _ => .compute (Expr.checkedInt_eq _ _)
      (.compute (Expr.checkedInt_eq _ _) (.bind (.op _) fun _ =>
        .bind .newLabel fun _ => .bind .newLabel fun _ => .bind (.op _) fun _ =>
          .bind h fun _ => .compute (Expr.checkedInt_eq _ _) (.bind (.op _) fun _ =>
            .compute (Expr.checkedInt_eq _ _) (.bind (.op _) fun _ => .op _)))))
    (by omega) (by decide)

end Lift

/-!
# Decoded instructions
-/

theorem Encoding.registerForm_times_le {word count : Nat}
    (h : (PrefixWord.ofWord word).registerForm.repetition = .times count) :
    count ≤ 16 := by
  unfold PrefixWord.ofWord at h
  dsimp only at h
  split at h
  · cases h
  · cases h
    omega

namespace Instruction.Decoded

variable {inst : Instruction} (h : inst.Decoded)

include h

/-- A prefix word counts to sixteen. -/
theorem times_le {extension : Extension} (hextension : inst.extension = some extension)
    {count : Nat} (hcount : extension.repetition = .times count) : count ≤ 16 := by
  rcases h with ⟨variant, data, address, hdecode⟩
  rcases exists_encoding hdecode with ⟨encoding, hsettled, rfl⟩
  have hsome : encoding.extension = some extension := hextension
  unfold Encoding.settled? at hsettled
  split at hsettled
  · rcases Encoding.ofPrefixed?_cases hsettled with hform | hform
    · cases hform.symm.trans hsome
      exact Encoding.registerForm_times_le hcount
    · cases hform.symm.trans hsome
      cases hcount
      decide
  · cases (Encoding.unprefixed_ofWord? hsettled).extension.symm.trans hsome

/-- No jump stands behind a prefix word. -/
theorem labelsTaken_eq_zero (hextension : inst.extension.isSome = true) :
    Lift.Context.labelsTaken inst.body = 0 := by
  rcases h.body_of_extension hextension with ⟨_, _, hbody⟩ | ⟨_, _, _, hbody⟩
  · rw [hbody]
    rfl
  · rw [hbody]
    rfl

variable (hroom : LeavesRoom inst.address)

include hroom

theorem agrees_emit (options : Lift.Options) (known : KnownLabels) :
    Agrees (Lift.checkedEmit options known inst) (Lift.emit options known inst) 48 2 := by
  have hrun := (Lift.Context.of options known inst).agrees_run h.inRange hroom
    (h.showsNumbers hroom)
  have htaken : Lift.Context.labelsTaken inst.body ≤ 2 := by
    unfold Lift.Context.labelsTaken
    split <;> decide
  unfold Lift.checkedEmit Lift.emit
  cases hextension : inst.extension with
  | none => exact hrun.weaken (by decide) htaken
  | some extension =>
      rw [h.labelsTaken_eq_zero (by rw [hextension]; rfl)] at hrun
      have honce := Agrees.bind (.ops (Lift.clearedCarry extension.zeroCarry))
        fun _ => hrun
      cases hrepetition : extension.repetition with
      | times count =>
          have hcount := h.times_le hextension hrepetition
          simp only [hrepetition]
          exact (honce.replicate count).weaken (by omega) (by decide)
      | register counter =>
          simp only [hrepetition]
          exact (Lift.agrees_loop counter honce).weaken (by decide) (by decide)

theorem checkedInto_eq (options : Lift.Options) {buffer : Buffer}
    (hlabel : buffer.supply.label < 2 ^ 32 - 2) :
    Lift.checkedInto buffer options inst = .ok (Lift.into buffer options inst) := by
  have hspace : IL.CheckedEmit.HasRoom (buffer.moveTo inst.address).supply 48 2 :=
    ⟨show 0 + 48 < 2 ^ 32 by decide, Nat.add_lt_of_lt_sub hlabel⟩
  have hemission := (h.agrees_emit hroom options buffer.known).checks _ hspace
  unfold Lift.checkedInto
  show (Lift.checkedEmit options buffer.known inst _ >>= _) = _
  rw [hemission, Checked.ok_bind]
  rfl

end Instruction.Decoded

end MSP430
