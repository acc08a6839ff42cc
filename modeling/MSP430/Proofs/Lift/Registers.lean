import MSP430.Proofs.Lift.Order
import MSP430.Proofs.Lift.Sequence
import MSP430.Proofs.Lift.Transfer

/-!
# The registers that an instruction sets

Every register that the code of an instruction sets is one that its body names as a
place of effects: the register it writes to, the register its source moves on, the
stack pointer, and the registers a return from an interrupt or a range pops.
-/

namespace MSP430

open IL (Composes Emit Expr KnownLabels Op RunsTo Spares State)
open IL.Emit (Emits EmitsCode)

namespace Lift

/-- Whether the body moves the stack pointer without naming it. -/
def usesStack : Body Operand -> Bool
  | .reti | .single .push _ | .multiple _ _ _ => true
  | _ => false

end Lift

/-- The registers that the code of a body may set.  Nothing is set by writing to the
program counter or to the constant generator. -/
inductive Body.Sets (body : Body Operand) (r : Register) : Prop where
  | written :
      Lift.writtenOperand? body = some (.register r) -> r ≠ .pc -> r ≠ .cg ->
      Sets body r
  | advanced {step : Nat} : .autoIncrement r step ∈ body.operands -> Sets body r
  | stack : Lift.usesStack body = true -> r = .sp -> Sets body r
  | status : body = .reti -> r = .sr -> Sets body r
  | popped {count : Nat} {highest : Register} :
      body = .multiple .popm count highest ->
      r ∈ Lift.registerRange count highest ->
      Sets body r

namespace Lift
namespace Context

variable {context : Context} {r : Register}

theorem Finishes.spares {source : Operand} {destination : Option Operand}
    {emit : Emit Unit} (h : context.Finishes source destination emit)
    (hsource : forall step, source ≠ .autoIncrement r step)
    (hdestination : destination = some (.register r) -> r = .pc ∨ r = .cg) :
    EmitsCode (Spares r) emit where
  code := by
    intro supply
    rcases h supply with ⟨before, value, hcode, hbefore, _⟩
    rw [hcode]
    apply Composes.append (hbefore.spares r)
    cases destination with
    | none => exact spares_postIncrement hsource
    | some place =>
        apply Composes.append _ (spares_postIncrement hsource)
        apply spares_write
        rintro rfl
        exact hdestination rfl
  result := fun _ => trivial

theorem spares_save (width : Width) (value : Expr) :
    Emits (Spares r) (fun _ => True) (Emit.save width value) :=
  .save (fun _ => .single nofun) fun _ => trivial

variable (context)

/-!
# The stack
-/

theorem spares_pop (hsp : .sp ≠ r) (width : Width) :
    Emits (Spares r) (fun _ => True) (context.pop width) := by
  apply (spares_save width _).bind
  intro value _
  exact Emits.seq (.op (spares_advance hsp _)) (.pure trivial)

theorem spares_push (hsp : .sp ≠ r) (width : Width) (value : Expr) :
    Spares r (context.push width value) := by
  apply Composes.cons
  · exact .single fun heq => hsp (Option.some.inj heq)
  · exact .single nofun

theorem spares_ret (hsp : .sp ≠ r) (width : Width) :
    EmitsCode (Spares r) (context.ret width) :=
  (context.spares_pop hsp width).bind fun _ _ => .op (.single nofun)

theorem spares_reti (hsp : .sp ≠ r) (hsr : .sr ≠ r) :
    EmitsCode (Spares r) context.reti := by
  apply (context.spares_pop hsp .word).bind
  intro status _
  refine Emits.seq (.op (.single fun heq => hsr (Option.some.inj heq))) ?_
  refine Emits.seq (.ops (computes_flagsFromStatus.spares r)) ?_
  exact context.spares_ret hsp .word

theorem spares_pushOperand (hsp : .sp ≠ r) {operand : Operand}
    (hoperand : forall step, operand ≠ .autoIncrement r step) :
    EmitsCode (Spares r) (context.pushOperand operand) := by
  have hpush : forall value, EmitsCode (Spares r) (do
      Emit.ops (context.push context.width value)
      Emit.ops (postIncrement operand)) := fun value =>
    Emits.seq (.ops (context.spares_push hsp _ value))
      (.ops (spares_postIncrement hoperand))
  unfold Context.pushOperand
  dsimp only
  split
  · exact hpush _
  · exact (spares_save _ _).bind fun value _ => hpush value

theorem spares_pushRange (hsp : .sp ≠ r) (count : Nat) (highest : Register) :
    Spares r (context.pushRange count highest) :=
  Composes.flatMap fun _ _ => context.spares_push hsp _ _

theorem spares_popRange (hsp : .sp ≠ r) {count : Nat} {highest : Register}
    (hrange : r ∉ registerRange count highest) :
    Spares r (context.popRange count highest) := by
  apply Composes.flatMap
  intro popped hmem
  apply Composes.cons
  · apply Spares.single
    intro heq
    cases Option.some.inj heq
    exact hrange (List.mem_reverse.mp hmem)
  · exact spares_advance hsp _

/-!
# Control
-/

theorem spares_call {target : Operand}
    (h : forall step, target ≠ .autoIncrement r step) :
    EmitsCode (Spares r) (context.call target) := by
  unfold Context.call
  split
  · next other step =>
      apply (spares_save _ _).bind
      intro location _
      refine Emits.seq (.op (spares_advance ?_ step)) (.op (.single nofun))
      rintro rfl
      exact h step rfl
  · exact .op (.single nofun)
  · exact .op (.single nofun)

theorem spares_jump (condition : Condition) (offset : Int) :
    EmitsCode (Spares r) (context.jump condition offset) := by
  apply context.emits_jump
  intro op hop
  cases hop with
  | leave => exact spares_branchTo _ _
  | choose _ _ | mark _ | arm => exact .single nofun

theorem spares_movePc {source : Operand}
    (h : forall step, source ≠ .autoIncrement r step) :
    EmitsCode (Spares r) (context.move source (.register .pc)) := by
  have htarget : Emits (Spares r) (fun _ => True) (context.moveTarget source) := by
    unfold Context.moveTarget
    split
    · exact .pure trivial
    · exact spares_save _ _
    · exact .pure trivial
  rw [context.move_pc]
  apply htarget.bind
  intro target _
  exact Emits.seq (.ops (spares_postIncrement h)) (.op (spares_branchTo _ _))

theorem spares_reseed (hsp : .sp ≠ r) (value : Nat) :
    EmitsCode (Spares r) (context.move (.immediate value) (.register .sp)) := by
  unfold Context.move
  dsimp only
  split
  · exact .op (.single nofun)
  · exact .ops (spares_setRegister hsp _ _)

/-!
# Whole runs
-/

/-- A computation sets what its last steps set. -/
theorem spares_computation {body : Body Operand} (h : ¬ body.Sets r)
    (hcomputes : isComputation body = true) (hmoved : movedToPc? body = none)
    (hreseed : reseedsStack body = false) :
    EmitsCode (Spares r) (context.body body) := by
  have hwritten : writtenOperand? body = some (.register r) -> r = .pc ∨ r = .cg := by
    intro hwritten
    by_cases hpc : r = .pc
    · exact .inl hpc
    · exact .inr (Classical.not_not.mp fun hcg => h (.written hwritten hpc hcg))
  rcases exists_source hcomputes with ⟨source, hsource⟩
  apply (context.finishes_body hcomputes hmoved hreseed hsource).spares _ hwritten
  rintro step rfl
  exact h (.advanced (mem_operands_of_source? hsource))

section

variable {body : Body Operand} (h : ¬ body.Sets r)

include h

theorem ne_advanced {operand : Operand} (hmem : operand ∈ body.operands) (step : Nat) :
    operand ≠ .autoIncrement r step := by
  rintro rfl
  exact h (.advanced hmem)

/-- What computes nothing is about the stack or about where control goes. -/
theorem spares_control (hcomputes : isComputation body = false) :
    EmitsCode (Spares r) (context.body body) := by
  have hstack : usesStack body = true -> .sp ≠ r := by
    rintro huses rfl
    exact h (.stack huses rfl)
  cases body with
  | address _ _ _ | shift _ _ _ => cases hcomputes
  | reti =>
      apply context.spares_reti (hstack rfl)
      rintro rfl
      exact h (.status rfl rfl)
  | jump condition offset => exact context.spares_jump condition offset
  | calla target => exact context.spares_call (ne_advanced h List.mem_cons_self)
  | double opcode source destination =>
      cases Classical.not_not.mp (of_decide_eq_false hcomputes)
      exact .op (.single nofun)
  | single opcode target =>
      have hoperand := ne_advanced h (List.mem_singleton_self target)
      cases opcode with
      | push => exact context.spares_pushOperand (hstack rfl) hoperand
      | call => exact context.spares_call hoperand
      | rrc | swpb | rra | sxt => cases hcomputes
  | multiple opcode count highest =>
      cases opcode with
      | pushm => exact .ops (context.spares_pushRange (hstack rfl) _ _)
      | popm =>
          apply Emits.ops
          apply context.spares_popRange (hstack rfl)
          exact fun hmem => h (.popped rfl hmem)

theorem spares_body : EmitsCode (Spares r) (context.body body) := by
  cases hmoved : movedToPc? body with
  | some source =>
      rcases body_of_movedToPc? hmoved with rfl | rfl
      · exact context.spares_movePc (ne_advanced h List.mem_cons_self)
      · exact context.spares_movePc (ne_advanced h List.mem_cons_self)
  | none =>
      cases hreseed : reseedsStack body with
      | true =>
          have hsp : writtenOperand? body = some (.register .sp) -> .sp ≠ r := by
            rintro hwritten rfl
            exact h (.written hwritten nofun nofun)
          unfold reseedsStack at hreseed
          split at hreseed
          · exact context.spares_reseed (hsp rfl) _
          · exact context.spares_reseed (hsp rfl) _
          · cases hreseed
      | false =>
          cases hcomputes : isComputation body with
          | true => exact context.spares_computation h hcomputes hmoved hreseed
          | false => exact context.spares_control h hcomputes

end

theorem spares_run {inst : Instruction} (hdecoded : inst.Decoded)
    (h : ¬ inst.body.Sets r) : EmitsCode (Spares r) (context.run inst) := by
  have hreturns : inst.emulated? = some .ret ∨ inst.emulated? = some .reta ->
      .sp ≠ r := by
    rintro hemulated rfl
    rcases hdecoded.moved_of_return hemulated with ⟨step, hmoved⟩
    apply h
    rcases body_of_movedToPc? hmoved with hbody | hbody <;> rw [hbody] <;>
      exact .advanced List.mem_cons_self
  unfold Context.run
  split
  · exact .op (.single nofun)
  · split
    · next hemulated => exact context.spares_ret (hreturns (.inl hemulated)) _
    · next hemulated => exact context.spares_ret (hreturns (.inr hemulated)) _
    · exact .op (.single nofun)
    · split
      · exact .op (.single nofun)
      · exact context.spares_body h
    · exact context.spares_body h

end Context

section

variable {options : Options} {known : KnownLabels} {inst : Instruction}
  {r : Register}

/-- Repeating an instruction sets no further register. -/
theorem spares_repeated
    (h : EmitsCode (Spares r) ((Context.of options known inst).run inst)) :
    EmitsCode (Spares r) (emit options known inst) := by
  apply emits_repeated _ h
  intro op hcounts
  apply Spares.single
  cases op with
  | setTemp _ _ _ | setFlag _ _ | branch _ _ _ | label _ => exact nofun
  | _ => exact hcounts.elim

theorem spares_emit (hdecoded : inst.Decoded) (h : ¬ inst.body.Sets r) :
    EmitsCode (Spares r) (emit options known inst) :=
  spares_repeated (Context.spares_run _ hdecoded h)

end

/-- A decoded instruction changes no register but those that its body sets. -/
theorem registers_kept (options : Options) (start : UInt64) (known : KnownLabels)
    {inst : Instruction} (hdecoded : inst.Decoded) {r : Register}
    (h : ¬ inst.body.Sets r) {state last : State} {exit : IL.Exit}
    (hrun : RunsTo (into (.withLabels start known) options inst).ops state exit last) :
    last.regs r = state.regs r := by
  have hspares : EmitsCode (Spares r) (emit options known inst) := spares_emit hdecoded h
  exact (hspares.code _).runs_regs hrun fun _ => id

end Lift
end MSP430
