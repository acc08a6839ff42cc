import MSP430.Proofs.IL.Frame
import MSP430.Proofs.Lift.Emitted
import MSP430.Proofs.Lift.Operand

/-!
# The order of effects

Most bodies have one shape.  Their code computes in temporaries and flags, then it
writes a value to the destination, and last the source moves on.  What such code
does to registers follows from the shape alone.
-/

namespace MSP430

open IL (Composes Computes Emit Exit Expr GoesOn KnownLabels Op Spares State outcome)
open IL.Emit (Emits EmitsCode)

namespace Lift

/-!
# The shape
-/

namespace Context

/-- The end of a run: a value is written, if it has a destination, and then the
source moves on. -/
def lastSteps (context : Context) (source : Operand)
    (destination : Option Operand) (value : Expr) : List Op :=
  match destination with
  | some place =>
      (context.place place).write context.known context.width value ++
        postIncrement source
  | none => postIncrement source

/-- From every supply the code computes and then goes through the last steps.
What it writes to the program counter is no constant. -/
def Finishes (context : Context) (source : Operand)
    (destination : Option Operand) (emit : Emit Unit) : Prop :=
  forall supply, exists before value,
    (emit supply).code = before ++ context.lastSteps source destination value ∧
      Computes before ∧
      (destination = some (.register .pc) -> value.constant? = none)

namespace Finishes

variable {context : Context} {source : Operand}

/-- Computing comes before the last steps. -/
theorem after {value : Type} {fits : value -> Prop} {emit : Emit value}
    {next : value -> Emit Unit} {destination : Option Operand}
    (hfirst : Emits Computes fits emit)
    (hnext : forall result, fits result ->
      context.Finishes source destination (next result)) :
    context.Finishes source destination (emit >>= next) := by
  intro supply
  rcases hnext _ (hfirst.result supply) (emit supply).supply with
    ⟨before, written, hcode, hbefore, hvaries⟩
  refine ⟨(emit supply).code ++ before, written, ?_, ?_, hvaries⟩
  · rw [IL.Emit.bind_apply, hcode, List.append_assoc]
  · exact Composes.append (hfirst.code supply) hbefore

theorem write {destination : Operand} {value : Expr}
    (h : destination = .register .pc -> value.constant? = none) :
    context.Finishes source (some destination) (do
      context.write destination value
      Emit.ops (postIncrement source)) := by
  intro supply
  refine ⟨[], value, rfl, Composes.nil, ?_⟩
  intro hpc
  exact h (Option.some.inj hpc)

theorem advance :
    context.Finishes source none (Emit.ops (postIncrement source)) :=
  fun _ => ⟨[], .bool false, rfl, Composes.nil, nofun⟩

end Finishes

variable (context : Context)

/-!
# Computations
-/

theorem computes_snapshot (width : Width) (value : Expr) :
    Emits Computes (fun _ => True) (Emit.snapshot width value) :=
  .snapshot trivial (fun _ => .single trivial) fun _ => trivial

theorem computes_resultAndFlags (rule : FlagRule) (a b value : Expr) :
    Emits Computes (fun result => result.constant? = none)
      (context.resultAndFlags rule a b value) := by
  have hsave : Emits Computes (fun result : Expr => result.constant? = none)
      (Emit.save context.width value) :=
    .save (fun _ => .single trivial) fun _ => rfl
  unfold Context.resultAndFlags
  apply hsave.bind
  intro result hresult
  refine Emits.seq (.ops ?_) (.pure hresult)
  intro op hmem
  rcases List.mem_map.mp hmem with ⟨⟨flag, value⟩, _, rfl⟩
  trivial

theorem finishes_arithmetic (operation : Arithmetic) (store : Bool)
    (source destination : Operand) :
    context.Finishes source (if store then some destination else none)
      (context.arithmetic operation store source destination) := by
  unfold Context.arithmetic
  refine Finishes.after (computes_snapshot _ _) fun b _ => ?_
  refine Finishes.after (computes_snapshot _ _) fun a _ => ?_
  refine Finishes.after (context.computes_resultAndFlags _ _ _ _) ?_
  intro result hresult
  cases store with
  | true => exact .write fun _ => hresult
  | false => exact .advance

theorem finishes_replaceOperand (rule : FlagRule) (operand : Operand)
    (compute : Expr -> Expr) :
    context.Finishes operand (some operand)
      (context.replaceOperand rule operand compute) := by
  unfold Context.replaceOperand
  refine Finishes.after (computes_snapshot _ _) fun a _ => ?_
  refine Finishes.after (context.computes_resultAndFlags _ _ _ _) ?_
  intro result hresult
  exact .write fun _ => hresult

theorem finishes_swapBytes (operand : Operand) :
    context.Finishes operand (some operand) (context.swapBytes operand) := by
  apply Finishes.write
  intro _
  cases context.width <;> rfl

/-- Loading the stack pointer with an immediate may be lifted as nothing. -/
theorem move_eq_write {source destination : Operand}
    (hpc : destination ≠ .register .pc)
    (hreseed : forall value, source = .immediate value ->
      destination ≠ .register .sp) :
    context.move source destination = (do
      context.write destination (context.read source)
      Emit.ops (postIncrement source)) := by
  unfold Context.move
  split
  · exact absurd rfl hpc
  · exact absurd rfl (hreseed _ rfl)
  · rfl

theorem finishes_move {source destination : Operand}
    (hpc : destination ≠ .register .pc)
    (hreseed : forall value, source = .immediate value ->
      destination ≠ .register .sp) :
    context.Finishes source (some destination)
      (context.move source destination) := by
  rw [context.move_eq_write hpc hreseed]
  exact .write fun heq => absurd heq hpc

theorem finishes_single {opcode : SingleOpcode} (operand : Operand)
    (h : opcode.writesOperand = true) :
    context.Finishes operand (some operand) (context.single opcode operand) := by
  cases opcode with
  | rrc | rra | sxt => exact context.finishes_replaceOperand _ _ _
  | swpb => exact context.finishes_swapBytes operand
  | push | call => cases h

theorem finishes_double {opcode : DoubleOpcode} {source destination : Operand}
    (hdecimal : opcode ≠ .dadd)
    (hpc : opcode = .mov -> destination ≠ .register .pc)
    (hreseed : opcode = .mov -> forall value, source = .immediate value ->
      destination ≠ .register .sp) :
    context.Finishes source
      (if opcode.writesDestination then some destination else none)
      (context.double opcode source destination) := by
  cases opcode with
  | mov => exact context.finishes_move (hpc rfl) (hreseed rfl)
  | dadd => exact absurd rfl hdecimal
  | bic | bis => exact Finishes.write fun _ => rfl
  | _ => exact context.finishes_arithmetic _ _ source destination

theorem finishes_addressArithmetic {opcode : AddressOpcode}
    {source destination : Operand}
    (hpc : opcode = .mova -> destination ≠ .register .pc)
    (hreseed : opcode = .mova -> forall value, source = .immediate value ->
      destination ≠ .register .sp) :
    context.Finishes source
      (if opcode.writesDestination then some destination else none)
      (context.addressArithmetic opcode source destination) := by
  cases opcode with
  | mova => exact context.finishes_move (hpc rfl) (hreseed rfl)
  | _ => exact context.finishes_arithmetic _ _ source destination

end Context

/-- Whether the body computes a result, for a destination or for the flags
alone. -/
def isComputation : Body Operand -> Bool
  | .single opcode _ => opcode.writesOperand
  | .double opcode _ _ => decide (opcode ≠ .dadd)
  | .address _ _ _ | .shift _ _ _ => true
  | .reti | .jump _ _ | .calla _ | .multiple _ _ _ => false

/-- Whether the body loads the stack pointer with an immediate. -/
def reseedsStack : Body Operand -> Bool
  | .double .mov (.immediate _) (.register .sp) => true
  | .address .mova (.immediate _) (.register .sp) => true
  | _ => false

section

variable {body : Body Operand} {r : Register}
  (hwritten : writtenOperand? body = some (.register r))

include hwritten

theorem movedToPc?_eq_none (hpc : r ≠ .pc) : movedToPc? body = none := by
  cases hmoved : movedToPc? body with
  | none => rfl
  | some source =>
      rcases body_of_movedToPc? hmoved with hbody | hbody <;> rw [hbody] at hwritten <;>
        cases hwritten <;> exact absurd rfl hpc

theorem reseedsStack_eq_false (hsp : r ≠ .sp) : reseedsStack body = false := by
  unfold reseedsStack
  split
  · cases hwritten
    exact absurd rfl hsp
  · cases hwritten
    exact absurd rfl hsp
  · rfl

end

/-- What replaces an operand, and has code, computes a result for it. -/
theorem isComputation_of_written {body : Body Operand} {operand : Operand}
    (hsupported : unsupported? body = none)
    (hwritten : writtenOperand? body = some operand) : isComputation body = true := by
  cases body with
  | reti | jump _ _ | calla _ | multiple _ _ _ => cases hwritten
  | shift _ _ _ | address _ _ _ => rfl
  | single opcode target => cases opcode <;> first | rfl | cases hwritten
  | double opcode source destination =>
      refine decide_eq_true ?_
      rintro rfl
      unfold unsupported? at hsupported
      split at hsupported <;> cases hsupported

theorem exists_source {body : Body Operand} (h : isComputation body = true) :
    exists source, body.source? = some source := by
  cases body with
  | reti | jump _ _ | calla _ | multiple _ _ _ => cases h
  | single _ _ | double _ _ _ | address _ _ _ | shift _ _ _ => exact ⟨_, rfl⟩

/-- A source that is read through a register is one of the operands; the others may
be counts. -/
theorem mem_operands_of_source? {body : Body Operand} {r : Register} {step : Nat}
    (h : body.source? = some (.autoIncrement r step)) :
    .autoIncrement r step ∈ body.operands :=
  Instruction.mem_operands_of_source h nofun

/-- A body that computes a result and does not leave by a move has the shape, with
what it replaces as its destination. -/
theorem Context.finishes_body (context : Context) {body : Body Operand}
    (hcomputes : isComputation body = true) (hmoved : movedToPc? body = none)
    (hreseed : reseedsStack body = false) {source : Operand}
    (hsource : body.source? = some source) :
    context.Finishes source (writtenOperand? body) (context.body body) := by
  cases body with
  | reti | jump _ _ | calla _ | multiple _ _ _ => cases hcomputes
  | single opcode target =>
      cases hsource
      have hwritten : writtenOperand? (.single opcode source) = some source :=
        if_pos hcomputes
      rw [hwritten]
      exact context.finishes_single source hcomputes
  | double opcode _ destination =>
      cases hsource
      apply context.finishes_double (of_decide_eq_true hcomputes)
      · rintro rfl rfl
        cases hmoved
      · rintro rfl value rfl rfl
        cases hreseed
  | address opcode _ destination =>
      cases hsource
      apply context.finishes_addressArithmetic
      · rintro rfl rfl
        cases hmoved
      · rintro rfl value rfl rfl
        cases hreseed
  | shift opcode count destination =>
      cases hsource
      exact context.finishes_replaceOperand _ (.register destination) _

/-!
# What the last steps leave alone
-/

theorem goesOn_setRegister (register : Register) (width : Width) (value : Expr) :
    GoesOn [setRegister register width value] := by
  apply GoesOn.single
  cases width <;> trivial

theorem computes_flagsFromStatus : Computes flagsFromStatus := by
  intro op hmem
  rcases List.mem_map.mp hmem with ⟨flag, _, rfl⟩
  trivial

/-- Writing to a place other than the program counter goes on. -/
theorem goesOn_write (known : KnownLabels) (space width : Width) (value : Expr)
    {operand : Operand} (hplace : operand.isValue = false)
    (hpc : operand ≠ .register .pc) :
    GoesOn ((Place.of space operand).write known width value) := by
  cases operand with
  | immediate _ | constant _ => cases hplace
  | register r =>
      cases r with
      | pc => exact absurd rfl hpc
      | cg => exact GoesOn.single trivial
      | sr =>
          exact Composes.append (goesOn_setRegister .sr width value)
            computes_flagsFromStatus.goesOn
      | _ => exact goesOn_setRegister _ width value
  | _ => exact GoesOn.single trivial

section Spares

variable {r : Register}

theorem spares_branchTo (known : KnownLabels) (target : Expr) :
    Spares r [branchTo known target] := by
  apply Spares.single
  unfold branchTo
  split <;> exact nofun

theorem spares_setRegister {register : Register} (h : register ≠ r) (width : Width)
    (value : Expr) : Spares r [setRegister register width value] := by
  apply Spares.single
  intro heq
  apply h
  cases width <;> exact Option.some.inj heq

theorem spares_advance {register : Register} (h : register ≠ r) (step : Nat) :
    Spares r [advance register step] :=
  Spares.single fun heq => h (Option.some.inj heq)

theorem spares_postIncrement {operand : Operand}
    (h : forall step, operand ≠ .autoIncrement r step) :
    Spares r (postIncrement operand) := by
  cases operand with
  | autoIncrement other step =>
      apply spares_advance
      rintro rfl
      exact h step rfl
  | _ => exact Composes.nil

/-- Writing sets the register that is written to, if it is one that holds
values. -/
theorem spares_write (known : KnownLabels) (space width : Width) (value : Expr)
    {operand : Operand} (h : operand = .register r -> r = .pc ∨ r = .cg) :
    Spares r ((Place.of space operand).write known width value) := by
  cases operand with
  | register other =>
      cases other with
      | pc => exact spares_branchTo known value
      | cg => exact Spares.single nofun
      | sr =>
          have hne : Register.sr ≠ r := by
            rintro rfl
            rcases h rfl with heq | heq <;> cases heq
          exact Composes.append (spares_setRegister hne width value)
            (computes_flagsFromStatus.spares r)
      | _ =>
          apply spares_setRegister
          rintro rfl
          rcases h rfl with heq | heq <;> cases heq
  | _ => exact Spares.single nofun

end Spares

end Lift
end MSP430
