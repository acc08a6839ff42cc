import MSP430.Proofs.IL.Value
import MSP430.Proofs.Lift.Straight

/-!
# What an instruction does

The meaning of an instruction is the outcome of its code as a function of the
state, with no labels of its own in it.  The code of the instruction realises
this meaning, so that an instruction may be looked at apart from the program it
is a part of.
-/

namespace MSP430
namespace Lift

open IL (Buffer Emit Exit Expr KnownLabels Label Leads Op Outcome Realises RunsTo
  Scope Scoped State Supply codeAfter? codeAfter?_append_of_not_mem
  codeAfter?_eq_none codeAfter?_label loopEnd outcome realises_loop repeatDown
  repeatDown_agree)
open IL.Emit (StraightFrom anyResult)

/-!
# Leaving
-/

/-- How control goes to an address. -/
def exitTo (known : KnownLabels) (target : Nat) : Exit :=
  match known.label? (UInt64.ofNat target) with
  | some label => .label label
  | none => .jump target

/-- How control goes to the instruction that follows, where it may also reach
the end of the code. -/
def exitPast (known : KnownLabels) (next : UInt64) : Exit :=
  match known.label? next with
  | some label => .label label
  | none => .fallThrough

theorem jumpTarget_lt (address : UInt64) (offset : Int) :
    Instruction.jumpTarget address offset < 0x100000 := by
  have hlt := Width.ofInt_lt (Instruction.jumpSpace address)
    ((address.toNat : Int) + 2 + 2 * offset)
  apply Nat.lt_of_lt_of_le hlt
  cases Instruction.jumpSpace address <;> decide

theorem constant?_codePointer {target : Nat} (h : target < 0x100000) :
    (codePointer target).constant? = some target := by
  unfold codePointer
  split
  · next hlow =>
      simp only [Expr.address, Expr.constant?, Width.truncate, Width.modulus,
        Nat.mod_eq_of_lt hlow]
  · simp only [Expr.address, Expr.constant?, Width.truncate, Width.modulus,
      Nat.mod_eq_of_lt h]

theorem eval_codePointer {target : Nat} (h : target < 0x100000) (state : State) :
    (codePointer target).eval state = target :=
  Expr.eval_of_constant? state (constant?_codePointer h)

theorem branchTo_codePointer (known : KnownLabels) {target : Nat}
    (h : target < 0x100000) :
    branchTo known (codePointer target) =
      match known.label? (UInt64.ofNat target) with
      | some label => .goto label
      | none => .jump (codePointer target) := by
  unfold branchTo
  rw [constant?_codePointer h]
  rfl

theorem outcome_branchTo (known : KnownLabels) {target : Nat}
    (h : target < 0x100000) (rest : List Op) (state : State) :
    outcome (branchTo known (codePointer target) :: rest) state =
      (exitTo known target, state) := by
  rw [branchTo_codePointer known h]
  unfold exitTo
  cases known.label? (UInt64.ofNat target) with
  | some label => rfl
  | none => rw [IL.outcome_jump, eval_codePointer h]

theorem holds_conditionExpr (condition : Condition) (state : State) :
    condition.expr.holds state = condition.holds state.flags := by
  cases condition with
  | greaterEqual =>
      simp only [Condition.expr, Condition.holds, Expr.holds_not,
        Expr.holds_logic, Expr.holds_flag, IL.LogicOp.apply]
      cases state.flags .n <;> cases state.flags .v <;> rfl
  | _ => simp [Condition.expr, Condition.holds, IL.LogicOp.apply]

/-!
# Jumps
-/

namespace Context

def jumpMeaning (context : Context) (condition : Condition) (offset : Int)
    (state : State) : Outcome :=
  if condition.holds state.flags then
    (exitTo context.known (Instruction.jumpTarget context.address offset), state)
  else
    (exitPast context.known context.next, state)

variable (context : Context)

/-- The mark and the jump of a target without a label. -/
def jumpArm (target : Option Label) (label : Label) (address : Nat) : List Op :=
  if target.isNone then [.label label, .jump (codePointer address)] else []

/-- The mark that stands for a next instruction without a label. -/
def nextArm (next : Option Label) (label : Label) : List Op :=
  if next.isNone then [.label label] else []

/-- The labels a conditional jump chooses between: the known ones, or new ones
from the first free label up to the last. -/
structure JumpLabels (target next : Option Label)
    (first ifTrue ifFalse last : Nat) : Prop where
  first_le_last : first ≤ last
  ifTrue_eq : forall label, target = some label -> ifTrue = label
  ifTrue_new : target = none -> first ≤ ifTrue ∧ ifTrue < last
  ifFalse_eq : forall label, next = some label -> ifFalse = label
  ifFalse_new : next = none -> first ≤ ifFalse ∧ ifFalse < last
  distinct : target = none -> next = none -> ifTrue ≠ ifFalse

/-- The code of a conditional jump: the choice and its arms. -/
theorem jump_emits {condition : Condition} (offset : Int) (supply : Supply)
    (h : condition.isUnconditional = false) :
    let address := Instruction.jumpTarget context.address offset
    let target := context.known.label? (UInt64.ofNat address)
    let next := context.known.label? context.next
    exists ifTrue ifFalse last,
      JumpLabels target next supply.label ifTrue ifFalse last ∧
        (context.jump condition offset supply).code =
          .branch condition.expr ifTrue ifFalse ::
            (jumpArm target ifTrue address ++ nextArm next ifFalse) ∧
        (context.jump condition offset supply).supply.label = last := by
  unfold Context.jump
  cases htarget : context.known.label? (UInt64.ofNat
      (Instruction.jumpTarget context.address offset)) with
  | some label =>
      cases hnext : context.known.label? context.next with
      | some label' =>
          refine ⟨label, label', supply.label, ?_, ?_⟩
          · constructor <;> simp [htarget]
          · simp [h, htarget, labelOrNew, jumpArm, nextArm]
      | none =>
          refine ⟨label, supply.label, supply.label + 1, ?_, ?_⟩
          · constructor <;> simp [htarget]
          · simp [h, htarget, labelOrNew, jumpArm, nextArm]
  | none =>
      cases hnext : context.known.label? context.next with
      | some label' =>
          refine ⟨supply.label, label', supply.label + 1, ?_, ?_⟩
          · constructor <;> simp [htarget]
          · simp [h, htarget, labelOrNew, jumpArm, nextArm]
      | none =>
          refine ⟨supply.label, supply.label + 1, supply.label + 2, ?_, ?_⟩
          · constructor <;> simp [htarget]
          · simp [h, htarget, labelOrNew, jumpArm, nextArm]

theorem jumpMeaning_of_unconditional {condition : Condition} (offset : Int)
    (h : condition.isUnconditional = true) (state : State) :
    context.jumpMeaning condition offset state =
      outcome (context.jump condition offset ⟨0, 0⟩).code state := by
  have hholds : condition.holds state.flags = true := by
    cases condition <;> first | rfl | cases h
  unfold jumpMeaning Context.jump
  simp only [hholds, h, if_true, IL.Emit.op_apply]
  rw [outcome_branchTo context.known (jumpTarget_lt context.address offset)]

section Arms

variable {known : KnownLabels} {program before after : List Op} {op : Op}
  {address : Nat} {target next : Option Label}
  {first ifTrue ifFalse last : Nat} {state : State}

theorem leads_ifTrue
    (htarget : known.label? (UInt64.ofNat address) = target)
    (hlabels : JumpLabels target next first ifTrue ifFalse last)
    (hprogram : program = before ++
      (op :: (jumpArm target ifTrue address ++ nextArm next ifFalse ++ after)))
    (hfree : forall label, label < known.length -> Op.label label ∉ program)
    (hnew : target = none -> Op.label ifTrue ∉ before)
    (haddress : address < 0x100000) (hop : op.effect state = .goto ifTrue)
    (code : List Op) :
    Leads program (op :: code) state after (exitTo known address, state) := by
  unfold exitTo
  rw [htarget]
  cases target with
  | some label =>
      rw [hlabels.ifTrue_eq label rfl] at hop
      exact .missing hop (codeAfter?_eq_none (hfree label (label?_lt htarget)))
  | none =>
      have hne : op ≠ .label ifTrue := by
        intro heq
        rw [heq] at hop
        cases hop
      have hcode : codeAfter? ifTrue program =
          some (.jump (codePointer address) :: (nextArm next ifFalse ++ after)) := by
        rw [hprogram, codeAfter?_append_of_not_mem _ (hnew rfl)]
        simp [codeAfter?, jumpArm, hne]
      apply Leads.goto hop hcode
      apply Leads.leave
      rw [Op.effect, eval_codePointer haddress]

theorem leads_ifFalse {following : UInt64}
    (hnext : known.label? following = next)
    (hlabels : JumpLabels target next first ifTrue ifFalse last)
    (hprogram : program = before ++
      (op :: (jumpArm target ifTrue address ++ nextArm next ifFalse ++ after)))
    (hfree : forall label, label < known.length -> Op.label label ∉ program)
    (hnew : next = none -> Op.label ifFalse ∉ before)
    (hop : op.effect state = .goto ifFalse) (code : List Op) :
    Leads program (op :: code) state after (exitPast known following, state) := by
  unfold exitPast
  rw [hnext]
  cases next with
  | some label =>
      rw [hlabels.ifFalse_eq label rfl] at hop
      exact .missing hop (codeAfter?_eq_none (hfree label (label?_lt hnext)))
  | none =>
      have hne : op ≠ .label ifFalse := by
        intro heq
        rw [heq] at hop
        cases hop
      have harm : Op.label ifFalse ∉ jumpArm target ifTrue address := by
        cases target with
        | some label => exact List.not_mem_nil
        | none => simp [jumpArm, (hlabels.distinct rfl rfl).symm]
      have hcode : codeAfter? ifFalse program = some after := by
        rw [hprogram, codeAfter?_append_of_not_mem _ (hnew rfl), codeAfter?,
          if_neg hne, List.append_assoc, codeAfter?_append_of_not_mem _ harm]
        exact codeAfter?_label ifFalse after
      exact .goto hop hcode (.refl program after state)

end Arms

theorem realises_jump (condition : Condition) (offset : Int) (label : Label) :
    Realises context.known.length
      (context.jump condition offset { temp := 0, label := label }).code
      (context.jumpMeaning condition offset) := by
  cases hcondition : condition.isUnconditional with
  | true =>
      have hstraight : context.EmitsStraight [] (context.jump condition offset) :=
        context.straight_jump offset hcondition
      have hmeaning := funext
        (context.jumpMeaning_of_unconditional offset hcondition)
      rw [hmeaning]
      exact hstraight.realises label 0
  | false =>
      rcases context.jump_emits offset ⟨0, label⟩ hcondition with
        ⟨ifTrue, ifFalse, last, hlabels, hcode, _⟩
      rw [hcode]
      intro before after state hbefore hfree
      have hop :
          (Op.branch condition.expr ifTrue ifFalse).effect state =
            .goto (if condition.holds state.flags then ifTrue else ifFalse) := by
        rw [Op.effect, holds_conditionExpr]
      unfold jumpMeaning
      cases hholds : condition.holds state.flags with
      | true =>
          rw [hholds] at hop
          apply leads_ifTrue rfl hlabels rfl hfree _
            (jumpTarget_lt context.address offset) hop
          intro hnone
          apply hbefore
          simp [jumpArm, hnone]
      | false =>
          rw [hholds] at hop
          apply leads_ifFalse rfl hlabels rfl hfree _ hop
          intro hnone
          apply hbefore
          simp [nextArm, hnone]

end Context

/-!
# Repetitions
-/

namespace Context

variable (context : Context)

/-- One run of an instruction behind a prefix word. -/
def once (zeroCarry : Bool) (inst : Instruction) : Emit Unit := do
  Emit.ops (clearedCarry zeroCarry)
  context.run inst

theorem straight_once {scope : Scope} (zeroCarry : Bool) {inst : Instruction}
    (h : isConditionalJump inst.body = false) :
    context.EmitsStraight scope (context.once zeroCarry inst) := by
  unfold once
  refine StraightFrom.bind (.ops ?_) ?_
  · intro op hmem
    cases zeroCarry with
    | true =>
        rw [List.mem_singleton.mp hmem]
        trivial
    | false => cases hmem
  · intro wider _ _ _
    exact context.straight_run h

/-- Behind the count of a loop, each run is straight. -/
theorem straight_counted (zeroCarry : Bool) {inst : Instruction}
    (h : isConditionalJump inst.body = false) :
    context.EmitsStraight [.word] (context.once zeroCarry inst) :=
  context.straight_once zeroCarry h

def runs (counter : Register) (state : State) : Nat :=
  state.regs counter % 16 + 1

/-- A repetition counted by a register runs the instruction that often. -/
def loopMeaning (counter : Register) (zeroCarry : Bool) (inst : Instruction)
    (state : State) : Outcome :=
  repeatDown (outcome (context.once zeroCarry inst { temp := 1, label := 0 }).code)
    0 (runs counter state) (state.setTemp 0 (runs counter state))

theorem eval_counter (counter : Register) (state : State) :
    Width.word.truncate
      ((Expr.add .word (.and .word (.reg .word counter) (.int .word 0xf))
        (.int .word 1)).eval state) = runs counter state := by
  have hmask : forall value : Nat, value &&& 15 = value % 16 := by
    intro value
    exact Nat.and_two_pow_sub_one_eq_mod value 4
  simp only [Expr.add, Expr.and, Expr.int, Expr.eval, IL.BinaryOp.apply,
    Width.truncate, Width.modulus, runs, Nat.reduceMod, hmask]
  omega

end Context

def meaning (options : Options) (known : KnownLabels) (inst : Instruction) :
    State -> Outcome :=
  let context := Context.of options known inst
  match inst.body, inst.extension with
  | .jump condition offset, none => context.jumpMeaning condition offset
  | _, some { repetition := .register counter, zeroCarry := zeroCarry } =>
      context.loopMeaning counter zeroCarry inst
  | _, _ => outcome (emit options known inst { temp := 0, label := 0 }).code

def RepeatsStraight (inst : Instruction) : Prop :=
  inst.extension.isSome = true -> isConditionalJump inst.body = false

/-- What is a conditional jump is not repeated. -/
theorem jump_of_isConditionalJump {inst : Instruction} (h : RepeatsStraight inst)
    (hjump : isConditionalJump inst.body = true) :
    exists condition offset, inst.body = .jump condition offset ∧
      condition.isUnconditional = false ∧ inst.extension = none := by
  have hextension : inst.extension = none := by
    rw [← Option.not_isSome_iff_eq_none]
    intro hextended
    rw [h hextended] at hjump
    cases hjump
  cases hbody : inst.body with
  | jump condition offset =>
      rw [hbody, isConditionalJump, Bool.not_eq_true'] at hjump
      exact ⟨condition, offset, rfl, hjump, hextension⟩
  | _ =>
      rw [hbody] at hjump
      cases hjump

/-- The ways in which an instruction runs: it is a conditional jump, a register counts its
runs, or its code is straight. -/
inductive RunsAs (inst : Instruction) : Prop where
  | jump {condition : Condition} {offset : Int} :
      inst.body = .jump condition offset -> condition.isUnconditional = false ->
      inst.extension = none -> RunsAs inst
  | counted {counter : Register} {zeroCarry : Bool} :
      inst.extension =
        some { repetition := .register counter, zeroCarry := zeroCarry } ->
      isConditionalJump inst.body = false -> RunsAs inst
  | straight :
      (forall counter zeroCarry, inst.extension ≠
        some { repetition := .register counter, zeroCarry := zeroCarry }) ->
      isConditionalJump inst.body = false -> RunsAs inst

theorem RepeatsStraight.runsAs {inst : Instruction} (h : RepeatsStraight inst) :
    RunsAs inst := by
  cases hjump : isConditionalJump inst.body with
  | true =>
      rcases jump_of_isConditionalJump h hjump with
        ⟨condition, offset, hbody, hcondition, hextension⟩
      exact .jump hbody hcondition hextension
  | false =>
      by_cases hcount : exists counter zeroCarry, inst.extension =
          some { repetition := .register counter, zeroCarry := zeroCarry }
      · rcases hcount with ⟨counter, zeroCarry, hextension⟩
        exact .counted hextension hjump
      · apply RunsAs.straight _ hjump
        intro counter zeroCarry hextension
        exact hcount ⟨counter, zeroCarry, hextension⟩

section

variable (options : Options) (known : KnownLabels) {inst : Instruction}

theorem emit_loop {counter : Register} {zeroCarry : Bool}
    (h : inst.extension =
      some { repetition := .register counter, zeroCarry := zeroCarry })
    (label : Label) :
    let context := Context.of options known inst
    emit options known inst { temp := 0, label := label } =
      let once := context.once zeroCarry inst { temp := 1, label := label + 2 }
      { result := ()
        code :=
          .setTemp .word 0
              (.add .word (.and .word (.reg .word counter) (.int .word 0xf))
                (.int .word 1)) ::
            .label label :: (once.code ++ loopEnd 0 label (label + 1))
        supply := once.supply } := by
  unfold emit
  rw [h]
  rfl

theorem straight_emit (hstraight : isConditionalJump inst.body = false)
    (hcount : forall counter zeroCarry, inst.extension ≠
      some { repetition := .register counter, zeroCarry := zeroCarry }) :
    (Context.of options known inst).EmitsStraight [] (emit options known inst) := by
  unfold emit
  cases hextension : inst.extension with
  | none => exact (Context.of options known inst).straight_run hstraight
  | some extension =>
      rcases extension with ⟨repetition, zeroCarry⟩
      cases repetition with
      | times count =>
          apply StraightFrom.replicate
          intro wider
          exact (Context.of options known inst).straight_once zeroCarry hstraight
      | register counter => exact absurd hextension (hcount counter zeroCarry)

/-- The three shapes of an instruction's code: a jump, a loop, or straight
code. -/
inductive EmitShape (options : Options) (known : KnownLabels) (inst : Instruction) :
    (Emit Unit) -> (State -> Outcome) -> Prop where
  | jump {condition : Condition} {offset : Int} :
      EmitShape options known inst
        ((Context.of options known inst).jump condition offset)
        ((Context.of options known inst).jumpMeaning condition offset)
  | loop {counter : Register} {zeroCarry : Bool} :
      inst.extension =
        some { repetition := .register counter, zeroCarry := zeroCarry } ->
      isConditionalJump inst.body = false ->
      EmitShape options known inst (emit options known inst)
        ((Context.of options known inst).loopMeaning counter zeroCarry inst)
  | straight :
      (Context.of options known inst).EmitsStraight [] (emit options known inst) ->
      EmitShape options known inst (emit options known inst)
        (outcome (emit options known inst { temp := 0, label := 0 }).code)

theorem emit_jump {condition : Condition} {offset : Int}
    (hbody : inst.body = .jump condition offset)
    (hextension : inst.extension = none) :
    emit options known inst =
      (Context.of options known inst).jump condition offset := by
  simp [emit, hextension, Context.run, unsupported?, writtenOperand?,
    Instruction.emulated?, hbody, Context.body]

theorem emitShape (h : RepeatsStraight inst) :
    EmitShape options known inst (emit options known inst)
      (meaning options known inst) := by
  unfold meaning
  dsimp only
  split
  · next condition offset hbody hextension =>
      rw [emit_jump options known hbody hextension]
      exact .jump
  · next counter zeroCarry hextension =>
      apply EmitShape.loop hextension
      apply h
      rw [hextension]
      rfl
  · next hloop hjump =>
      apply EmitShape.straight
      apply straight_emit options known
      · cases hextension : inst.extension with
        | some extension =>
            apply h
            rw [hextension]
            rfl
        | none =>
            apply isConditionalJump_of_ne
            intro condition offset hbody
            exact hjump condition offset hbody hextension
      · intro counter zeroCarry hextension
        exact hloop counter zeroCarry hextension

theorem EmitShape.realises {emission : Emit Unit} {means : State -> Outcome}
    (h : EmitShape options known inst emission means) (label : Label) :
    Realises known.length (emission { temp := 0, label := label }).code means := by
  cases h with
  | jump => exact (Context.of options known inst).realises_jump _ _ label
  | straight hstraight => exact hstraight.realises label 0
  | @loop counter zeroCarry hextension hjump =>
      have hstraight := (Context.of options known inst).straight_counted zeroCarry hjump
      rcases hstraight.wellScoped (label + 2) with ⟨last, hscoped⟩
      have hcode := hstraight.code_eq 0 (label + 2)
      have hcounts : forall state : State, state.regs counter % 16 < 0xffff := by
        intro state
        omega
      have hloop := @realises_loop known.length label (label + 1) [] last _ _ _
        hscoped (Nat.ne_of_lt (Nat.lt_succ_self label)) hcounts
        (Context.eval_counter counter)
      rw [emit_loop options known hextension label]
      unfold Context.loopMeaning
      simp only [List.length_singleton] at hcode
      rw [hcode]
      exact hloop

theorem Context.jump_labels {context : Context} {condition : Condition}
    {offset : Int} (first : Nat) (h : condition.isUnconditional = false) :
    let emitted := context.jump condition offset { temp := 0, label := first }
    first ≤ emitted.supply.label ∧
      forall label : Nat, Op.label label ∈ emitted.code ->
        first ≤ label ∧ label < emitted.supply.label := by
  rcases context.jump_emits offset { temp := 0, label := first } h with
    ⟨ifTrue, ifFalse, last, hlabels, hcode, hlast⟩
  dsimp only
  rw [hcode, hlast]
  refine ⟨hlabels.first_le_last, ?_⟩
  intro label hmem
  rcases List.mem_cons.mp hmem with hmem | hmem
  · cases hmem
  · rcases List.mem_append.mp hmem with hmem | hmem
    · unfold jumpArm at hmem
      split at hmem
      · next hnone =>
          simp only [List.mem_cons, Op.label.injEq, reduceCtorEq,
            List.not_mem_nil, or_false] at hmem
          rw [hmem]
          exact hlabels.ifTrue_new (Option.isNone_iff_eq_none.mp hnone)
      · cases hmem
    · unfold nextArm at hmem
      split at hmem
      · next hnone =>
          rw [Op.label.inj (List.mem_singleton.mp hmem)]
          exact hlabels.ifFalse_new (Option.isNone_iff_eq_none.mp hnone)
      · cases hmem

theorem Context.EmitsStraight.labels {context : Context} {scope : Scope}
    {emission : Emit Unit} (h : context.EmitsStraight scope emission)
    (first : Nat) :
    let emitted := emission { temp := scope.length, label := first }
    emitted.supply.label = first ∧
      forall label : Nat, Op.label label ∉ emitted.code := by
  rcases StraightFrom.wellScoped h first with ⟨last, hscoped⟩
  exact ⟨StraightFrom.label_eq h first, hscoped.label_not_mem⟩

/-- The labels that an instruction marks are those it takes. -/
theorem EmitShape.labels {emission : Emit Unit} {means : State -> Outcome}
    (h : EmitShape options known inst emission means) (first : Nat) :
    let emitted := emission { temp := 0, label := first }
    first ≤ emitted.supply.label ∧
      forall label : Nat, Op.label label ∈ emitted.code ->
        first ≤ label ∧ label < emitted.supply.label := by
  have hstraightLabels : forall {emission : Emit Unit},
      (Context.of options known inst).EmitsStraight [] emission ->
      let emitted := emission { temp := 0, label := first }
      first ≤ emitted.supply.label ∧
        forall label : Nat, Op.label label ∈ emitted.code ->
          first ≤ label ∧ label < emitted.supply.label := by
    intro emission hstraight
    rcases hstraight.labels first with ⟨hsame, hnone⟩
    refine ⟨Nat.le_of_eq hsame.symm, ?_⟩
    intro label hmem
    exact absurd hmem (hnone label)
  cases h with
  | @jump condition offset =>
      cases hcondition : condition.isUnconditional with
      | true =>
          exact hstraightLabels
            ((Context.of options known inst).straight_jump offset hcondition)
      | false => exact Context.jump_labels first hcondition
  | straight hstraight => exact hstraightLabels hstraight
  | @loop counter zeroCarry hextension hjump =>
      have hstraight := (Context.of options known inst).straight_counted zeroCarry hjump
      rcases hstraight.labels (first + 2) with ⟨hsame, hnone⟩
      simp only [List.length_singleton] at hsame hnone
      rw [emit_loop options known hextension first]
      dsimp only
      rw [hsame]
      refine ⟨by omega, ?_⟩
      intro label hmem
      simp only [loopEnd, List.mem_cons, List.mem_append, Op.label.injEq,
        reduceCtorEq, List.not_mem_nil, or_false, false_or, hnone label] at hmem
      rcases hmem with rfl | rfl
      · omega
      · omega

/-- States that differ only in temporaries are all the same to an
instruction. -/
theorem EmitShape.agree {emission : Emit Unit} {means : State -> Outcome}
    (h : EmitShape options known inst emission means) {first second : State}
    (hstate : first.SameVisible second) :
    Outcome.AgreeBelow 0 (means first) (means second) := by
  cases h with
  | @jump condition offset =>
      unfold Context.jumpMeaning
      rw [hstate.flags]
      split
      · exact ⟨rfl, hstate.agreeBelow⟩
      · exact ⟨rfl, hstate.agreeBelow⟩
  | straight hstraight =>
      rcases StraightFrom.wellScoped hstraight 0 with ⟨last, hscoped⟩
      exact hscoped.outcome_agree hstate.agreeBelow
  | @loop counter zeroCarry hextension hjump =>
      have hstraight := (Context.of options known inst).straight_counted zeroCarry hjump
      rcases StraightFrom.wellScoped hstraight 0 with ⟨last, hscoped⟩
      have hruns : Context.runs counter first = Context.runs counter second := by
        unfold Context.runs
        rw [hstate.regs]
      unfold Context.loopMeaning
      rw [hruns]
      have hagree := @repeatDown_agree known.length [] last _ hscoped
        (Context.runs counter second) _ _
        (hstate.agreeBelow.setTemp (Context.runs counter second))
      exact ⟨hagree.exit, hagree.state.mono (Nat.zero_le _)⟩

/-!
# Whole instructions
-/

theorem realises_emit (h : RepeatsStraight inst) (label : Label) :
    Realises known.length
      (emit options known inst { temp := 0, label := label }).code
      (meaning options known inst) :=
  (emitShape options known h).realises options known label

theorem meaning_agree (h : RepeatsStraight inst) {first second : State}
    (hstate : first.SameVisible second) :
    Outcome.AgreeBelow 0 (meaning options known inst first)
      (meaning options known inst second) :=
  (emitShape options known h).agree options known hstate

/-- The operations that an instruction adds to a buffer. -/
def appended (buffer : Buffer) (options : Options) (inst : Instruction) : List Op :=
  (emit options buffer.known inst { temp := 0, label := buffer.supply.label }).code

theorem ops_into (buffer : Buffer) (options : Options) (inst : Instruction) :
    (into buffer options inst).ops = buffer.ops ++ appended buffer options inst :=
  rfl

end

end Lift
end MSP430
