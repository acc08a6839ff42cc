import MSP430.Branch
import MSP430.Proofs.Decode.Operands
import MSP430.Proofs.Lift.Emitted
import MSP430.Proofs.Lift.Once

/-!
# Transfers of control

The code of an instruction transfers control in few ways.  It ends with a jump,
a call or a return, or with the choice of a conditional jump, and otherwise only
by writing to the program counter a value that it has computed.  Beside each way
stand the branches that a host is told of.
-/

namespace MSP430

open IL (Buffer Composes Emit Expr KnownLabels Label Op Supply)
open IL.Emit (Emits EmitsCode)

/-!
# Where code jumps
-/

namespace IL

/-- The operation neither calls nor returns, and jumps only to such targets. -/
def Op.JumpsOnly (allowed : Expr -> Prop) : Op -> Prop
  | jump target => allowed target
  | call _ | ret _ => False
  | setReg _ _ _ | setTemp _ _ _ | setFlag _ _ | store _ _ _ => True
  | goto _ | branch _ _ _ | nop | label _ | unimplemented => True

/-- The code neither calls nor returns, and jumps only to such targets. -/
def JumpsOnly (allowed : Expr -> Prop) (code : List Op) : Prop :=
  forall op, op ∈ code -> op.JumpsOnly allowed

instance (allowed : Expr -> Prop) : Composes (JumpsOnly allowed) :=
  .ofEach (Op.JumpsOnly allowed)

theorem JumpsOnly.single {allowed : Expr -> Prop} {op : Op}
    (h : op.JumpsOnly allowed) : JumpsOnly allowed [op] := by
  intro other hmem
  rw [List.mem_singleton.mp hmem]
  exact h

/-- The target is no constant. -/
def Expr.Computed (target : Expr) : Prop :=
  target.constant? = none

def Expr.anyTarget (_ : Expr) : Prop :=
  True

end IL

open IL (JumpsOnly)

/-!
# Moves to the program counter

A move of a plain word or address to the program counter has a name that says
so: it is a return where it takes the value from the stack, and a branch
otherwise.  No other instruction has such a name.
-/

namespace Emulated

/-- The names of moves to the program counter. -/
def leaves : Emulated -> Bool
  | br | bra | ret | reta => true
  | _ => false

theorem leaves_ofClearedStatus? {bits : Nat} {emulated : Emulated}
    (h : ofClearedStatus? bits = some emulated) : emulated.leaves = false := by
  unfold ofClearedStatus? at h
  split at h <;> cases h <;> rfl

theorem leaves_ofSetStatus? {bits : Nat} {emulated : Emulated}
    (h : ofSetStatus? bits = some emulated) : emulated.leaves = false := by
  unfold ofSetStatus? at h
  split at h <;> cases h <;> rfl

/-- Only plain words moved to the program counter leave. -/
theorem leaves_ofMove? {width : Width} {extended : Bool}
    {source destination : Operand} {emulated : Emulated}
    (h : ofMove? width extended source destination = some emulated)
    (hleaves : emulated.leaves = true) :
    destination = .register .pc ∧ width = .word ∧ extended = false := by
  unfold ofMove? at h
  cases hbranches :
      !extended && decide (width = .word) && destination.isRegister .pc with
  | true =>
      simp only [Operand.isRegister, Bool.and_eq_true, Bool.not_eq_true',
        decide_eq_true_eq] at hbranches
      exact ⟨hbranches.2, hbranches.1.2, hbranches.1.1⟩
  | false =>
      simp only [hbranches, Bool.false_and, Bool.false_eq_true, if_false] at h
      split at h
      · cases h
        cases hleaves
      · split at h
        · split at h <;> cases h <;> cases hleaves
        · cases h

theorem leaves_ofDouble? {opcode : DoubleOpcode} {width : Width}
    {extended : Bool} {source destination : Operand} {emulated : Emulated}
    (h : ofDouble? opcode width extended source destination = some emulated)
    (hleaves : emulated.leaves = true) :
    opcode = .mov ∧ destination = .register .pc ∧ width = .word ∧
      extended = false := by
  unfold ofDouble? at h
  cases opcode with
  | mov => exact ⟨rfl, leaves_ofMove? h hleaves⟩
  | bic =>
      dsimp only at h
      split at h
      · rcases Option.bind_eq_some_iff.mp h with ⟨bits, _, hbits⟩
        rw [leaves_ofClearedStatus? hbits] at hleaves
        cases hleaves
      · cases h
  | bis =>
      dsimp only at h
      split at h
      · rcases Option.bind_eq_some_iff.mp h with ⟨bits, _, hbits⟩
        rw [leaves_ofSetStatus? hbits] at hleaves
        cases hleaves
      · cases h
  | _ => grind [leaves]

theorem leaves_ofAddress? {opcode : AddressOpcode} {source destination : Operand}
    {emulated : Emulated}
    (h : ofAddress? opcode source destination = some emulated) :
    opcode = .mova ∧ destination = .register .pc := by
  unfold ofAddress? at h
  cases opcode with
  | mova =>
      dsimp only at h
      split at h
      · next hpc => exact ⟨rfl, of_decide_eq_true hpc⟩
      · cases h
  | _ => cases h

end Emulated

namespace Instruction

variable {inst : Instruction}

theorem Decoded.plain_of_leaves (hdecoded : inst.Decoded) {emulated : Emulated}
    (h : inst.emulated? = some emulated) (hleaves : emulated.leaves = true) :
    (Lift.movedToPc? inst.body).isSome = true ∧ inst.extension = none ∧
      inst.width ≠ .byte := by
  have hfits := hdecoded.widthFits
  unfold emulated? at h
  cases hbody : inst.body with
  | double opcode source destination =>
      rw [hbody] at h
      rcases Emulated.leaves_ofDouble? h hleaves with
        ⟨rfl, rfl, hwidth, hextended⟩
      refine ⟨rfl, Option.not_isSome_iff_eq_none.mp ?_, ?_⟩
      · exact Bool.eq_false_iff.mp hextended
      · rw [hwidth]
        exact nofun
  | address opcode source destination =>
      rw [hbody] at h hfits
      rcases Emulated.leaves_ofAddress? h with ⟨rfl, rfl⟩
      refine ⟨rfl, hfits.1, ?_⟩
      rw [hfits.2]
      exact nofun
  | _ =>
      rw [hbody] at h
      cases h

theorem Decoded.emulated?_of_moved (hdecoded : inst.Decoded) {source : Operand}
    (h : Lift.movedToPc? inst.body = some source)
    (hextension : inst.extension = none) (hwidth : inst.width ≠ .byte) :
    if source.isPop then
      inst.emulated? = some .ret ∨ inst.emulated? = some .reta
    else
      inst.emulated? = some .br ∨ inst.emulated? = some .bra := by
  have hfits := hdecoded.widthFits
  rcases Lift.body_of_movedToPc? h with hbody | hbody
  · rw [hbody] at hfits
    have hword : inst.width = .word := by
      cases hcase : inst.width with
      | word => rfl
      | byte => exact absurd hcase hwidth
      | address => exact absurd hcase (hfits hextension)
    have hname : inst.emulated? =
        if source.isPop then some .ret else some .br := by
      unfold emulated? isExtended
      rw [hbody, hextension, hword]
      cases hpop : source.isPop <;>
        simp [Emulated.ofDouble?, Emulated.ofMove?, Operand.isRegister, hpop]
    rw [hname]
    split
    · exact .inl rfl
    · exact .inl rfl
  · have hname : inst.emulated? =
        if source.isPop then some .reta else some .bra := by
      unfold emulated?
      rw [hbody]
      rfl
    rw [hname]
    split
    · exact .inr rfl
    · exact .inr rfl

/-- A return by name is a move through the stack pointer. -/
theorem Decoded.moved_of_return (hdecoded : inst.Decoded)
    (h : inst.emulated? = some .ret ∨ inst.emulated? = some .reta) :
    exists step, Lift.movedToPc? inst.body = some (.autoIncrement .sp step) := by
  have hplain : (Lift.movedToPc? inst.body).isSome = true ∧
      inst.extension = none ∧ inst.width ≠ .byte := by
    rcases h with h | h
    · exact hdecoded.plain_of_leaves h rfl
    · exact hdecoded.plain_of_leaves h rfl
  rcases Option.isSome_iff_exists.mp hplain.1 with ⟨source, hsource⟩
  have hname := hdecoded.emulated?_of_moved hsource hplain.2.1 hplain.2.2
  cases hpop : source.isPop with
  | false =>
      rw [hpop] at hname
      rcases h with h | h <;> rcases hname with hname | hname <;>
        cases h.symm.trans hname
  | true =>
      unfold Operand.isPop at hpop
      split at hpop
      · exact ⟨_, hsource⟩
      · cases hpop

theorem Decoded.leaves_eq_false (hdecoded : inst.Decoded)
    (h : Lift.isTransfer inst.body = false) {emulated : Emulated}
    (hemulated : inst.emulated? = some emulated) : emulated.leaves = false := by
  cases hleaves : emulated.leaves with
  | false => rfl
  | true =>
      rcases hdecoded.plain_of_leaves hemulated hleaves with ⟨hmoved, _⟩
      rcases Option.isSome_iff_exists.mp hmoved with ⟨source, hsource⟩
      cases h.symm.trans (Lift.isTransfer_of_movedToPc? hsource)

/-- The branches of instructions that are told by their names. -/
def namedBranches (inst : Instruction) : List Branch :=
  match inst.emulated? with
  | some .br | some .bra =>
      (inst.immediateTarget?.map Branch.unconditional).toList
  | some .ret | some .reta => [.functionReturn]
  | _ => []

theorem namedBranches_eq_nil
    (h : forall emulated, inst.emulated? = some emulated ->
      emulated.leaves = false) : inst.namedBranches = [] := by
  unfold namedBranches
  cases hemulated : inst.emulated? with
  | none => rfl
  | some emulated =>
      have hleaves := h emulated hemulated
      cases emulated <;> first | rfl | cases hleaves

/-- Only control bodies and moves to the program counter have branches. -/
theorem Decoded.branches_eq_nil (hdecoded : inst.Decoded)
    (h : Lift.isTransfer inst.body = false) : inst.branches = [] := by
  have hnamed : inst.namedBranches = [] :=
    namedBranches_eq_nil fun _ hemulated => hdecoded.leaves_eq_false h hemulated
  unfold branches
  cases hbody : inst.body with
  | reti | jump _ _ | calla _ =>
      rw [hbody] at h
      cases h
  | single opcode target =>
      rw [hbody] at h
      cases opcode <;> first | exact hnamed | cases h
  | _ => exact hnamed

theorem source?_of_immediateTarget? {address : Nat}
    (h : inst.immediateTarget? = some address) :
    inst.source? = some (.immediate address) := by
  unfold immediateTarget? at h
  split at h
  · next hsource =>
      cases h
      exact hsource
  · cases h

theorem Decoded.immediateTarget?_lt (hdecoded : inst.Decoded) {address : Nat}
    (h : inst.immediateTarget? = some address) : address < 0x100000 := by
  have hmem := mem_operands_of_source (source?_of_immediateTarget? h) nofun
  apply Nat.lt_of_lt_of_le (hdecoded.immediate_lt hmem)
  cases inst.width <;> decide

/-- A host learns the target: it stands in the words of the instruction, as the
displacement of a jump or as an immediate, and the instruction is neither a byte
one nor behind a prefix word. -/
def HoldsTarget (inst : Instruction) : Prop :=
  inst.condition?.isSome = true ∨
    inst.immediateTarget?.isSome = true ∧ inst.extension = none ∧
      inst.width ≠ .byte

/-- How code transfers control, with the branches that a host is told of. -/
inductive Transfers (inst : Instruction) : List Branch -> List Op -> Prop where
  | jump {address : Nat} {target : Expr} :
      target.constant? = some address ->
      inst.HoldsTarget ->
      Transfers inst [.unconditional address] [.jump target]
  | conditional {condition : Condition} {address : Nat} {target : Expr}
      {ifTrue ifFalse : Label} :
      inst.condition? = some condition ->
      target.constant? = some address ->
      ifTrue ≠ ifFalse ->
      Transfers inst [.ifTrue address, .ifFalse inst.nextAddress.toNat]
        [.branch condition.expr ifTrue ifFalse, .label ifTrue, .jump target,
          .label ifFalse]
  | call {address : Nat} {target : Expr} :
      target.constant? = some address ->
      inst.HoldsTarget ->
      Transfers inst [.call address] [.call target]
  /-- A jump or a call whose target no host is told of. -/
  | untold {code : List Op} :
      ¬ inst.HoldsTarget ->
      (forall target, Op.ret target ∉ code) ->
      Transfers inst [] code
  | functionReturn {before : List Op} {target : Expr} :
      JumpsOnly Expr.Computed before ->
      Transfers inst [.functionReturn] (before ++ [.ret target])
  | computed {code : List Op} :
      JumpsOnly Expr.Computed code ->
      Transfers inst [] code

end Instruction

/-!
# Code that jumps only to such targets
-/

namespace Lift

theorem jumpsOnly_flagsFromStatus (allowed : Expr -> Prop) :
    JumpsOnly allowed flagsFromStatus := by
  intro op hmem
  rcases List.mem_map.mp hmem with ⟨flag, _, rfl⟩
  trivial

theorem admits_jumpsOnly {allowed : Expr -> Prop}
    (h : forall target, target.Computed -> allowed target)
    (known : KnownLabels) :
    Admits known (JumpsOnly allowed) fun _ => True where
  closed := Expr.closed_true
  register := fun _ _ => trivial
  status := fun _ => trivial
  sets := by
    intro op hop
    apply JumpsOnly.single
    cases op <;> trivial
  setsStatus := by
    intro width value _
    refine Composes.cons (.single ?_) (jumpsOnly_flagsFromStatus allowed)
    cases width <;> trivial
  leaves := by
    intro value _ hvaries
    apply JumpsOnly.single
    unfold branchTo
    split
    · trivial
    · exact h value hvaries

/-- Repetitions add no transfer of their own. -/
theorem emits_emit {allowed : Expr -> Prop} {options : Options}
    {known : KnownLabels} {inst : Instruction}
    (h : EmitsCode (JumpsOnly allowed)
      ((Context.of options known inst).run inst)) :
    EmitsCode (JumpsOnly allowed) (emit options known inst) := by
  apply emits_repeated _ h
  intro op hop
  apply JumpsOnly.single
  cases op <;> trivial

/-- The code ends with a return, and before it jumps only to computed
targets. -/
def EndsInReturn (emit : Emit Unit) : Prop :=
  forall supply, exists before target,
    (emit supply).code = before ++ [.ret target] ∧
      JumpsOnly Expr.Computed before

theorem EndsInReturn.op (target : Expr) : EndsInReturn (Emit.op (.ret target)) :=
  fun _ => ⟨[], target, rfl, Composes.nil⟩

theorem EndsInReturn.after {value : Type} {fits : value -> Prop}
    {emit : Emit value} {next : value -> Emit Unit}
    (hfirst : Emits (JumpsOnly Expr.Computed) fits emit)
    (hnext : forall result, EndsInReturn (next result)) :
    EndsInReturn (emit >>= next) := by
  intro supply
  rcases hnext (emit supply).result (emit supply).supply with
    ⟨before, target, hcode, hbefore⟩
  refine ⟨(emit supply).code ++ before, target, ?_, ?_⟩
  · rw [IL.Emit.bind_apply, hcode, List.append_assoc]
  · exact Composes.append (hfirst.code supply) hbefore

namespace Context

variable (context : Context)

theorem ret_endsInReturn (width : Width) : EndsInReturn (context.ret width) := by
  have hadmits := admits_jumpsOnly (fun _ h => h) context.known
  exact .after (hadmits.pop width) fun target => .op target

theorem reti_endsInReturn : EndsInReturn context.reti := by
  have hadmits := admits_jumpsOnly (fun _ h => h) context.known
  refine .after (hadmits.pop .word) fun status => ?_
  refine .after (.op (hadmits.sets trivial)) fun _ => ?_
  refine .after (.ops (jumpsOnly_flagsFromStatus _)) fun _ => ?_
  exact context.ret_endsInReturn .word

theorem emits_move_pc (source : Operand) :
    EmitsCode (JumpsOnly Expr.anyTarget)
      (context.move source (.register .pc)) := by
  have hadmits := admits_jumpsOnly (fun target _ => trivial) context.known
  apply hadmits.movePc fun _ _ _ => trivial
  intro target _
  apply JumpsOnly.single
  unfold branchTo
  split <;> trivial

end Context

/-!
# Every instruction
-/

section

variable {options : Options} {known : KnownLabels} {inst : Instruction}

theorem emit_unextended (h : inst.extension = none) :
    emit options known inst = (Context.of options known inst).run inst := by
  unfold emit
  rw [h]

/-- The code of an instruction that is not about where control goes jumps only
to targets that it has computed, and no host is told of one. -/
theorem transfers_computed (hdecoded : inst.Decoded)
    (h : isTransfer inst.body = false) (supply : Supply) :
    inst.Transfers inst.branches (emit options known inst supply).code := by
  have hadmits := admits_jumpsOnly (fun _ h => h) known
  have hbody : EmitsCode (JumpsOnly Expr.Computed)
      ((Context.of options known inst).body inst.body) :=
    hadmits.body h (fun _ _ _ _ _ => trivial) fun _ _ _ _ _ _ => trivial
  have hrun : EmitsCode (JumpsOnly Expr.Computed)
      ((Context.of options known inst).run inst) := by
    apply hadmits.run hbody
    intro width hret
    rcases hret with hret | hret <;> cases hdecoded.leaves_eq_false h hret
  rw [hdecoded.branches_eq_nil h]
  exact .computed ((emits_emit hrun).code supply)

section Moves

variable {source : Operand} (hmoved : movedToPc? inst.body = some source)

include hmoved

theorem unsupported?_of_moved : unsupported? inst.body = none := by
  rcases body_of_movedToPc? hmoved with hbody | hbody <;> rw [hbody] <;> rfl

theorem source?_of_moved : inst.source? = some source := by
  unfold Instruction.source?
  rcases body_of_movedToPc? hmoved with hbody | hbody <;> rw [hbody] <;> rfl

theorem condition?_of_moved : inst.condition? = none := by
  unfold Instruction.condition?
  rcases body_of_movedToPc? hmoved with hbody | hbody <;> rw [hbody]

theorem branches_of_moved : inst.branches = inst.namedBranches := by
  unfold Instruction.branches
  rcases body_of_movedToPc? hmoved with hbody | hbody <;> rw [hbody] <;> rfl

theorem body_of_moved (context : Context) :
    context.body inst.body = context.move source (.register .pc) := by
  rcases body_of_movedToPc? hmoved with hbody | hbody <;> rw [hbody] <;> rfl

theorem holdsTarget_of_moved :
    inst.HoldsTarget ↔
      inst.immediateTarget?.isSome = true ∧ inst.extension = none ∧
        inst.width ≠ .byte := by
  unfold Instruction.HoldsTarget
  rw [condition?_of_moved hmoved]
  simp

/-- A plain move from the stack returns. -/
theorem transfers_return {emulated : Emulated}
    (hextension : inst.extension = none)
    (hemulated : inst.emulated? = some emulated)
    (hret : emulated = .ret ∨ emulated = .reta) (supply : Supply) :
    inst.Transfers inst.branches (emit options known inst supply).code := by
  have hends : EndsInReturn (emit options known inst) := by
    rw [emit_unextended hextension]
    unfold Context.run
    rw [unsupported?_of_moved hmoved, hemulated]
    rcases hret with rfl | rfl
    · exact Context.ret_endsInReturn _ .word
    · exact Context.ret_endsInReturn _ .address
  have hbranches : inst.branches = [.functionReturn] := by
    rw [branches_of_moved hmoved]
    unfold Instruction.namedBranches
    rw [hemulated]
    rcases hret with rfl | rfl <;> rfl
  rcases hends supply with ⟨before, target, hcode, hbefore⟩
  rw [hbranches, hcode]
  exact .functionReturn hbefore

/-- No host is told of the target of a move that does not hold it. -/
theorem transfers_untold (hholds : ¬ inst.HoldsTarget)
    (hbranches : inst.branches = []) (hret : inst.emulated? ≠ some .ret)
    (hreta : inst.emulated? ≠ some .reta) (supply : Supply) :
    inst.Transfers inst.branches (emit options known inst supply).code := by
  have hadmits := admits_jumpsOnly (fun target _ => trivial) known
  have hbody : EmitsCode (JumpsOnly Expr.anyTarget)
      ((Context.of options known inst).body inst.body) := by
    rw [body_of_moved hmoved]
    exact Context.emits_move_pc _ source
  have hrun : EmitsCode (JumpsOnly Expr.anyTarget)
      ((Context.of options known inst).run inst) := by
    apply hadmits.run hbody
    intro width hreturns
    exact (hreturns.elim hret hreta).elim
  rw [hbranches]
  exact .untold hholds fun target hmem => (emits_emit hrun).code supply _ hmem

/-- A plain move of an immediate is a jump to it. -/
theorem emit_immediate_pc (hextension : inst.extension = none)
    (hemulated : forall emulated, inst.emulated? = some emulated ->
      hasOwnCode emulated = false)
    {address : Nat} (haddress : source = .immediate address) (supply : Supply) :
    (emit options known inst supply).code =
      [branchTo known (codePointer address)] := by
  rw [emit_unextended hextension,
    Context.run_eq_body _ (unsupported?_of_moved hmoved) hemulated,
    body_of_moved hmoved, haddress]
  rfl

/-- A plain move that is no return is a branch, and a host is told of its target
if that is an immediate. -/
theorem transfers_branch (hdecoded : inst.Decoded) (hknown : known = [])
    (hplain : inst.extension = none ∧ inst.width ≠ .byte) {emulated : Emulated}
    (hemulated : inst.emulated? = some emulated)
    (hbr : emulated = .br ∨ emulated = .bra) (supply : Supply) :
    inst.Transfers inst.branches (emit options known inst supply).code := by
  have hbranches : inst.branches =
      (inst.immediateTarget?.map Branch.unconditional).toList := by
    rw [branches_of_moved hmoved]
    unfold Instruction.namedBranches
    rw [hemulated]
    rcases hbr with rfl | rfl <;> rfl
  have hown : forall other, inst.emulated? = some other ->
      hasOwnCode other = false := by
    intro other hother
    cases hemulated.symm.trans hother
    rcases hbr with rfl | rfl <;> rfl
  have hholds := holdsTarget_of_moved hmoved
  cases htarget : inst.immediateTarget? with
  | none =>
      rw [htarget] at hbranches hholds
      apply transfers_untold hmoved (fun h => nomatch hholds.mp h) hbranches
      · intro hret
        cases hown _ hret
      · intro hreta
        cases hown _ hreta
  | some address =>
      rw [htarget] at hbranches hholds
      have hlt := hdecoded.immediateTarget?_lt htarget
      have hsource := Instruction.source?_of_immediateTarget? htarget
      have himmediate : source = .immediate address :=
        Option.some.inj ((source?_of_moved hmoved).symm.trans hsource)
      rw [hbranches, emit_immediate_pc hmoved hplain.1 hown himmediate,
        branchTo_codePointer known hlt, hknown]
      exact .jump (constant?_codePointer hlt) (hholds.mpr ⟨rfl, hplain⟩)

theorem transfers_moved (hdecoded : inst.Decoded) (hknown : known = [])
    (supply : Supply) :
    inst.Transfers inst.branches (emit options known inst supply).code := by
  by_cases hplain : inst.extension = none ∧ inst.width ≠ .byte
  · have hnamed := hdecoded.emulated?_of_moved hmoved hplain.1 hplain.2
    split at hnamed
    · rcases hnamed with hret | hreta
      · exact transfers_return hmoved hplain.1 hret (.inl rfl) supply
      · exact transfers_return hmoved hplain.1 hreta (.inr rfl) supply
    · rcases hnamed with hbr | hbra
      · exact transfers_branch hmoved hdecoded hknown hplain hbr (.inl rfl) supply
      · exact transfers_branch hmoved hdecoded hknown hplain hbra (.inr rfl) supply
  · -- A byte move, or one behind a prefix word, goes by no name that a host knows.
    have hleaves : forall emulated, inst.emulated? = some emulated ->
        emulated.leaves = false := by
      intro emulated hemulated
      cases hleaves : emulated.leaves with
      | false => rfl
      | true =>
          exact absurd (hdecoded.plain_of_leaves hemulated hleaves).2 hplain
    have hholds : ¬ inst.HoldsTarget := by
      rw [holdsTarget_of_moved hmoved]
      exact fun h => hplain h.2
    have hbranches := branches_of_moved hmoved
    rw [Instruction.namedBranches_eq_nil hleaves] at hbranches
    apply transfers_untold hmoved hholds hbranches
    · intro hret
      cases hleaves _ hret
    · intro hreta
      cases hleaves _ hreta

end Moves

/-- A call without a prefix word, in either format. -/
theorem transfers_call (hdecoded : inst.Decoded) {target : Operand}
    (hbody : inst.body = .single .call target ∨ inst.body = .calla target)
    (supply : Supply) :
    inst.Transfers inst.branches (emit options known inst supply).code := by
  have hfits := hdecoded.widthFits
  have hplain : inst.extension = none ∧ inst.width ≠ .byte := by
    rcases hbody with hbody | hbody <;> rw [hbody] at hfits <;>
      exact ⟨hfits.1, by rw [hfits.2]; exact nofun⟩
  have hsource : inst.source? = some target := by
    unfold Instruction.source?
    rcases hbody with hbody | hbody <;> rw [hbody] <;> rfl
  have hbranches : inst.branches =
      (inst.immediateTarget?.map Branch.call).toList := by
    unfold Instruction.branches
    rcases hbody with hbody | hbody <;> rw [hbody]
  have hcondition : inst.condition? = none := by
    unfold Instruction.condition?
    rcases hbody with hbody | hbody <;> rw [hbody]
  have hcode : emit options known inst =
      (Context.of options known inst).call target := by
    rw [emit_unextended hplain.1, Context.run_eq_body]
    · rcases hbody with hbody | hbody <;> rw [hbody] <;> rfl
    · rcases hbody with hbody | hbody <;> rw [hbody] <;> rfl
    · unfold Instruction.emulated?
      rcases hbody with hbody | hbody <;> rw [hbody] <;> exact nofun
  have hret : forall other, Op.ret other ∉
      ((Context.of options known inst).call target supply).code := by
    intro other
    cases target <;> simp [Context.call, advance]
  rw [hcode]
  cases htarget : inst.immediateTarget? with
  | none =>
      have hholds : ¬ inst.HoldsTarget := by
        unfold Instruction.HoldsTarget
        rw [hcondition, htarget]
        rintro (hnone | ⟨hnone, _⟩) <;> cases hnone
      rw [hbranches, htarget]
      exact .untold hholds hret
  | some address =>
      have hholds : inst.HoldsTarget := by
        refine .inr ⟨?_, hplain⟩
        rw [htarget]
        rfl
      have hlt := hdecoded.immediateTarget?_lt htarget
      have himmediate := hsource.symm.trans
        (Instruction.source?_of_immediateTarget? htarget)
      cases himmediate
      rw [hbranches, htarget]
      exact .call (constant?_codePointer hlt) hholds

theorem transfers_jump {condition : Condition} {offset : Int}
    (hextension : inst.extension = none) (hknown : known = [])
    (hbody : inst.body = .jump condition offset) (supply : Supply) :
    inst.Transfers inst.branches (emit options known inst supply).code := by
  have hcondition : inst.condition? = some condition := by
    unfold Instruction.condition?
    rw [hbody]
  have htarget := constant?_codePointer (jumpTarget_lt inst.address offset)
  unfold Instruction.branches
  rw [hbody, emit_jump options known hbody hextension, hknown]
  dsimp only
  cases hconditional : condition.isUnconditional with
  | true =>
      have hholds : inst.HoldsTarget := by
        refine .inl ?_
        rw [hcondition]
        rfl
      unfold Context.jump
      simp only [hconditional, if_true, IL.Emit.op_apply]
      rw [branchTo_codePointer _ (jumpTarget_lt _ offset)]
      exact .jump htarget hholds
  | false =>
      rcases (Context.of options [] inst).jump_emits offset supply hconditional
        with ⟨ifTrue, ifFalse, last, hlabels, hcode, _⟩
      rw [hcode]
      exact .conditional hcondition htarget (hlabels.distinct rfl rfl)

theorem transfers_reti (hextension : inst.extension = none)
    (hbody : inst.body = .reti) (supply : Supply) :
    inst.Transfers inst.branches (emit options known inst supply).code := by
  have hends : EndsInReturn (emit options known inst) := by
    rw [emit_unextended hextension, Context.run_eq_body]
    · rw [hbody]
      exact Context.reti_endsInReturn _
    · rw [hbody]
      rfl
    · unfold Instruction.emulated?
      rw [hbody]
      exact nofun
  have hbranches : inst.branches = [.functionReturn] := by
    unfold Instruction.branches
    rw [hbody]
  rcases hends supply with ⟨before, target, hcode, hbefore⟩
  rw [hbranches, hcode]
  exact .functionReturn hbefore

/-- In a buffer without labels every decoded instruction transfers control in one
of the few ways, and a host is told of its branches accordingly. -/
theorem transfers (hdecoded : inst.Decoded) (hknown : known = [])
    (supply : Supply) :
    inst.Transfers inst.branches (emit options known inst supply).code := by
  have hfits := hdecoded.widthFits
  cases htransfer : isTransfer inst.body with
  | false => exact transfers_computed hdecoded htransfer supply
  | true =>
      rcases transfer_cases htransfer with hreti | hjump | hcall | hmoved
      · rw [hreti] at hfits
        exact transfers_reti hfits hreti supply
      · rcases hjump with ⟨condition, offset, hjump⟩
        rw [hjump] at hfits
        exact transfers_jump hfits hknown hjump supply
      · rcases hcall with ⟨target, hcall⟩
        exact transfers_call hdecoded hcall supply
      · rcases hmoved with ⟨source, hmoved⟩
        exact transfers_moved hmoved hdecoded hknown supply

end

end Lift
end MSP430
