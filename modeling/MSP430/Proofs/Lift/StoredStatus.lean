import MSP430.Proofs.Lift.Emitted
import MSP430.Proofs.Lift.Sequence
import MSP430.Proofs.Lift.Status

/-!
# What the status register stores

The status register also stores something in the bits of the four flags, which
the flags make meaningless.  Code that reads the register with the flags in their
bits cannot tell two states apart that differ only there.  This module follows
that property from values through code to whole instructions, and names the few
instructions that read the register as it is stored.
-/

namespace MSP430

open IL (Composes Emit Exit Expr KnownLabels Op Outcome RunsTo State outcome
  repeatDown)
open IL.Emit (Emits EmitsCode)

/-!
# States that differ in stored flags
-/

namespace IL.State

/-- The states differ at most in what the status register stores in the bits of
the flags, and in temporaries. -/
structure SameButStored (first second : State) : Prop where
  regs : forall r, r ≠ .sr -> first.regs r = second.regs r
  rest : forall bit, Flag.ofBit? bit = none ->
    (first.regs .sr).testBit bit = (second.regs .sr).testBit bit
  flags : first.flags = second.flags
  memory : first.memory = second.memory

/-- The states differ at most in what the status register stores in the bits of
the flags. -/
structure Twin (first second : State) : Prop
    extends SameButStored first second where
  temps : first.temps = second.temps

theorem SameButStored.status_eq {first second : State}
    (h : SameButStored first second) : first.status = second.status := by
  apply Nat.eq_of_testBit_eq
  intro bit
  rw [testBit_status, testBit_status, h.flags]
  cases hbit : Flag.ofBit? bit with
  | some flag => rfl
  | none => exact h.rest bit hbit

theorem SameButStored.of_sameVisible {first second other : State}
    (h : SameButStored first second) (hother : second.SameVisible other) :
    SameButStored first other where
  regs := fun r hr => (h.regs r hr).trans (congrFun hother.regs r)
  rest := by
    intro bit hbit
    rw [← hother.regs]
    exact h.rest bit hbit
  flags := h.flags.trans hother.flags
  memory := h.memory.trans hother.memory

namespace Twin

theorem refl (state : State) : Twin state state :=
  ⟨⟨fun _ _ => rfl, fun _ _ => rfl, rfl, rfl⟩, rfl⟩

variable {first second : State} (h : Twin first second)

include h

theorem setReg (register : Register) (value : Nat) :
    Twin (first.setReg register value) (second.setReg register value) where
  regs := by
    intro r hr
    simp only [State.setReg, h.regs r hr]
  rest := by
    intro bit hbit
    simp only [State.setReg]
    split
    · rfl
    · exact h.rest bit hbit
  flags := h.flags
  memory := h.memory
  temps := h.temps

/-- Nothing is left of the difference once the status register is written. -/
theorem setReg_sr (value : Nat) :
    first.setReg .sr value = second.setReg .sr value := by
  have hregs : (fun r => if r = .sr then value else first.regs r) =
      fun r => if r = .sr then value else second.regs r := by
    funext r
    by_cases hr : r = .sr
    · simp only [if_pos hr]
    · simp only [if_neg hr, h.regs r hr]
  simp only [State.setReg, hregs, h.flags, h.memory, h.temps]

theorem setFlag (flag : Flag) (value : Bool) :
    Twin (first.setFlag flag value) (second.setFlag flag value) where
  regs := h.regs
  rest := h.rest
  flags := by simp only [State.setFlag, h.flags]
  memory := h.memory
  temps := h.temps

theorem setTemp (index value : Nat) :
    Twin (first.setTemp index value) (second.setTemp index value) where
  regs := h.regs
  rest := h.rest
  flags := h.flags
  memory := h.memory
  temps := by simp only [State.setTemp, h.temps]

theorem store (width : Width) (address value : Nat) :
    Twin (first.store width address value) (second.store width address value) where
  regs := h.regs
  rest := h.rest
  flags := h.flags
  memory := by simp only [State.store, h.memory]
  temps := h.temps

end Twin
end IL.State

/-!
# Values and code that cannot tell
-/

namespace IL

/-- The expression has one value in states that differ only in stored flags. -/
def Expr.Blind (expr : Expr) : Prop :=
  forall first second : State, first.Twin second ->
    expr.eval first = expr.eval second

theorem Expr.Blind.holds_eq {expr : Expr} (h : expr.Blind) {first second : State}
    (htwin : first.Twin second) : expr.holds first = expr.holds second := by
  unfold Expr.holds
  rw [h first second htwin]

theorem Expr.closed_blind : Closed Blind where
  temp := by
    intro width index first second htwin
    simp only [eval, htwin.temps]
  const := fun _ _ _ _ _ => rfl
  pointer := fun _ _ _ _ _ => rfl
  bool := fun _ _ _ _ => rfl
  flag := by
    intro flag first second htwin
    simp only [eval, htwin.flags]
  load := by
    intro width address haddress first second htwin
    simp only [eval, State.load, htwin.memory, haddress first second htwin]
  binary := by
    intro op width left right hleft hright first second htwin
    simp only [eval, hleft first second htwin, hright first second htwin]
  addCarry := by
    intro width left right carry hleft hright hcarry first second htwin
    simp only [eval, hleft first second htwin, hright first second htwin,
      hcarry first second htwin]
  rotateCarry := by
    intro width value carry hvalue hcarry first second htwin
    simp only [eval, hvalue first second htwin, hcarry first second htwin]
  unary := by
    intro op width value hvalue first second htwin
    simp only [eval, hvalue first second htwin]
  compare := by
    intro op width left right hleft hright first second htwin
    simp only [eval, hleft first second htwin, hright first second htwin]
  logic := by
    intro op left right hleft hright first second htwin
    simp only [eval, hleft first second htwin, hright first second htwin]
  not := by
    intro value hvalue first second htwin
    simp only [eval, hvalue first second htwin]
  ofBool := by
    intro width value hvalue first second htwin
    simp only [eval, hvalue first second htwin]

theorem Expr.blind_reg {width : Width} {r : Register} (hr : r ≠ .sr) :
    (Expr.reg width r).Blind := by
  intro first second htwin
  simp only [eval, htwin.regs r hr]

theorem Expr.blind_statusRegister (width : Width) :
    (Lift.statusRegister width).Blind := by
  intro first second htwin
  rw [Lift.eval_statusRegister, Lift.eval_statusRegister, htwin.status_eq]

/-- Two outcomes that leave code the same way, in states that differ only in
stored flags. -/
structure Outcome.Twin (first second : Outcome) : Prop where
  exit : first.1 = second.1
  state : first.2.Twin second.2

theorem Outcome.Twin.andThen {first second : Outcome}
    {next other : State -> Outcome} (h : Outcome.Twin first second)
    (hnext : forall after after' : State, after.Twin after' ->
      Outcome.Twin (next after) (other after')) :
    Outcome.Twin (first.andThen next) (second.andThen other) := by
  rcases first with ⟨exit, state⟩
  rcases second with ⟨exit', state'⟩
  have hexit : exit = exit' := h.exit
  subst hexit
  cases exit with
  | fallThrough => exact hnext state state' h.state
  | _ => exact h

/-- States that differ only in stored flags lead to such states, and to the same
exit. -/
def KeepsTwins (means : State -> Outcome) : Prop :=
  forall first second : State, first.Twin second ->
    Outcome.Twin (means first) (means second)

def Blind (code : List Op) : Prop :=
  KeepsTwins (outcome code)

instance : Composes Blind where
  nil := fun _ _ htwin => ⟨rfl, htwin⟩
  append := by
    intro first second hfirst hsecond state state' htwin
    rw [outcome_append, outcome_append]
    exact (hfirst state state' htwin).andThen hsecond

namespace Blind

variable {target : Expr} (h : target.Blind)

include h

theorem jump : Blind [.jump target] :=
  fun first second htwin => ⟨congrArg Exit.jump (h first second htwin), htwin⟩

theorem call : Blind [.call target] :=
  fun first second htwin => ⟨congrArg Exit.call (h first second htwin), htwin⟩

theorem ret : Blind [.ret target] :=
  fun first second htwin => ⟨congrArg Exit.ret (h first second htwin), htwin⟩

theorem branchTo (known : KnownLabels) : Blind [Lift.branchTo known target] := by
  unfold Lift.branchTo
  split
  · exact fun _ _ htwin => ⟨rfl, htwin⟩
  · exact jump h

end Blind

theorem Op.SetsOnly.blind {op : Op} (h : op.SetsOnly Expr.Blind) : Blind [op] := by
  intro first second htwin
  cases op with
  | setReg width register value =>
      rw [outcome_setReg, outcome_setReg, h first second htwin]
      exact ⟨rfl, htwin.setReg _ _⟩
  | setTemp width index value =>
      rw [outcome_setTemp, outcome_setTemp, h first second htwin]
      exact ⟨rfl, htwin.setTemp _ _⟩
  | setFlag flag value =>
      rw [outcome_setFlag, outcome_setFlag, Expr.Blind.holds_eq h htwin]
      exact ⟨rfl, htwin.setFlag _ _⟩
  | store width address value =>
      rw [outcome_store, outcome_store, h.1 first second htwin,
        h.2 first second htwin]
      exact ⟨rfl, htwin.store _ _ _⟩
  | nop | unimplemented => exact ⟨rfl, htwin⟩
  | jump _ | goto _ | branch _ _ _ | call _ | ret _ | label _ => exact h.elim

end IL

open IL (Blind KeepsTwins)

namespace Lift

/-- Whatever follows a write to the status register starts in one state. -/
theorem blind_setReg_sr {width : Width} {value : Expr} (h : value.Blind)
    (rest : List Op) : Blind (.setReg width .sr value :: rest) := by
  intro first second htwin
  rw [IL.outcome_setReg, IL.outcome_setReg, h first second htwin,
    htwin.setReg_sr]
  exact ⟨rfl, .refl _⟩

theorem admits_blind (known : KnownLabels) : Admits known Blind Expr.Blind where
  closed := Expr.closed_blind
  register := fun hr _ => Expr.blind_reg hr
  status := Expr.blind_statusRegister
  sets := IL.Op.SetsOnly.blind
  setsStatus := by
    intro width value hvalue
    cases width with
    | byte => exact blind_setReg_sr (Expr.closed_blind.unary hvalue) _
    | word | address => exact blind_setReg_sr hvalue _
  leaves := fun hvalue _ => Blind.branchTo hvalue known

/-!
# One run

The bodies that are about where control goes, which the general argument leaves
out.
-/

theorem reachable_blind {operand : Operand} (h : operand.base? ≠ some .sr) :
    Reachable Expr.Blind operand := by
  intro r hr width
  apply Expr.blind_reg
  rintro rfl
  exact h hr

namespace Context

variable (context : Context)

theorem blind_ret (width : Width) : EmitsCode Blind (context.ret width) := by
  have hadmits := admits_blind context.known
  exact (hadmits.pop width).bind fun target htarget => .op (.ret htarget)

theorem blind_reti : EmitsCode Blind context.reti := by
  have hadmits := admits_blind context.known
  have hreti : context.reti = (do
      let status <- context.pop .word
      Emit.ops (.setReg .word .sr status :: flagsFromStatus)
      context.ret .word) := rfl
  rw [hreti]
  apply (hadmits.pop .word).bind
  intro status hstatus
  exact Emits.seq (.ops (blind_setReg_sr hstatus _)) (context.blind_ret .word)

theorem blind_call {target : Operand} (h : target.base? ≠ some .sr) :
    EmitsCode Blind (context.call target) := by
  have hadmits := admits_blind context.known
  unfold call
  split
  · next r step =>
      have hbase : forall width, (Expr.reg width r).Blind :=
        reachable_blind h r rfl
      refine Emits.bind (.save (fun _ => hadmits.sets (hbase _))
        (hadmits.closed.temp _)) ?_
      intro location hlocation
      apply Emits.seq (.op (hadmits.advance hbase step))
      exact .op (.call (hadmits.closed.load hlocation))
  · exact .op (.call (Expr.closed_blind.pointer _ _))
  · exact .op (.call (hadmits.read (reachable_blind h)))

theorem blind_jump {condition : Condition} (offset : Int)
    (h : condition.isUnconditional = true) :
    EmitsCode Blind (context.jump condition offset) := by
  unfold jump
  simp only [h, if_true]
  exact .op (.branchTo (Expr.closed_blind.pointer _ _) context.known)

theorem blind_body {body : Body Operand} (hjump : isConditionalJump body = false)
    (hbases : forall operand, operand ∈ body.operands ->
      operand.base? ≠ some .sr)
    (hpushed : forall count highest, body = .multiple .pushm count highest ->
      .sr ∉ registerRange count highest) :
    EmitsCode Blind (context.body body) := by
  have hadmits := admits_blind context.known
  cases htransfer : isTransfer body with
  | false =>
      apply hadmits.body htransfer
      · intro operand hoperand
        exact reachable_blind (hbases operand hoperand)
      · intro count highest hbody r hr width
        apply Expr.blind_reg
        rintro rfl
        exact hpushed count highest hbody hr
  | true =>
      rcases transfer_cases htransfer with
        rfl | ⟨condition, offset, rfl⟩ | ⟨target, rfl | rfl⟩ | ⟨source, hmoved⟩
      · exact context.blind_reti
      · exact context.blind_jump offset (by simpa [isConditionalJump] using hjump)
      · exact context.blind_call (hbases target List.mem_cons_self)
      · exact context.blind_call (hbases target List.mem_cons_self)
      · have hmove : forall source : Operand, source.base? ≠ some .sr ->
            EmitsCode Blind (context.move source (.register .pc)) := by
          intro source hbase
          apply hadmits.movePc (reachable_blind hbase)
          exact fun _ hfits => .branchTo hfits context.known
        rcases body_of_movedToPc? hmoved with rfl | rfl
        · exact hmove source (hbases source List.mem_cons_self)
        · exact hmove source (hbases source List.mem_cons_self)

end Context

/-!
# Whole instructions
-/

end Lift

/-- The instruction reads the status register as it is stored: as the base of a
memory operand, as the count of a repetition, or as a register that it pushes in
a range. -/
inductive Instruction.ReadsStoredStatus (inst : Instruction) : Prop where
  | base {operand : Operand} :
      operand ∈ inst.body.operands ->
      operand.base? = some .sr ->
      ReadsStoredStatus inst
  | repetition {zeroCarry : Bool} :
      inst.extension =
        some { repetition := .register .sr, zeroCarry := zeroCarry } ->
      ReadsStoredStatus inst
  | pushed {count : Nat} {highest : Register} :
      inst.body = .multiple .pushm count highest ->
      .sr ∈ Lift.registerRange count highest ->
      ReadsStoredStatus inst

namespace Lift

section

variable {options : Options} {known : KnownLabels} {inst : Instruction}
  (hreads : ¬ inst.ReadsStoredStatus)

include hreads

theorem blind_run (hjump : isConditionalJump inst.body = false) :
    EmitsCode Blind ((Context.of options known inst).run inst) := by
  have hadmits := admits_blind known
  have hbody := (Context.of options known inst).blind_body hjump
    (fun operand hoperand hbase => hreads (.base hoperand hbase))
    (fun count highest hbody hsr => hreads (.pushed hbody hsr))
  exact hadmits.run hbody fun width _ => Context.blind_ret _ width

theorem blind_once (hjump : isConditionalJump inst.body = false)
    (zeroCarry : Bool) :
    EmitsCode Blind ((Context.of options known inst).once zeroCarry inst) := by
  unfold Context.once
  refine Emits.seq (.ops ?_) (blind_run hreads hjump)
  cases zeroCarry with
  | true => exact IL.Op.SetsOnly.blind (Expr.closed_blind.bool false)
  | false => exact Composes.nil

theorem blind_emit (hjump : isConditionalJump inst.body = false)
    (hcount : forall counter zeroCarry, inst.extension ≠
      some { repetition := .register counter, zeroCarry := zeroCarry }) :
    EmitsCode Blind (emit options known inst) := by
  unfold emit
  cases hextension : inst.extension with
  | none => exact blind_run hreads hjump
  | some extension =>
      rcases extension with ⟨repetition, zeroCarry⟩
      cases repetition with
      | times count => exact .replicate (blind_once hreads hjump zeroCarry) count
      | register counter => exact absurd hextension (hcount counter zeroCarry)

omit hreads in
theorem keepsTwins_repeatDown {body : List Op} (hbody : Blind body)
    (counter count : Nat) :
    KeepsTwins (repeatDown (outcome body) counter count) := by
  induction count with
  | zero => exact fun _ _ htwin => ⟨rfl, htwin⟩
  | succ count ih =>
      intro first second htwin
      apply (hbody first second htwin).andThen
      intro after after' hafter
      exact ih _ _ (hafter.setTemp counter count)

omit hreads in
theorem keepsTwins_jumpMeaning (context : Context) (condition : Condition)
    (offset : Int) : KeepsTwins (context.jumpMeaning condition offset) := by
  intro first second htwin
  unfold Context.jumpMeaning
  rw [htwin.flags]
  split <;> exact ⟨rfl, htwin⟩

theorem keepsTwins_loopMeaning (hjump : isConditionalJump inst.body = false)
    {counter : Register} (hcounter : counter ≠ .sr) (zeroCarry : Bool) :
    KeepsTwins
      ((Context.of options known inst).loopMeaning counter zeroCarry inst) := by
  intro first second htwin
  have honce := (@blind_once options known inst hreads hjump zeroCarry).code
    { temp := 1, label := 0 }
  have hruns : Context.runs counter first = Context.runs counter second := by
    unfold Context.runs
    rw [htwin.regs counter hcounter]
  unfold Context.loopMeaning
  rw [hruns]
  exact keepsTwins_repeatDown honce 0 _ _ _ (htwin.setTemp 0 _)

/-- What an instruction does cannot tell states apart that differ only in stored
flags. -/
theorem keepsTwins_meaning (hstraight : RepeatsStraight inst) :
    KeepsTwins (meaning options known inst) := by
  unfold meaning
  dsimp only
  split
  · exact keepsTwins_jumpMeaning _ _ _
  · next counter zeroCarry hextension =>
      have hcounter : counter ≠ .sr := by
        rintro rfl
        exact hreads (.repetition hextension)
      have hjump : isConditionalJump inst.body = false := by
        apply hstraight
        rw [hextension]
        rfl
      exact keepsTwins_loopMeaning hreads hjump hcounter zeroCarry
  · next hloop hother =>
      have hjump : isConditionalJump inst.body = false := by
        cases hextension : inst.extension with
        | some extension =>
            apply hstraight
            rw [hextension]
            rfl
        | none =>
            apply isConditionalJump_of_ne
            intro condition offset hbody
            exact hother condition offset hbody hextension
      apply (blind_emit hreads hjump ?_).code
      intro counter zeroCarry hextension
      exact hloop counter zeroCarry hextension

end

/-- Two states that agree but for what the status register stores in the bits of
the flags.  The code of a decoded instruction that does not read the register as
it is stored ends in the same way from both, with the same memory and flags, and
with registers that again agree but for those bits. -/
theorem stored_status_hidden (options : Options) (start : UInt64)
    (known : KnownLabels) {inst : Instruction} (hdecoded : inst.Decoded)
    (hreads : ¬ inst.ReadsStoredStatus) {first second : State}
    (hsame : first.SameButStored second) :
    exists exit last last',
      RunsTo (into (.withLabels start known) options inst).ops first exit last ∧
        RunsTo (into (.withLabels start known) options inst).ops second exit
          last' ∧
        last.SameButStored last' := by
  have hstraight := repeatsStraight_of_decoded hdecoded
  -- The states may differ in temporaries as well.  The first run is compared with
  -- one that has its temporaries, and that one with the second run.
  let other : State := { second with temps := first.temps }
  have htwin : first.Twin other :=
    ⟨⟨hsame.regs, hsame.rest, hsame.flags, hsame.memory⟩, rfl⟩
  have hkeeps := @keepsTwins_meaning options known inst hreads hstraight first
    other htwin
  have hagree := meaning_agree options known hstraight
    (show other.SameVisible second from ⟨rfl, rfl, rfl⟩)
  have hexit := hkeeps.exit.trans hagree.exit
  have hlast := runsTo_into options start known hdecoded second
  rw [← hexit] at hlast
  exact ⟨_, _, _, runsTo_into options start known hdecoded first, hlast,
    hkeeps.state.toSameButStored.of_sameVisible hagree.state.toSameVisible⟩

/-- Pushes the status register alone. -/
def pushStatus : Instruction where
  address := 0x4400
  width := .word
  extension := none
  body := .single .push (.register .sr)
  length := 2

/-- A state whose flags are clear, with something stored in the status
register. -/
def storedStatus (stored : Nat) : State :=
  ⟨fun r => if r = .sr then stored else 0, fun _ => false, fun _ => 0, fun _ => 0⟩

theorem storedStatus_same : (storedStatus 0).SameButStored (storedStatus 1) := by
  refine ⟨?_, ?_, rfl, rfl⟩
  · intro r hr
    simp only [storedStatus, if_neg hr]
  · intro bit hbit
    have hne := Flag.ne_bit_of_ofBit?_eq_none hbit .c
    show Nat.testBit 0 bit = Nat.testBit (2 ^ Flag.c.bit) bit
    rw [Nat.zero_testBit, Nat.testBit_two_pow, decide_eq_false hne.symm]

theorem stored_status_hidden_push :
    exists exit last last',
      RunsTo (into (.withLabels 0x4400 []) .standard pushStatus).ops
          (storedStatus 0) exit last ∧
        RunsTo (into (.withLabels 0x4400 []) .standard pushStatus).ops
          (storedStatus 1) exit last' ∧
        last.SameButStored last' := by
  refine stored_status_hidden .standard 0x4400 []
    ⟨.msp430, [0x02, 0x12], 0x4400, rfl⟩ ?_ storedStatus_same
  intro hreads
  cases hreads with
  | base hoperand hbase =>
      cases List.mem_singleton.mp hoperand
      cases hbase
  | repetition hextension => cases hextension
  | pushed hbody _ => cases hbody

/-- Pushes the status register as a range of one. -/
def pushStatusRange : Instruction :=
  { pushStatus with body := .multiple .pushm 1 .sr }

/-- A range that holds the status register pushes it as it is stored. -/
theorem stored_status_pushed :
    decode .msp430x [0x02, 0x15] 0x4400 = .ok pushStatusRange ∧
      exists first second last last',
        first.SameButStored second ∧
          RunsTo (into (.withLabels 0x4400 []) .standard pushStatusRange).ops
            first .fallThrough last ∧
          RunsTo (into (.withLabels 0x4400 []) .standard pushStatusRange).ops
            second .fallThrough last' ∧
          last.memory ≠ last'.memory := by
  refine ⟨rfl, storedStatus 0, storedStatus 1, _, _, storedStatus_same,
    .next rfl (.next rfl (.done _)), .next rfl (.next rfl (.done _)), ?_⟩
  intro hmemory
  have hbyte := congrFun hmemory 0xfffe
  exact absurd hbyte (by decide)

end Lift
end MSP430
