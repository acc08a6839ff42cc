import MSP430.Proofs.IL.Reach
import MSP430.Proofs.Lift.Meaning

/-!
# Instructions that run once

An instruction that is not repeated does what one run of it does, and that is the
code of its body unless a name of its own stands for it.
-/

namespace MSP430

open IL (Emit Expr RunsTo State Supply outcome)
open IL.Emit (Reaches)

/-- Nothing repeats the instruction, and it starts with the carry it finds. -/
def Instruction.RunsOnce (inst : Instruction) : Prop :=
  inst.extension = none ∨ inst.extension = some .once

/-- The instruction runs one time, with a prefix word or without. -/
def Instruction.RunsSingly (inst : Instruction) : Prop :=
  forall extension, inst.extension = some extension ->
    extension.repetition = .times 1

/-- Whether the prefix word has the carry cleared first. -/
def Instruction.clearsCarry (inst : Instruction) : Bool :=
  inst.extension.any (·.zeroCarry)

theorem Instruction.RunsOnce.not_counted {inst : Instruction}
    (h : inst.RunsOnce) (counter : Register) (zeroCarry : Bool) :
    inst.extension ≠
      some { repetition := .register counter, zeroCarry := zeroCarry } := by
  intro hextension
  rcases h with hnone | hsome
  · rw [hnone] at hextension
    cases hextension
  · rw [hsome] at hextension
    cases hextension

theorem Instruction.RunsSingly.not_counted {inst : Instruction}
    (h : inst.RunsSingly) (counter : Register) (zeroCarry : Bool) :
    inst.extension ≠
      some { repetition := .register counter, zeroCarry := zeroCarry } := by
  intro hextension
  cases h _ hextension

namespace Lift

/-!
# Instructions without code of their own
-/

/-- The emulated instructions that have code of their own. -/
def hasOwnCode : Emulated -> Bool
  | .ret | .reta | .nop => true
  | emulated => (flagShortcut? emulated).isSome

/-- The bodies to which names with code of their own go: moves from the stack to the
program counter, moves of a value to the constant generator, and masks of flags. -/
inductive OwnCode : Body Operand -> Emulated -> Prop where
  | ret {source : Operand} : source.isPop = true ->
      OwnCode (.double .mov source (.register .pc)) .ret
  | reta {source : Operand} : source.isPop = true ->
      OwnCode (.address .mova source (.register .pc)) .reta
  | nop {source : Operand} : source.isValue = true ->
      OwnCode (.double .mov source (.register .cg)) .nop
  | clear {source : Operand} {emulated : Emulated} : source.isValue = true ->
      OwnCode (.double .bic source (.register .sr)) emulated
  | set {source : Operand} {emulated : Emulated} : source.isValue = true ->
      OwnCode (.double .bis source (.register .sr)) emulated

theorem isValue_of_value? {operand : Operand} {width : Width} {value : Nat}
    (h : operand.value? width = some value) : operand.isValue = true := by
  cases operand <;> first | rfl | cases h

section

variable {width : Width} {extended : Bool} {source destination : Operand}
  {emulated : Emulated}

theorem ownCode_of_ofMove?
    (h : Emulated.ofMove? width extended source destination = some emulated)
    (hown : hasOwnCode emulated = true) :
    OwnCode (.double .mov source destination) emulated := by
  unfold Emulated.ofMove? at h
  dsimp only at h
  split at h
  · next hret =>
      cases h
      simp only [Bool.and_eq_true] at hret
      cases of_decide_eq_true hret.1.2
      exact .ret hret.2
  · -- A branch, a pop and a clear run their bodies.
    split at h
    · cases h
      cases hown
    · split at h
      · cases h
        cases hown
      · split at h
        · next hvalue =>
            split at h
            · next hcg =>
                cases h
                cases of_decide_eq_true (Bool.and_eq_true_iff.mp hcg).2
                exact .nop (isValue_of_value? hvalue)
            · cases h
              cases hown
        · cases h

theorem masks_of_named {named : Nat -> Option Emulated}
    (h : (if !extended && destination.isRegister .sr then
        (source.value? width).bind named
      else none) = some emulated) :
    source.isValue = true ∧ destination = .register .sr := by
  split at h
  · next hsr =>
      rcases Option.bind_eq_some_iff.mp h with ⟨value, hvalue, _⟩
      exact ⟨isValue_of_value? hvalue, of_decide_eq_true (Bool.and_eq_true_iff.mp hsr).2⟩
  · cases h

theorem ownCode_of_ofDouble? {opcode : DoubleOpcode}
    (h : Emulated.ofDouble? opcode width extended source destination = some emulated)
    (hown : hasOwnCode emulated = true) :
    OwnCode (.double opcode source destination) emulated := by
  unfold Emulated.ofDouble? at h
  cases opcode with
  | mov => exact ownCode_of_ofMove? h hown
  | bic =>
      rcases masks_of_named h with ⟨hvalue, rfl⟩
      exact .clear hvalue
  | bis =>
      rcases masks_of_named h with ⟨hvalue, rfl⟩
      exact .set hvalue
  | _ =>
      dsimp only at h
      repeat' split at h
      all_goals cases h <;> cases hown

theorem ownCode_of_ofAddress? {opcode : AddressOpcode}
    (h : Emulated.ofAddress? opcode source destination = some emulated)
    (hown : hasOwnCode emulated = true) :
    OwnCode (.address opcode source destination) emulated := by
  unfold Emulated.ofAddress? at h
  cases opcode with
  | mova =>
      dsimp only at h
      split at h
      · next hpc =>
          split at h
          · next hpop =>
              cases h
              cases of_decide_eq_true hpc
              exact .reta hpop
          · cases h
            cases hown
      · cases h
  | _ => cases h

end

/-- A name stands for code of its own only where the body is one of these. -/
theorem ownCode_of_emulated? {inst : Instruction} {emulated : Emulated}
    (h : inst.emulated? = some emulated) (hown : hasOwnCode emulated = true) :
    OwnCode inst.body emulated := by
  unfold Instruction.emulated? at h
  cases hbody : inst.body with
  | double opcode source destination =>
      rw [hbody] at h
      exact ownCode_of_ofDouble? h hown
  | address opcode source destination =>
      rw [hbody] at h
      exact ownCode_of_ofAddress? h hown
  | _ =>
      rw [hbody] at h
      cases h

theorem hasOwnCode_eq_false {inst : Instruction} {emulated : Emulated}
    (h : inst.emulated? = some emulated) (hbody : ¬ OwnCode inst.body emulated) :
    hasOwnCode emulated = false :=
  Bool.eq_false_iff.mpr fun hown => hbody (ownCode_of_emulated? h hown)

theorem Context.run_of_unsupported (context : Context) {inst : Instruction}
    {reason : Unsupported} (h : unsupported? inst.body = some reason) :
    context.run inst = Emit.op .unimplemented := by
  unfold Context.run
  rw [h]
  rfl

theorem Context.run_eq_body (context : Context) {inst : Instruction}
    (hsupported : unsupported? inst.body = none)
    (hemulated : forall emulated, inst.emulated? = some emulated ->
      hasOwnCode emulated = false) :
    context.run inst = context.body inst.body := by
  unfold Context.run
  rw [hsupported]
  simp only [Option.isSome_none, Bool.false_eq_true, if_false]
  cases hinst : inst.emulated? with
  | none => rfl
  | some emulated =>
      have hplain := hemulated emulated hinst
      cases emulated <;> first | rfl | cases hplain

/-- An instruction runs its body or returns, unless another name stands for code of its
own. -/
theorem Context.run_cases (context : Context) {inst : Instruction}
    (hsupported : unsupported? inst.body = none)
    (hemulated : forall emulated, inst.emulated? = some emulated ->
      emulated = .ret ∨ emulated = .reta ∨ hasOwnCode emulated = false) :
    (inst.emulated? = some .ret ∧ context.run inst = context.ret .word) ∨
      (inst.emulated? = some .reta ∧ context.run inst = context.ret .address) ∨
      context.run inst = context.body inst.body := by
  unfold Context.run
  rw [hsupported]
  simp only [Option.isSome_none, Bool.false_eq_true, if_false]
  cases hinst : inst.emulated? with
  | none => exact .inr (.inr rfl)
  | some emulated =>
      rcases hemulated emulated hinst with rfl | rfl | hplain
      · exact .inl ⟨rfl, rfl⟩
      · exact .inr (.inl ⟨rfl, rfl⟩)
      · cases emulated <;> first | exact .inr (.inr rfl) | cases hplain

/-- Whether other names may stand for a body: those with two operands have some. -/
def hasOtherNames : Body Operand -> Bool
  | .double _ _ _ | .address _ _ _ => true
  | .reti | .jump _ _ | .single _ _ | .calla _ | .multiple _ _ _ | .shift _ _ _ => false

theorem Context.run_of_body (context : Context) {inst : Instruction}
    {body : Body Operand} (hbody : inst.body = body)
    (hnames : hasOtherNames body = false) (hsupported : unsupported? body = none) :
    context.run inst = context.body body := by
  subst hbody
  apply context.run_eq_body hsupported
  intro emulated hemulated
  unfold Instruction.emulated? at hemulated
  cases hbody : inst.body with
  | double _ _ _ | address _ _ _ =>
      rw [hbody] at hnames
      cases hnames
  | _ =>
      rw [hbody] at hemulated
      cases hemulated

theorem Context.run_multiple (context : Context) {inst : Instruction}
    {opcode : MultipleOpcode} {count : Nat} {highest : Register}
    (hbody : inst.body = .multiple opcode count highest) :
    context.run inst = context.body (.multiple opcode count highest) :=
  context.run_of_body hbody rfl rfl

/-!
# Running once
-/

section

variable (options : Options) (known : IL.KnownLabels) {inst : Instruction}

theorem code_emit_of_times_one {zeroCarry : Bool}
    (hextension : inst.extension =
      some { repetition := .times 1, zeroCarry := zeroCarry }) (supply : Supply) :
    (emit options known inst supply).code =
      ((Context.of options known inst).once zeroCarry inst supply).code := by
  unfold emit
  rw [hextension]
  exact List.append_nil _

theorem code_emit_of_once (honce : inst.RunsOnce) (supply : Supply) :
    (emit options known inst supply).code =
      ((Context.of options known inst).run inst supply).code := by
  rcases honce with hextension | hextension
  · unfold emit
    rw [hextension]
  · exact code_emit_of_times_one options known hextension supply

/-- One run is all the code there is, but for a carry that is cleared first. -/
theorem code_emit_of_singly (hsingly : inst.RunsSingly) (supply : Supply) :
    (emit options known inst supply).code =
      clearedCarry inst.clearsCarry ++
        ((Context.of options known inst).run inst supply).code := by
  unfold Instruction.clearsCarry
  cases hextension : inst.extension with
  | none => exact code_emit_of_once options known (.inl hextension) supply
  | some extension =>
      have htimes := hsingly extension hextension
      rcases extension with ⟨repetition, zeroCarry⟩
      cases htimes
      exact code_emit_of_times_one options known hextension supply

theorem reaches_emit_of_once (honce : inst.RunsOnce) {supply : Supply}
    {state last : State}
    (h : ((Context.of options known inst).run inst).Reaches supply state last) :
    (emit options known inst).Reaches supply state last := by
  unfold IL.Emit.Reaches
  rw [code_emit_of_once options known honce]
  exact h

theorem meaning_of_uncounted
    (hcount : forall counter zeroCarry, inst.extension ≠
      some { repetition := .register counter, zeroCarry := zeroCarry })
    (hjump : forall condition offset, inst.body ≠ .jump condition offset) :
    meaning options known inst =
      outcome (emit options known inst { temp := 0, label := 0 }).code := by
  unfold meaning
  dsimp only
  split
  · next condition offset hbody _ => exact absurd hbody (hjump _ _)
  · next counter zeroCarry hextension =>
      exact absurd hextension (hcount counter zeroCarry)
  · rfl

theorem meaning_of_counted {counter : Register} {zeroCarry : Bool}
    (h : inst.extension =
      some { repetition := .register counter, zeroCarry := zeroCarry }) :
    meaning options known inst =
      (Context.of options known inst).loopMeaning counter zeroCarry inst := by
  unfold meaning
  dsimp only
  split
  · next hextension =>
      rw [h] at hextension
      cases hextension
  · next hextension =>
      rw [h] at hextension
      cases hextension
      rfl
  · next hcount _ => exact absurd h (hcount counter zeroCarry)

theorem meaning_of_once (honce : inst.RunsOnce)
    (hjump : forall condition offset, inst.body ≠ .jump condition offset) :
    meaning options known inst =
      outcome (emit options known inst { temp := 0, label := 0 }).code :=
  meaning_of_uncounted options known honce.not_counted hjump

theorem meaning_eq_run (honce : inst.RunsOnce)
    (hjump : forall condition offset, inst.body ≠ .jump condition offset) :
    meaning options known inst =
      outcome ((Context.of options known inst).run inst { temp := 0, label := 0 }).code := by
  rw [meaning_of_once options known honce hjump, code_emit_of_once options known honce]

end

/-- The code in a buffer is the code of the instruction on its own, as long as no
register counts its runs. -/
theorem runsTo_emit (options : Options) (buffer : IL.Buffer) {inst : Instruction}
    (hcount : forall counter zeroCarry, inst.extension ≠
      some { repetition := .register counter, zeroCarry := zeroCarry })
    (hjump : forall condition offset, inst.body ≠ .jump condition offset)
    (state : State) :
    let result := outcome
      (emit options buffer.known inst { temp := 0, label := 0 }).code state
    RunsTo (appended buffer options inst) state result.1 result.2 := by
  have hconditional := isConditionalJump_of_ne hjump
  have hstraight := straight_emit options buffer.known hconditional hcount
  rw [← meaning_of_uncounted options buffer.known hcount hjump]
  apply (realises_emit options buffer.known (fun _ => hconditional) _).runsTo
  intro label _
  exact (hstraight.labels _).2 label

theorem runsTo_appended (options : Options) (buffer : IL.Buffer)
    {inst : Instruction} (honce : inst.RunsOnce)
    (hjump : forall condition offset, inst.body ≠ .jump condition offset)
    (state : State) :
    RunsTo (appended buffer options inst) state
      (meaning options buffer.known inst state).1
      (meaning options buffer.known inst state).2 := by
  rw [meaning_of_once options buffer.known honce hjump]
  exact runsTo_emit options buffer honce.not_counted hjump state

/-- The code in a buffer does what one run does. -/
theorem runsTo_run (options : Options) (buffer : IL.Buffer) {inst : Instruction}
    (honce : inst.RunsOnce)
    (hjump : forall condition offset, inst.body ≠ .jump condition offset)
    (state : State) :
    let result := outcome ((Context.of options buffer.known inst).run inst
      { temp := 0, label := 0 }).code state
    RunsTo (appended buffer options inst) state result.1 result.2 := by
  have hrun := runsTo_emit options buffer honce.not_counted hjump state
  rw [code_emit_of_once options buffer.known honce] at hrun
  exact hrun

/-- Where the code of an instruction on its own reaches its end, so does the code in a
buffer. -/
theorem runsTo_of_reaches_emit (options : Options) (buffer : IL.Buffer)
    {inst : Instruction}
    (hcount : forall counter zeroCarry, inst.extension ≠
      some { repetition := .register counter, zeroCarry := zeroCarry })
    (hjump : forall condition offset, inst.body ≠ .jump condition offset)
    {state last : State}
    (h : (emit options buffer.known inst).Reaches { temp := 0, label := 0 } state
      last) :
    RunsTo (appended buffer options inst) state .fallThrough last := by
  have hrun := runsTo_emit options buffer hcount hjump state
  unfold Reaches at h
  rw [h] at hrun
  exact hrun

/-- The state in which a run behind a prefix word starts. -/
def started (zeroCarry : Bool) (state : State) : State :=
  if zeroCarry then state.setFlag .c false else state

@[simp] theorem started_regs (zeroCarry : Bool) (state : State) :
    (started zeroCarry state).regs = state.regs := by
  cases zeroCarry <;> rfl

@[simp] theorem started_memory (zeroCarry : Bool) (state : State) :
    (started zeroCarry state).memory = state.memory := by
  cases zeroCarry <;> rfl

theorem outcome_clearedCarry (zeroCarry : Bool) (state : State) :
    outcome (clearedCarry zeroCarry) state =
      (.fallThrough, started zeroCarry state) := by
  cases zeroCarry <;> rfl

/-- Where one run reaches its end, so does the code in a buffer. -/
theorem runsTo_of_reaches (options : Options) (buffer : IL.Buffer)
    {inst : Instruction} (honce : inst.RunsOnce)
    (hjump : forall condition offset, inst.body ≠ .jump condition offset)
    {state last : State}
    (h : ((Context.of options buffer.known inst).run inst).Reaches
      { temp := 0, label := 0 } state last) :
    RunsTo (appended buffer options inst) state .fallThrough last :=
  runsTo_of_reaches_emit options buffer honce.not_counted hjump
    (reaches_emit_of_once options buffer.known honce h)

/-- Where the one run reaches its end from the state in which it starts, so does the
code in a buffer. -/
theorem runsTo_of_reaches_singly (options : Options) (buffer : IL.Buffer)
    {inst : Instruction} (hsingly : inst.RunsSingly)
    (hjump : forall condition offset, inst.body ≠ .jump condition offset)
    {state last : State}
    (h : ((Context.of options buffer.known inst).run inst).Reaches
      { temp := 0, label := 0 } (started inst.clearsCarry state) last) :
    RunsTo (appended buffer options inst) state .fallThrough last := by
  have honce : Reaches (do
      Emit.ops (clearedCarry inst.clearsCarry)
      (Context.of options buffer.known inst).run inst) { temp := 0, label := 0 } state last :=
    Reaches.bind (.ops (outcome_clearedCarry _ state)) h
  apply runsTo_of_reaches_emit options buffer hsingly.not_counted hjump
  unfold Reaches
  rw [code_emit_of_singly options buffer.known hsingly]
  exact honce

/-- The same, where the prefix word is given. -/
theorem runsTo_of_reaches_started (options : Options) (buffer : IL.Buffer)
    {inst : Instruction} {zeroCarry : Bool}
    (hextension : inst.extension =
      some { repetition := .times 1, zeroCarry := zeroCarry })
    (hjump : forall condition offset, inst.body ≠ .jump condition offset)
    {state last : State}
    (h : ((Context.of options buffer.known inst).run inst).Reaches
      { temp := 0, label := 0 } (started zeroCarry state) last) :
    RunsTo (appended buffer options inst) state .fallThrough last := by
  have hsingly : inst.RunsSingly := by
    intro extension hsome
    cases hextension.symm.trans hsome
    rfl
  have hcarry : inst.clearsCarry = zeroCarry := by
    unfold Instruction.clearsCarry
    rw [hextension]
    rfl
  apply runsTo_of_reaches_singly options buffer hsingly hjump
  rw [hcarry]
  exact h

end Lift
end MSP430
