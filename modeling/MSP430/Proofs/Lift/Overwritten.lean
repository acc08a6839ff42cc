import MSP430.Proofs.Decode.Addresses
import MSP430.Proofs.Lift.Accesses
import MSP430.Proofs.Lift.Repetition
import MSP430.Proofs.Lift.RestoredRange

/-!
# The memory that an instruction overwrites

An instruction reaches memory in two ways: it replaces an operand there, as wide as the
instruction is, or it pushes values below the stack pointer.  An operand in memory is
replaced once, at the address it has at the start.  Pushes may be repeated, and what is
carried through them is how far the stack pointer has moved and that nothing but the
slots above it has changed.
-/

namespace MSP430

open IL (Emit Expr KnownLabels Op RunsTo SparesMemory State Supply outcome)
open IL.Emit (Reaches)
open Lift (pointerWidth stackSlot stackStep)

/-- How many values an instruction pushes from a state. -/
def Instruction.pushes (inst : Instruction) (state : State) : Nat :=
  match inst.body with
  | .single .push _ => inst.runs state
  | .multiple .pushm count _ => count
  | _ => 0

/-- The bytes that the first values below the stack pointer take. -/
def Lift.InPushed (width : Width) (state : State) (count address : Nat) : Prop :=
  exists below, below < count ∧
    stackSlot (pointerWidth width) state (below + 1) ≤ address ∧
    address < stackSlot (pointerWidth width) state (below + 1) + State.bytes width

/-- The bytes that an instruction may change, of the operand it replaces and of the
values it pushes. -/
inductive Instruction.Overwrites (inst : Instruction) (state : State) (address : Nat) :
    Prop where
  | written {operand : Operand} {location : Nat} :
      Lift.writtenOperand? inst.body = some operand ->
      operand.effectiveAddress? (Lift.Context.addressWidthOf inst) state =
        some location ->
      location ≤ address -> address < location + State.bytes inst.width ->
      Overwrites inst state address
  | pushed :
      Lift.InPushed inst.width state (inst.pushes state) address ->
      Overwrites inst state address

/-!
# Names
-/

/-- Only instructions that replace a register have names with code of their own. -/
theorem Instruction.hasOwnCode_of_unregistered {inst : Instruction} {operand : Operand}
    (hwritten : Lift.writtenOperand? inst.body = some operand)
    (hregister : forall r, operand ≠ .register r) {emulated : Emulated}
    (h : inst.emulated? = some emulated) : Lift.hasOwnCode emulated = false := by
  apply Lift.hasOwnCode_eq_false h
  intro hown
  generalize inst.body = body at hwritten hown
  cases hown <;> cases hwritten <;> exact hregister _ rfl

namespace Lift

/-!
# Code that stores nothing
-/

theorem stores_of_written {body : Body Operand} {operand : Operand}
    (h : writtenOperand? body = some operand) (space : Width) :
    body.stores space = operand.accesses space := by
  cases body with
  | reti | jump _ _ | calla _ | multiple _ _ _ => cases h
  | shift _ _ _ =>
      cases h
      rfl
  | single opcode _ => cases opcode <;> cases h <;> rfl
  | double opcode _ _ => cases opcode <;> cases h <;> rfl
  | address opcode _ _ => cases opcode <;> cases h <;> rfl

/-- What replaces no operand stores nothing, unless it pushes. -/
theorem stores_of_unwritten {body : Body Operand} (h : writtenOperand? body = none)
    (space : Width) :
    body.stores space = [] ∨ (exists target, body = .single .push target) ∨
      exists count highest, body = .multiple .pushm count highest := by
  cases body with
  | reti | jump _ _ | calla _ => exact .inl rfl
  | shift _ _ _ => cases h
  | double opcode _ _ => cases opcode <;> first | exact .inl rfl | cases h
  | address opcode _ _ => cases opcode <;> first | exact .inl rfl | cases h
  | single opcode target =>
      cases opcode with
      | push => exact .inr (.inl ⟨target, rfl⟩)
      | call => exact .inl rfl
      | rrc | swpb | rra | sxt => cases h
  | multiple opcode count highest =>
      cases opcode with
      | pushm => exact .inr (.inr ⟨count, highest, rfl⟩)
      | popm => exact .inl rfl

theorem accesses_of_unaddressed {operand : Operand} {space : Width} {state : State}
    (h : operand.effectiveAddress? space state = none) :
    operand.accesses space = [] := by
  cases operand <;> first | rfl | cases h

/-- An instruction whose body has no operand to store leaves memory alone. -/
theorem memory_of_unstored (options : Options) (known : KnownLabels)
    {inst : Instruction} (hdecoded : inst.Decoded)
    (h : inst.body.stores (Context.addressWidthOf inst) = []) (state : State) :
    (meaning options known inst state).2.memory = state.memory := by
  have hwithin := allWithin_appended (.withLabels 0 known) options hdecoded
  have hspares : SparesMemory (appended (.withLabels 0 known) options inst) := by
    intro op hmem
    have hstores := (hwithin op hmem).2
    rw [h] at hstores
    cases op with
    | store width address value => exact absurd (hstores List.mem_cons_self) nofun
    | _ => rfl
  exact hspares.runs_memory (runsTo_into options 0 known hdecoded state) fun _ => id

/-!
# Operands in memory
-/

theorem mem_operands_of_written {body : Body Operand} {operand : Operand}
    (h : writtenOperand? body = some operand)
    (hregister : forall r, operand ≠ .register r) : operand ∈ body.operands := by
  cases body with
  | reti | jump _ _ | calla _ | multiple _ _ _ => cases h
  | shift _ _ _ =>
      cases h
      exact absurd rfl (hregister _)
  | single opcode _ => cases opcode <;> cases h <;> exact List.mem_cons_self
  | double opcode _ _ =>
      cases opcode <;> cases h <;> exact List.mem_cons_of_mem _ List.mem_cons_self
  | address opcode _ _ =>
      cases opcode <;> cases h <;> exact List.mem_cons_of_mem _ List.mem_cons_self

namespace Context

/-- Code of the usual shape stores its result where the operand was at the start. -/
theorem Finishes.memory {context : Context} {source operand : Operand}
    {emission : Emit Unit} (h : context.Finishes source (some operand) emission)
    {state : State} {location : Nat}
    (hlocation : operand.effectiveAddress? context.addressWidth state = some location)
    {address : Nat}
    (haddress : address < location ∨ location + State.bytes context.width ≤ address)
    (supply : Supply) :
    (outcome (emission supply).code state).2.memory address = state.memory address := by
  rcases h supply with ⟨before, value, hcode, hbefore, _⟩
  rcases hbefore.exists_outcome state with ⟨middle, hmiddle, hregs, hmemory⟩
  rw [← Operand.effectiveAddress?_congr hregs] at hlocation
  rcases exists_location hlocation with ⟨expr, hplace, heval⟩
  have hwrite : context.lastSteps source (some operand) value =
      .store context.width expr value :: postIncrement source := by
    show (Place.of context.addressWidth operand).write _ _ _ ++ _ = _
    rw [hplace]
    rfl
  rw [hcode, IL.outcome_append, hmiddle, IL.Outcome.fallThrough_andThen, hwrite,
    IL.outcome_store, heval, outcome_postIncrement]
  show (source.advanced _).memory address = _
  rw [Operand.advanced_memory, ← hmemory]
  exact State.store_memory_of_apart _ haddress

/-- A body that replaces an operand in memory has the usual shape. -/
theorem exists_finishes (context : Context) {body : Body Operand} {operand : Operand}
    (hsupported : unsupported? body = none)
    (hwritten : writtenOperand? body = some operand)
    (hregister : forall r, operand ≠ .register r) :
    exists source, context.Finishes source (some operand) (context.body body) := by
  have hcomputes := isComputation_of_written hsupported hwritten
  rcases exists_source hcomputes with ⟨source, hsource⟩
  refine ⟨source, ?_⟩
  rw [← hwritten]
  apply context.finishes_body hcomputes _ _ hsource
  · cases hmoved : movedToPc? body with
    | none => rfl
    | some source =>
        rcases body_of_movedToPc? hmoved with rfl | rfl <;> cases hwritten <;>
          exact absurd rfl (hregister _)
  · unfold reseedsStack
    split
    · cases hwritten
      exact absurd rfl (hregister _)
    · cases hwritten
      exact absurd rfl (hregister _)
    · rfl

end Context

/-- An operand in memory is replaced once, and the bytes outside of it stay. -/
theorem memory_of_written (options : Options) (known : KnownLabels)
    {inst : Instruction} (hdecoded : inst.Decoded) {operand : Operand}
    (hwritten : writtenOperand? inst.body = some operand) {state : State}
    {location : Nat}
    (hlocation : operand.effectiveAddress? (Context.addressWidthOf inst) state =
      some location)
    {address : Nat}
    (haddress : address < location ∨ location + State.bytes inst.width ≤ address) :
    (meaning options known inst state).2.memory address = state.memory address := by
  have hregister : forall r, operand ≠ .register r := by
    rintro r rfl
    cases hlocation
  have hconstant : forall value, operand ≠ .constant value := by
    rintro value rfl
    cases hlocation
  have honce := hdecoded.once_of_operand
    (mem_operands_of_written hwritten hregister) hregister hconstant
  have hjump : forall condition offset, inst.body ≠ .jump condition offset := by
    intro condition offset hbody
    rw [hbody] at hwritten
    cases hwritten
  rw [meaning_eq_run options known honce hjump]
  cases hsupported : unsupported? inst.body with
  | some reason =>
      rw [Context.run_of_unsupported _ hsupported]
      rfl
  | none =>
      have hrun := (Context.of options known inst).run_eq_body hsupported fun _ =>
        Instruction.hasOwnCode_of_unregistered hwritten hregister
      rcases (Context.of options known inst).exists_finishes hsupported hwritten
        hregister with ⟨source, hfinishes⟩
      rw [hrun]
      exact hfinishes.memory hlocation haddress _

/-!
# Pushed values
-/

/-- What pushing a number of values leaves: the stack pointer has moved by as many
slots, and memory is as it was but for these. -/
structure PushedBelow (width : Width) (count : Nat) (before after : State) : Prop where
  pointer :
    (pointerWidth width).truncate (after.regs .sp) =
      stackSlot (pointerWidth width) before count
  others : forall address, ¬ InPushed width before count address ->
    after.memory address = before.memory address

namespace PushedBelow

variable {width : Width} {count : Nat} {before after : State}

theorem none (width : Width) (state : State) : PushedBelow width 0 state state where
  pointer := by
    unfold stackSlot
    rw [Nat.zero_mul, Int.natCast_zero, Int.sub_zero, Width.ofInt_natCast]
  others := fun _ _ => rfl

/-- States that look the same look so below the stack pointer. -/
theorem congr {other : State} (h : PushedBelow width count before after)
    (hregs : other.regs = after.regs) (hmemory : other.memory = after.memory) :
    PushedBelow width count before other where
  pointer := by
    rw [hregs]
    exact h.pointer
  others := by
    rw [hmemory]
    exact h.others

/-- One more value is pushed. -/
theorem push (h : PushedBelow width count before after) (value : Nat) :
    PushedBelow width (count + 1) before (pushed width value after) := by
  have hwidth : pointerWidth width ≠ .byte := by
    cases width <;> exact nofun
  have hstep : stackStep (pointerWidth width) = stackStep width := by
    cases width <;> rfl
  have htop : pushedTo (pointerWidth width) width after =
      stackSlot (pointerWidth width) before (count + 1) := by
    rw [← ofInt_sub_stackStep hwidth h.pointer, hstep]
    rfl
  constructor
  case pointer =>
    rw [pushed_sp, htop]
    exact Width.truncate_of_lt (Width.ofInt_lt _ _)
  case others =>
    intro address haddress
    have hkept : ¬ InPushed width before count address := by
      rintro ⟨below, hbelow, hin⟩
      exact haddress ⟨below, Nat.lt_succ_of_lt hbelow, hin⟩
    have hnew : ¬ (stackSlot (pointerWidth width) before (count + 1) ≤ address ∧
        address < stackSlot (pointerWidth width) before (count + 1) +
          State.bytes width) := fun hin =>
      haddress ⟨count, Nat.lt_succ_self count, hin⟩
    rw [← h.others address hkept, pushed_memory, htop]
    apply State.store_memory_of_apart
    omega

end PushedBelow

namespace Context

variable (context : Context) (hspace : context.addressWidth ≠ .byte)

include hspace

/-- A range is pushed register by register. -/
theorem exists_pushRange (count : Nat) (highest : Register) (state : State) :
    exists after,
      outcome (context.pushRange count highest) state = (.fallThrough, after) ∧
        PushedBelow context.width count state after := by
  induction count with
  | zero => exact ⟨state, rfl, .none _ state⟩
  | succ count ih =>
      rcases ih with ⟨middle, hmiddle, hpushed⟩
      have hpush := @outcome_push context hspace context.width
        (.reg context.width (.ofField (highest.id - count))) _ middle rfl
      refine ⟨_, Eq.trans ?_ hpush, hpushed.push _⟩
      rw [context.pushRange_succ, IL.outcome_append, hmiddle,
        IL.Outcome.fallThrough_andThen]

/-- A push goes one slot further, and what moves on then is no memory. -/
theorem exists_pushOnce {inst : Instruction} {target : Operand}
    (hbody : inst.body = .single .push target) (zeroCarry : Bool) {count : Nat}
    {before state : State} (h : PushedBelow context.width count before state)
    (supply : Supply) :
    exists after,
      (context.once zeroCarry inst).Reaches supply state (target.advanced after) ∧
        PushedBelow context.width (count + 1) before after := by
  rcases context.exists_reaches_pushOperand hspace target supply
    (started zeroCarry state) with ⟨kept, hsame, hreaches⟩
  rw [← Context.run_push hbody] at hreaches
  have hstarted := h.congr (started_regs zeroCarry state) (started_memory zeroCarry state)
  exact ⟨_, Reaches.bind (.ops (outcome_clearedCarry zeroCarry state)) hreaches,
    (hstarted.congr hsame.regs hsame.memory).push _⟩

/-- Pushes of an operand that stays where it is follow one another. -/
theorem exists_pushes {inst : Instruction} {target : Operand}
    (hbody : inst.body = .single .push target)
    (hstays : forall state, target.advanced state = state) (zeroCarry : Bool)
    (runs : Nat) {count : Nat} {before state : State}
    (h : PushedBelow context.width count before state) (supply : Supply) :
    exists after,
      (Emit.replicate runs (context.once zeroCarry inst)).Reaches supply state after ∧
        PushedBelow context.width (count + runs) before after := by
  induction runs generalizing count state supply with
  | zero => exact ⟨state, .pure (), h⟩
  | succ runs ih =>
      rcases context.exists_pushOnce hspace hbody zeroCarry h supply with
        ⟨middle, hreaches, hpushed⟩
      rw [hstays] at hreaches
      rcases ih hpushed (context.once zeroCarry inst supply).supply with
        ⟨after, hrest, hlast⟩
      rw [Nat.add_assoc, Nat.add_comm 1] at hlast
      exact ⟨after, hreaches.bind hrest, hlast⟩

end Context

/-- A repeated instruction has no operand that moves on. -/
theorem advanced_of_repeated {inst : Instruction} (hdecoded : inst.Decoded)
    {operand : Operand} (hmem : operand ∈ inst.body.operands)
    (hrepeated : ¬ inst.RunsOnce) (state : State) :
    operand.advanced state = state := by
  cases operand with
  | autoIncrement r step => exact absurd (hdecoded.advances hmem).2.2 hrepeated
  | _ => rfl

section

variable (options : Options) (known : KnownLabels) {inst : Instruction}
  (hdecoded : inst.Decoded)

include hdecoded

theorem memory_of_pushRange {count : Nat} {highest : Register}
    (hbody : inst.body = .multiple .pushm count highest) {state : State} {address : Nat}
    (haddress : ¬ InPushed inst.width state count address) :
    (meaning options known inst state).2.memory address = state.memory address := by
  have hextension := hdecoded.widthFits
  rw [hbody] at hextension
  have honce : inst.RunsOnce := .inl hextension
  have hjump : forall condition offset, inst.body ≠ .jump condition offset := by
    rw [hbody]
    exact nofun
  rcases (Context.of options known inst).exists_pushRange
    (Context.addressWidthOf_ne_byte inst) count highest state with
    ⟨after, hafter, hpushed⟩
  rw [meaning_eq_run options known honce hjump, Context.run_multiple _ hbody]
  show (outcome (Context.pushRange _ count highest) state).2.memory address = _
  rw [hafter]
  exact hpushed.others address haddress

theorem memory_of_push {target : Operand} (hbody : inst.body = .single .push target)
    {state : State} {address : Nat}
    (haddress : ¬ InPushed inst.width state (inst.runs state) address) :
    (meaning options known inst state).2.memory address = state.memory address := by
  let context := Context.of options known inst
  have hspace : context.addressWidth ≠ .byte := Context.addressWidthOf_ne_byte inst
  by_cases honce : inst.RunsOnce
  · have hjump : forall condition offset, inst.body ≠ .jump condition offset := by
      rw [hbody]
      exact nofun
    rcases context.exists_pushOnce hspace hbody false (.none inst.width state) ⟨0, 0⟩ with
      ⟨after, hreaches, hpushed⟩
    have hcode : (outcome (context.run inst ⟨0, 0⟩).code state).2 =
        target.advanced after := congrArg Prod.snd hreaches
    rw [honce.runs_eq] at haddress
    rw [meaning_eq_run options known honce hjump, hcode, Operand.advanced_memory]
    exact hpushed.others address haddress
  · cases hextension : inst.extension with
    | none => exact absurd (.inl hextension) honce
    | some extension =>
        have hmem : target ∈ inst.body.operands := by
          rw [hbody]
          exact List.mem_singleton_self target
        rcases context.exists_pushes hspace hbody
          (advanced_of_repeated hdecoded hmem honce) extension.zeroCarry
          (inst.runs state) (.none inst.width state) ⟨0, 0⟩ with
          ⟨after, hreaches, hpushed⟩
        have hagree := replicate_agrees_meaning options known hdecoded hextension state
        have hmemory := hagree.state.memory
        unfold Reaches at hreaches
        rw [hreaches] at hmemory
        rw [Nat.zero_add] at hpushed
        rw [← hmemory]
        exact hpushed.others address haddress

end

/-- A decoded instruction changes no byte of memory but those it overwrites. -/
theorem memory_kept (options : Options) (known : KnownLabels) {inst : Instruction}
    (hdecoded : inst.Decoded) {state : State} {address : Nat}
    (h : ¬ inst.Overwrites state address) :
    (meaning options known inst state).2.memory address = state.memory address := by
  have hunstored : inst.body.stores (Context.addressWidthOf inst) = [] ->
      (meaning options known inst state).2.memory address = state.memory address :=
    fun hstores => congrFun (memory_of_unstored options known hdecoded hstores state) _
  have hpushes : ¬ InPushed inst.width state (inst.pushes state) address :=
    fun hin => h (.pushed hin)
  cases hwritten : writtenOperand? inst.body with
  | some operand =>
      cases hlocation : operand.effectiveAddress? (Context.addressWidthOf inst) state with
      | none =>
          apply hunstored
          rw [stores_of_written hwritten]
          exact accesses_of_unaddressed hlocation
      | some location =>
          apply memory_of_written options known hdecoded hwritten hlocation
          by_cases hlow : location ≤ address
          · exact .inr (Nat.le_of_not_lt fun hhigh =>
              h (.written hwritten hlocation hlow hhigh))
          · exact .inl (Nat.lt_of_not_le hlow)
  | none =>
      unfold Instruction.pushes at hpushes
      rcases stores_of_unwritten hwritten (Context.addressWidthOf inst) with
        hstores | ⟨target, hbody⟩ | ⟨count, highest, hbody⟩
      · exact hunstored hstores
      · rw [hbody] at hpushes
        exact memory_of_push options known hdecoded hbody hpushes
      · rw [hbody] at hpushes
        exact memory_of_pushRange options known hdecoded hbody hpushes

end Lift
end MSP430
