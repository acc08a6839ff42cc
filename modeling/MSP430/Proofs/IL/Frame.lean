import MSP430.Proofs.IL.Emitted
import MSP430.Proofs.IL.Outcome

/-!
# What code leaves alone

A run changes only registers and flags that some operation of its code sets, and
memory only if some operation stores.  Code that goes on reaches its end from every
state, and code that computes goes on and sets nothing but temporaries and flags.
-/

namespace MSP430
namespace IL

/-- What no operation of the code changes is the same when the code is left. -/
theorem outcome_keeps {part : Type} {kept : State -> part} {code : List Op}
    (h : forall op, op ∈ code -> forall state after,
      op.effect state = .next after -> kept after = kept state)
    (state : State) : kept (outcome code state).2 = kept state := by
  induction code generalizing state with
  | nil => rfl
  | cons op rest ih =>
      have hrest := ih fun other hmem => h other (List.mem_cons_of_mem op hmem)
      cases heffect : op.effect state with
      | next after =>
          rw [outcome_cons_of_next _ heffect, hrest]
          exact h op List.mem_cons_self state after heffect
      | goto target => rw [outcome_cons_of_goto _ heffect]
      | leave exit => rw [outcome_cons_of_leave _ heffect]

/-- A label is followed only by operations of the program. -/
theorem codeAfter?_subset {target : Label} {program code : List Op}
    (h : codeAfter? target program = some code) : code ⊆ program := by
  induction program with
  | nil => cases h
  | cons op rest ih =>
      apply List.subset_cons_of_subset
      unfold codeAfter? at h
      split at h
      · cases h
        exact List.Subset.refl _
      · exact ih h

/-- What no operation of the program changes is the same whichever way a run goes
through it. -/
theorem runs_keeps {part : Type} {kept : State -> part} {program code : List Op}
    (h : forall op, op ∈ program -> forall state after,
      op.effect state = .next after -> kept after = kept state)
    {state last : State} {exit : Exit} (hruns : Runs program code state exit last)
    (hcode : code ⊆ program) : kept last = kept state := by
  induction hruns with
  | done | missing _ _ | leave _ => rfl
  | next heffect _ ih =>
      rw [ih fun _ hmem => hcode (List.mem_cons_of_mem _ hmem)]
      exact h _ (hcode List.mem_cons_self) _ _ heffect
  | goto _ hafter _ ih => exact ih (codeAfter?_subset hafter)

/-!
# Registers
-/

/-- The register that the operation sets. -/
def Op.register? : Op -> Option Register
  | setReg _ register _ => some register
  | _ => none

/-- No operation of the code sets the register. -/
def Spares (register : Register) (code : List Op) : Prop :=
  forall op, op ∈ code -> op.register? ≠ some register

instance (register : Register) : Composes (Spares register) :=
  .ofEach fun op => op.register? ≠ some register

theorem Op.effect_next_regs {op : Op} {state after : State} {register : Register}
    (heffect : op.effect state = .next after)
    (hop : op.register? ≠ some register) :
    after.regs register = state.regs register := by
  cases op with
  | setReg width other value =>
      cases heffect
      exact if_neg fun heq => hop (congrArg some heq.symm)
  | setTemp _ _ _ | setFlag _ _ | store _ _ _ | nop | label _ =>
      cases heffect
      rfl
  | jump _ | goto _ | branch _ _ _ | call _ | ret _ | unimplemented => cases heffect

namespace Spares

variable {register : Register}

theorem single {op : Op} (h : op.register? ≠ some register) :
    Spares register [op] :=
  List.forall_mem_singleton.mpr h

theorem outcome_regs {code : List Op} (h : Spares register code) (state : State) :
    (outcome code state).2.regs register = state.regs register :=
  @outcome_keeps _ (fun state => state.regs register) code
    (fun op hmem _ _ heffect => op.effect_next_regs heffect (h op hmem)) state

/-- Whichever way a run goes through the program, it keeps the register. -/
theorem runs_regs {program code : List Op} (h : Spares register program)
    {state last : State} {exit : Exit} (hruns : Runs program code state exit last)
    (hcode : code ⊆ program) : last.regs register = state.regs register :=
  @runs_keeps _ (fun state => state.regs register) _ _
    (fun op hmem _ _ heffect => op.effect_next_regs heffect (h op hmem)) _ _ _ hruns
    hcode

end Spares

/-!
# Flags
-/

/-- The flag that the operation sets. -/
def Op.flag? : Op -> Option Flag
  | setFlag flag _ => some flag
  | _ => none

/-- No operation of the code sets a flag. -/
def SparesFlags (code : List Op) : Prop :=
  forall op, op ∈ code -> op.flag? = none

instance : Composes SparesFlags :=
  .ofEach fun op => op.flag? = none

theorem Op.effect_next_flags {op : Op} {state after : State}
    (heffect : op.effect state = .next after) (hop : op.flag? = none) :
    after.flags = state.flags := by
  cases op with
  | setFlag _ _ => cases hop
  | setReg _ _ _ | setTemp _ _ _ | store _ _ _ | nop | label _ =>
      cases heffect
      rfl
  | jump _ | goto _ | branch _ _ _ | call _ | ret _ | unimplemented => cases heffect

namespace SparesFlags

theorem single {op : Op} (h : op.flag? = none) : SparesFlags [op] :=
  List.forall_mem_singleton.mpr h

theorem outcome_flags {code : List Op} (h : SparesFlags code) (state : State) :
    (outcome code state).2.flags = state.flags :=
  outcome_keeps
    (fun op hmem _ _ heffect => op.effect_next_flags heffect (h op hmem)) state

end SparesFlags

/-- No operation of the code sets the flag. -/
def SparesFlag (flag : Flag) (code : List Op) : Prop :=
  forall op, op ∈ code -> op.flag? ≠ some flag

instance (flag : Flag) : Composes (SparesFlag flag) :=
  .ofEach fun op => op.flag? ≠ some flag

theorem Op.effect_next_flag {op : Op} {state after : State} {flag : Flag}
    (heffect : op.effect state = .next after) (hop : op.flag? ≠ some flag) :
    after.flags flag = state.flags flag := by
  cases op with
  | setFlag other value =>
      cases heffect
      exact if_neg fun heq => hop (congrArg some heq.symm)
  | setReg _ _ _ | setTemp _ _ _ | store _ _ _ | nop | label _ =>
      cases heffect
      rfl
  | jump _ | goto _ | branch _ _ _ | call _ | ret _ | unimplemented => cases heffect

namespace SparesFlag

variable {flag : Flag}

theorem single {op : Op} (h : op.flag? ≠ some flag) : SparesFlag flag [op] :=
  List.forall_mem_singleton.mpr h

theorem runs_flags {program code : List Op} (h : SparesFlag flag program)
    {state last : State} {exit : Exit} (hruns : Runs program code state exit last)
    (hcode : code ⊆ program) : last.flags flag = state.flags flag :=
  @runs_keeps _ (fun state => state.flags flag) _ _
    (fun op hmem _ _ heffect => op.effect_next_flag heffect (h op hmem)) _ _ _ hruns
    hcode

end SparesFlag

theorem SparesFlags.spares {code : List Op} (h : SparesFlags code) (flag : Flag) :
    SparesFlag flag code := by
  intro op hmem
  rw [h op hmem]
  exact nofun

/-!
# Memory
-/

/-- Whether the operation puts a value into memory. -/
def Op.isStore : Op -> Bool
  | store _ _ _ => true
  | _ => false

/-- No operation of the code puts a value into memory. -/
def SparesMemory (code : List Op) : Prop :=
  forall op, op ∈ code -> op.isStore = false

instance : Composes SparesMemory :=
  .ofEach fun op => op.isStore = false

theorem Op.effect_next_memory {op : Op} {state after : State}
    (heffect : op.effect state = .next after) (hop : op.isStore = false) :
    after.memory = state.memory := by
  cases op with
  | store _ _ _ => cases hop
  | setReg _ _ _ | setTemp _ _ _ | setFlag _ _ | nop | label _ =>
      cases heffect
      rfl
  | jump _ | goto _ | branch _ _ _ | call _ | ret _ | unimplemented => cases heffect

namespace SparesMemory

theorem outcome_memory {code : List Op} (h : SparesMemory code) (state : State) :
    (outcome code state).2.memory = state.memory :=
  outcome_keeps
    (fun op hmem _ _ heffect => op.effect_next_memory heffect (h op hmem)) state

theorem runs_memory {program code : List Op} (h : SparesMemory program)
    {state last : State} {exit : Exit} (hruns : Runs program code state exit last)
    (hcode : code ⊆ program) : last.memory = state.memory :=
  runs_keeps
    (fun op hmem _ _ heffect => op.effect_next_memory heffect (h op hmem)) hruns
    hcode

end SparesMemory

/-!
# Going on
-/

/-- The operation never transfers control. -/
def Op.GoesOn : Op -> Prop
  | setReg _ _ _ | setTemp _ _ _ | setFlag _ _ | store _ _ _ | nop => True
  | jump _ | goto _ | branch _ _ _ | call _ | ret _ | label _ | unimplemented => False

def GoesOn (code : List Op) : Prop :=
  forall op, op ∈ code -> op.GoesOn

instance : Composes GoesOn :=
  .ofEach Op.GoesOn

theorem GoesOn.single {op : Op} (h : op.GoesOn) : GoesOn [op] :=
  List.forall_mem_singleton.mpr h

theorem GoesOn.exists_outcome {code : List Op} (h : GoesOn code) (state : State) :
    exists last, outcome code state = (.fallThrough, last) := by
  induction code generalizing state with
  | nil => exact ⟨state, rfl⟩
  | cons op rest ih =>
      have hop := h op List.mem_cons_self
      have hrest := ih fun other hmem => h other (List.mem_cons_of_mem op hmem)
      cases op with
      | setReg _ _ _ | setTemp _ _ _ | setFlag _ _ | store _ _ _ | nop =>
          exact hrest _
      | jump _ | goto _ | branch _ _ _ | call _ | ret _ | label _ | unimplemented =>
          exact hop.elim

/-!
# Performing
-/

/-- The run of a program that goes on with the code comes to the operation. -/
inductive Performs (program : List Op) : List Op -> State -> Op -> Prop where
  | here {op : Op} {rest : List Op} {state : State} :
      Performs program (op :: rest) state op
  | next {op first : Op} {rest : List Op} {state after : State} :
      first.effect state = .next after ->
      Performs program rest after op ->
      Performs program (first :: rest) state op
  | goto {op first : Op} {rest code : List Op} {state : State} {target : Label} :
      first.effect state = .goto target ->
      codeAfter? target program = some code ->
      Performs program code state op ->
      Performs program (first :: rest) state op

/-- A run comes only to operations of the program. -/
theorem Performs.mem {program code : List Op} {state : State} {op : Op}
    (h : Performs program code state op) (hcode : code ⊆ program) :
    op ∈ program := by
  induction h with
  | here => exact hcode List.mem_cons_self
  | next _ _ ih => exact ih fun _ hmem => hcode (List.mem_cons_of_mem _ hmem)
  | goto _ hafter _ ih => exact ih (codeAfter?_subset hafter)

/-- A run of code that goes on comes to each operation of it. -/
theorem GoesOn.performs {program code : List Op} (h : GoesOn code) {op : Op}
    (hop : op ∈ code) (state : State) : Performs program code state op := by
  induction code generalizing state with
  | nil => cases hop
  | cons first rest ih =>
      have hfirst := h first List.mem_cons_self
      rcases List.mem_cons.mp hop with rfl | hop
      · exact .here
      · have hrest := ih (fun other hmem => h other (List.mem_cons_of_mem first hmem))
          hop
        cases first with
        | setReg _ _ _ | setTemp _ _ _ | setFlag _ _ | store _ _ _ | nop =>
            exact .next rfl (hrest _)
        | jump _ | goto _ | branch _ _ _ | call _ | ret _ | label _ | unimplemented =>
            exact hfirst.elim

/-!
# Computing
-/

/-- The operation keeps a value in a temporary, or sets a flag. -/
def Op.Computes : Op -> Prop
  | setTemp _ _ _ | setFlag _ _ => True
  | _ => False

def Computes (code : List Op) : Prop :=
  forall op, op ∈ code -> op.Computes

instance : Composes Computes :=
  .ofEach Op.Computes

namespace Computes

variable {code : List Op}

theorem single {op : Op} (h : op.Computes) : Computes [op] :=
  List.forall_mem_singleton.mpr h

theorem goesOn (h : Computes code) : GoesOn code := by
  intro op hmem
  have hop := h op hmem
  cases op with
  | setTemp _ _ _ | setFlag _ _ => trivial
  | _ => exact hop.elim

theorem spares (h : Computes code) (register : Register) : Spares register code := by
  intro op hmem
  have hop := h op hmem
  cases op with
  | setTemp _ _ _ | setFlag _ _ => exact nofun
  | _ => exact hop.elim

theorem sparesMemory (h : Computes code) : SparesMemory code := by
  intro op hmem
  have hop := h op hmem
  cases op with
  | setTemp _ _ _ | setFlag _ _ => rfl
  | _ => exact hop.elim

/-- Computing goes on, and changes neither registers nor memory. -/
theorem exists_outcome (h : Computes code) (state : State) :
    exists last, outcome code state = (.fallThrough, last) ∧
      last.regs = state.regs ∧ last.memory = state.memory := by
  rcases h.goesOn.exists_outcome state with ⟨last, hlast⟩
  have hregs := fun r => (h.spares r).outcome_regs state
  have hmemory := h.sparesMemory.outcome_memory state
  rw [hlast] at hregs hmemory
  exact ⟨last, hlast, funext hregs, hmemory⟩

end Computes

end IL
end MSP430
