import MSP430.Proofs.IL.Emitted

/-!
# What code mentions and where it reaches memory

The parts of an expression are the expression itself and the parts of its operands.
Among the parts of an operation are its loads, and a store is an operation of its own.
Each of them reaches memory at an address that the code holds or at one that it
computes.

An emission is followed in two ways: by an operation that is there from every supply,
and by a bound on its loads and stores.
-/

namespace MSP430
namespace IL

/-!
# Parts
-/

namespace Expr

def parts (expr : Expr) : List Expr :=
  expr ::
    match expr with
    | reg _ _ | temp _ _ | const _ _ | pointer _ _ | flag _ | bool _ => []
    | load _ value | unary _ _ value | not value | ofBool _ value => value.parts
    | binary _ _ left right | compare _ _ left right | logic _ left right
    | rotateCarry _ left right => left.parts ++ right.parts
    | addCarry _ left right carry => left.parts ++ (right.parts ++ carry.parts)

theorem mem_parts_self (expr : Expr) : expr ∈ expr.parts := by
  cases expr <;> exact List.mem_cons_self

/-- Where a load reads memory: the address if it is a constant. -/
def loaded? : Expr -> Option (Option Nat)
  | load _ address => some address.constant?
  | _ => none

/-- Where the loads of an expression read memory. -/
def loads (expr : Expr) : List (Option Nat) :=
  expr.parts.filterMap loaded?

section

variable (width : Width) (left right value : Expr)

@[simp] theorem loads_reg (r : Register) : (reg width r).loads = [] := rfl

@[simp] theorem loads_temp (index : Nat) : (temp width index).loads = [] := rfl

@[simp] theorem loads_const (number : Nat) : (const width number).loads = [] := rfl

@[simp] theorem loads_pointer (number : Nat) : (pointer width number).loads = [] := rfl

@[simp] theorem loads_flag (f : Flag) : (flag f).loads = [] := rfl

@[simp] theorem loads_bool (truth : Bool) : (bool truth).loads = [] := rfl

@[simp] theorem loads_load : (load width value).loads = value.constant? :: value.loads :=
  rfl

@[simp] theorem loads_unary (op : UnaryOp) :
    (unary op width value).loads = value.loads := rfl

@[simp] theorem loads_not : (not value).loads = value.loads := rfl

@[simp] theorem loads_ofBool : (ofBool width value).loads = value.loads := rfl

@[simp] theorem loads_binary (op : BinaryOp) :
    (binary op width left right).loads = left.loads ++ right.loads :=
  List.filterMap_append

@[simp] theorem loads_compare (op : CompareOp) :
    (compare op width left right).loads = left.loads ++ right.loads :=
  List.filterMap_append

@[simp] theorem loads_logic (op : LogicOp) :
    (logic op left right).loads = left.loads ++ right.loads :=
  List.filterMap_append

@[simp] theorem loads_rotateCarry :
    (rotateCarry width left right).loads = left.loads ++ right.loads :=
  List.filterMap_append

@[simp] theorem loads_addCarry :
    (addCarry width left right value).loads =
      left.loads ++ (right.loads ++ value.loads) := by
  show (left.parts ++ (right.parts ++ value.parts)).filterMap loaded? = _
  rw [List.filterMap_append, List.filterMap_append]
  rfl

end

/-- What can be read again without cost reads no memory. -/
theorem loads_of_isPureLeaf {expr : Expr} (h : expr.isPureLeaf = true) :
    expr.loads = [] := by
  cases expr <;> first | rfl | cases h

end Expr

namespace Op

/-- The expressions of an operation. -/
def exprs : Op -> List Expr
  | setReg _ _ value | setTemp _ _ value | setFlag _ value => [value]
  | store _ address value => [address, value]
  | jump target | call target | ret target => [target]
  | branch condition _ _ => [condition]
  | goto _ | nop | label _ | unimplemented => []

def parts (op : Op) : List Expr :=
  op.exprs.flatMap Expr.parts

/-- Where the loads of an operation read memory. -/
def loads (op : Op) : List (Option Nat) :=
  op.exprs.flatMap Expr.loads

/-- Where an operation writes memory: the address if it is a constant. -/
def stores : Op -> List (Option Nat)
  | store _ address _ => [address.constant?]
  | _ => []

theorem mem_loads {op : Op} {width : Width} {address : Expr}
    (h : .load width address ∈ op.parts) : address.constant? ∈ op.loads := by
  rcases List.mem_flatMap.mp h with ⟨expr, hexpr, hpart⟩
  refine List.mem_flatMap.mpr ⟨expr, hexpr, ?_⟩
  exact List.mem_filterMap.mpr ⟨_, hpart, rfl⟩

/-- The operation reaches memory only where it may. -/
def Within (loads stores : List (Option Nat)) (op : Op) : Prop :=
  op.loads ⊆ loads ∧ op.stores ⊆ stores

end Op

/-- Each operation of the code reaches memory only where it may. -/
def AllWithin (loads stores : List (Option Nat)) (code : List Op) : Prop :=
  forall op, op ∈ code -> op.Within loads stores

instance (loads stores : List (Option Nat)) : Composes (AllWithin loads stores) :=
  .ofEach (Op.Within loads stores)

/-!
# Operations that are there
-/

namespace Emit

/-- From every supply the code has an operation of the property. -/
def Includes {value : Type} (P : Op -> Prop) (emit : Emit value) : Prop :=
  forall supply, exists op, op ∈ (emit supply).code ∧ P op

namespace Includes

variable {P : Op -> Prop} {first second : Type}

theorem ops {code : List Op} {op : Op} (hmem : op ∈ code) (h : P op) :
    (Emit.ops code).Includes P :=
  fun _ => ⟨op, hmem, h⟩

theorem op {operation : Op} (h : P operation) : (Emit.op operation).Includes P :=
  fun _ => ⟨operation, List.mem_cons_self, h⟩

theorem bind {emit : Emit first} (h : emit.Includes P)
    (next : first -> Emit second) : (emit >>= next).Includes P := by
  intro supply
  rcases h supply with ⟨op, hmem, hop⟩
  exact ⟨op, List.mem_append_left _ hmem, hop⟩

theorem behind (emit : Emit first) {next : first -> Emit second}
    (h : forall result, (next result).Includes P) : (emit >>= next).Includes P := by
  intro supply
  rcases h (emit supply).result (emit supply).supply with ⟨op, hmem, hop⟩
  exact ⟨op, List.mem_append_right _ hmem, hop⟩

theorem save {width : Width} {value : Expr}
    (h : forall index, P (.setTemp width index value)) :
    (Emit.save width value).Includes P :=
  fun supply => ⟨_, List.mem_cons_self, h supply.temp⟩

theorem behindPure {result : first} {next : first -> Emit second}
    (h : (next result).Includes P) : (Pure.pure result >>= next).Includes P :=
  h

/-- What can be read again without cost is not kept. -/
theorem behindSnapshot {width : Width} {value : Expr} {next : Expr -> Emit second}
    (hleaf : value.isPureLeaf = true) (h : (next value).Includes P) :
    (Emit.snapshot width value >>= next).Includes P := by
  unfold Emit.snapshot
  rw [if_pos hleaf]
  exact behindPure h

end Includes

/-!
# Bounds on loads and stores
-/

/-- From every supply the code loads and stores at most as given, in this order, and
the result fits. -/
structure Accesses {value : Type} (loads stores : List (Option Nat))
    (fits : value -> Prop) (emit : Emit value) : Prop where
  loads : forall supply, ((emit supply).code.flatMap Op.loads).Sublist loads
  stores : forall supply, ((emit supply).code.flatMap Op.stores).Sublist stores
  result : forall supply, fits (emit supply).result

/-- The same of an emission without a result. -/
abbrev AccessesAt (loads stores : List (Option Nat)) (emit : Emit Unit) : Prop :=
  Accesses loads stores (fun _ => True) emit

namespace Accesses

variable {loads stores more others : List (Option Nat)} {first second : Type}
  {fits : first -> Prop} {fits' : second -> Prop}

theorem pure {result : first} (h : fits result) :
    Accesses [] [] fits (Pure.pure result) where
  loads := fun _ => List.Sublist.refl []
  stores := fun _ => List.Sublist.refl []
  result := fun _ => h

theorem ops {code : List Op} (hloads : (code.flatMap Op.loads).Sublist loads)
    (hstores : (code.flatMap Op.stores).Sublist stores) :
    AccessesAt loads stores (Emit.ops code) where
  loads := fun _ => hloads
  stores := fun _ => hstores
  result := fun _ => trivial

theorem op (operation : Op) :
    AccessesAt operation.loads operation.stores (Emit.op operation) :=
  .ops (by simp) (by simp)

theorem bind {emit : Emit first} {next : first -> Emit second}
    (hfirst : Accesses loads stores fits emit)
    (hnext : forall result, fits result -> Accesses more others fits' (next result)) :
    Accesses (loads ++ more) (stores ++ others) fits' (emit >>= next) where
  loads := by
    intro supply
    have hafter := hnext _ (hfirst.result supply)
    rw [bind_apply, List.flatMap_append]
    exact (hfirst.loads supply).append (hafter.loads _)
  stores := by
    intro supply
    have hafter := hnext _ (hfirst.result supply)
    rw [bind_apply, List.flatMap_append]
    exact (hfirst.stores supply).append (hafter.stores _)
  result := by
    intro supply
    exact (hnext _ (hfirst.result supply)).result _

theorem seq {emit : Emit Unit} {next : Unit -> Emit second}
    (hfirst : AccessesAt loads stores emit)
    (hnext : Accesses more others fits' (next ())) :
    Accesses (loads ++ more) (stores ++ others) fits' (emit >>= next) :=
  hfirst.bind fun _ _ => hnext

/-- What comes last reaches no memory. -/
theorem last {emit : Emit first} {next : first -> Emit second}
    (hfirst : Accesses loads stores fits emit)
    (hnext : forall result, fits result -> Accesses [] [] fits' (next result)) :
    Accesses loads stores fits' (emit >>= next) := by
  have h := hfirst.bind hnext
  rw [List.append_nil, List.append_nil] at h
  exact h

/-- What comes first only loads, and what comes behind only stores. -/
theorem keep {emit : Emit first} {next : first -> Emit second}
    (hfirst : Accesses loads [] fits emit)
    (hnext : forall result, fits result -> Accesses [] stores fits' (next result)) :
    Accesses loads stores fits' (emit >>= next) := by
  have h := hfirst.bind hnext
  rw [List.append_nil] at h
  exact h

theorem mono {emit : Emit first} (h : Accesses loads stores fits emit)
    (hloads : loads.Sublist more) (hstores : stores.Sublist others) :
    Accesses more others fits emit where
  loads := fun supply => (h.loads supply).trans hloads
  stores := fun supply => (h.stores supply).trans hstores
  result := h.result

/-- What is kept in a temporary is read from there without reaching memory. -/
theorem save (width : Width) (value : Expr) :
    Accesses value.loads [] (fun kept : Expr => kept.loads = [])
      (Emit.save width value) where
  loads := fun _ => by
    rw [save_apply]
    simp [Op.loads, Op.exprs]
  stores := fun _ => List.Sublist.refl []
  result := fun _ => rfl

theorem snapshot (width : Width) (value : Expr) :
    Accesses value.loads [] (fun kept : Expr => kept.loads = [])
      (Emit.snapshot width value) := by
  unfold Emit.snapshot
  split
  · next hleaf =>
      rw [Expr.loads_of_isPureLeaf hleaf]
      exact pure (Expr.loads_of_isPureLeaf hleaf)
  · exact save width value

/-- Each operation reaches memory where the whole code does. -/
theorem within {emit : Emit Unit} (h : AccessesAt loads stores emit) :
    EmitsCode (AllWithin loads stores) emit where
  code := by
    intro supply op hmem
    constructor
    · intro access haccess
      exact (h.loads supply).subset (List.mem_flatMap.mpr ⟨op, hmem, haccess⟩)
    · intro access haccess
      exact (h.stores supply).subset (List.mem_flatMap.mpr ⟨op, hmem, haccess⟩)
  result := fun _ => trivial

end Accesses
end Emit

end IL
end MSP430
