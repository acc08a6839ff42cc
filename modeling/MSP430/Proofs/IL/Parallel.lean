import MSP430.IL.Emit
import MSP430.Proofs.IL.Renumber

/-!
# Emissions side by side

Two emissions are parallel when, from supplies whose temporaries are a fixed number
apart, they emit operations that are related one by one and yield results that are
related.  Which labels are free plays no part in it.
-/

namespace MSP430
namespace IL

/-- The second supply numbers its temporaries that much higher. -/
def Supply.Apart (count : Nat) (first second : Supply) : Prop :=
  second.temp = first.temp + count

/-- A constant is an address of twenty bits. -/
def Expr.FitsAddress (expr : Expr) : Prop :=
  forall value, expr.constant? = some value -> value < 0x100000

/-- The second expression is the first one with higher temporaries, and may be
transferred to. -/
structure Expr.ShiftedTo (count : Nat) (first second : Expr) : Prop where
  eq : second = first.shifted count
  fits : first.FitsAddress

theorem Expr.shiftedTo_of_scopedIn {expr : Expr} (count : Nat)
    (h : expr.ScopedIn []) (hfits : expr.FitsAddress) : expr.ShiftedTo count expr where
  eq := (Expr.shifted_of_scopedIn count h).symm
  fits := hfits

theorem Expr.shiftedTo_temp (count : Nat) (width : Width) (index : Nat) :
    (Expr.temp width index).ShiftedTo count (.temp width (index + count)) where
  eq := rfl
  fits := nofun

/-!
# Code side by side
-/

/-- Two pieces of code whose operations are related one by one. -/
inductive Paired (related : Op -> Op -> Prop) : List Op -> List Op -> Prop where
  | nil : Paired related [] []
  | cons {op other : Op} {rest rest' : List Op} :
      related op other ->
      Paired related rest rest' ->
      Paired related (op :: rest) (other :: rest')

namespace Paired

variable {related : Op -> Op -> Prop}

theorem append {first second rest rest' : List Op} (h : Paired related first second)
    (hrest : Paired related rest rest') :
    Paired related (first ++ rest) (second ++ rest') := by
  induction h with
  | nil => exact hrest
  | cons hop _ ih => exact .cons hop ih

theorem map {carry : Op -> Op} {code : List Op}
    (h : forall op, op ∈ code -> related op (carry op)) :
    Paired related code (code.map carry) := by
  induction code with
  | nil => exact .nil
  | cons op rest ih =>
      apply Paired.cons (h op List.mem_cons_self)
      apply ih
      intro other hmem
      exact h other (List.mem_cons_of_mem op hmem)

/-- Code that is paired by a function is mapped by it. -/
theorem eq_map {carry : Op -> Op} {first second : List Op}
    (h : Paired (fun op other => other = carry op) first second) :
    second = first.map carry := by
  induction h with
  | nil => rfl
  | cons hop _ ih => rw [List.map_cons, ← hop, ← ih]

end Paired

/-!
# Emissions side by side
-/

namespace Emit

/-- What two emissions yielded is related operation by operation, and the supplies that
are left are as far apart as they were. -/
structure Alike {value : Type} (related : Op -> Op -> Prop) (count : Nat)
    (same : value -> value -> Prop) (first second : Emission value) : Prop where
  code : Paired related first.code second.code
  result : same first.result second.result
  supply : first.supply.Apart count second.supply

/-- From supplies that are so far apart the emissions do the same, operation by
operation. -/
def Parallel {value : Type} (related : Op -> Op -> Prop) (count : Nat)
    (same : value -> value -> Prop) (first second : Emit value) : Prop :=
  forall supply supply', supply.Apart count supply' ->
    Alike related count same (first supply) (second supply')

/-- Parallel emissions that have no result. -/
abbrev ParallelCode (related : Op -> Op -> Prop) (count : Nat)
    (first second : Emit Unit) : Prop :=
  Parallel related count (fun _ _ => True) first second

namespace Parallel

variable {related : Op -> Op -> Prop} {count : Nat}

theorem pure {value : Type} {same : value -> value -> Prop} {first second : value}
    (h : same first second) :
    Parallel related count same (Pure.pure first) (Pure.pure second) := by
  intro supply supply' hsupply
  exact ⟨.nil, h, hsupply⟩

theorem bind {value next : Type} {same : value -> value -> Prop}
    {same' : next -> next -> Prop} {first second : Emit value}
    {firstNext secondNext : value -> Emit next}
    (h : Parallel related count same first second)
    (hnext : forall result result', same result result' ->
      Parallel related count same' (firstNext result) (secondNext result')) :
    Parallel related count same' (first >>= firstNext) (second >>= secondNext) := by
  intro supply supply' hsupply
  have hbefore := h supply supply' hsupply
  have hafter := hnext _ _ hbefore.result _ _ hbefore.supply
  constructor
  · exact hbefore.code.append hafter.code
  · exact hafter.result
  · exact hafter.supply

/-- One emission after another, where the first has no result. -/
theorem seq {next : Type} {same : next -> next -> Prop} {first second : Emit Unit}
    {firstNext secondNext : Unit -> Emit next}
    (h : ParallelCode related count first second)
    (hnext : Parallel related count same (firstNext ()) (secondNext ())) :
    Parallel related count same (first >>= firstNext) (second >>= secondNext) :=
  h.bind fun _ _ _ => hnext

theorem ops {first second : List Op} (h : Paired related first second) :
    ParallelCode related count (Emit.ops first) (Emit.ops second) := by
  intro supply supply' hsupply
  exact ⟨h, trivial, hsupply⟩

theorem op {first second : Op} (h : related first second) :
    ParallelCode related count (Emit.op first) (Emit.op second) :=
  ops (.cons h .nil)

theorem save {width : Width} {value value' : Expr}
    (h : forall index, related (.setTemp width index value)
      (.setTemp width (index + count) value')) :
    Parallel related count (Expr.ShiftedTo count) (Emit.save width value)
      (Emit.save width value') := by
  intro supply supply' hsupply
  rcases supply' with ⟨temp, label⟩
  cases hsupply
  refine ⟨.cons (h supply.temp) .nil, Expr.shiftedTo_temp count width _, ?_⟩
  exact Nat.add_right_comm supply.temp count 1

theorem snapshot {width : Width} {value value' : Expr}
    (hvalue : value.ShiftedTo count value')
    (h : forall index, related (.setTemp width index value)
      (.setTemp width (index + count) value')) :
    Parallel related count (Expr.ShiftedTo count) (Emit.snapshot width value)
      (Emit.snapshot width value') := by
  have hleaf : value'.isPureLeaf = value.isPureLeaf := by
    rw [hvalue.eq]
    exact value.isPureLeaf_shifted count
  unfold Emit.snapshot
  rw [hleaf]
  split
  · exact pure hvalue
  · exact save h

theorem replicate {first second : Emit Unit}
    (h : ParallelCode related count first second) (times : Nat) :
    ParallelCode related count (Emit.replicate times first)
      (Emit.replicate times second) := by
  induction times with
  | zero => exact pure trivial
  | succ times ih => exact h.seq ih

end Parallel

end Emit

end IL
end MSP430
