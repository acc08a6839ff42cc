import MSP430.Proofs.IL.Accesses
import MSP430.Proofs.IL.Emission

/-!
# Temporaries in code

The temporaries that code sets can be listed, and so can those that an emission takes
from its supply.  Straight code sets each temporary that was taken for it once, in the
order in which they were taken, and reads none before it has been set.
-/

namespace MSP430
namespace IL

/-- The temporary that the operation sets. -/
def Op.temp? : Op -> Option Nat
  | setTemp _ index _ => some index
  | _ => none

/-- The temporaries that the code sets, one after the other. -/
def tempsSet (code : List Op) : List Nat :=
  code.filterMap Op.temp?

/-- Somewhere the code sets the temporary at that width. -/
def SetsTemp (code : List Op) (width : Width) (index : Nat) : Prop :=
  exists value, .setTemp width index value ∈ code

/-- Behind the given operations, the code reads a temporary only where it has been set
before, at the width at which it is read. -/
def DefinedAfter (given code : List Op) : Prop :=
  forall before op after, code = before ++ op :: after ->
    forall width index, .temp width index ∈ op.parts ->
      SetsTemp (given ++ before) width index

/-- The operation neither sets a temporary nor reads one. -/
def Op.TempFree (op : Op) : Prop :=
  op.temp? = none ∧ forall expr, expr ∈ op.exprs -> expr.ScopedIn []

def TempFree (code : List Op) : Prop :=
  forall op, op ∈ code -> op.TempFree

instance : Composes TempFree :=
  .ofEach Op.TempFree

/-- The given operations set every temporary of the scope. -/
def Scope.SetBy (scope : Scope) (given : List Op) : Prop :=
  forall width index, scope[index]? = some width -> SetsTemp given width index

/-!
# Temporaries that are set
-/

theorem SetsTemp.mono {given more : List Op} {width : Width} {index : Nat}
    (h : SetsTemp given width index) : SetsTemp (given ++ more) width index := by
  rcases h with ⟨value, hmem⟩
  exact ⟨value, List.mem_append_left more hmem⟩

namespace Scope.SetBy

variable {scope : Scope} {given : List Op}

theorem nil : SetBy [] given :=
  nofun

theorem mono {more : List Op} (h : scope.SetBy given) : scope.SetBy (given ++ more) :=
  fun width index hindex => (h width index hindex).mono

/-- The next temporary of a scope is set by an operation of its own. -/
theorem setTemp (h : scope.SetBy given) (width : Width) (value : Expr) :
    SetBy (scope ++ [width]) (given ++ [.setTemp width scope.length value]) := by
  intro other index hindex
  rcases Nat.lt_or_ge index scope.length with hlt | hge
  · rw [List.getElem?_append_left hlt] at hindex
    exact (h other index hindex).mono
  · rw [List.getElem?_append_right hge] at hindex
    have hlast := (List.getElem?_eq_some_iff.mp hindex).1
    rw [List.length_singleton] at hlast
    have heq : index = scope.length := by omega
    subst heq
    rw [Nat.sub_self] at hindex
    cases hindex
    exact ⟨value, List.mem_append_right given List.mem_cons_self⟩

end Scope.SetBy

/-!
# Temporaries that are read
-/

/-- A temporary that is a part of an expression in scope is itself in scope. -/
theorem Expr.ScopedIn.getElem?_eq {scope : Scope} {expr : Expr} (h : expr.ScopedIn scope)
    {width : Width} {index : Nat} (hpart : .temp width index ∈ expr.parts) :
    scope[index]? = some width := by
  induction expr with
  | temp _ _ =>
      cases List.mem_singleton.mp hpart
      exact h
  | reg _ _ | const _ _ | pointer _ _ | flag _ | bool _ =>
      cases List.mem_singleton.mp hpart
  | load _ _ ih | unary _ _ _ ih | not _ ih | ofBool _ _ ih =>
      rcases List.mem_cons.mp hpart with heq | hpart
      · cases heq
      · exact ih h hpart
  | binary _ _ _ _ ihl ihr | compare _ _ _ _ ihl ihr | logic _ _ _ ihl ihr
  | rotateCarry _ _ _ ihl ihr =>
      rcases List.mem_cons.mp hpart with heq | hpart
      · cases heq
      · rcases List.mem_append.mp hpart with hpart | hpart
        · exact ihl h.1 hpart
        · exact ihr h.2 hpart
  | addCarry _ _ _ _ ihl ihr ihc =>
      rcases List.mem_cons.mp hpart with heq | hpart
      · cases heq
      · rcases List.mem_append.mp hpart with hpart | hpart
        · exact ihl h.1 hpart
        · rcases List.mem_append.mp hpart with hpart | hpart
          · exact ihr h.2.1 hpart
          · exact ihc h.2.2 hpart

/-- What reads only temporaries of a scope reads only what the given operations set. -/
theorem Scope.SetBy.reads {scope : Scope} {given : List Op} (h : scope.SetBy given)
    {op : Op} (hop : forall expr, expr ∈ op.exprs -> expr.ScopedIn scope) {width : Width}
    {index : Nat} (hpart : .temp width index ∈ op.parts) : SetsTemp given width index := by
  rcases List.mem_flatMap.mp hpart with ⟨expr, hmem, hpart⟩
  exact h width index ((hop expr hmem).getElem?_eq hpart)

namespace DefinedAfter

variable {given : List Op}

theorem nil : DefinedAfter given [] := by
  intro before op after hcode
  cases before <;> cases hcode

theorem cons {op : Op} {rest : List Op}
    (hop : forall {width index}, .temp width index ∈ op.parts ->
      SetsTemp given width index)
    (hrest : DefinedAfter (given ++ [op]) rest) : DefinedAfter given (op :: rest) := by
  intro before other after hcode width index hpart
  cases before with
  | nil =>
      cases hcode
      rw [List.append_nil]
      exact hop hpart
  | cons head before =>
      cases hcode
      have hset := hrest before other after rfl width index hpart
      rw [List.append_assoc] at hset
      exact hset

theorem append {first second : List Op} (h : DefinedAfter given first)
    (hsecond : DefinedAfter (given ++ first) second) :
    DefinedAfter given (first ++ second) := by
  intro before op after hcode width index hpart
  rcases List.append_eq_append_iff.mp hcode with
    ⟨between, rfl, hrest⟩ | ⟨between, hfirst, hrest⟩
  · rw [← List.append_assoc]
    exact hsecond between op after hrest width index hpart
  · cases between with
    | nil =>
        rw [List.append_nil] at hfirst
        subst hfirst
        have hset := hsecond [] op after hrest.symm width index hpart
        rw [List.append_nil] at hset
        exact hset
    | cons head between =>
        cases hrest
        exact h before op between hfirst width index hpart

/-- Code that reads only temporaries that were given. -/
theorem ofGiven {scope : Scope} (hgiven : scope.SetBy given) {code : List Op}
    (h : forall op, op ∈ code -> forall expr, expr ∈ op.exprs -> expr.ScopedIn scope) :
    DefinedAfter given code := by
  intro before op after hcode width index hpart
  have hmem : op ∈ code := hcode ▸ List.mem_append_right before List.mem_cons_self
  exact (hgiven.reads (h op hmem) hpart).mono

end DefinedAfter

namespace TempFree

theorem single {op : Op} (h : op.TempFree) : TempFree [op] :=
  List.forall_mem_singleton.mpr h

variable {code : List Op}

theorem tempsSet_eq_nil (h : TempFree code) : tempsSet code = [] :=
  List.filterMap_eq_nil_iff.mpr fun op hmem => (h op hmem).1

theorem definedAfter (h : TempFree code) (given : List Op) : DefinedAfter given code :=
  .ofGiven .nil fun op hmem => (h op hmem).2

end TempFree

/-- The expressions of a plain operation are in scope. -/
theorem Op.PlainIn.scopedIn {bound : Label} {scope : Scope} {op : Op}
    (h : op.PlainIn bound scope) : forall expr, expr ∈ op.exprs -> expr.ScopedIn scope := by
  intro expr hmem
  cases op with
  | setReg _ _ _ | setFlag _ _ | jump _ | call _ | ret _ =>
      cases List.mem_singleton.mp hmem
      exact h
  | store _ address value =>
      rcases List.mem_cons.mp hmem with rfl | hmem
      · exact h.1
      · cases List.mem_singleton.mp hmem
        exact h.2
  | goto _ | nop | unimplemented => cases hmem
  | setTemp _ _ _ | branch _ _ _ | label _ => exact h.elim

theorem Op.PlainIn.temp?_eq_none {bound : Label} {scope : Scope} {op : Op}
    (h : op.PlainIn bound scope) : op.temp? = none := by
  cases op with
  | setTemp _ _ _ => exact h.elim
  | _ => rfl

namespace Scoped

variable {bound : Label} {scope last : Scope} {code : List Op}

theorem definedAfter (h : Scoped bound scope code last) {given : List Op}
    (hgiven : scope.SetBy given) : DefinedAfter given code := by
  induction h generalizing given with
  | nil _ => exact .nil
  | plain hop _ ih =>
      exact .cons (hgiven.reads hop.scopedIn) (ih hgiven.mono)
  | @bind scope _ width value _ hvalue _ ih =>
      have hreads : forall expr, expr ∈ (Op.setTemp width scope.length value).exprs ->
          expr.ScopedIn scope := List.forall_mem_singleton.mpr hvalue
      exact .cons (hgiven.reads hreads) (ih (hgiven.setTemp width value))

/-- Straight code sets the temporaries by which its scope grows, in their order. -/
theorem tempsSet_eq (h : Scoped bound scope code last) :
    tempsSet code = List.range' scope.length (last.length - scope.length) := by
  induction h with
  | nil scope =>
      rw [Nat.sub_self]
      rfl
  | plain hop _ ih =>
      rw [tempsSet, List.filterMap_cons_none hop.temp?_eq_none]
      exact ih
  | @bind scope last width value rest _ hrest ih =>
      have hlength := hrest.isPrefix.length_le
      rw [List.length_append, List.length_singleton] at hlength ih
      have hgrown : last.length - scope.length = last.length - (scope.length + 1) + 1 := by
        omega
      rw [hgrown, List.range'_succ, ← ih]
      rfl

end Scoped

/-- The count of a loop is set before its body, which may read it, and read at its end. -/
theorem definedAfter_loop {value : Expr} (hvalue : value.ScopedIn []) {body : List Op}
    (hbody : forall given, Scope.SetBy [.word] given -> DefinedAfter given body)
    (start done : Label) :
    DefinedAfter [] (.setTemp .word 0 value :: .label start ::
      (body ++ loopEnd 0 start done)) := by
  have hnone : Scope.SetBy [] [] := .nil
  have hcount : Scope.SetBy [.word] [.setTemp .word 0 value] := hnone.setTemp .word value
  have hend : forall op, op ∈ loopEnd 0 start done -> forall expr, expr ∈ op.exprs ->
      expr.ScopedIn [.word] := by
    simp [loopEnd, Op.exprs, Expr.ScopedIn, Expr.sub, Expr.int]
  have hvalues : forall expr, expr ∈ (Op.setTemp .word 0 value).exprs ->
      expr.ScopedIn [] := List.forall_mem_singleton.mpr hvalue
  refine .cons (hnone.reads hvalues) (.cons ?_ ?_)
  · intro width index hpart
    exact absurd hpart List.not_mem_nil
  · exact (hbody _ hcount.mono).append (.ofGiven hcount.mono.mono hend)

/-!
# Temporaries that are taken
-/

namespace Emit

/-- The temporaries that an emission takes from a supply, one after the other.  Each new
one has the number at which the supply stands, and the supply then moves on by one. -/
def taken {value : Type} (emit : Emit value) (supply : Supply) : List Nat :=
  List.range' supply.temp ((emit supply).supply.temp - supply.temp)

theorem taken_newTemp (supply : Supply) :
    newTemp.taken supply = [(newTemp supply).result] := by
  rw [taken, newTemp_apply, Nat.add_sub_cancel_left]
  rfl

/-- What two emissions take one after the other, as long as the supply moves on. -/
theorem taken_bind {first second : Type} {emit : Emit first}
    {next : first -> Emit second} {supply : Supply}
    (hfirst : supply.temp ≤ (emit supply).supply.temp)
    (hnext : (emit supply).supply.temp ≤
      (next (emit supply).result (emit supply).supply).supply.temp) :
    (emit >>= next).taken supply =
      emit.taken supply ++ (next (emit supply).result).taken (emit supply).supply := by
  rcases Nat.exists_eq_add_of_le hfirst with ⟨count, hcount⟩
  rcases Nat.exists_eq_add_of_le hnext with ⟨more, hmore⟩
  have hboth : supply.temp + count + more - supply.temp = count + more := by omega
  unfold taken
  rw [bind_apply]
  dsimp only
  rw [hmore, hcount, hboth, Nat.add_sub_cancel_left, Nat.add_sub_cancel_left,
    List.range'_append_1]

/-- No temporary is taken twice. -/
theorem nodup_taken {value : Type} (emit : Emit value) (supply : Supply) :
    (emit.taken supply).Nodup :=
  List.nodup_range'

namespace StraightFrom

variable {bound : Label} {scope : Scope} {value : Type} {fits : Scope -> value -> Prop}
  {emit : Emit value}

theorem tempsSet_eq_taken (h : StraightFrom bound scope fits emit) (label : Label) :
    tempsSet (emit { temp := scope.length, label := label }).code =
      emit.taken { temp := scope.length, label := label } := by
  rcases h with ⟨result, code, last, hyields, _⟩
  rw [taken, hyields.emission]
  exact hyields.wellScoped.tempsSet_eq

theorem definedAfter (h : StraightFrom bound scope fits emit) {given : List Op}
    (hgiven : scope.SetBy given) (label : Label) :
    DefinedAfter given (emit { temp := scope.length, label := label }).code := by
  rcases h.wellScoped label with ⟨last, hscoped⟩
  exact hscoped.definedAfter hgiven

/-- The supply moves on. -/
theorem le_temp (h : StraightFrom bound scope fits emit) (label : Label) :
    scope.length ≤ (emit { temp := scope.length, label := label }).supply.temp := by
  rcases h with ⟨result, code, last, hyields, _⟩
  rw [hyields.emission]
  exact hyields.wellScoped.isPrefix.length_le

end StraightFrom

end Emit

end IL
end MSP430
