import MSP430.IL.Emit
import MSP430.Proofs.IL.Block

/-!
# Emissions of straight code

An emission is straight when, whatever labels are free, it emits the same
straight code, takes no label, and numbers its temporaries on from the scope it
starts in.  Such emissions compose.
-/

namespace MSP430
namespace IL
namespace Emit

/-- From a scope on, the emission has this result and this code, which leads to
the last scope; labels play no part in it. -/
structure Yields {value : Type} (bound : Label) (emit : Emit value)
    (scope : Scope) (result : value) (code : List Op) (last : Scope) : Prop where
  emission : forall label : Label,
    emit { temp := scope.length, label := label } =
      { result := result
        code := code
        supply := { temp := last.length, label := label } }
  wellScoped : Scoped bound scope code last

/-- The emission is straight from a scope on, and its result fits the scope it
leads to. -/
def StraightFrom {value : Type} (bound : Label) (scope : Scope)
    (fits : Scope -> value -> Prop) (emit : Emit value) : Prop :=
  exists result code last,
    Yields bound emit scope result code last ∧ fits last result

/-- The results of emissions that have none. -/
def anyResult {value : Type} (_ : Scope) (_ : value) : Prop :=
  True

def readable (scope : Scope) (expr : Expr) : Prop :=
  expr.ScopedIn scope

namespace StraightFrom

variable {bound : Label} {scope : Scope}

theorem pure {value : Type} {fits : Scope -> value -> Prop} {result : value}
    (h : fits scope result) :
    StraightFrom bound scope fits (Pure.pure result) := by
  refine ⟨result, [], scope, ⟨?_, .nil scope⟩, h⟩
  intro label
  rfl

theorem bind {first second : Type} {fits : Scope -> first -> Prop}
    {fits' : Scope -> second -> Prop} {emit : Emit first}
    {next : first -> Emit second} (hfirst : StraightFrom bound scope fits emit)
    (hnext : forall wider result, scope <+: wider -> fits wider result ->
      StraightFrom bound wider fits' (next result)) :
    StraightFrom bound scope fits' (emit >>= next) := by
  rcases hfirst with ⟨result, code, middle, hyields, hfits⟩
  have hprefix := hyields.wellScoped.isPrefix
  rcases hnext middle result hprefix hfits with
    ⟨result', code', last, hyields', hfits'⟩
  refine ⟨result', code ++ code', last, ⟨?_, ?_⟩, hfits'⟩
  · intro label
    rw [bind_apply, hyields.emission, hyields'.emission]
  · exact hyields.wellScoped.append hyields'.wellScoped

theorem ops {code : List Op}
    (h : forall op, op ∈ code -> op.PlainIn bound scope) :
    StraightFrom bound scope anyResult (Emit.ops code) := by
  refine ⟨(), code, scope, ⟨?_, .ofPlain h⟩, trivial⟩
  intro label
  rfl

theorem op {operation : Op} (h : operation.PlainIn bound scope) :
    StraightFrom bound scope anyResult (Emit.op operation) := by
  apply ops
  intro other hmem
  rw [List.mem_singleton.mp hmem]
  exact h

theorem save {width : Width} {value : Expr} (h : value.ScopedIn scope) :
    StraightFrom bound scope readable (Emit.save width value) := by
  refine ⟨.temp width scope.length, [.setTemp width scope.length value],
    scope ++ [width], ⟨?_, .bind h (.nil _)⟩, Expr.scopedIn_last scope width⟩
  intro label
  rw [save_apply, List.length_append]
  rfl

theorem snapshot {width : Width} {value : Expr} (h : value.ScopedIn scope) :
    StraightFrom bound scope readable (Emit.snapshot width value) := by
  unfold Emit.snapshot
  split
  · exact pure h
  · exact save h

theorem replicate {emit : Emit Unit}
    (h : forall wider, StraightFrom bound wider anyResult emit) (count : Nat) :
    StraightFrom bound scope anyResult (Emit.replicate count emit) := by
  induction count generalizing scope with
  | zero => exact pure trivial
  | succ count ih =>
      apply (h scope).bind
      intro wider _ _ _
      exact ih

section Code

variable {value : Type} {fits : Scope -> value -> Prop} {emit : Emit value}

theorem wellScoped (h : StraightFrom bound scope fits emit) (label : Label) :
    exists last,
      Scoped bound scope
        (emit { temp := scope.length, label := label }).code last := by
  rcases h with ⟨result, code, last, hyields, _⟩
  exists last
  rw [hyields.emission]
  exact hyields.wellScoped

theorem code_eq (h : StraightFrom bound scope fits emit) (label other : Label) :
    (emit { temp := scope.length, label := label }).code =
      (emit { temp := scope.length, label := other }).code := by
  rcases h with ⟨result, code, last, hyields, _⟩
  rw [hyields.emission, hyields.emission]

theorem label_eq (h : StraightFrom bound scope fits emit) (label : Label) :
    (emit { temp := scope.length, label := label }).supply.label = label := by
  rcases h with ⟨result, code, last, hyields, _⟩
  rw [hyields.emission]

theorem realises (h : StraightFrom bound scope fits emit) (label other : Label) :
    Realises bound (emit { temp := scope.length, label := label }).code
      (outcome (emit { temp := scope.length, label := other }).code) := by
  rcases h.wellScoped label with ⟨last, hscoped⟩
  rw [h.code_eq other label]
  exact hscoped.realises

end Code

end StraightFrom

end Emit
end IL
end MSP430
