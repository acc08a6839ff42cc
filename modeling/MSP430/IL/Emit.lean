import MSP430.IL.Op

/-!
# Emitting code

An emission yields a result and a list of operations, and takes the numbers of
new temporaries and labels from a supply.  It cannot see the operations emitted
before it, so what it emits can only be appended to them.
-/

namespace MSP430
namespace IL

/-- The next temporary and the next label that are not in use. -/
structure Supply where
  temp : Nat
  label : Label
  deriving DecidableEq, Repr

structure Emission (value : Type) where
  result : value
  code : List Op
  supply : Supply

def Emit (value : Type) : Type :=
  Supply -> Emission value

namespace Emit

protected def pure {value : Type} (result : value) : Emit value :=
  fun supply => { result := result, code := [], supply := supply }

protected def bind {first second : Type} (emit : Emit first)
    (next : first -> Emit second) : Emit second :=
  fun supply =>
    let before := emit supply
    let after := next before.result before.supply
    { after with code := before.code ++ after.code }

instance : Monad Emit where
  pure := Emit.pure
  bind := Emit.bind

/-- Emits one operation. -/
def op (op : Op) : Emit Unit :=
  fun supply => { result := (), code := [op], supply := supply }

/-- Emits operations in order. -/
def ops (ops : List Op) : Emit Unit :=
  fun supply => { result := (), code := ops, supply := supply }

def newTemp : Emit Nat :=
  fun supply =>
    { result := supply.temp
      code := []
      supply := { supply with temp := supply.temp + 1 } }

def newLabel : Emit Label :=
  fun supply =>
    { result := supply.label
      code := []
      supply := { supply with label := supply.label + 1 } }

/-- Keeps a value in a new temporary. -/
def save (width : Width) (value : Expr) : Emit Expr := do
  let index <- newTemp
  op (.setTemp width index value)
  return .temp width index

/-- Keeps a value in a new temporary unless it can be read again anyway. -/
def snapshot (width : Width) (value : Expr) : Emit Expr :=
  if value.isPureLeaf then
    return value
  else
    save width value

/-- Emits the same code again and again, each time with what the supply then
has. -/
def replicate : Nat -> Emit Unit -> Emit Unit
  | 0, _ => return ()
  | count + 1, emit => do
      emit
      replicate count emit

/-!
# Composition

Emissions compose as their operations do.
-/

@[simp] theorem pure_apply {value : Type} (result : value) (supply : Supply) :
    (pure result : Emit value) supply =
      { result := result, code := [], supply := supply } := rfl

@[simp] theorem bind_apply {first second : Type} (emit : Emit first)
    (next : first -> Emit second) (supply : Supply) :
    (emit >>= next) supply =
      { result := (next (emit supply).result (emit supply).supply).result
        code :=
          (emit supply).code ++
            (next (emit supply).result (emit supply).supply).code
        supply := (next (emit supply).result (emit supply).supply).supply } := rfl

@[simp] theorem op_apply (operation : Op) (supply : Supply) :
    op operation supply =
      { result := (), code := [operation], supply := supply } := rfl

@[simp] theorem ops_apply (operations : List Op) (supply : Supply) :
    ops operations supply =
      { result := (), code := operations, supply := supply } := rfl

@[simp] theorem newTemp_apply (supply : Supply) :
    newTemp supply =
      { result := supply.temp
        code := []
        supply := { supply with temp := supply.temp + 1 } } := rfl

@[simp] theorem newLabel_apply (supply : Supply) :
    newLabel supply =
      { result := supply.label
        code := []
        supply := { supply with label := supply.label + 1 } } := rfl

@[simp] theorem save_apply (width : Width) (value : Expr) (supply : Supply) :
    save width value supply =
      { result := .temp width supply.temp
        code := [.setTemp width supply.temp value]
        supply := { supply with temp := supply.temp + 1 } } := rfl

end Emit

end IL
end MSP430
