import MSP430.IL.Emit

/-!
# Code emitted from every supply

A property of code that holds of a whole as soon as it holds of its parts is
followed through an emission step by step: whatever temporaries and labels are
free, the code has the property, and the result fits what later steps make of
it.
-/

namespace MSP430
namespace IL

/-!
# Expressions
-/

/-- The property holds of constants, flags and temporaries, and of a compound
expression when it holds of its parts.  It may tell registers apart. -/
structure Expr.Closed (fits : Expr -> Prop) : Prop where
  temp : forall width index, fits (.temp width index)
  const : forall width value, fits (.const width value)
  pointer : forall width value, fits (.pointer width value)
  flag : forall f, fits (.flag f)
  bool : forall value, fits (.bool value)
  load : forall {width address}, fits address -> fits (.load width address)
  binary : forall {op width left right},
    fits left -> fits right -> fits (.binary op width left right)
  addCarry : forall {width left right carry},
    fits left -> fits right -> fits carry ->
      fits (.addCarry width left right carry)
  rotateCarry : forall {width value carry},
    fits value -> fits carry -> fits (.rotateCarry width value carry)
  unary : forall {op width value}, fits value -> fits (.unary op width value)
  compare : forall {op width left right},
    fits left -> fits right -> fits (.compare op width left right)
  logic : forall {op left right},
    fits left -> fits right -> fits (.logic op left right)
  not : forall {value}, fits value -> fits (.not value)
  ofBool : forall {width value}, fits value -> fits (.ofBool width value)

theorem Expr.closed_true : Closed fun _ => True := by
  constructor <;> intros <;> trivial

/-- The operation puts only values of the property into places, or does
nothing. -/
def Op.SetsOnly (fits : Expr -> Prop) : Op -> Prop
  | setReg _ _ value | setTemp _ _ value | setFlag _ value => fits value
  | store _ address value => fits address ∧ fits value
  | nop | unimplemented => True
  | jump _ | goto _ | branch _ _ _ | call _ | ret _ | label _ => False

/-!
# Emissions
-/

/-- The property of code holds of a whole when it holds of its parts. -/
class Composes (good : List Op -> Prop) : Prop where
  nil : good []
  append : forall {first second : List Op},
    good first -> good second -> good (first ++ second)

namespace Composes

theorem ofEach (fits : Op -> Prop) :
    Composes fun code => forall op, op ∈ code -> fits op where
  nil := nofun
  append hfirst hsecond := by
    intro op hmem
    rcases List.mem_append.mp hmem with hmem | hmem
    · exact hfirst op hmem
    · exact hsecond op hmem

variable {good : List Op -> Prop} [Composes good]

theorem cons {op : Op} {rest : List Op} (hop : good [op]) (hrest : good rest) :
    good (op :: rest) :=
  append hop hrest

theorem all {code : List Op} (h : forall op, op ∈ code -> good [op]) :
    good code := by
  induction code with
  | nil => exact nil
  | cons op rest ih =>
      apply cons (h op List.mem_cons_self)
      apply ih
      intro other hmem
      exact h other (List.mem_cons_of_mem op hmem)

theorem flatMap {value : Type} {values : List value} {emits : value -> List Op}
    (h : forall v, v ∈ values -> good (emits v)) : good (values.flatMap emits) := by
  induction values with
  | nil => exact nil
  | cons head rest ih =>
      rw [List.flatMap_cons]
      apply append (h head List.mem_cons_self)
      apply ih
      intro v hmem
      exact h v (List.mem_cons_of_mem head hmem)

end Composes

namespace Emit

/-- From every supply the code has the property and the result fits. -/
structure Emits {value : Type} (good : List Op -> Prop) (fits : value -> Prop)
    (emit : Emit value) : Prop where
  code : forall supply, good (emit supply).code
  result : forall supply, fits (emit supply).result

/-- From every supply the code has the property; there is no result to look
at. -/
abbrev EmitsCode (good : List Op -> Prop) (emit : Emit Unit) : Prop :=
  Emits good (fun _ => True) emit

namespace Emits

variable {good : List Op -> Prop}

theorem mono {good' : List Op -> Prop} {value : Type} {fits : value -> Prop}
    {emit : Emit value} (h : Emits good fits emit)
    (hgood : forall code, good code -> good' code) : Emits good' fits emit where
  code := fun supply => hgood _ (h.code supply)
  result := h.result

theorem ops {code : List Op} (h : good code) : EmitsCode good (Emit.ops code) where
  code := fun _ => h
  result := fun _ => trivial

theorem op {operation : Op} (h : good [operation]) :
    EmitsCode good (Emit.op operation) :=
  ops h

theorem save {fits : Expr -> Prop} {width : Width} {value : Expr}
    (hset : forall index, good [.setTemp width index value])
    (htemp : forall index, fits (.temp width index)) :
    Emits good fits (Emit.save width value) where
  code := fun _ => hset _
  result := fun _ => htemp _

section

variable [Composes good]

theorem pure {value : Type} {fits : value -> Prop} {result : value}
    (h : fits result) : Emits good fits (Pure.pure result) where
  code := fun _ => Composes.nil
  result := fun _ => h

theorem bind {first second : Type} {fits : first -> Prop}
    {fits' : second -> Prop} {emit : Emit first} {next : first -> Emit second}
    (hfirst : Emits good fits emit)
    (hnext : forall result, fits result -> Emits good fits' (next result)) :
    Emits good fits' (emit >>= next) where
  code := by
    intro supply
    have hafter := hnext _ (hfirst.result supply)
    exact Composes.append (hfirst.code supply) (hafter.code _)
  result := by
    intro supply
    have hafter := hnext _ (hfirst.result supply)
    exact hafter.result _

/-- One emission after another, where the first has no result. -/
theorem seq {second : Type} {fits : second -> Prop} {emit : Emit Unit}
    {next : Unit -> Emit second} (hfirst : EmitsCode good emit)
    (hnext : Emits good fits (next ())) : Emits good fits (emit >>= next) :=
  hfirst.bind fun _ _ => hnext

theorem newTemp : Emits good (fun _ => True) Emit.newTemp where
  code := fun _ => Composes.nil
  result := fun _ => trivial

theorem newLabel : Emits good (fun _ => True) Emit.newLabel where
  code := fun _ => Composes.nil
  result := fun _ => trivial

theorem snapshot {fits : Expr -> Prop} {width : Width} {value : Expr}
    (hvalue : fits value)
    (hset : forall index, good [.setTemp width index value])
    (htemp : forall index, fits (.temp width index)) :
    Emits good fits (Emit.snapshot width value) := by
  unfold Emit.snapshot
  split
  · exact pure hvalue
  · exact save hset htemp

theorem replicate {emit : Emit Unit} (h : EmitsCode good emit) (count : Nat) :
    EmitsCode good (Emit.replicate count emit) := by
  induction count with
  | zero => exact pure trivial
  | succ count ih => exact h.seq ih

end

end Emits

end Emit
end IL
end MSP430
