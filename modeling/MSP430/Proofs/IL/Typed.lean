import MSP430.Proofs.IL.Emitted

/-!
# Well-typed code

An expression is a value of some width or a truth value, and its head alone says
which.  It is well typed when its parts are what their places ask for as well: truth
values where truth is tested, values of the width of the operation where it computes,
words or addresses where memory is reached, and constants that fit their width.
-/

namespace MSP430
namespace IL

/-- The widths of the values that a unary operator takes to a width. -/
def UnaryOp.Takes (op : UnaryOp) (width source : Width) : Prop :=
  match op with
  | not => source = width
  | signExtend | zeroExtend => source.bits ≤ width.bits
  | lowPart => width.bits ≤ source.bits

namespace Expr

def WellTyped : Expr -> Prop
  | reg _ _ | temp _ _ | flag _ | bool _ => True
  | const width value | pointer width value => value < width.modulus
  | load _ address =>
      address.WellTyped ∧
        (address.width? = some .word ∨ address.width? = some .address)
  | binary _ width left right | compare _ width left right =>
      (left.WellTyped ∧ left.width? = some width) ∧
        (right.WellTyped ∧ right.width? = some width)
  | addCarry width left right carry =>
      (left.WellTyped ∧ left.width? = some width) ∧
        (right.WellTyped ∧ right.width? = some width) ∧
        (carry.WellTyped ∧ carry.width? = none)
  | rotateCarry width value carry =>
      (value.WellTyped ∧ value.width? = some width) ∧
        (carry.WellTyped ∧ carry.width? = none)
  | unary op width value =>
      value.WellTyped ∧ ∃ source ∈ value.width?, op.Takes width source
  | logic _ left right =>
      (left.WellTyped ∧ left.width? = none) ∧
        (right.WellTyped ∧ right.width? = none)
  | not value | ofBool _ value => value.WellTyped ∧ value.width? = none

/-- A well-typed value of the width. -/
def IsValue (width : Width) (expr : Expr) : Prop :=
  expr.WellTyped ∧ expr.width? = some width

/-- A well-typed truth value. -/
def IsTruth (expr : Expr) : Prop :=
  expr.WellTyped ∧ expr.width? = none

/-- A well-typed value that is wide enough to say where something lies in memory. -/
def IsLocation (expr : Expr) : Prop :=
  expr.WellTyped ∧ (expr.width? = some .word ∨ expr.width? = some .address)

end Expr

/-- The operation puts a value of its own width into a place, tests a truth value, or
leaves for a value. -/
def Op.WellTyped : Op -> Prop
  | setReg width _ value | setTemp width _ value => value.IsValue width
  | setFlag _ value => value.IsTruth
  | store width address value => address.IsLocation ∧ value.IsValue width
  | jump target | call target | ret target => exists width, target.IsValue width
  | branch condition _ _ => condition.IsTruth
  | goto _ | nop | label _ | unimplemented => True

/-!
# Typing by evaluation

Whether code is well typed can be computed.
-/

instance (op : UnaryOp) (width source : Width) : Decidable (op.Takes width source) :=
  match op with
  | .not => inferInstanceAs (Decidable (source = width))
  | .signExtend | .zeroExtend => inferInstanceAs (Decidable (source.bits ≤ width.bits))
  | .lowPart => inferInstanceAs (Decidable (width.bits ≤ source.bits))

namespace Expr

instance decidableWellTyped : (expr : Expr) -> Decidable expr.WellTyped
  | reg _ _ | temp _ _ | flag _ | bool _ => inferInstanceAs (Decidable True)
  | const width value | pointer width value =>
      inferInstanceAs (Decidable (value < width.modulus))
  | load _ address | not address | ofBool _ address =>
      have := decidableWellTyped address
      inferInstanceAs (Decidable (_ ∧ _))
  | binary _ _ left right | compare _ _ left right | logic _ left right
  | rotateCarry _ left right =>
      have := decidableWellTyped left
      have := decidableWellTyped right
      inferInstanceAs (Decidable ((_ ∧ _) ∧ (_ ∧ _)))
  | addCarry _ left right carry =>
      have := decidableWellTyped left
      have := decidableWellTyped right
      have := decidableWellTyped carry
      inferInstanceAs (Decidable ((_ ∧ _) ∧ (_ ∧ _) ∧ (_ ∧ _)))
  | unary op width value =>
      have := decidableWellTyped value
      inferInstanceAs
        (Decidable (_ ∧ ∃ source ∈ value.width?, op.Takes width source))

instance (width : Width) (expr : Expr) : Decidable (expr.IsValue width) :=
  inferInstanceAs (Decidable (_ ∧ _))

instance (expr : Expr) : Decidable expr.IsTruth :=
  inferInstanceAs (Decidable (_ ∧ _))

instance (expr : Expr) : Decidable expr.IsLocation :=
  inferInstanceAs (Decidable (_ ∧ (_ ∨ _)))

/-!
# Expressions

How well-typed expressions are put together.
-/

theorem isValue_reg (width : Width) (r : Register) : (reg width r).IsValue width :=
  ⟨trivial, rfl⟩

theorem isValue_temp (width : Width) (index : Nat) : (temp width index).IsValue width :=
  ⟨trivial, rfl⟩

theorem isValue_int (width : Width) (value : Nat) : (int width value).IsValue width :=
  ⟨width.truncate_lt value, rfl⟩

theorem isValue_address (width : Width) (value : Nat) :
    (address width value).IsValue width :=
  ⟨width.truncate_lt value, rfl⟩

theorem isTruth_flag (f : Flag) : (flag f).IsTruth :=
  ⟨trivial, rfl⟩

theorem isTruth_bool (value : Bool) : (bool value).IsTruth :=
  ⟨trivial, rfl⟩

namespace IsValue

variable {width : Width} {value left right carry : Expr}

theorem isLocation (h : value.IsValue width) (hwidth : width ≠ .byte) :
    value.IsLocation := by
  refine ⟨h.1, ?_⟩
  cases width with
  | byte => exact absurd rfl hwidth
  | word => exact .inl h.2
  | address => exact .inr h.2

theorem binary (hleft : left.IsValue width) (hright : right.IsValue width)
    (op : BinaryOp) : (Expr.binary op width left right).IsValue width :=
  ⟨⟨hleft, hright⟩, rfl⟩

theorem addCarry (hleft : left.IsValue width) (hright : right.IsValue width)
    (hcarry : carry.IsTruth) : (Expr.addCarry width left right carry).IsValue width :=
  ⟨⟨hleft, hright, hcarry⟩, rfl⟩

theorem rotateCarry (hvalue : value.IsValue width) (hcarry : carry.IsTruth) :
    (Expr.rotateCarry width value carry).IsValue width :=
  ⟨⟨hvalue, hcarry⟩, rfl⟩

theorem unary {source : Width} (hvalue : value.IsValue source) {op : UnaryOp}
    (htakes : op.Takes width source) : (Expr.unary op width value).IsValue width :=
  ⟨⟨hvalue.1, source, hvalue.2, htakes⟩, rfl⟩

theorem complement (hvalue : value.IsValue width) :
    (Expr.complement width value).IsValue width :=
  hvalue.unary rfl

theorem compare (hleft : left.IsValue width) (hright : right.IsValue width)
    (op : CompareOp) : (Expr.compare op width left right).IsTruth :=
  ⟨⟨hleft, hright⟩, rfl⟩

end IsValue

theorem IsLocation.load {location : Expr} (h : location.IsLocation) (width : Width) :
    (Expr.load width location).IsValue width :=
  ⟨h, rfl⟩

namespace IsTruth

variable {left right value : Expr}

theorem logic (hleft : left.IsTruth) (hright : right.IsTruth) (op : LogicOp) :
    (Expr.logic op left right).IsTruth :=
  ⟨⟨hleft, hright⟩, rfl⟩

theorem not (hvalue : value.IsTruth) : (Expr.not value).IsTruth :=
  ⟨hvalue, rfl⟩

theorem ofBool (hvalue : value.IsTruth) (width : Width) :
    (Expr.ofBool width value).IsValue width :=
  ⟨hvalue, rfl⟩

end IsTruth
end Expr

/-!
# Code
-/

def WellTyped (code : List Op) : Prop :=
  forall op, op ∈ code -> op.WellTyped

instance : Composes WellTyped :=
  .ofEach Op.WellTyped

/-- The operation is well typed, and it is one that could be given. -/
def Op.Proper (op : Op) : Prop :=
  op.WellTyped ∧ op ≠ .unimplemented

def Proper (code : List Op) : Prop :=
  forall op, op ∈ code -> op.Proper

instance : Composes Proper :=
  .ofEach Op.Proper

namespace Proper

theorem wellTyped {code : List Op} (h : Proper code) : WellTyped code :=
  fun op hmem => (h op hmem).1

theorem single {op : Op} (h : op.WellTyped) (hgiven : op ≠ .unimplemented) :
    Proper [op] :=
  List.forall_mem_singleton.mpr ⟨h, hgiven⟩

variable {width : Width} {value : Expr}

theorem setReg (register : Register) (h : value.IsValue width) :
    Proper [.setReg width register value] :=
  single h nofun

theorem setTemp (index : Nat) (h : value.IsValue width) :
    Proper [.setTemp width index value] :=
  single h nofun

theorem setFlag (flag : Flag) (h : value.IsTruth) : Proper [.setFlag flag value] :=
  single h nofun

theorem store {location : Expr} (hlocation : location.IsLocation)
    (hvalue : value.IsValue width) : Proper [.store width location value] :=
  single ⟨hlocation, hvalue⟩ nofun

theorem jump (h : value.IsValue width) : Proper [.jump value] :=
  single ⟨width, h⟩ nofun

theorem call (h : value.IsValue width) : Proper [.call value] :=
  single ⟨width, h⟩ nofun

theorem ret (h : value.IsValue width) : Proper [.ret value] :=
  single ⟨width, h⟩ nofun

end Proper

/-- What is kept in a temporary is read from it at the same width. -/
theorem Emit.proper_save {width : Width} {value : Expr} (h : value.IsValue width) :
    Emits Proper (Expr.IsValue width) (save width value) :=
  .save (fun index => .setTemp index h) (Expr.isValue_temp width)

theorem Emit.proper_snapshot {width : Width} {value : Expr} (h : value.IsValue width) :
    Emits Proper (Expr.IsValue width) (snapshot width value) :=
  .snapshot h (fun index => .setTemp index h) (Expr.isValue_temp width)

end IL
end MSP430
