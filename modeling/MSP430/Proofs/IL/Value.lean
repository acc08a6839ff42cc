import MSP430.IL.State

/-!
# Values of expressions

What each form of expression comes to.  The truth value of a flag expression is
that of the comparison or the connective it is made with.
-/

namespace MSP430

namespace Width

@[simp] theorem truncate_truncate (width : Width) (value : Nat) :
    width.truncate (width.truncate value) = width.truncate value :=
  Nat.mod_mod value width.modulus

@[simp] theorem truncate_zero (width : Width) : width.truncate 0 = 0 :=
  Nat.zero_mod width.modulus

theorem ofInt_natCast (width : Width) (value : Nat) :
    width.ofInt (value : Int) = width.truncate value := by
  unfold ofInt truncate
  rw [← Int.natCast_emod, Int.toNat_natCast]

theorem truncate_of_lt {width : Width} {value : Nat} (h : value < width.modulus) :
    width.truncate value = value :=
  Nat.mod_eq_of_lt h

theorem complement_lt (width : Width) (value : Nat) :
    width.complement value < width.modulus := by
  have hpos := width.modulus_pos
  unfold complement mask
  omega

end Width

namespace IL
namespace Expr

variable (state : State)

theorem holds_of_eval_toNat {expr : Expr} {value : Bool}
    (h : expr.eval state = value.toNat) : expr.holds state = value := by
  unfold holds
  rw [h]
  cases value <;> rfl

@[simp] theorem holds_flag (f : Flag) : (flag f).holds state = state.flags f :=
  holds_of_eval_toNat state rfl

@[simp] theorem holds_bool (value : Bool) : (bool value).holds state = value :=
  holds_of_eval_toNat state rfl

@[simp] theorem holds_not (value : Expr) :
    (not value).holds state = !value.holds state :=
  holds_of_eval_toNat state rfl

@[simp] theorem holds_logic (op : LogicOp) (left right : Expr) :
    (logic op left right).holds state =
      op.apply (left.holds state) (right.holds state) :=
  holds_of_eval_toNat state rfl

@[simp] theorem holds_compare (op : CompareOp) (width : Width)
    (left right : Expr) :
    (compare op width left right).holds state =
      op.apply width (left.eval state) (right.eval state) :=
  holds_of_eval_toNat state rfl

@[simp] theorem eval_ofBool (width : Width) (value : Expr) :
    (ofBool width value).eval state = width.truncate (value.holds state).toNat :=
  rfl

@[simp] theorem eval_addCarry (width : Width) (left right carry : Expr) :
    (addCarry width left right carry).eval state =
      width.truncate
        (left.eval state + right.eval state + (carry.holds state).toNat) :=
  rfl

/-- A constant is worth the same in every state. -/
theorem eval_of_constant? {expr : Expr} {value : Nat}
    (h : expr.constant? = some value) : expr.eval state = value := by
  cases expr with
  | const _ _ | pointer _ _ =>
      cases h
      rfl
  | _ => cases h

@[simp] theorem eval_int (width : Width) (value : Nat) :
    (int width value).eval state = width.truncate value := rfl

end Expr
end IL

end MSP430
