import MSP430.IL.Expr

/-!
# Machine states and values

What the intermediate language is about: registers, flags, memory and
temporaries, and the value of an expression in a state.  Truth values are the
numbers zero and one.  Registers keep whatever was written to them; reading one
at a width truncates it.
-/

namespace MSP430
namespace IL

structure State where
  regs : Register -> Nat
  flags : Flag -> Bool
  memory : Nat -> UInt8
  temps : Nat -> Nat

namespace State

def setReg (state : State) (register : Register) (value : Nat) : State :=
  { state with
    regs := fun r => if r = register then value else state.regs r }

def setFlag (state : State) (flag : Flag) (value : Bool) : State :=
  { state with
    flags := fun f => if f = flag then value else state.flags f }

def setTemp (state : State) (index value : Nat) : State :=
  { state with
    temps := fun i => if i = index then value else state.temps i }

/-- The bytes a value of a width takes in memory. -/
def bytes : Width -> Nat
  | .byte => 1
  | .word => 2
  | .address => 4

/-- The little-endian number in `count` bytes from an address on. -/
def loadBytes (memory : Nat -> UInt8) : Nat -> Nat -> Nat
  | 0, _ => 0
  | count + 1, address =>
      (memory address).toNat + 0x100 * loadBytes memory count (address + 1)

/-- Writes the low `count` bytes of a number from an address on. -/
def storeBytes (memory : Nat -> UInt8) : Nat -> Nat -> Nat -> Nat -> UInt8
  | 0, _, _ => memory
  | count + 1, address, value => fun a =>
      if a = address then
        UInt8.ofNat value
      else
        storeBytes memory count (address + 1) (value / 0x100) a

theorem storeBytes_of_lt (memory : Nat -> UInt8) {a : Nat} :
    forall (count address value : Nat), a < address ->
      storeBytes memory count address value a = memory a
  | 0, _, _, _ => rfl
  | count + 1, address, value, h => by
      have hne : a ≠ address := by omega
      simp only [storeBytes, hne, if_false]
      exact storeBytes_of_lt memory count (address + 1) (value / 0x100)
        (by omega)

theorem storeBytes_of_ge (memory : Nat -> UInt8) {a : Nat} :
    forall (count address value : Nat), address + count ≤ a ->
      storeBytes memory count address value a = memory a
  | 0, _, _, _ => rfl
  | count + 1, address, value, h => by
      have hne : a ≠ address := by omega
      simp only [storeBytes, hne, if_false]
      exact storeBytes_of_ge memory count (address + 1) (value / 0x100)
        (by omega)

/-- What is loaded depends only on the bytes it is loaded from. -/
theorem loadBytes_congr {first second : Nat -> UInt8} :
    forall (count address : Nat),
      (forall a, address ≤ a -> a < address + count -> first a = second a) ->
      loadBytes first count address = loadBytes second count address
  | 0, _, _ => rfl
  | count + 1, address, h => by
      simp only [loadBytes]
      rw [h address (by omega) (by omega)]
      rw [loadBytes_congr count (address + 1)]
      intro a hlow hhigh
      exact h a (by omega) (by omega)

/-- A number that was stored is loaded again, as far as its bytes reach. -/
theorem loadBytes_storeBytes (memory : Nat -> UInt8) :
    forall (count address value : Nat),
      loadBytes (storeBytes memory count address value) count address =
        value % (1 <<< (8 * count))
  | 0, _, value => by
      simp [loadBytes, Nat.mod_one]
  | count + 1, address, value => by
      have hrest :
          loadBytes (storeBytes memory (count + 1) address value) count
              (address + 1) =
            loadBytes (storeBytes memory count (address + 1) (value / 0x100))
              count (address + 1) := by
        apply loadBytes_congr
        intro a hlow _
        have hne : a ≠ address := by omega
        simp [storeBytes, hne]
      simp only [loadBytes]
      rw [hrest, loadBytes_storeBytes memory count (address + 1) (value / 0x100)]
      have hshift : 1 <<< (8 * (count + 1)) = 0x100 * (1 <<< (8 * count)) := by
        rw [Nat.mul_succ, Nat.shiftLeft_add, Nat.shiftLeft_eq, Nat.mul_comm]
      rw [hshift, Nat.mod_mul]
      simp [storeBytes]

def load (state : State) (width : Width) (address : Nat) : Nat :=
  width.truncate (loadBytes state.memory (bytes width) address)

def store (state : State) (width : Width) (address value : Nat) : State :=
  { state with
    memory :=
      storeBytes state.memory (bytes width) address (width.truncate value) }

end State

/-!
# Values
-/

namespace BinaryOp

/-- The value of an operator; the left operand is truncated first. -/
def apply (op : BinaryOp) (width : Width) (left right : Nat) : Nat :=
  let left := width.truncate left
  match op with
  | add => width.truncate (left + right)
  | sub => width.truncate (left + (width.modulus - width.truncate right))
  | and => width.truncate (left &&& right)
  | or => width.truncate (left ||| right)
  | xor => width.truncate (left ^^^ right)
  | lsl => width.truncate (left <<< right)
  | lsr => left >>> right
  | asr => width.ofInt (width.toInt left >>> right)
  | rol =>
      width.truncate (left <<< (right % width.bits)) +
        left >>> (width.bits - right % width.bits)

end BinaryOp

namespace UnaryOp

/-- The value of an operator on an operand of the width `source`. -/
def apply (op : UnaryOp) (width source : Width) (value : Nat) : Nat :=
  match op with
  | not => width.complement value
  | signExtend => width.ofInt (source.toInt value)
  | zeroExtend | lowPart => width.truncate value

end UnaryOp

namespace CompareOp

def apply (op : CompareOp) (width : Width) (left right : Nat) : Bool :=
  let l := width.truncate left
  let r := width.truncate right
  match op with
  | equal => decide (l = r)
  | notEqual => decide (l ≠ r)
  | signedLessThan => decide (width.toInt l < width.toInt r)
  | unsignedLessThan => decide (l < r)
  | unsignedGreaterEqual => decide (r ≤ l)
  | unsignedGreaterThan => decide (r < l)

end CompareOp

namespace LogicOp

def apply (op : LogicOp) (left right : Bool) : Bool :=
  match op with
  | and => left && right
  | or => left || right
  | xor => left != right

end LogicOp

namespace Expr

/-- The value of an expression in a state. -/
def eval (state : State) : Expr -> Nat
  | reg width register => width.truncate (state.regs register)
  | temp width index => width.truncate (state.temps index)
  | const _ value | pointer _ value => value
  | flag f => (state.flags f).toNat
  | bool value => value.toNat
  | load width address => state.load width (address.eval state)
  | binary op width left right =>
      op.apply width (left.eval state) (right.eval state)
  | addCarry width left right carry =>
      width.truncate
        (left.eval state + right.eval state +
          (decide (carry.eval state ≠ 0)).toNat)
  | rotateCarry width value carry =>
      width.truncate
        (value.eval state / 2 +
          (if carry.eval state ≠ 0 then width.signBit else 0))
  | unary op width value =>
      op.apply width (value.width?.getD .byte) (value.eval state)
  | compare op width left right =>
      (op.apply width (left.eval state) (right.eval state)).toNat
  | logic op left right =>
      (op.apply (decide (left.eval state ≠ 0)) (decide (right.eval state ≠ 0))).toNat
  | not value => (!decide (value.eval state ≠ 0)).toNat
  | ofBool width value =>
      width.truncate (decide (value.eval state ≠ 0)).toNat

/-- The truth value of an expression in a state. -/
def holds (state : State) (expr : Expr) : Bool :=
  decide (expr.eval state ≠ 0)

end Expr

end IL
end MSP430
