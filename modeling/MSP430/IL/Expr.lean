import MSP430.Flag
import MSP430.Hex
import MSP430.Register
import MSP430.Width

/-!
# Expressions of the intermediate language

A value expression carries its width; flags, comparisons and their combinations
are single-bit truth values and have none.
-/

namespace MSP430
namespace IL

inductive BinaryOp where
  | add | sub | and | or | xor
  | lsl | lsr | asr | rol
  deriving DecidableEq, Repr

inductive UnaryOp where
  | not
  | signExtend
  | zeroExtend
  | lowPart
  deriving DecidableEq, Repr

inductive CompareOp where
  | equal
  | notEqual
  | signedLessThan
  | unsignedLessThan
  | unsignedGreaterEqual
  | unsignedGreaterThan
  deriving DecidableEq, Repr

inductive LogicOp where
  | and | or | xor
  deriving DecidableEq, Repr

inductive Expr where
  | reg (width : Width) (register : Register)
  | temp (width : Width) (index : Nat)
  | const (width : Width) (value : Nat)
  /-- A constant that is an address. -/
  | pointer (width : Width) (value : Nat)
  | flag (flag : Flag)
  | bool (value : Bool)
  | load (width : Width) (address : Expr)
  | binary (op : BinaryOp) (width : Width) (left right : Expr)
  /-- The sum of two values and a truth value. -/
  | addCarry (width : Width) (left right carry : Expr)
  /-- One step to the right, with a truth value entering at the top. -/
  | rotateCarry (width : Width) (value carry : Expr)
  | unary (op : UnaryOp) (width : Width) (value : Expr)
  | compare (op : CompareOp) (width : Width) (left right : Expr)
  | logic (op : LogicOp) (left right : Expr)
  | not (value : Expr)
  /-- Zero or one for a truth value. -/
  | ofBool (width : Width) (value : Expr)
  deriving DecidableEq, Repr

namespace BinaryOp

def all : List BinaryOp :=
  [add, sub, and, or, xor, lsl, lsr, asr, rol]

def name : BinaryOp -> String
  | add => "Add"
  | sub => "Sub"
  | and => "And"
  | or => "Or"
  | xor => "Xor"
  | lsl => "Lsl"
  | lsr => "Lsr"
  | asr => "Asr"
  | rol => "Rol"

end BinaryOp

namespace UnaryOp

def all : List UnaryOp :=
  [not, signExtend, zeroExtend, lowPart]

def name : UnaryOp -> String
  | not => "Not"
  | signExtend => "SignExtend"
  | zeroExtend => "ZeroExtend"
  | lowPart => "LowPart"

end UnaryOp

namespace CompareOp

def all : List CompareOp :=
  [equal, notEqual, signedLessThan, unsignedLessThan, unsignedGreaterEqual,
    unsignedGreaterThan]

def name : CompareOp -> String
  | equal => "Equal"
  | notEqual => "NotEqual"
  | signedLessThan => "SignedLessThan"
  | unsignedLessThan => "UnsignedLessThan"
  | unsignedGreaterEqual => "UnsignedGreaterEqual"
  | unsignedGreaterThan => "UnsignedGreaterThan"

end CompareOp

namespace LogicOp

def all : List LogicOp :=
  [and, or, xor]

def name : LogicOp -> String
  | and => "And"
  | or => "Or"
  | xor => "Xor"

end LogicOp

namespace Expr

/-- The width of a value expression; truth values have none. -/
def width? : Expr -> Option Width
  | reg width _ | temp width _ | const width _ | pointer width _ => some width
  | load width _ | binary _ width _ _ | addCarry width _ _ _ => some width
  | rotateCarry width _ _ | unary _ width _ | ofBool width _ => some width
  | flag _ | bool _ | compare _ _ _ _ | logic _ _ _ | not _ => none

/-- The value of a constant. -/
def constant? : Expr -> Option Nat
  | const _ value | pointer _ value => some value
  | _ => none

/-- Whether the expression can be read any number of times at no cost and with
the same result. -/
def isPureLeaf : Expr -> Bool
  | reg _ _ | temp _ _ | const _ _ | pointer _ _ | flag _ | bool _ => true
  | _ => false

/-!
# Constructors

Constants are truncated to their width when they are built.
-/

def int (width : Width) (value : Nat) : Expr :=
  .const width (width.truncate value)

def address (width : Width) (value : Nat) : Expr :=
  .pointer width (width.truncate value)

def add (width : Width) (left right : Expr) : Expr :=
  .binary .add width left right

def sub (width : Width) (left right : Expr) : Expr :=
  .binary .sub width left right

def and (width : Width) (left right : Expr) : Expr :=
  .binary .and width left right

def or (width : Width) (left right : Expr) : Expr :=
  .binary .or width left right

def xor (width : Width) (left right : Expr) : Expr :=
  .binary .xor width left right

def lsl (width : Width) (left right : Expr) : Expr :=
  .binary .lsl width left right

def lsr (width : Width) (left right : Expr) : Expr :=
  .binary .lsr width left right

def asr (width : Width) (left right : Expr) : Expr :=
  .binary .asr width left right

def rol (width : Width) (left right : Expr) : Expr :=
  .binary .rol width left right

/-- Every bit inverted. -/
def complement (width : Width) (value : Expr) : Expr :=
  .unary .not width value

def signExtend (width : Width) (value : Expr) : Expr :=
  .unary .signExtend width value

def zeroExtend (width : Width) (value : Expr) : Expr :=
  .unary .zeroExtend width value

def lowPart (width : Width) (value : Expr) : Expr :=
  .unary .lowPart width value

/-!
# Text
-/

def text : Expr -> String
  | reg width register => register.name ++ "." ++ width.suffix
  | temp width index => "temp" ++ toString index ++ "." ++ width.suffix
  | const _ value => Hex.text value
  | pointer _ value => "&" ++ Hex.text value
  | flag f => f.name
  | bool value => if value then "true" else "false"
  | load width address => "[" ++ address.text ++ "]." ++ width.suffix
  | binary op width left right =>
      op.name ++ "." ++ width.suffix ++
        "(" ++ left.text ++ ", " ++ right.text ++ ")"
  | addCarry width left right carry =>
      "adc." ++ width.suffix ++
        "(" ++ left.text ++ ", " ++ right.text ++ ", " ++ carry.text ++ ")"
  | rotateCarry width value carry =>
      "rrc." ++ width.suffix ++ "(" ++ value.text ++ ", " ++ carry.text ++ ")"
  | unary op width value =>
      op.name ++ "." ++ width.suffix ++ "(" ++ value.text ++ ")"
  | compare op width left right =>
      op.name ++ "." ++ width.suffix ++
        "(" ++ left.text ++ ", " ++ right.text ++ ")"
  | logic op left right =>
      op.name ++ "(" ++ left.text ++ ", " ++ right.text ++ ")"
  | not value => "!" ++ value.text
  | ofBool width value => "int." ++ width.suffix ++ "(" ++ value.text ++ ")"

end Expr

end IL
end MSP430
