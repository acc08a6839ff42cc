/-!
# Hexadecimal text

Numbers are written with the marker `0x` and lower-case digits, either with as
few digits as possible or with at least a given number of them.
-/

namespace MSP430
namespace Hex

/-- The digits of a number, none of them superfluous; zero has one digit. -/
def digits (value : Nat) : String :=
  String.ofList (Nat.toDigits 16 value)

def text (value : Nat) : String :=
  "0x" ++ digits value

/-- At least `count` digits, filled up with zeros on the left. -/
def padded (count value : Nat) : String :=
  "0x" ++ String.ofList (List.replicate (count - (digits value).length) '0') ++
    digits value

/-- A negative number is its magnitude behind a minus sign. -/
def signed (value : Int) : String :=
  if value < 0 then
    "-" ++ text (-value).toNat
  else
    text value.toNat

end Hex
end MSP430
