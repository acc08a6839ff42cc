import MSP430.Hex

/-!
# Decoding errors

Why bytes are not an instruction: there are too few of them, or the opcode word
is reserved.  A caller that walks a region usually stops at the first and steps
over the second.
-/

namespace MSP430

inductive DecodeError where
  /-- From the base address on, `needed` bytes are wanted and `available` are
  there. -/
  | truncated (address : UInt64) (needed available : Nat)
  | illegal (address : UInt64) (word : Nat)
  deriving DecidableEq, Repr

namespace DecodeError

/-- The base address of the decoding that failed. -/
def address : DecodeError -> UInt64
  | truncated address _ _ => address
  | illegal address _ => address

def isTruncated : DecodeError -> Bool
  | truncated _ _ _ => true
  | illegal _ _ => false

def message : DecodeError -> String
  | truncated address needed available =>
      "truncated instruction at " ++ Hex.padded 4 address.toNat ++
        ": need " ++ toString needed ++ " bytes, have " ++ toString available
  | illegal address word =>
      "illegal opcode " ++ Hex.padded 4 word ++ " at " ++
        Hex.padded 4 address.toNat

end DecodeError

end MSP430
