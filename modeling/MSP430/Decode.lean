import MSP430.Encoding

/-!
# Decoding

Bytes become an instruction in three steps.  The opcode words settle an
encoding, or are illegal.  Then all extension words of the encoding have to be
there, or the bytes are truncated as a whole.  Only then are they read.
-/

namespace MSP430

namespace Encoding

/-- What an opcode word settles, or the failure of a word that settles
nothing. -/
def orIllegal (encoding : Option Encoding) (cursor : Cursor) (word : Nat) :
    Except DecodeError (Encoding × Cursor) :=
  match encoding with
  | some encoding => .ok (encoding, cursor)
  | none => .error (.illegal cursor.base word)

/-- Reads the opcode words, after which the cursor stands at the extension
words. -/
def read (variant : Variant) (cursor : Cursor) :
    Except DecodeError (Encoding × Cursor) := do
  let (word, rest) <- cursor.read
  if variant = .msp430x ∧ PrefixWord.recognises word = true then
    let (second, rest) <- rest.read
    orIllegal (ofPrefixed? (.ofWord word) second) rest second
  else
    orIllegal (ofWord? variant word) rest word

end Encoding

/-- Reads the extension words of a body, those of the source first. -/
def Body.read (body : Body OperandSlot) (cursor : Cursor) :
    Except DecodeError (Body Operand × Cursor) :=
  match body with
  | .reti => .ok (.reti, cursor)
  | .jump condition offset => .ok (.jump condition offset, cursor)
  | .multiple opcode count highest => .ok (.multiple opcode count highest, cursor)
  | .shift opcode count destination =>
      .ok (.shift opcode count destination, cursor)
  | .single opcode target => do
      let (target, rest) <- target.read cursor
      return (.single opcode target, rest)
  | .calla target => do
      let (target, rest) <- target.read cursor
      return (.calla target, rest)
  | .double opcode source destination => do
      let (source, rest) <- source.read cursor
      let (destination, rest) <- destination.read rest
      return (.double opcode source destination, rest)
  | .address opcode source destination => do
      let (source, rest) <- source.read cursor
      let (destination, rest) <- destination.read rest
      return (.address opcode source destination, rest)

/-- Completes an encoding at the cursor behind its opcode words. -/
def Encoding.complete (encoding : Encoding) (cursor : Cursor) :
    Except DecodeError Instruction := do
  cursor.ensure (2 * encoding.words)
  let (body, rest) <- encoding.body.read cursor
  return {
    address := rest.base
    width := encoding.width
    extension := encoding.extension
    body := body
    length := rest.position }

/-- The instruction that the bytes at an address begin with. -/
def decode (variant : Variant) (data : List UInt8) (address : UInt64) :
    Except DecodeError Instruction := do
  let (encoding, cursor) <- Encoding.read variant (.start data address)
  encoding.complete cursor

end MSP430
