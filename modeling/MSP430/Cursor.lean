import MSP430.DecodeError

/-!
# Reading words

A cursor stands in the bytes of one instruction and reads little-endian words.
A read either yields a whole word or fails and moves nothing.
-/

namespace MSP430

/-- The little-endian word at a byte position; bytes past the end count as
zero, and no caller asks for them. -/
def wordAt (data : List UInt8) (position : Nat) : Nat :=
  (data.getD position 0).toNat + 0x100 * (data.getD (position + 1) 0).toNat

structure Cursor where
  data : List UInt8
  /-- The address of the first byte. -/
  base : UInt64
  /-- The number of bytes read. -/
  position : Nat
  deriving DecidableEq, Repr

namespace Cursor

def start (data : List UInt8) (base : UInt64) : Cursor :=
  { data := data, base := base, position := 0 }

/-- The address of the next unread byte. -/
def address (cursor : Cursor) : UInt64 :=
  cursor.base + UInt64.ofNat cursor.position

def remaining (cursor : Cursor) : Nat :=
  cursor.data.length - cursor.position

/-- The failure to find `needed` bytes from the base on. -/
def truncated (cursor : Cursor) (needed : Nat) : DecodeError :=
  .truncated cursor.base needed cursor.data.length

/-- Fails unless that many more bytes are there. -/
def ensure (cursor : Cursor) (bytes : Nat) : Except DecodeError Unit :=
  if cursor.remaining < bytes then
    .error (cursor.truncated (cursor.position + bytes))
  else
    .ok ()

/-- The word `index` words ahead, which stays unread. -/
def peek (cursor : Cursor) (index : Nat) : Except DecodeError Nat :=
  let position := cursor.position + 2 * index
  if position + 2 ≤ cursor.data.length then
    .ok (wordAt cursor.data position)
  else
    .error (cursor.truncated (position + 2))

def skipWord (cursor : Cursor) : Cursor :=
  { cursor with position := cursor.position + 2 }

def read (cursor : Cursor) : Except DecodeError (Nat × Cursor) := do
  let word <- cursor.peek 0
  return (word, cursor.skipWord)

/-!
# What a read depends on

A word is read exactly when its two bytes are there.
-/

theorem peek_of_le (cursor : Cursor) (index : Nat)
    (h : cursor.position + 2 * index + 2 ≤ cursor.data.length) :
    cursor.peek index =
      .ok (wordAt cursor.data (cursor.position + 2 * index)) := by
  simp [peek, h]

theorem peek_of_lt (cursor : Cursor) (index : Nat)
    (h : cursor.data.length < cursor.position + 2 * index + 2) :
    cursor.peek index =
      .error (cursor.truncated (cursor.position + 2 * index + 2)) := by
  simp [peek, Nat.not_le.mpr h]

theorem read_of_le (cursor : Cursor)
    (h : cursor.position + 2 ≤ cursor.data.length) :
    cursor.read = .ok (wordAt cursor.data cursor.position, cursor.skipWord) := by
  simp [read, peek_of_le cursor 0 h, bind, Except.bind, pure, Except.pure]

theorem read_of_lt (cursor : Cursor)
    (h : cursor.data.length < cursor.position + 2) :
    cursor.read = .error (cursor.truncated (cursor.position + 2)) := by
  simp [read, peek_of_lt cursor 0 h, bind, Except.bind]

end Cursor

end MSP430
