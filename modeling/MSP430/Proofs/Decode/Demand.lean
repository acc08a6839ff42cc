import MSP430.Decode

/-!
# What decoding asks for

Decoding asks for a number of bytes, the demand, and decides nothing before they
are there: first for the opcode words, then, once these have settled an
encoding, for all extension words together.  With the demand met, it gives its
verdict.  This module writes decoding down in that form.
-/

namespace MSP430

/-!
# Resolved operands
-/

/-- The operand of a form whose extension word, if it has one, is the next
one. -/
def OperandForm.resolved (form : OperandForm) (cursor : Cursor) : Operand :=
  form.operand (form.behind cursor).address (wordAt cursor.data cursor.position)

namespace OperandSlot

def resolved (slot : OperandSlot) (cursor : Cursor) : Operand :=
  slot.toForm.resolved cursor

/-- The cursor behind the extension word of a slot. -/
def behind (slot : OperandSlot) (cursor : Cursor) : Cursor :=
  slot.toForm.behind cursor

theorem read_of_le (slot : OperandSlot) (cursor : Cursor)
    (h : cursor.position + 2 * slot.words ≤ cursor.data.length) :
    slot.read cursor = .ok (slot.resolved cursor, slot.behind cursor) :=
  slot.toForm.read_of_le cursor h

end OperandSlot

namespace Body

def words (body : Body OperandSlot) : Nat :=
  body.operands.foldr (fun slot words => slot.words + words) 0

/-- The body with the operands that the words at a cursor make. -/
def resolved (body : Body OperandSlot) (cursor : Cursor) : Body Operand :=
  match body with
  | .reti => .reti
  | .jump condition offset => .jump condition offset
  | .multiple opcode count highest => .multiple opcode count highest
  | .shift opcode count destination => .shift opcode count destination
  | .single opcode target => .single opcode (target.resolved cursor)
  | .calla target => .calla (target.resolved cursor)
  | .double opcode source destination =>
      .double opcode (source.resolved cursor)
        (destination.resolved (source.behind cursor))
  | .address opcode source destination =>
      .address opcode (source.resolved cursor)
        (destination.resolved (source.behind cursor))

/-- The cursor behind the extension words of a body. -/
def behind (body : Body OperandSlot) (cursor : Cursor) : Cursor :=
  { cursor with position := cursor.position + 2 * body.words }

theorem behind_two (source destination : OperandSlot) (cursor : Cursor) :
    destination.behind (source.behind cursor) =
      { cursor with
        position := cursor.position +
          2 * (source.words + destination.words) } := by
  have hposition :
      cursor.position + 2 * source.words + 2 * destination.words =
        cursor.position + 2 * (source.words + destination.words) := by
    omega
  rw [← hposition]
  rfl

theorem read_of_le (body : Body OperandSlot) (cursor : Cursor)
    (h : cursor.position + 2 * body.words ≤ cursor.data.length) :
    body.read cursor = .ok (body.resolved cursor, body.behind cursor) := by
  cases body with
  | reti | jump _ _ | multiple _ _ _ | shift _ _ _ => rfl
  | single opcode target | calla target =>
      have htarget := target.read_of_le cursor h
      simp only [read, htarget]
      rfl
  | double opcode source destination | address opcode source destination =>
      simp only [words, operands, List.foldr_cons, List.foldr_nil] at h
      have hsource := source.read_of_le cursor (by omega)
      have hdestination : destination.read (source.behind cursor) =
          .ok (destination.resolved (source.behind cursor),
            destination.behind (source.behind cursor)) := by
        apply destination.read_of_le
        show cursor.position + 2 * source.words + 2 * destination.words ≤
          cursor.data.length
        omega
      simp only [read, hsource, bind, Except.bind, hdestination]
      rw [behind_two]
      rfl

end Body

namespace Encoding

/-- The instruction an encoding makes of the words at a cursor. -/
def instruction (encoding : Encoding) (cursor : Cursor) : Instruction where
  address := cursor.base
  width := encoding.width
  extension := encoding.extension
  body := encoding.body.resolved cursor
  length := cursor.position + 2 * encoding.words

/-- Completing an encoding fails exactly for want of extension words. -/
theorem complete_eq (encoding : Encoding) (cursor : Cursor)
    (hposition : cursor.position ≤ cursor.data.length) :
    encoding.complete cursor =
      if cursor.data.length < cursor.position + 2 * encoding.words then
        .error (cursor.truncated (cursor.position + 2 * encoding.words))
      else
        .ok (encoding.instruction cursor) := by
  unfold complete Cursor.ensure Cursor.remaining
  by_cases hshort : cursor.data.length < cursor.position + 2 * encoding.words
  · have hremaining :
        cursor.data.length - cursor.position < 2 * encoding.words := by
      omega
    rw [if_pos hshort, if_pos hremaining]
    rfl
  · have hremaining :
        ¬ cursor.data.length - cursor.position < 2 * encoding.words := by
      omega
    have hread := encoding.body.read_of_le cursor (Nat.le_of_not_lt hshort)
    rw [if_neg hshort, if_neg hremaining]
    simp only [bind, Except.bind, hread]
    rfl

/-!
# Opcode words
-/

/-- The bytes of the opcode words, as far as the first word tells. -/
def opcodeBytes (variant : Variant) (data : List UInt8) : Nat :=
  if variant = .msp430x ∧ PrefixWord.recognises (wordAt data 0) = true then
    4
  else
    2

/-- What the opcode words settle. -/
def settled? (variant : Variant) (data : List UInt8) : Option Encoding :=
  if variant = .msp430x ∧ PrefixWord.recognises (wordAt data 0) = true then
    ofPrefixed? (.ofWord (wordAt data 0)) (wordAt data 2)
  else
    ofWord? variant (wordAt data 0)

theorem two_le_opcodeBytes (variant : Variant) (data : List UInt8) :
    2 ≤ opcodeBytes variant data := by
  unfold opcodeBytes
  split <;> omega

def behindOpcode (variant : Variant) (data : List UInt8) (address : UInt64) :
    Cursor where
  data := data
  base := address
  position := opcodeBytes variant data

theorem read_eq (variant : Variant) (data : List UInt8) (address : UInt64) :
    Encoding.read variant (.start data address) =
      if data.length < 2 then
        .error (.truncated address 2 data.length)
      else if data.length < opcodeBytes variant data then
        .error (.truncated address (opcodeBytes variant data) data.length)
      else
        orIllegal (settled? variant data) (behindOpcode variant data address)
          (wordAt data (opcodeBytes variant data - 2)) := by
  unfold Encoding.read
  by_cases hfirst : data.length < 2
  · have hread : (Cursor.start data address).read =
        .error (.truncated address 2 data.length) :=
      Cursor.read_of_lt _ hfirst
    rw [if_pos hfirst, hread]
    rfl
  · have hread : (Cursor.start data address).read =
        .ok (wordAt data 0, { data := data, base := address, position := 2 }) :=
      Cursor.read_of_le _ (Nat.le_of_not_lt hfirst)
    rw [if_neg hfirst, hread]
    simp only [bind, Except.bind]
    by_cases hprefix : variant = .msp430x ∧
        PrefixWord.recognises (wordAt data 0) = true
    · have hbytes : opcodeBytes variant data = 4 := if_pos hprefix
      rw [if_pos hprefix, hbytes]
      by_cases hsecond : data.length < 4
      · have hread' :
            (Cursor.mk data address 2).read =
              .error (.truncated address 4 data.length) :=
          Cursor.read_of_lt _ hsecond
        rw [if_pos hsecond, hread']
      · have hread' :
            (Cursor.mk data address 2).read =
              .ok (wordAt data 2, { data := data, base := address, position := 4 }) :=
          Cursor.read_of_le _ (Nat.le_of_not_lt hsecond)
        rw [if_neg hsecond, hread']
        simp only [settled?, if_pos hprefix, behindOpcode, hbytes]
    · have hbytes : opcodeBytes variant data = 2 := if_neg hprefix
      rw [if_neg hprefix, hbytes, if_neg hfirst]
      simp only [settled?, if_neg hprefix, behindOpcode, hbytes, Nat.sub_self]

end Encoding

/-!
# Demand and verdict
-/

/-- The bytes of the extension words of what was settled, if anything was. -/
def Encoding.extensionBytes : Option Encoding -> Nat
  | none => 0
  | some encoding => 2 * encoding.words

/-- The bytes that decoding asks for when it is given these. -/
def demand (variant : Variant) (data : List UInt8) : Nat :=
  if data.length < 2 then
    2
  else if data.length < Encoding.opcodeBytes variant data then
    Encoding.opcodeBytes variant data
  else
    Encoding.opcodeBytes variant data +
      Encoding.extensionBytes (Encoding.settled? variant data)

theorem demand_of_opcode {variant : Variant} {data : List UInt8}
    (h : Encoding.opcodeBytes variant data ≤ data.length) :
    demand variant data =
      Encoding.opcodeBytes variant data +
        Encoding.extensionBytes (Encoding.settled? variant data) := by
  have htwo := Nat.le_trans (Encoding.two_le_opcodeBytes variant data) h
  unfold demand
  rw [if_neg (Nat.not_lt.mpr htwo), if_neg (Nat.not_lt.mpr h)]

/-- What decoding says of bytes that meet its demand. -/
def verdict (variant : Variant) (data : List UInt8) (address : UInt64) :
    Except DecodeError Instruction :=
  match Encoding.settled? variant data with
  | none =>
      .error (.illegal address
        (wordAt data (Encoding.opcodeBytes variant data - 2)))
  | some encoding =>
      .ok (encoding.instruction (Encoding.behindOpcode variant data address))

/-- Decoding fails for want of bytes exactly when its demand is not met, and
gives its verdict otherwise. -/
theorem decode_eq (variant : Variant) (data : List UInt8) (address : UInt64) :
    decode variant data address =
      if data.length < demand variant data then
        .error (.truncated address (demand variant data) data.length)
      else
        verdict variant data address := by
  unfold decode
  rw [Encoding.read_eq]
  unfold demand
  by_cases hfirst : data.length < 2
  · simp only [if_pos hfirst]
    rfl
  · by_cases hopcode : data.length < Encoding.opcodeBytes variant data
    · simp only [if_neg hfirst, if_pos hopcode]
      rfl
    · simp only [if_neg hfirst, if_neg hopcode]
      unfold verdict Encoding.orIllegal
      cases Encoding.settled? variant data with
      | none =>
          rw [Encoding.extensionBytes, Nat.add_zero, if_neg hopcode]
          rfl
      | some encoding =>
          have hcomplete := encoding.complete_eq
            (Encoding.behindOpcode variant data address)
            (Nat.le_of_not_lt hopcode)
          exact hcomplete

end MSP430
