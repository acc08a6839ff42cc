import MSP430.Proofs.Checked.Arithmetic
import MSP430.Proofs.Decode.Encode

/-!
# Checked reads

The cursor stays within the bytes and near the first one, so that what remains is never
negative and no position leaves its type.  The two bytes of a word are there when they
are picked.
-/

namespace MSP430

/-!
# Failing reads

What reads bytes may fail for two reasons that have nothing to do with each other: a check
fails, or the bytes are no instruction.
-/

abbrev Reading : Type -> Type :=
  ExceptT DecodeError Checked

namespace Reading

variable {value first second : Type}

/-- Takes over what reading comes to. -/
def ofResult (result : Except DecodeError value) : Reading value :=
  ExceptT.mk (.ok result)

/-- Every check holds, and this is the result. -/
def ComesTo (reading : Reading value) (result : Except DecodeError value) : Prop :=
  reading.run = .ok result

theorem ComesTo.ofResult (result : Except DecodeError value) :
    ComesTo (ofResult result) result := rfl

theorem ComesTo.bind {reading : Reading first} {result : Except DecodeError first}
    {next : first -> Reading second} {after : first -> Except DecodeError second}
    (h : ComesTo reading result)
    (hnext : forall value, result = .ok value -> ComesTo (next value) (after value)) :
    ComesTo (reading >>= next) (result >>= after) := by
  unfold ComesTo at h ⊢
  rw [ExceptT.run_bind, h, Checked.ok_bind]
  cases result with
  | ok value => exact hnext value rfl
  | error error => rfl

theorem ComesTo.lift {checked : Checked first} {value : first}
    {next : first -> Reading second} {result : Except DecodeError second}
    (h : checked = .ok value) (hnext : ComesTo (next value) result) :
    ComesTo (liftM checked >>= next) result := by
  subst h
  exact hnext

end Reading

open Reading (ComesTo)

/-!
# Positions
-/

namespace Cursor

/-- The cursor stands within its bytes, and not far from the first one. -/
structure Stands (cursor : Cursor) (limit : Nat) : Prop where
  inside : cursor.position ≤ cursor.data.length
  early : cursor.position ≤ limit

def checkedEnsure (cursor : Cursor) (bytes : Nat) : Reading Unit := do
  let remaining <- Unsigned.size.sub cursor.data.length cursor.position
  if remaining < bytes then do
    let needed <- Unsigned.size.add cursor.position bytes
    throw (cursor.truncated needed)
  else
    return ()

/-- The two bytes of a word, picked from the slice that holds them. -/
def checkedWord (bytes : List UInt8) : Checked Nat := do
  let low <- Checked.index bytes 0
  let high <- Checked.index bytes 1
  return low.toNat + 0x100 * high.toNat

def checkedPeek (cursor : Cursor) (index : Nat) : Reading Nat := do
  let distance <- Unsigned.size.mul index 2
  let start <- Unsigned.size.add cursor.position distance
  let stop <- Unsigned.size.add start 2
  if stop ≤ cursor.data.length then
    checkedWord ((cursor.data.drop start).take 2)
  else
    throw (cursor.truncated stop)

def checkedRead (cursor : Cursor) : Reading (Nat × Cursor) := do
  let word <- cursor.checkedPeek 0
  let position <- Unsigned.size.add cursor.position 2
  return (word, { cursor with position := position })

variable {cursor : Cursor} {limit : Nat}

theorem checkedEnsure_eq (h : cursor.Stands limit) {bytes : Nat}
    (hlimit : limit + bytes < 0x10000) :
    ComesTo (cursor.checkedEnsure bytes) (cursor.ensure bytes) := by
  have hearly := h.early
  have hneeded : Unsigned.size.add cursor.position bytes =
      .ok (cursor.position + bytes) :=
    Unsigned.size_add (by omega)
  refine .lift (Unsigned.sub_of_le h.inside) ?_
  show ComesTo (if cursor.remaining < bytes then _ else _) (cursor.ensure bytes)
  unfold ensure
  by_cases hshort : cursor.remaining < bytes
  · rw [if_pos hshort, if_pos hshort]
    exact .lift hneeded rfl
  · rw [if_neg hshort, if_neg hshort]
    rfl

theorem checkedWord_eq {data : List UInt8} {start : Nat} (h : start + 2 ≤ data.length) :
    checkedWord ((data.drop start).take 2) = .ok (wordAt data start) := by
  have hindex : forall offset, offset < 2 ->
      Checked.index ((data.drop start).take 2) offset =
        .ok (data.getD (start + offset) 0) := by
    intro offset hoffset
    apply Checked.index_eq
    rw [List.getElem?_take_of_lt hoffset, List.getElem?_drop, List.getD_eq_getElem?_getD,
      List.getElem?_eq_getElem (by omega), Option.getD_some]
  unfold checkedWord
  rw [hindex 0 (by decide), Checked.ok_bind, hindex 1 (by decide), Checked.ok_bind]
  rfl

theorem checkedPeek_eq (h : cursor.Stands limit) {index : Nat}
    (hlimit : limit + 2 * index + 2 < 0x10000) :
    ComesTo (cursor.checkedPeek index) (cursor.peek index) := by
  have hearly := h.early
  have hdistance : Unsigned.size.mul index 2 = .ok (2 * index) :=
    Unsigned.size_double (by omega)
  have hstart : Unsigned.size.add cursor.position (2 * index) =
      .ok (cursor.position + 2 * index) :=
    Unsigned.size_add (by omega)
  have hstop : Unsigned.size.add (cursor.position + 2 * index) 2 =
      .ok (cursor.position + 2 * index + 2) :=
    Unsigned.size_add (by omega)
  refine .lift hdistance ?_
  refine .lift hstart ?_
  refine .lift hstop ?_
  by_cases hle : cursor.position + 2 * index + 2 ≤ cursor.data.length
  · rw [if_pos hle, cursor.peek_of_le index hle, checkedWord_eq hle]
    rfl
  · rw [if_neg hle, cursor.peek_of_lt index (Nat.lt_of_not_le hle)]
    rfl

theorem checkedRead_eq (h : cursor.Stands limit) (hlimit : limit + 2 < 0x10000) :
    ComesTo cursor.checkedRead cursor.read := by
  have hearly := h.early
  have hposition : Unsigned.size.add cursor.position 2 = .ok (cursor.position + 2) :=
    Unsigned.size_add (by omega)
  exact .bind (checkedPeek_eq h hlimit) fun word _ => .lift hposition rfl

theorem stands_start (data : List UInt8) (base : UInt64) : (start data base).Stands 0 where
  inside := Nat.zero_le _
  early := Nat.le_refl 0

/-- A word that was read has sixteen bits, and the cursor stands behind it. -/
theorem stands_of_read (h : cursor.Stands limit) {word : Nat} {rest : Cursor}
    (hread : cursor.read = .ok (word, rest)) :
    word < 0x10000 ∧ rest.Stands (limit + 2) := by
  by_cases hle : cursor.position + 2 ≤ cursor.data.length
  · rw [cursor.read_of_le hle] at hread
    cases hread
    exact ⟨wordAt_lt _ _, hle, Nat.add_le_add_right h.early 2⟩
  · rw [cursor.read_of_lt (Nat.lt_of_not_le hle)] at hread
    cases hread

end Cursor

end MSP430
