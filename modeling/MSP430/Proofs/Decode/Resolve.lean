import MSP430.Proofs.Decode.Length

/-!
# Resolving a field at a cursor

A field says twice how many extension words it has.  One table predicts the number from
the mode and the register alone, and so many bytes have to be there before anything is
read.  Another table makes the operand, and reads the words as it goes.  Here resolving
is followed step by step with a cursor that stays where a failure leaves it.  The two
tables agree, and so a failure leaves the cursor where it stood.
-/

namespace MSP430

namespace Cursor

/-- A computation that moves the cursor as it goes.  A failure takes no move back. -/
abbrev Moving (value : Type) : Type :=
  ExceptT DecodeError (StateM Cursor) value

namespace Moving

/-- What the computation comes to from a cursor, and where the cursor is afterwards. -/
def runAt {value : Type} (step : Moving value) (cursor : Cursor) :
    Except DecodeError value × Cursor :=
  step.run.run cursor

/-- Fails unless that many more bytes are there, and moves nothing. -/
def ensure (bytes : Nat) : Moving Unit := do
  let cursor <- get
  ExceptT.mk (pure (cursor.ensure bytes))

/-- Moves past a word if it is there. -/
def read : Moving Nat := do
  let cursor <- get
  let word <- ExceptT.mk (pure (cursor.peek 0))
  set cursor.skipWord
  return word

/-- An operand that is made of the next word and of the address behind it. -/
def withWord (make : UInt64 -> Nat -> Operand) : Moving Operand := do
  let word <- read
  let cursor <- get
  return make cursor.address word

theorem runAt_bind {first second : Type} (step : Moving first)
    (next : first -> Moving second) (cursor : Cursor) :
    (step >>= next).runAt cursor =
      match step.runAt cursor with
      | (.ok value, after) => (next value).runAt after
      | (.error failure, after) => (.error failure, after) := by
  unfold runAt
  rw [ExceptT.run_bind, StateT.run_bind]
  rcases step.run.run cursor with ⟨value | failure, after⟩ <;> rfl

theorem runAt_ensure_of_le {bytes : Nat} {cursor : Cursor} (h : bytes ≤ cursor.remaining) :
    (ensure bytes).runAt cursor = (.ok (), cursor) := by
  have hensure : cursor.ensure bytes = .ok () := if_neg (Nat.not_lt.mpr h)
  show (cursor.ensure bytes, cursor) = _
  rw [hensure]

theorem runAt_ensure_of_lt {bytes : Nat} {cursor : Cursor} (h : cursor.remaining < bytes) :
    (ensure bytes).runAt cursor =
      (.error (cursor.truncated (cursor.position + bytes)), cursor) := by
  have hensure : cursor.ensure bytes =
      .error (cursor.truncated (cursor.position + bytes)) := if_pos h
  show (cursor.ensure bytes, cursor) = _
  rw [hensure]

theorem runAt_read_of_le {cursor : Cursor}
    (h : cursor.position + 2 ≤ cursor.data.length) :
    read.runAt cursor = (.ok (wordAt cursor.data cursor.position), cursor.skipWord) := by
  have hpeek := cursor.peek_of_le 0 h
  unfold read
  rw [runAt_bind]
  show ((do
    let word <- ExceptT.mk (pure (cursor.peek 0))
    set cursor.skipWord
    return word : Moving Nat).runAt cursor) = _
  rw [hpeek]
  rfl

theorem runAt_withWord_of_le {cursor : Cursor} (make : UInt64 -> Nat -> Operand)
    (h : cursor.position + 2 ≤ cursor.data.length) :
    (withWord make).runAt cursor =
      (.ok (make cursor.skipWord.address (wordAt cursor.data cursor.position)),
        cursor.skipWord) := by
  unfold withWord
  rw [runAt_bind, runAt_read_of_le h]
  rfl

end Moving
end Cursor

open Cursor (Moving)

/-!
# The two tables
-/

namespace OperandField

/-- The extension words of a field, from its mode and its register. -/
def expectedWords (field : OperandField) : Nat :=
  match field.mode, field.register with
  | .register, _ => 0
  | .indexed, .cg => if field.isDestination then 1 else 0
  | .indexed, _ => 1
  | .autoIncrement, .pc => 1
  | .indirect, _ | .autoIncrement, _ => 0

/-- The operand of a field, read word by word. -/
def operandMoving (field : OperandField) : Moving Operand :=
  match field.mode, field.register, field.isDestination with
  | .register, .cg, false => return .constant 0
  | .register, register, _ => return .register register
  | .indexed, .cg, false => return .constant 1
  | .indexed, .sr, _ =>
      Moving.withWord fun _ word => .absolute (extendUnsigned field.high word)
  | .indexed, .pc, _ =>
      Moving.withWord fun next word =>
        let space := extensionWidth field.high
        let offset := extendSigned field.high word
        let counter := space.truncate next.toNat
        let target := space.ofInt ((counter : Int) + offset)
        if field.preferAbsolute then .absolute target else .symbolic offset target
  | .indexed, register, _ =>
      Moving.withWord fun _ word => .indexed register (extendSigned field.high word)
  | .indirect, .sr, false => return .constant 4
  | .indirect, .cg, false => return .constant 2
  | .indirect, register, _ => return .indirect register
  | .autoIncrement, .sr, false => return .constant 8
  | .autoIncrement, .cg, false => return .constant (-1)
  | .autoIncrement, .pc, _ =>
      Moving.withWord fun _ word =>
        .immediate (field.width.truncate (extendUnsigned field.high word))
  | .autoIncrement, register, _ =>
      return .autoIncrement register (autoIncrementStep register field.width)

/-- Resolves the field step by step: the extension words have to be there, then the
operand is read.  The number of words comes with it. -/
def resolveMoving (field : OperandField) : Moving (Operand × Nat) := do
  let words := field.expectedWords
  Moving.ensure (2 * words)
  let operand <- field.operandMoving
  return (operand, words)

theorem expectedWords_eq_words (field : OperandField) :
    field.expectedWords = field.words := by
  rcases field with ⟨mode, register, width, isDestination, preferAbsolute, high⟩
  cases mode <;> cases register <;> cases isDestination <;> rfl

end OperandField

/-- The operand of a form, read word by word. -/
def OperandForm.operandMoving : OperandForm -> Moving Operand
  | .fixed operand => return operand
  | form => Moving.withWord form.operand

theorem Width.ofInt_truncate_add (width : Width) (value : Nat) (offset : Int) :
    width.ofInt ((width.truncate value : Int) + offset) =
      width.ofInt ((value : Int) + offset) := by
  unfold ofInt truncate
  rw [Int.natCast_emod, Int.emod_add_emod]

/-- The table of operands reads what the form of the field reads. -/
theorem OperandField.operandMoving_eq (field : OperandField) :
    field.operandMoving = field.form.operandMoving := by
  rcases field with ⟨mode, register, width, isDestination, preferAbsolute, high⟩
  by_cases hrelative : mode = .indexed ∧ register = .pc
  · rcases hrelative with ⟨rfl, rfl⟩
    have hoperand : forall isDestination : Bool,
        operandMoving ⟨.indexed, .pc, width, isDestination, preferAbsolute, high⟩ =
          Moving.withWord
            (OperandForm.relative high (extensionWidth high) preferAbsolute).operand := by
      intro isDestination
      unfold operandMoving
      simp only [Width.ofInt_truncate_add]
      rfl
    cases isDestination <;> exact hoperand _
  · cases mode <;> cases register <;> cases isDestination <;>
      first
      | rfl
      | exact absurd ⟨rfl, rfl⟩ hrelative

/-!
# Steps from a cursor
-/

theorem OperandForm.runAt_operandMoving (form : OperandForm) {cursor : Cursor}
    (h : 2 * form.words ≤ cursor.remaining) :
    form.operandMoving.runAt cursor = (.ok (form.resolved cursor), form.behind cursor) := by
  cases form with
  | fixed operand => rfl
  | _ =>
      have hword : cursor.position + 2 ≤ cursor.data.length := by
        simp only [words, Cursor.remaining] at h
        omega
      exact Moving.runAt_withWord_of_le _ hword

namespace OperandField

variable {field : OperandField} {cursor : Cursor}

theorem resolveMoving_of_le (h : 2 * field.expectedWords ≤ cursor.remaining) :
    field.resolveMoving.runAt cursor =
      (.ok (field.form.resolved cursor, field.expectedWords),
        { cursor with position := cursor.position + 2 * field.expectedWords }) := by
  have hwords : field.expectedWords = field.form.words := field.expectedWords_eq_words
  have hread := field.form.runAt_operandMoving (hwords ▸ h)
  rw [← field.operandMoving_eq] at hread
  unfold resolveMoving
  dsimp only
  rw [Moving.runAt_bind, Moving.runAt_ensure_of_le h]
  dsimp only
  rw [Moving.runAt_bind, hread, hwords]
  rfl

theorem resolveMoving_of_lt (h : cursor.remaining < 2 * field.expectedWords) :
    field.resolveMoving.runAt cursor =
      (.error (cursor.truncated (cursor.position + 2 * field.expectedWords)), cursor) := by
  unfold resolveMoving
  dsimp only
  rw [Moving.runAt_bind, Moving.runAt_ensure_of_lt h]

end OperandField

theorem OperandForm.read_of_remaining (form : OperandForm) {cursor : Cursor}
    (h : 2 * form.words ≤ cursor.remaining) :
    form.read cursor = .ok (form.resolved cursor, form.behind cursor) := by
  cases form with
  | fixed operand => rfl
  | _ =>
      apply read_of_le
      simp only [words, Cursor.remaining] at h ⊢
      omega

theorem OperandForm.read_of_missing (form : OperandForm) {cursor : Cursor}
    (h : cursor.remaining < 2 * form.words) :
    form.read cursor = .error (cursor.truncated (cursor.position + 2 * form.words)) := by
  cases form with
  | fixed operand => cases h
  | _ =>
      have hmissing : cursor.data.length < cursor.position + 2 := by
        simp only [words, Cursor.remaining] at h
        omega
      rw [read, Cursor.read_of_lt cursor hmissing]
      · rfl
      · simp

namespace OperandField

/-- The decoder resolves fields without a moving cursor, and to the same effect. -/
theorem resolve_eq_resolveMoving (field : OperandField) (cursor : Cursor) :
    field.resolve cursor =
      match field.resolveMoving.runAt cursor with
      | (.ok (operand, _), after) => .ok (operand, after)
      | (.error failure, _) => .error failure := by
  have hwords : field.expectedWords = field.form.words := field.expectedWords_eq_words
  by_cases h : 2 * field.expectedWords ≤ cursor.remaining
  · rw [resolveMoving_of_le h, hwords]
    exact field.form.read_of_remaining (hwords ▸ h)
  · have hlt := Nat.not_le.mp h
    rw [resolveMoving_of_lt hlt, hwords]
    exact field.form.read_of_missing (hwords ▸ hlt)

end OperandField

/-!
# What a result depends on
-/

theorem wordAt_of_take {first second : List UInt8} {position : Nat}
    (h : (first.drop position).take 2 = (second.drop position).take 2) :
    wordAt first position = wordAt second position := by
  have hbyte : forall data : List UInt8, forall index, index < 2 ->
      data.getD (position + index) 0 = ((data.drop position).take 2).getD index 0 := by
    intro data index hindex
    simp only [List.getD_eq_getElem?_getD, List.getElem?_take, List.getElem?_drop,
      if_pos hindex]
  have hlow : first.getD position 0 = second.getD position 0 := by
    rw [← Nat.add_zero position, hbyte first 0 (by decide), hbyte second 0 (by decide), h]
  have hhigh : first.getD (position + 1) 0 = second.getD (position + 1) 0 := by
    rw [hbyte first 1 (by decide), hbyte second 1 (by decide), h]
  unfold wordAt
  rw [hlow, hhigh]

/-- No byte plays a part but those of the extension words. -/
theorem OperandForm.resolved_of_take (form : OperandForm) (cursor : Cursor)
    {data : List UInt8}
    (h : (data.drop cursor.position).take (2 * form.words) =
      (cursor.data.drop cursor.position).take (2 * form.words)) :
    form.resolved { cursor with data := data } = form.resolved cursor := by
  cases form with
  | fixed operand => rfl
  | _ =>
      have hword := wordAt_of_take h
      unfold resolved
      rw [hword]
      rfl

/-- The operand as a plain address, if it is an offset from the program counter. -/
def Operand.asAbsolute : Operand -> Operand
  | .symbolic _ target => .absolute target
  | operand => operand

theorem OperandField.resolved_preferAbsolute (field : OperandField) (cursor : Cursor) :
    ({ field with preferAbsolute := true }).form.resolved cursor =
      (({ field with preferAbsolute := false }).form.resolved cursor).asAbsolute := by
  rcases field with ⟨mode, register, width, isDestination, preferAbsolute, high⟩
  cases mode <;> cases register <;> cases isDestination <;> rfl

namespace OperandField

variable {field : OperandField} {cursor : Cursor}

theorem resolveMoving_succeeds_iff :
    (exists operand words after,
      field.resolveMoving.runAt cursor = (.ok (operand, words), after)) ↔
        2 * field.expectedWords ≤ cursor.remaining := by
  constructor
  · rintro ⟨operand, words, after, h⟩
    refine Nat.not_lt.mp fun hlt => ?_
    rw [resolveMoving_of_lt hlt] at h
    cases h
  · exact fun h => ⟨_, _, _, resolveMoving_of_le h⟩

theorem resolveMoving_error {failure : DecodeError} {after : Cursor}
    (h : field.resolveMoving.runAt cursor = (.error failure, after)) :
    after = cursor ∧
      failure = cursor.truncated (cursor.position + 2 * field.expectedWords) := by
  by_cases hle : 2 * field.expectedWords ≤ cursor.remaining
  · rw [resolveMoving_of_le hle] at h
    cases h
  · rw [resolveMoving_of_lt (Nat.not_le.mp hle)] at h
    cases h
    exact ⟨rfl, rfl⟩

theorem resolveMoving_ok {operand : Operand} {words : Nat} {after : Cursor}
    (h : field.resolveMoving.runAt cursor = (.ok (operand, words), after)) :
    after = { cursor with position := cursor.position + 2 * field.expectedWords } ∧
      words = field.expectedWords ∧ words = operand.extensionWords := by
  have hle := resolveMoving_succeeds_iff.mp ⟨_, _, _, h⟩
  have hcounts :=
    Encoding.extensionWords_resolved (Encoding.formCounts_field field) cursor
  rw [resolveMoving_of_le hle] at h
  cases h
  exact ⟨rfl, rfl, field.expectedWords_eq_words.trans hcounts.symm⟩

/-- The bytes behind the cursor decide alone, and only as many as belong to the
operand. -/
theorem resolveMoving_of_take {operand : Operand} {words : Nat} {after : Cursor}
    (h : field.resolveMoving.runAt cursor = (.ok (operand, words), after))
    {data : List UInt8}
    (hdata : (data.drop cursor.position).take (2 * field.expectedWords) =
      (cursor.data.drop cursor.position).take (2 * field.expectedWords)) :
    field.resolveMoving.runAt { cursor with data := data } =
      (.ok (operand, words), { after with data := data }) := by
  have hle := resolveMoving_succeeds_iff.mp ⟨_, _, _, h⟩
  have hremaining :
      2 * field.expectedWords ≤ ({ cursor with data := data } : Cursor).remaining := by
    have hlength := congrArg List.length hdata
    rw [List.length_take, List.length_take, List.length_drop, List.length_drop] at hlength
    unfold Cursor.remaining at hle ⊢
    dsimp only
    omega
  rw [resolveMoving_of_le hle] at h
  rw [resolveMoving_of_le hremaining]
  cases h
  rw [field.expectedWords_eq_words] at hdata
  rw [field.form.resolved_of_take cursor hdata]

theorem resolveMoving_preferAbsolute (field : OperandField) (cursor : Cursor) :
    ({ field with preferAbsolute := true }).resolveMoving.runAt cursor =
      match ({ field with preferAbsolute := false }).resolveMoving.runAt cursor with
      | (.ok (operand, words), after) => (.ok (operand.asAbsolute, words), after)
      | (.error failure, after) => (.error failure, after) := by
  by_cases h : 2 * field.expectedWords ≤ cursor.remaining
  · have habsolute := @resolveMoving_of_le { field with preferAbsolute := true } cursor h
    have hrelative := @resolveMoving_of_le { field with preferAbsolute := false } cursor h
    rw [habsolute, hrelative, field.resolved_preferAbsolute]
    rfl
  · have hlt := Nat.not_le.mp h
    have habsolute := @resolveMoving_of_lt { field with preferAbsolute := true } cursor hlt
    have hrelative := @resolveMoving_of_lt { field with preferAbsolute := false } cursor hlt
    rw [habsolute, hrelative]
    rfl

end OperandField

/-- Resolving an operand is all or nothing.  From every cursor it succeeds exactly if the
extension words that the mode and the register predict remain.  Then it moves past them
and nothing else, the operand is encoded by as many, and no other byte plays a part.  A
failure leaves the cursor where it stood, and says how many bytes were needed and how
many there were.  Plain addresses that are preferred take the place of offsets from the
program counter and change nothing else. -/
theorem resolve_all_or_nothing (field : OperandField) (cursor : Cursor) :
    let bytes := 2 * field.expectedWords
    (field.resolve cursor =
      match field.resolveMoving.runAt cursor with
      | (.ok (operand, _), after) => .ok (operand, after)
      | (.error failure, _) => .error failure) ∧
    ((exists operand words after,
        field.resolveMoving.runAt cursor = (.ok (operand, words), after)) ↔
      bytes ≤ cursor.remaining) ∧
    (forall operand words after,
      field.resolveMoving.runAt cursor = (.ok (operand, words), after) ->
        after = { cursor with position := cursor.position + bytes } ∧
        words = field.expectedWords ∧ words = operand.extensionWords ∧
        forall data : List UInt8,
          (data.drop cursor.position).take bytes =
              (cursor.data.drop cursor.position).take bytes ->
            field.resolveMoving.runAt { cursor with data := data } =
              (.ok (operand, words), { after with data := data })) ∧
    (forall failure after,
      field.resolveMoving.runAt cursor = (.error failure, after) ->
        after = cursor ∧
        failure =
          .truncated cursor.base (cursor.position + bytes) cursor.data.length) ∧
    (({ field with preferAbsolute := true }).resolveMoving.runAt cursor =
      match ({ field with preferAbsolute := false }).resolveMoving.runAt cursor with
      | (.ok (operand, words), after) => (.ok (operand.asAbsolute, words), after)
      | (.error failure, after) => (.error failure, after)) := by
  refine ⟨field.resolve_eq_resolveMoving cursor, OperandField.resolveMoving_succeeds_iff,
    ?_, ?_, field.resolveMoving_preferAbsolute cursor⟩
  · intro operand words after h
    rcases OperandField.resolveMoving_ok h with ⟨hafter, hwords, hcounts⟩
    exact ⟨hafter, hwords, hcounts, fun _ => OperandField.resolveMoving_of_take h⟩
  · exact fun _ _ => OperandField.resolveMoving_error

/-- Half of an extension word is as good as none. -/
theorem resolve_all_or_nothing_half :
    exists failure after,
      (OperandField.resolveMoving ⟨.indexed, .r4, .word, false, false, none⟩).runAt
          (.start [0x10] 0x4402) = (.error failure, after) ∧
        after = .start [0x10] 0x4402 ∧ failure = .truncated 0x4402 2 1 := by
  rcases resolve_all_or_nothing ⟨.indexed, .r4, .word, false, false, none⟩
      (.start [0x10] 0x4402) with ⟨_, _, _, hfails, _⟩
  exact ⟨_, _, rfl, hfails _ _ rfl⟩

end MSP430
