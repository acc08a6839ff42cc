import MSP430.Token

/-!
# Text and tokens of an instruction

The text of an instruction and the text of its tokens are built apart.  They differ in
three places: tokens announce a repetition, they fill the mnemonic up to a column where
the text has one space, and they show constants in hexadecimal.  No mnemonic reaches the
column, so wherever anything follows one there is space between them.
-/

namespace MSP430

namespace Operand

/-- The text of an operand, with constants in hexadecimal. -/
def hexText : Operand -> String
  | constant value => "#" ++ Hex.signed value
  | operand => operand.text

end Operand

/-- The text of an instruction, given that of its operands. -/
def Instruction.textWith (inst : Instruction) (operandText : Operand -> String) :
    String :=
  match inst.jumpTarget?, inst.displayedOperands with
  | some target, _ => inst.mnemonic ++ " " ++ Hex.text target
  | none, [] => inst.mnemonic
  | none, operands =>
      inst.mnemonic ++ " " ++ String.intercalate ", " (operands.map operandText)

namespace Token

/-- Some blanks and nothing else. -/
def isBlank (token : Token) : Bool :=
  decide (token.kind = .text ∧ token.text ≠ "") && token.text.toList.all (· == ' ')

/-- The tokens behind an announcement; other instructions begin with the mnemonic. -/
def unannounced : List Token -> List Token
  | { kind := .text, text := _ } :: rest => rest
  | tokens => tokens

/-- The blanks behind the first token. -/
def padding? : List Token -> Option Token
  | _ :: next :: _ => if next.isBlank then some next else none
  | _ => none

/-- One space in place of the blanks behind the first token. -/
def singleSpaced : List Token -> List Token
  | first :: next :: rest =>
      if next.isBlank then first :: plain " " :: rest else first :: next :: rest
  | tokens => tokens

/-!
# Rendering
-/

@[simp] theorem render_nil : render [] = "" :=
  String.join_nil

@[simp] theorem render_cons (token : Token) (rest : List Token) :
    render (token :: rest) = token.text ++ render rest :=
  String.join_cons

@[simp] theorem render_append (front back : List Token) :
    render (front ++ back) = render front ++ render back := by
  unfold render
  rw [List.map_append, String.join_append]

@[simp] theorem text_ofAddress (isCode : Bool) (address : Nat) :
    (ofAddress isCode address).text = Hex.text address := by
  cases isCode <;> rfl

end Token

namespace Operand

theorem render_tokens (operand : Operand) (isCode : Bool) :
    Token.render (operand.tokens isCode) = operand.hexText := by
  cases operand <;>
    simp [tokens, hexText, text, Token.plain, Token.ofRegister, Token.ofInteger,
      Token.ofCode, String.append_assoc]

theorem render_listTokens (isCode : Bool) (operands : List Operand) :
    Token.render (listTokens isCode operands) =
      String.intercalate ", " (operands.map hexText) := by
  induction operands with
  | nil => exact String.intercalate_nil.symm
  | cons operand rest ih =>
      cases rest with
      | nil =>
          rw [List.map_singleton, String.intercalate_singleton]
          exact operand.render_tokens isCode
      | cons next rest =>
          show Token.render (operand.tokens isCode ++ _ :: _) = _
          rw [Token.render_append, Token.render_cons, ih, operand.render_tokens]
          simp only [List.map_cons, String.intercalate_cons_cons, String.append_assoc]

end Operand

/-!
# Mnemonics
-/

theorem Emulated.length_mnemonic (emulated : Emulated) :
    emulated.mnemonic.length ≤ 5 := by
  cases emulated <;> decide

theorem Opcode.length_mnemonic (opcode : Opcode) : opcode.mnemonic.length ≤ 5 := by
  cases opcode with
  | reti | calla => decide
  | jump opcode => cases opcode <;> decide
  | single opcode => cases opcode <;> decide
  | double opcode => cases opcode <;> decide
  | multiple opcode => cases opcode <;> decide
  | address opcode => cases opcode <;> decide
  | shift opcode => cases opcode <;> decide

namespace Instruction

/-- With the mark of a prefix word and the suffix of a width, a mnemonic still leaves
room in front of the column. -/
theorem length_mnemonic_lt (inst : Instruction) :
    inst.mnemonic.length < Token.mnemonicColumn := by
  have hextended : (if inst.isExtended then "x" else "").length ≤ 1 := by
    split <;> decide
  have hsuffix :
      (if inst.showsWidth then "." ++ inst.width.suffix else "").length ≤ 2 := by
    split
    · cases inst.width <;> decide
    · decide
  unfold mnemonic
  rw [String.length_append, String.length_append]
  refine Nat.lt_of_le_of_lt
    (Nat.add_le_add (Nat.add_le_add (?_ : _ ≤ 5) hextended) hsuffix) (by decide)
  cases inst.emulated? with
  | some emulated => exact emulated.length_mnemonic
  | none => exact inst.opcode.length_mnemonic

/-!
# Layout
-/

/-- The blanks that fill the mnemonic up to the column. -/
def padding (inst : Instruction) : Token :=
  .plain (String.ofList
    (List.replicate (Token.mnemonicColumn - inst.mnemonic.length) ' '))

theorem token_padding (inst : Instruction) :
    Token.padding inst.mnemonic = [inst.padding] :=
  if_pos inst.length_mnemonic_lt

theorem length_padding (inst : Instruction) :
    inst.mnemonic.length + inst.padding.text.length = Token.mnemonicColumn := by
  have hlt := inst.length_mnemonic_lt
  show _ + (String.ofList _).length = _
  rw [String.length_ofList, List.length_replicate]
  omega

theorem isBlank_padding (inst : Instruction) : inst.padding.isBlank = true := by
  have hlength := inst.length_padding
  have hlt := inst.length_mnemonic_lt
  have hne : inst.padding.text ≠ "" := by
    intro hempty
    rw [hempty, String.length_empty] at hlength
    omega
  unfold Token.isBlank
  rw [Bool.and_eq_true]
  refine ⟨decide_eq_true ⟨rfl, hne⟩, ?_⟩
  show (String.ofList _).toList.all _ = true
  rw [String.toList_ofList, List.all_eq_true]
  intro c hc
  rw [List.eq_of_mem_replicate hc]
  rfl

/-- What the text shows behind the mnemonic. -/
def ShowsMore (inst : Instruction) : Prop :=
  inst.jumpTarget?.isSome ∨ inst.displayedOperands ≠ []

/-- Behind the mnemonic there is nothing, or the padding and behind it the rest of the
text. -/
theorem operandTokens_cases (inst : Instruction) :
    (¬ inst.ShowsMore ∧ inst.operandTokens = [] ∧
        forall operandText, inst.textWith operandText = inst.mnemonic) ∨
      (inst.ShowsMore ∧ exists shown,
        inst.operandTokens = inst.padding :: shown ∧
          inst.textWith Operand.hexText =
            inst.mnemonic ++ (" " ++ Token.render shown)) := by
  unfold ShowsMore operandTokens textWith
  rw [inst.token_padding]
  cases inst.jumpTarget? with
  | some target =>
      refine .inr ⟨.inl rfl, [.ofCode target], rfl, ?_⟩
      simp [Token.ofCode, String.append_assoc]
  | none =>
      cases inst.displayedOperands with
      | nil => exact .inl ⟨by simp, rfl, fun _ => rfl⟩
      | cons operand rest =>
          refine .inr ⟨.inr nofun, Operand.listTokens inst.namesCode (operand :: rest),
            rfl, ?_⟩
          rw [Operand.render_listTokens]
          exact String.append_assoc

/-- Whatever is announced is announced by one token of plain text. -/
theorem unannounced_tokens (inst : Instruction) :
    Token.unannounced inst.tokens =
      { kind := .instruction, text := inst.mnemonic } :: inst.operandTokens := by
  unfold tokens repetitionTokens
  split
  · split <;> rfl
  · rfl

/-!
# Both texts
-/

/-- The text of an instruction and the text of its tokens say the same. -/
structure TextsAgree (inst : Instruction) : Prop where
  /-- In front of the mnemonic stands the announcement alone. -/
  announced : inst.tokens = inst.repetitionTokens ++ Token.unannounced inst.tokens
  mnemonic : (Token.unannounced inst.tokens).head? =
    some { kind := .instruction, text := inst.mnemonic }
  /-- With one space for the padding the tokens read like the text, but for constants. -/
  rendered : Token.render (Token.singleSpaced (Token.unannounced inst.tokens)) =
    inst.textWith Operand.hexText
  text : inst.text = inst.textWith Operand.text
  /-- There is padding where something is shown, and nothing follows a mnemonic without
  padding. -/
  padded : (Token.padding? (Token.unannounced inst.tokens)).isSome ↔ inst.ShowsMore
  alone : Token.padding? (Token.unannounced inst.tokens) = none ->
    (Token.unannounced inst.tokens).tail = []
  /-- The padded mnemonic is nine columns wide. -/
  column : forall padding,
    Token.padding? (Token.unannounced inst.tokens) = some padding ->
      inst.mnemonic.length + padding.text.length = 9

theorem texts_agree (inst : Instruction) : inst.TextsAgree := by
  have hannounced : inst.tokens =
      inst.repetitionTokens ++ Token.unannounced inst.tokens := by
    rw [inst.unannounced_tokens]
    rfl
  have htokens := inst.unannounced_tokens
  rcases inst.operandTokens_cases with
    ⟨hnothing, hempty, htext⟩ | ⟨hmore, shown, hshown, htext⟩
  · rw [hempty] at htokens
    refine ⟨hannounced, ?_, ?_, rfl, ?_, ?_, ?_⟩ <;> rw [htokens]
    · rfl
    · rw [htext]
      exact (Token.render_cons _ []).trans String.append_empty
    · exact iff_of_false nofun hnothing
    · exact fun _ => rfl
    · exact nofun
  · rw [hshown] at htokens
    have hpadding : forall first : Token,
        Token.padding? (first :: inst.padding :: shown) = some inst.padding :=
      fun _ => if_pos inst.isBlank_padding
    have hspaced : forall first : Token,
        Token.singleSpaced (first :: inst.padding :: shown) =
          first :: .plain " " :: shown :=
      fun _ => if_pos inst.isBlank_padding
    refine ⟨hannounced, ?_, ?_, rfl, ?_, ?_, ?_⟩ <;> rw [htokens]
    · rfl
    · rw [hspaced, htext, Token.render_cons, Token.render_cons]
      rfl
    · rw [hpadding]
      exact iff_of_true rfl hmore
    · rw [hpadding]
      exact nofun
    · rw [hpadding]
      intro padding heq
      cases heq
      exact inst.length_padding

/-- A constant is shown with its sign, in front of the hexadecimal marker. -/
example : Operand.hexText (.constant (-1)) = "#-0x1" := by
  decide

end Instruction

end MSP430
