import MSP430.Token
import MSP430.Proofs.Lift.Accesses
import MSP430.Proofs.Lift.Branches
import MSP430.Proofs.Lift.Immediates

/-!
# Addresses in text, branches and code

An instruction comes to a host as text, as branches and as code, and each of them names
addresses and values on its own.  They name the same ones: targets are wrapped once,
when operands are resolved, and the code never has to cut one off to make it fit the
width in which it reaches memory.
-/

namespace MSP430

open IL (Buffer Emit Expr Op)

/-!
# Numbers in text
-/

namespace Token

/-- The number that a token stands for. -/
def number? (token : Token) : Option Int :=
  match token.kind with
  | .integer value => some value
  | .possibleAddress address | .codeAddress address => some address
  | .instruction | .text | .register | .separator => none

def numbers (tokens : List Token) : List Int :=
  tokens.filterMap number?

theorem numbers_append (front back : List Token) :
    numbers (front ++ back) = numbers front ++ numbers back :=
  List.filterMap_append

theorem numbers_padding (mnemonic : String) : numbers (padding mnemonic) = [] := by
  unfold padding
  split <;> rfl

theorem numbers_ofAddress (isCode : Bool) (address : Nat) :
    numbers [ofAddress isCode address] = [(address : Int)] := by
  cases isCode <;> rfl

end Token

namespace Operand

/-- An operand with an address is one number, and that is the address. -/
theorem numbers_tokens_of_memoryAddress? {operand : Operand} {address : Nat}
    (h : operand.memoryAddress? = some address) (isCode : Bool) :
    Token.numbers (operand.tokens isCode) = [(address : Int)] := by
  cases operand with
  | absolute own =>
      cases h
      exact Token.numbers_ofAddress isCode address
  | symbolic offset own =>
      cases h
      rfl
  | _ => cases h

theorem numbers_tokens_immediate (value : Nat) (isCode : Bool) :
    Token.numbers ((immediate value).tokens isCode) = [(value : Int)] :=
  Token.numbers_ofAddress isCode value

/-- Separators are no numbers. -/
theorem numbers_listTokens (isCode : Bool) (operands : List Operand) :
    Token.numbers (listTokens isCode operands) =
      operands.flatMap fun operand => Token.numbers (operand.tokens isCode) := by
  induction operands with
  | nil => rfl
  | cons operand rest ih =>
      cases rest with
      | nil => exact (List.append_nil _).symm
      | cons next rest =>
          rw [List.flatMap_cons, ← ih]
          exact Token.numbers_append (operand.tokens isCode) _

/-- An operand reaches memory at a constant only if it has an address, which the code
has in its space. -/
theorem address_of_mem_accesses {space : Width} {operand : Operand} {address : Nat}
    (h : some address ∈ operand.accesses space) :
    exists own, operand.memoryAddress? = some own ∧ address = space.truncate own := by
  cases operand with
  | register _ | immediate _ | constant _ => cases h
  | indirect _ | autoIncrement _ _ | indexed _ _ => cases List.mem_singleton.mp h
  | absolute own | symbolic offset own =>
      exact ⟨own, rfl, Option.some.inj (List.mem_singleton.mp h)⟩

end Operand

namespace Body

variable {space : Width} {address : Nat} {body : Body Operand}

/-- Constant addresses are those of operands; the stack is reached by a register. -/
theorem exists_operand_of_load (h : some address ∈ body.loads space) :
    exists operand, operand ∈ body.operands ∧
      some address ∈ operand.accesses space := by
  cases body with
  | jump _ _ | shift _ _ _ => cases h
  | reti => simp [loads] at h
  | multiple opcode count highest =>
      cases opcode with
      | pushm => cases h
      | popm => cases List.eq_of_mem_replicate h
  | single _ target | calla target => exact ⟨target, List.mem_cons_self, h⟩
  | double opcode source destination | address opcode source destination =>
      have hmem : some address ∈ source.accesses space ∨
          some address ∈ destination.accesses space := by
        cases opcode <;> grind [loads]
      rcases hmem with hmem | hmem
      · exact ⟨source, List.mem_cons_self, hmem⟩
      · exact ⟨destination, List.mem_cons_of_mem _ List.mem_cons_self, hmem⟩

theorem exists_operand_of_store (h : some address ∈ body.stores space) :
    exists operand, operand ∈ body.operands ∧
      some address ∈ operand.accesses space := by
  cases body with
  | reti | jump _ _ | shift _ _ _ | calla _ => cases h
  | multiple opcode count highest =>
      cases opcode with
      | pushm => cases List.eq_of_mem_replicate h
      | popm => cases h
  | single opcode target =>
      cases opcode with
      | push => cases List.mem_singleton.mp h
      | call => cases h
      | _ => exact ⟨target, List.mem_cons_self, h⟩
  | double opcode source destination | address opcode source destination =>
      have hmem : some address ∈ destination.accesses space := by
        cases opcode <;> first | exact h | cases h
      exact ⟨destination, List.mem_cons_of_mem _ List.mem_cons_self, hmem⟩

theorem source_or_destination {operand : Operand} (h : operand ∈ body.operands) :
    body.source? = some operand ∨ body.destination? = some operand := by
  cases body with
  | reti | jump _ _ | shift _ _ _ | multiple _ _ _ => cases h
  | single _ _ | calla _ => exact .inl (congrArg some (List.mem_singleton.mp h).symm)
  | double _ _ _ | address _ _ _ =>
      rcases List.mem_cons.mp h with rfl | h
      · exact .inl rfl
      · exact .inr (congrArg some (List.mem_singleton.mp h).symm)

end Body

namespace Instruction

variable {inst : Instruction}

/-!
# The text of an instruction
-/

theorem numbers_repetitionTokens (inst : Instruction) :
    Token.numbers inst.repetitionTokens = [] := by
  unfold repetitionTokens
  split
  · split <;> rfl
  · rfl

theorem numbers_tokens (inst : Instruction) :
    Token.numbers inst.tokens = Token.numbers inst.operandTokens := by
  unfold tokens
  rw [Token.numbers_append, inst.numbers_repetitionTokens]
  rfl

theorem numbers_tokens_of_target {target : Nat} (h : inst.jumpTarget? = some target) :
    Token.numbers inst.tokens = [(target : Int)] := by
  rw [inst.numbers_tokens]
  unfold operandTokens
  rw [h]
  dsimp only
  rw [Token.numbers_append, Token.numbers_padding]
  rfl

theorem numbers_tokens_of_operands (h : inst.jumpTarget? = none) :
    Token.numbers inst.tokens =
      inst.displayedOperands.flatMap fun operand =>
        Token.numbers (operand.tokens inst.namesCode) := by
  rw [inst.numbers_tokens]
  unfold operandTokens
  rw [h]
  cases hoperands : inst.displayedOperands with
  | nil => rfl
  | cons operand rest =>
      dsimp only
      rw [Token.numbers_append, Token.numbers_padding, Operand.numbers_listTokens]
      rfl

/-!
# Addresses in code
-/

/-- The source or the destination is at the address. -/
def NamesAddress (inst : Instruction) (address : Nat) : Prop :=
  exists operand, (inst.source? = some operand ∨ inst.destination? = some operand) ∧
    operand.memoryAddress? = some address

/-- The address of an operand fits the space in which code reaches memory: the low
64 KiB are all there is without a prefix word. -/
theorem Decoded.memoryAddress_lt_space (hdecoded : inst.Decoded) {operand : Operand}
    (hmem : operand ∈ inst.body.operands) {address : Nat}
    (haddress : operand.memoryAddress? = some address) :
    address < (Lift.Context.addressWidthOf inst).modulus := by
  unfold Lift.Context.addressWidthOf
  split
  · exact hdecoded.memoryAddress_lt_address hmem haddress
  · next hplain =>
      simp only [Bool.or_eq_true, decide_eq_true_eq, not_or] at hplain
      rcases hplain with ⟨⟨hextended, _⟩, hformat⟩
      have hextension : inst.extension = none := Option.not_isSome_iff_eq_none.mp hextended
      exact hdecoded.memoryAddress_lt_word hextension hformat hmem haddress

/-- So what code reaches at a constant is at the address of an operand, as it is. -/
theorem Decoded.namesAddress_of_access (hdecoded : inst.Decoded) {operand : Operand}
    (hmem : operand ∈ inst.body.operands) {address : Nat}
    (haccess : some address ∈ operand.accesses (Lift.Context.addressWidthOf inst)) :
    inst.NamesAddress address := by
  rcases Operand.address_of_mem_accesses haccess with ⟨own, hown, rfl⟩
  rw [Width.truncate_of_lt (hdecoded.memoryAddress_lt_space hmem hown)]
  exact ⟨operand, Body.source_or_destination hmem, hown⟩

/-!
# Targets of jumps
-/

theorem branches_of_target {target : Nat} (h : inst.jumpTarget? = some target) :
    inst.branches = [.unconditional target] ∨
      inst.branches = [.ifTrue target, .ifFalse inst.nextAddress.toNat] := by
  unfold jumpTarget? jumpOffset? at h
  unfold branches
  cases hbody : inst.body with
  | jump condition offset =>
      rw [hbody] at h
      cases h
      dsimp only
      split
      · exact .inl rfl
      · exact .inr rfl
  | _ =>
      rw [hbody] at h
      cases h

/-- Code jumps to the target of its branch, and to no other. -/
theorem Transfers.jumps {branches : List Branch} {code : List Op}
    (h : inst.Transfers branches code) {target : Nat}
    (hbranches : branches = [.unconditional target] ∨
      branches = [.ifTrue target, .ifFalse inst.nextAddress.toNat]) :
    (exists location, Op.jump location ∈ code) ∧
      forall location, Op.jump location ∈ code ->
        location.constant? = some target := by
  cases h with
  | @jump _ own htarget _ =>
      rcases hbranches with heq | heq <;> cases heq
      refine ⟨⟨own, List.mem_cons_self⟩, ?_⟩
      intro location hmem
      cases List.mem_singleton.mp hmem
      exact htarget
  | @conditional _ _ own _ _ _ htarget _ =>
      rcases hbranches with heq | heq <;> cases heq
      refine ⟨⟨own, by simp⟩, ?_⟩
      intro location hmem
      have hlocation : location = own := by simpa using hmem
      rw [hlocation]
      exact htarget
  | call _ _ | untold _ _ | functionReturn _ | computed _ =>
      rcases hbranches with heq | heq <;> cases heq

end Instruction

namespace Lift

section

variable (options : Options) (buffer : Buffer) {inst : Instruction}
  (hdecoded : inst.Decoded)

include hdecoded

theorem namesAddress_of_load {op : Op} (hop : op ∈ appended buffer options inst)
    {width : Width} {location : Expr} (hload : .load width location ∈ op.parts)
    {address : Nat} (haddress : location.constant? = some address) :
    inst.NamesAddress address := by
  have hmem := (allWithin_appended buffer options hdecoded op hop).1 (Op.mem_loads hload)
  rw [haddress] at hmem
  rcases Body.exists_operand_of_load hmem with ⟨operand, hoperand, haccess⟩
  exact hdecoded.namesAddress_of_access hoperand haccess

theorem namesAddress_of_store {width : Width} {location value : Expr}
    (hop : .store width location value ∈ appended buffer options inst)
    {address : Nat} (haddress : location.constant? = some address) :
    inst.NamesAddress address := by
  have hmem := (allWithin_appended buffer options hdecoded _ hop).2 List.mem_cons_self
  rw [haddress] at hmem
  rcases Body.exists_operand_of_store hmem with ⟨operand, hoperand, haccess⟩
  exact hdecoded.namesAddress_of_access hoperand haccess

end

/-!
# All three
-/

/-- The text, the branches and the code of an instruction name the same addresses and
values. -/
structure NamesAgree (options : Options) (buffer : Buffer) (inst : Instruction) :
    Prop where
  /-- The numbers of the text are those of the operands that it shows. -/
  shown : inst.jumpTarget? = none ->
    Token.numbers inst.tokens =
      inst.displayedOperands.flatMap fun operand =>
        Token.numbers (operand.tokens inst.namesCode)
  /-- An absolute or symbolic operand is shown as its address alone. -/
  memory : forall operand, operand ∈ inst.displayedOperands ->
    forall address, operand.memoryAddress? = some address ->
      Token.numbers (operand.tokens inst.namesCode) = [(address : Int)]
  /-- Code that loads from a constant address loads an operand from where it is. -/
  loads : forall op, op ∈ appended buffer options inst ->
    forall width location address, .load width location ∈ op.parts ->
      location.constant? = some address -> inst.NamesAddress address
  /-- Code that stores at a constant address stores an operand where it is. -/
  stores : forall width location value address,
    .store width location value ∈ appended buffer options inst ->
      location.constant? = some address -> inst.NamesAddress address
  /-- An immediate is shown as its value, which fits the width of the instruction.  Read
  as an operand it is the constant of that value and as an address of code the pointer
  to it, and one of them is in the code, unless there is a reason to leave it out. -/
  immediate : forall value, .immediate value ∈ inst.displayedOperands ->
    Token.numbers ((Operand.immediate value).tokens inst.namesCode) = [(value : Int)] ∧
      value < inst.width.modulus ∧
      (Context.of options buffer.known inst).read (.immediate value) =
        .const inst.width value ∧
      (codePointer value).constant? = some value ∧
      (Unmentioned options buffer.known inst.body value ∨
        exists op, op ∈ appended buffer options inst ∧
          op.Mentions (Expr.Holds inst.width value))
  /-- The target of a jump is the only number of its text, the target of its branch and,
  in a buffer without labels, the only constant that its code jumps to. -/
  jump : forall target, inst.jumpTarget? = some target ->
    Token.numbers inst.tokens = [(target : Int)] ∧
      (inst.info.branches = [.unconditional target] ∨
        inst.info.branches = [.ifTrue target, .ifFalse inst.nextAddress.toNat]) ∧
      (buffer.known = [] ->
        (exists location, Op.jump location ∈ appended buffer options inst) ∧
          forall location, Op.jump location ∈ appended buffer options inst ->
            location.constant? = some target)

theorem names_agree (options : Options) (buffer : Buffer) {inst : Instruction}
    (hdecoded : inst.Decoded) : NamesAgree options buffer inst where
  shown := inst.numbers_tokens_of_operands
  memory := fun operand _ address haddress =>
    operand.numbers_tokens_of_memoryAddress? haddress inst.namesCode
  loads := fun op hop _ _ _ hload haddress =>
    namesAddress_of_load options buffer hdecoded hop hload haddress
  stores := fun _ _ _ _ hop haddress =>
    namesAddress_of_store options buffer hdecoded hop haddress
  immediate := by
    intro value hmem
    rcases mentions_of_shown options buffer hdecoded hmem with ⟨hvalue, hmentions⟩
    have hlt := Nat.lt_of_lt_of_le hvalue (Encoding.modulus_le_address inst.width)
    exact ⟨Operand.numbers_tokens_immediate value _, hvalue,
      (Context.of options buffer.known inst).read_immediate hvalue,
      constant?_codePointer hlt, hmentions⟩
  jump := by
    intro target htarget
    have hbranches := Instruction.branches_of_target htarget
    refine ⟨inst.numbers_tokens_of_target htarget, ?_, ?_⟩
    · rw [inst.info_eq]
      exact hbranches
    · intro hknown
      exact (transfers hdecoded hknown _).jumps hbranches

/-- A move of an immediate to an operand whose address wraps in the low 64 KiB. -/
def wrappedMove : Instruction where
  address := 0xfff0
  width := .word
  extension := none
  body := .double .mov (.immediate 0x1234) (.symbolic 0x20 0x16)
  length := 6

/-- A jump back over the start of memory. -/
def wrappedJump : Instruction where
  address := 0
  width := .word
  extension := none
  body := .jump .always (-2)
  length := 2

theorem names_agree_wrapped :
    NamesAgree .standard (.empty 0xfff0) wrappedMove ∧
      Token.numbers wrappedMove.tokens = [0x1234, 0x16] ∧
      NamesAgree .standard (.empty 0) wrappedJump ∧
      Token.numbers wrappedJump.tokens = [0xfffe] := by
  have hmove := @names_agree .standard (.empty 0xfff0) wrappedMove
    ⟨.msp430, [0xb0, 0x40, 0x34, 0x12, 0x20, 0x00], 0xfff0, rfl⟩
  have hjump := @names_agree .standard (.empty 0) wrappedJump
    ⟨.msp430, [0xfe, 0x3f], 0, rfl⟩
  exact ⟨hmove, hmove.shown rfl, hjump, (hjump.jump 0xfffe rfl).1⟩

end Lift
end MSP430
