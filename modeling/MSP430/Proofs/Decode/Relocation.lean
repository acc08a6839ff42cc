import MSP430.Proofs.Decode.Injective

/-!
# Decoding at another address

Nothing about an instruction depends on where it stands but the operands that count
from the program counter, and these move along with it.  They wrap within the low
64 KiB, or behind a prefix word and in the address format within the twenty-bit
space.  The name that an instruction goes by may compare two operands; both move by
the same distance then.
-/

namespace MSP430

/-!
# What moves
-/

/-- The same failure, for bytes at the given address. -/
def DecodeError.at (error : DecodeError) (address : UInt64) : DecodeError :=
  match error with
  | .truncated _ needed available => .truncated address needed available
  | .illegal _ word => .illegal address word

/-- Whether the operand is an offset from the program counter. -/
def OperandForm.isRelative : OperandForm -> Bool
  | .relative _ _ _ => true
  | .fixed _ | .absolute _ | .immediate _ _ | .indexed _ _ => false

def OperandField.isRelative (field : OperandField) : Bool :=
  decide (field.mode = .indexed ∧ field.register = .pc)

def OperandSlot.isRelative : OperandSlot -> Bool
  | .field described => described.isRelative
  | .form named => named.isRelative

namespace Body

def sourceIsRelative : Body OperandSlot -> Bool
  | single _ source | calla source | double _ source _ | address _ source _ =>
      source.isRelative
  | reti | jump _ _ | multiple _ _ _ | shift _ _ _ => false

def destinationIsRelative : Body OperandSlot -> Bool
  | double _ _ destination | address _ _ destination => destination.isRelative
  | reti | jump _ _ | single _ _ | calla _ | multiple _ _ _ | shift _ _ _ => false

end Body

/-- The operand of the same bytes at a distance.  A plain address moves only if it
was an offset from the program counter. -/
def Operand.relocated (operand : Operand) (isRelative : Bool) (space : Width)
    (distance : Int) : Operand :=
  match operand with
  | .symbolic offset target => .symbolic offset (space.ofInt (target + distance))
  | .absolute address =>
      if isRelative then .absolute (space.ofInt (address + distance))
      else .absolute address
  | other => other

/-- The space in which the operands of an instruction count from the program
counter. -/
def Encoding.relativeSpace (encoding : Encoding) : Width :=
  if encoding.extension.isSome ∨ encoding.body.opcode.format = .address then
    .address
  else
    .word

/-- What the same bytes make at two addresses that are a distance apart. -/
structure Instruction.Relocated (encoding : Encoding) (distance : Int)
    (here there : Instruction) : Prop where
  opcode : there.opcode = here.opcode
  emulated? : there.emulated? = here.emulated?
  width : there.width = here.width
  length : there.length = here.length
  extension : there.extension = here.extension
  jumpOffset? : there.jumpOffset? = here.jumpOffset?
  source? : there.source? =
    here.source?.map fun operand =>
      operand.relocated encoding.body.sourceIsRelative encoding.relativeSpace distance
  destination? : there.destination? =
    here.destination?.map fun operand =>
      operand.relocated encoding.body.destinationIsRelative encoding.relativeSpace
        distance

/-!
# Operands
-/

namespace Operand

variable (operand : Operand) (isRelative : Bool) (space : Width) (distance : Int)

theorem value?_relocated (width : Width) :
    (operand.relocated isRelative space distance).value? width =
      operand.value? width := by
  cases operand with
  | absolute _ => cases isRelative <;> rfl
  | _ => rfl

theorem isPop_relocated :
    (operand.relocated isRelative space distance).isPop = operand.isPop := by
  cases operand with
  | absolute _ => cases isRelative <;> rfl
  | _ => rfl

theorem isRegister_relocated (r : Register) :
    (operand.relocated isRelative space distance).isRegister r =
      operand.isRegister r := by
  cases operand with
  | absolute _ => cases isRelative <;> simp [relocated, isRegister]
  | symbolic _ _ => simp [relocated, isRegister]
  | _ => rfl

/-- As a plain address the operand stays, and otherwise it is a place in the
space. -/
def StaysWithin (isRelative : Bool) (space : Width) : Operand -> Prop
  | absolute _ => isRelative = false
  | symbolic _ target => target < space.modulus
  | register _ | indirect _ | autoIncrement _ _ | indexed _ _ | immediate _
  | constant _ => True

end Operand

/-- Moving by one distance keeps places of a space apart. -/
theorem Width.ofInt_add_inj {space : Width} {first second : Nat} (distance : Int)
    (hfirst : first < space.modulus) (hsecond : second < space.modulus) :
    space.ofInt (first + distance) = space.ofInt (second + distance) ↔
      first = second := by
  constructor
  · intro h
    cases space <;> simp only [ofInt, modulus] at * <;> omega
  · intro h
    rw [h]

namespace Operand

variable {source destination : Operand} {fromRelative toRelative : Bool}
  {space : Width} (distance : Int)

theorem relocated_eq_iff {other : Operand} {isRelative : Bool}
    (h : destination.StaysWithin isRelative space)
    (hother : forall offset target, other ≠ .symbolic offset target) :
    destination.relocated isRelative space distance = other ↔
      destination = other := by
  cases destination with
  | symbolic offset target =>
      constructor
      · intro heq
        exact absurd heq.symm (hother _ _)
      · intro heq
        exact absurd heq.symm (hother _ _)
  | absolute address =>
      cases h
      exact Iff.rfl
  | _ => exact Iff.rfl

/-- Two operands that move together are one place after it exactly if they were one
before. -/
theorem sameLocation_relocated (hsource : source.StaysWithin fromRelative space)
    (hdestination : destination.StaysWithin toRelative space) :
    (source.relocated fromRelative space distance).sameLocation
        (destination.relocated toRelative space distance) =
      source.sameLocation destination := by
  cases source with
  | symbolic offset target =>
      cases destination with
      | symbolic otherOffset other =>
          exact decide_eq_decide.mpr
            (Width.ofInt_add_inj distance hsource hdestination)
      | absolute _ => cases toRelative <;> rfl
      | _ => rfl
  | absolute address =>
      cases hsource
      exact decide_eq_decide.mpr (relocated_eq_iff distance hdestination nofun)
  | register _ | indexed _ _ =>
      exact decide_eq_decide.mpr (relocated_eq_iff distance hdestination nofun)
  | indirect _ | autoIncrement _ _ | immediate _ | constant _ => rfl

end Operand

namespace Emulated

variable {space : Width} (distance : Int) {fromRelative toRelative : Bool}
  {source destination : Operand}

/-- Only the two additions compare their operands. -/
theorem ofDouble?_relocated {opcode : DoubleOpcode} (width : Width) (extended : Bool)
    (h : opcode ≠ .mov -> source.StaysWithin fromRelative space ∧
      destination.StaysWithin toRelative space) :
    ofDouble? opcode width extended (source.relocated fromRelative space distance)
        (destination.relocated toRelative space distance) =
      ofDouble? opcode width extended source destination := by
  cases opcode with
  | add | addc =>
      rcases h nofun with ⟨hsource, hdestination⟩
      simp only [ofDouble?, Operand.value?_relocated,
        Operand.sameLocation_relocated distance hsource hdestination]
  | mov =>
      simp only [ofDouble?, ofMove?, Operand.value?_relocated,
        Operand.isPop_relocated, Operand.isRegister_relocated]
  | _ =>
      simp only [ofDouble?, Operand.value?_relocated, Operand.isRegister_relocated]

theorem ofAddress?_relocated (opcode : AddressOpcode) :
    ofAddress? opcode (source.relocated fromRelative space distance)
        (destination.relocated toRelative space distance) =
      ofAddress? opcode source destination := by
  cases opcode with
  | mova => simp only [ofAddress?, Operand.isPop_relocated, Operand.isRegister_relocated]
  | cmpa | adda | suba => rfl

end Emulated

/-!
# Forms
-/

/-- The cursor in the same bytes at another address. -/
def Cursor.at (cursor : Cursor) (base : UInt64) : Cursor :=
  { cursor with base := base }

/-- The way from the cursor's own address to the other one. -/
def Cursor.distance (cursor : Cursor) (base : UInt64) : Int :=
  (base.toNat : Int) - cursor.base.toNat

namespace Encoding

/-- If the form is an offset from the program counter, it wraps within the space. -/
def FormMoves (space : Width) : OperandForm -> Prop
  | .fixed operand => operand.memoryAddress? = none
  | .relative _ ownSpace _ => ownSpace = space
  | .absolute _ | .immediate _ _ | .indexed _ _ => True

theorem formMoves_field (field : OperandField) :
    FormMoves (extensionWidth field.high) field.form := by
  unfold OperandField.form
  split
  · rfl
  · split <;> trivial

/-- Only an indexed mode counts from the program counter. -/
theorem formMoves_of_mode {field : OperandField} (h : field.mode ≠ .indexed)
    (space : Width) : FormMoves space field.form := by
  unfold OperandField.form
  split
  · rfl
  · split
    case h_2 | h_3 | h_4 => exact absurd ‹_› h
    all_goals trivial

theorem formMoves_offsetForm (register : Register) (high : Option Nat)
    (asAbsolute : Bool) : FormMoves .address (offsetForm register high asAbsolute) := by
  unfold offsetForm
  split <;> trivial

theorem isRelative_field (field : OperandField) :
    field.form.isRelative = field.isRelative := by
  unfold OperandField.form OperandField.isRelative OperandField.generated?
  cases field.mode <;> cases field.register <;> cases field.isDestination <;> rfl

theorem isRelative_toForm (slot : OperandSlot) :
    slot.toForm.isRelative = slot.isRelative := by
  cases slot with
  | field described => exact isRelative_field described
  | form named => rfl

/-- An offset from the program counter leads as much further as the program counter
itself. -/
theorem ofInt_relocated (space : Width) (first second : UInt64) (position : Nat)
    (offset : Int) :
    space.ofInt ((second + UInt64.ofNat position).toNat + offset) =
      space.ofInt
        (space.ofInt ((first + UInt64.ofNat position).toNat + offset) +
          ((second.toNat : Int) - first.toNat)) := by
  simp only [UInt64.toNat_add, UInt64.toNat_ofNat']
  cases space <;> simp only [Width.ofInt, Width.modulus] <;> omega

theorem resolved_at {space : Width} {form : OperandForm} (h : FormMoves space form)
    (cursor : Cursor) (base : UInt64) :
    form.resolved (cursor.at base) =
      (form.resolved cursor).relocated form.isRelative space
        (cursor.distance base) := by
  cases form with
  | fixed operand =>
      cases operand <;> first | rfl | cases h
  | absolute _ | immediate _ _ | indexed _ _ => rfl
  | relative high ownSpace asAbsolute =>
      cases h
      have htarget := ofInt_relocated space cursor.base base
        (cursor.position + 2) (extendSigned high (wordAt cursor.data cursor.position))
      cases asAbsolute with
      | false => exact congrArg (Operand.symbolic _) htarget
      | true => exact congrArg Operand.absolute htarget

theorem staysWithin_resolved {space : Width} {form : OperandForm}
    (h : FormMoves space form)
    (hsymbolic : forall high ownSpace, form ≠ .relative high ownSpace true)
    (cursor : Cursor) :
    (form.resolved cursor).StaysWithin form.isRelative space := by
  cases form with
  | fixed operand =>
      cases operand <;> trivial
  | absolute _ => rfl
  | immediate _ _ | indexed _ _ => trivial
  | relative high ownSpace asAbsolute =>
      cases h
      cases asAbsolute with
      | false => exact Width.ofInt_lt _ _
      | true => exact absurd rfl (hsymbolic high space)

/-!
# Each format

A field that a prefix word widens has high bits, so that its offset wraps within the
twenty-bit space.  Fields that name registers are not widened.
-/

section

variable {encoding : Encoding}

/-- The operands that count from the program counter do so within the space of the
instruction. -/
def Moves (encoding : Encoding) : Prop :=
  forall slot, slot ∈ encoding.body.operands ->
    FormMoves encoding.relativeSpace slot.toForm

theorem moves_of_nil (h : encoding.body.operands = []) : encoding.Moves := by
  intro slot hslot
  rw [h] at hslot
  cases hslot

theorem relativeSpace_of_extension (hformat : encoding.body.opcode.format ≠ .address)
    {prefixWord : Option PrefixWord}
    (h : encoding.extension = none ↔ prefixWord = none) (high : PrefixWord -> Nat) :
    encoding.relativeSpace = extensionWidth (prefixWord.map high) := by
  unfold relativeSpace
  cases prefixWord with
  | none =>
      rw [h.mpr rfl]
      exact if_neg (not_or.mpr ⟨nofun, hformat⟩)
  | some prefixWord =>
      have hsome := Option.isSome_iff_ne_none.mpr (mt h.mp nofun)
      exact if_pos (.inl hsome)

theorem ofSingle?_high {prefixWord : Option PrefixWord} {word : Nat}
    (h : ofSingle? prefixWord word = some encoding) :
    exists opcode target,
      encoding.body = .single opcode (.field target) ∧
        (target.mode = .indexed ->
          target.high = prefixWord.map PrefixWord.destinationHigh) := by
  unfold ofSingle? at h
  rcases Option.bind_eq_some_iff.mp h with ⟨opcode, _, h⟩
  rcases Option.bind_eq_some_iff.mp h with ⟨width, _, h⟩
  cases h
  refine ⟨opcode, _, rfl, fun hmode => ?_⟩
  dsimp only at hmode ⊢
  rw [hmode]
  rfl

theorem ofDouble?_high {prefixWord : Option PrefixWord} {word : Nat}
    (h : ofDouble? prefixWord word = some encoding) :
    exists opcode source destination,
      encoding.body = .double opcode (.field source) (.field destination) ∧
        (source.mode = .indexed ->
          source.high = prefixWord.map PrefixWord.sourceHigh) ∧
        (destination.mode = .indexed ->
          destination.high = prefixWord.map PrefixWord.destinationHigh) ∧
        (opcode ≠ .mov ->
          source.preferAbsolute = false ∧ destination.preferAbsolute = false) := by
  unfold ofDouble? at h
  rcases Option.bind_eq_some_iff.mp h with ⟨opcode, _, h⟩
  rcases Option.bind_eq_some_iff.mp h with ⟨width, _, h⟩
  cases h
  refine ⟨opcode, _, _, rfl, fun hmode => ?_, fun hmode => ?_, fun hmove => ?_⟩
  · dsimp only at hmode ⊢
    rw [hmode]
    rfl
  · dsimp only at hmode ⊢
    rw [hmode]
    simp
  · exact ⟨decide_eq_false fun h => hmove h.1, rfl⟩

theorem formMoves_of_high {field : OperandField} {space : Width}
    (h : field.mode = .indexed -> space = extensionWidth field.high) :
    FormMoves space field.form := by
  by_cases hmode : field.mode = .indexed
  · rw [h hmode]
    exact formMoves_field field
  · exact formMoves_of_mode hmode space

theorem ofSingle?_moves {prefixWord : Option PrefixWord} {word : Nat}
    (h : ofSingle? prefixWord word = some encoding) : encoding.Moves := by
  rcases ofSingle?_fields h with ⟨_, _, hfields, _, _, _, hextension⟩
  rcases ofSingle?_high h with ⟨opcode, target, hbody, hhigh⟩
  have hformat : encoding.body.opcode.format ≠ .address := by
    rw [hbody]
    exact nofun
  intro slot hslot
  rw [hbody] at hslot
  rw [List.mem_singleton.mp hslot]
  apply formMoves_of_high
  intro hmode
  rw [hhigh hmode]
  exact relativeSpace_of_extension hformat hextension _

theorem ofDouble?_moves {prefixWord : Option PrefixWord} {word : Nat}
    (h : ofDouble? prefixWord word = some encoding) : encoding.Moves := by
  rcases ofDouble?_fields h with ⟨_, _, _, _, _, _, _, _, hextension⟩
  rcases ofDouble?_high h with
    ⟨opcode, source, destination, hbody, hsource, hdestination, _⟩
  have hformat : encoding.body.opcode.format ≠ .address := by
    rw [hbody]
    exact nofun
  intro slot hslot
  rw [hbody] at hslot
  rcases List.mem_cons.mp hslot with rfl | hslot
  · apply formMoves_of_high
    intro hmode
    rw [hsource hmode]
    exact relativeSpace_of_extension hformat hextension _
  · rw [List.mem_singleton.mp hslot]
    apply formMoves_of_high
    intro hmode
    rw [hdestination hmode]
    exact relativeSpace_of_extension hformat hextension _

theorem relativeSpace_of_format (h : encoding.body.opcode.format = .address) :
    encoding.relativeSpace = .address :=
  if_pos (.inr h)

theorem moves_call {form : OperandForm} (h : FormMoves .address form) :
    Moves { width := .address, body := .calla (.form form) } := by
  intro slot hslot
  rw [relativeSpace_of_format rfl, List.mem_singleton.mp hslot]
  exact h

theorem ofCalla?_moves {word : Nat} (h : ofCalla? word = some encoding) :
    encoding.Moves := by
  unfold ofCalla? at h
  dsimp only at h
  split at h <;> cases h
  case h_1 | h_3 | h_4 => exact moves_call rfl
  case h_2 | h_6 => exact moves_call (formMoves_offsetForm _ _ _)
  case h_5 | h_7 => exact moves_call trivial

theorem moves_operation {opcode : AddressOpcode} {source destination : OperandForm}
    (hsource : FormMoves .address source)
    (hdestination : FormMoves .address destination) :
    Moves
      { width := .address
        body := .address opcode (.form source) (.form destination) } := by
  intro slot hslot
  rw [relativeSpace_of_format rfl]
  rcases List.mem_cons.mp hslot with rfl | hslot
  · exact hsource
  · rw [List.mem_singleton.mp hslot]
    exact hdestination

theorem ofAddress_moves (word : Nat) : (ofAddress word).Moves := by
  unfold ofAddress
  dsimp only
  split
  case h_1 | h_2 => exact moves_operation rfl rfl
  case h_3 => exact moves_operation trivial rfl
  case h_4 => exact moves_operation (formMoves_offsetForm _ _ _) rfl
  case h_5 | h_6 => exact moves_of_nil rfl
  case h_7 => exact moves_operation rfl trivial
  case h_8 => exact moves_operation rfl (formMoves_offsetForm _ _ _)
  case h_9 =>
    split
    · exact moves_operation trivial rfl
    · exact moves_operation rfl rfl

theorem Family.moves (h : Family encoding) : encoding.Moves := by
  cases h with
  | reti => exact moves_of_nil rfl
  | jump word => exact moves_of_nil rfl
  | multiple hsettled =>
      rcases ofMultiple?_body hsettled with ⟨⟨_, _, _, hbody⟩, _⟩
      apply moves_of_nil
      rw [hbody]
      rfl
  | single hsettled => exact ofSingle?_moves hsettled
  | double hsettled => exact ofDouble?_moves hsettled
  | calla hsettled => exact ofCalla?_moves hsettled
  | address word => exact ofAddress_moves word

end

/-!
# Whole instructions
-/

variable {encoding : Encoding}

/-- Where the operands of an instruction are compared, an offset from the program
counter makes no plain address. -/
theorem Family.symbolic (h : Family encoding) {opcode : DoubleOpcode}
    {source destination : OperandSlot}
    (hbody : encoding.body = .double opcode source destination)
    (hmove : opcode ≠ .mov) :
    forall slot, slot ∈ [source, destination] ->
      forall high space, slot.toForm ≠ .relative high space true := by
  have hfield : forall field : OperandField, field.preferAbsolute = false ->
      forall high space, field.form ≠ .relative high space true := by
    intro field hprefer high space hform
    rw [relative_of_preferAbsolute hform] at hprefer
    cases hprefer
  cases h with
  | reti => cases hbody
  | jump word => cases hbody
  | multiple hsettled =>
      rcases ofMultiple?_body hsettled with ⟨⟨_, _, _, hother⟩, _⟩
      cases hother.symm.trans hbody
  | single hsettled =>
      rcases ofSingle?_body hsettled with ⟨_, _, hother⟩
      cases hother.symm.trans hbody
  | calla hsettled =>
      rcases ofCalla?_body hsettled with ⟨⟨_, hother⟩, _⟩
      cases hother.symm.trans hbody
  | address word =>
      rcases (ofAddress_body word).1 with ⟨_, _, _, hother, _⟩ | ⟨_, _, _, hother⟩
      · cases hother.symm.trans hbody
      · cases hother.symm.trans hbody
  | double hsettled =>
      rcases ofDouble?_high hsettled with ⟨_, _, _, hother, _, _, hsymbolic⟩
      cases hother.symm.trans hbody
      rcases hsymbolic hmove with ⟨hsource, hdestination⟩
      intro slot hslot
      rcases List.mem_cons.mp hslot with rfl | hslot
      · exact hfield _ hsource
      · rw [List.mem_singleton.mp hslot]
        exact hfield _ hdestination

theorem emulated?_double {opcode : DoubleOpcode} {source destination : OperandSlot}
    (hbody : encoding.body = .double opcode source destination) {cursor : Cursor} :
    (encoding.instruction cursor).emulated? =
      Emulated.ofDouble? opcode encoding.width encoding.extension.isSome
        (source.resolved cursor) (destination.resolved (source.behind cursor)) := by
  unfold Instruction.emulated? instruction
  rw [hbody]
  rfl

theorem emulated?_address {opcode : AddressOpcode} {source destination : OperandSlot}
    (hbody : encoding.body = .address opcode source destination) {cursor : Cursor} :
    (encoding.instruction cursor).emulated? =
      Emulated.ofAddress? opcode (source.resolved cursor)
        (destination.resolved (source.behind cursor)) := by
  unfold Instruction.emulated? instruction
  rw [hbody]
  rfl

theorem behind_at (slot : OperandSlot) (cursor : Cursor) (base : UInt64) :
    slot.behind (cursor.at base) = (slot.behind cursor).at base :=
  rfl

section

variable (h : Family encoding) (cursor : Cursor) (base : UInt64)

include h

theorem Family.slot_resolved_at (slot : OperandSlot)
    (hslot : slot ∈ encoding.body.operands) :
    slot.resolved (cursor.at base) =
      (slot.resolved cursor).relocated slot.isRelative encoding.relativeSpace
        (cursor.distance base) := by
  rw [← isRelative_toForm]
  exact resolved_at (h.moves slot hslot) cursor base

theorem Family.slot_staysWithin {opcode : DoubleOpcode}
    {source destination slot : OperandSlot}
    (hbody : encoding.body = .double opcode source destination)
    (hmove : opcode ≠ .mov)
    (hslot : slot ∈ [source, destination]) :
    (slot.resolved cursor).StaysWithin slot.isRelative encoding.relativeSpace := by
  have hmoves := h.moves
  unfold Moves at hmoves
  rw [hbody] at hmoves
  rw [← isRelative_toForm]
  exact staysWithin_resolved (hmoves slot hslot) (h.symbolic hbody hmove slot hslot)
    cursor

theorem Family.source?_at :
    (encoding.instruction (cursor.at base)).source? =
      (encoding.instruction cursor).source?.map fun operand =>
        operand.relocated encoding.body.sourceIsRelative encoding.relativeSpace
          (cursor.distance base) := by
  have hslots := h.slot_resolved_at cursor base
  unfold Instruction.source? instruction
  revert hslots
  generalize encoding.relativeSpace = space
  cases encoding.body with
  | reti | jump _ _ | multiple _ _ _ | shift _ _ _ =>
      intro _
      rfl
  | single opcode source | calla source | double opcode source destination
  | address opcode source destination =>
      intro hslots
      exact congrArg some (hslots source List.mem_cons_self)

theorem Family.destination?_at :
    (encoding.instruction (cursor.at base)).destination? =
      (encoding.instruction cursor).destination?.map fun operand =>
        operand.relocated encoding.body.destinationIsRelative encoding.relativeSpace
          (cursor.distance base) := by
  have hslots := fun position => h.slot_resolved_at position base
  unfold Instruction.destination? instruction
  revert hslots
  generalize encoding.relativeSpace = space
  cases encoding.body with
  | reti | jump _ _ | single _ _ | calla _ | multiple _ _ _ | shift _ _ _ =>
      intro _
      rfl
  | double opcode source destination | address opcode source destination =>
      intro hslots
      exact congrArg some (hslots (source.behind cursor) destination
        (List.mem_cons_of_mem _ List.mem_cons_self))

/-- The names of instructions are the same at any address. -/
theorem Family.emulated?_at :
    (encoding.instruction (cursor.at base)).emulated? =
      (encoding.instruction cursor).emulated? := by
  cases hbody : encoding.body with
  | double opcode source destination =>
      have hmem : source ∈ encoding.body.operands ∧
          destination ∈ encoding.body.operands := by
        rw [hbody]
        exact ⟨List.mem_cons_self, List.mem_cons_of_mem _ List.mem_cons_self⟩
      have hsource := h.slot_resolved_at cursor base source hmem.1
      have hdestination :=
        h.slot_resolved_at (source.behind cursor) base destination hmem.2
      rw [emulated?_double hbody, emulated?_double hbody, hsource, behind_at,
        hdestination]
      apply Emulated.ofDouble?_relocated
      intro hmove
      constructor
      · exact h.slot_staysWithin _ hbody hmove List.mem_cons_self
      · exact h.slot_staysWithin _ hbody hmove
          (List.mem_cons_of_mem _ List.mem_cons_self)
  | address opcode source destination =>
      have hmem : source ∈ encoding.body.operands ∧
          destination ∈ encoding.body.operands := by
        rw [hbody]
        exact ⟨List.mem_cons_self, List.mem_cons_of_mem _ List.mem_cons_self⟩
      have hsource := h.slot_resolved_at cursor base source hmem.1
      have hdestination :=
        h.slot_resolved_at (source.behind cursor) base destination hmem.2
      rw [emulated?_address hbody, emulated?_address hbody, hsource, behind_at,
        hdestination]
      apply Emulated.ofAddress?_relocated
  | reti | jump _ _ | single _ _ | calla _ | multiple _ _ _ | shift _ _ _ =>
      unfold Instruction.emulated? instruction
      rw [hbody]
      rfl

theorem Family.relocated :
    Instruction.Relocated encoding (cursor.distance base) (encoding.instruction cursor)
      (encoding.instruction (cursor.at base)) where
  opcode := by
    unfold Instruction.opcode instruction
    cases encoding.body <;> rfl
  emulated? := h.emulated?_at cursor base
  width := rfl
  length := rfl
  extension := rfl
  jumpOffset? := by
    unfold Instruction.jumpOffset? instruction
    cases encoding.body <;> rfl
  source? := h.source?_at cursor base
  destination? := h.destination?_at cursor base

end

end Encoding

/-- Decoding is the same at all addresses.  The same bytes fail alike, or they make
instructions that agree in everything but the operands that count from the program
counter, and these are as far apart as the addresses are. -/
theorem decode_relocates (variant : Variant) (data : List UInt8)
    (first second : UInt64) :
    (exists error : DecodeError,
      decode variant data first = .error (error.at first) ∧
      decode variant data second = .error (error.at second)) ∨
    exists encoding here there, Encoding.settled? variant data = some encoding ∧
      decode variant data first = .ok here ∧
      decode variant data second = .ok there ∧
      Instruction.Relocated encoding ((second.toNat : Int) - first.toNat) here
        there := by
  rw [decode_eq, decode_eq]
  by_cases hshort : data.length < demand variant data
  · rw [if_pos hshort, if_pos hshort]
    exact .inl ⟨.truncated first (demand variant data) data.length, rfl, rfl⟩
  · rw [if_neg hshort, if_neg hshort]
    unfold verdict
    cases hsettled : Encoding.settled? variant data with
    | none =>
        exact .inl ⟨.illegal first _, rfl, rfl⟩
    | some encoding =>
        have hfamily := Encoding.family_settled? hsettled
        exact .inr ⟨encoding, _, _, rfl, rfl, rfl,
          hfamily.relocated (Encoding.behindOpcode variant data first) second⟩

end MSP430
