import MSP430.Proofs.Decode.Addresses
import MSP430.Proofs.Lift.Answers
import MSP430.Proofs.Lift.Order

/-!
# Immediates in code

An immediate that is shown is the source of its instruction.  The code of the
instruction mentions it, as a constant of the width or as an address of code, unless
there is a reason not to: what would be written is dropped or left out, a branch goes to
a label, or there is no code for the instruction.
-/

namespace MSP430

open IL (Emit Expr KnownLabels Op)

namespace IL

/-!
# Mentions
-/

namespace Expr

/-- The expression stands for a value: it is a constant of the width, or an address that
is wide enough for it. -/
inductive Holds (width : Width) (value : Nat) : Expr -> Prop where
  | const : Holds width value (.const width value)
  | pointer (space : Width) : value < space.modulus ->
      Holds width value (.pointer space value)

/-- Some part of the expression has the property. -/
def Mentions (fits : Expr -> Prop) (expr : Expr) : Prop :=
  exists part, part ∈ expr.parts ∧ fits part

namespace Mentions

variable {fits : Expr -> Prop} {expr : Expr}

theorem self (h : fits expr) : expr.Mentions fits :=
  ⟨expr, expr.mem_parts_self, h⟩

theorem unary {op : UnaryOp} {width : Width} (h : expr.Mentions fits) :
    (Expr.unary op width expr).Mentions fits := by
  rcases h with ⟨part, hmem, hpart⟩
  exact ⟨part, List.mem_cons_of_mem _ hmem, hpart⟩

theorem left {op : BinaryOp} {width : Width} {right : Expr} (h : expr.Mentions fits) :
    (Expr.binary op width expr right).Mentions fits := by
  rcases h with ⟨part, hmem, hpart⟩
  exact ⟨part, List.mem_cons_of_mem _ (List.mem_append_left _ hmem), hpart⟩

theorem right {op : BinaryOp} {width : Width} {left : Expr} (h : expr.Mentions fits) :
    (Expr.binary op width left expr).Mentions fits := by
  rcases h with ⟨part, hmem, hpart⟩
  exact ⟨part, List.mem_cons_of_mem _ (List.mem_append_right _ hmem), hpart⟩

theorem rotated {width : Width} {carry : Expr} (h : expr.Mentions fits) :
    (Expr.rotateCarry width expr carry).Mentions fits := by
  rcases h with ⟨part, hmem, hpart⟩
  exact ⟨part, List.mem_cons_of_mem _ (List.mem_append_left _ hmem), hpart⟩

theorem first {width : Width} {second carry : Expr} (h : expr.Mentions fits) :
    (Expr.addCarry width expr second carry).Mentions fits := by
  rcases h with ⟨part, hmem, hpart⟩
  exact ⟨part, List.mem_cons_of_mem _ (List.mem_append_left _ hmem), hpart⟩

theorem second {width : Width} {first carry : Expr} (h : expr.Mentions fits) :
    (Expr.addCarry width first expr carry).Mentions fits := by
  rcases h with ⟨part, hmem, hpart⟩
  have hparts : part ∈ expr.parts ++ carry.parts := List.mem_append_left _ hmem
  exact ⟨part, List.mem_cons_of_mem _ (List.mem_append_right _ hparts), hpart⟩

end Mentions
end Expr

/-- Some part of the operation has the property. -/
def Op.Mentions (fits : Expr -> Prop) (op : Op) : Prop :=
  exists part, part ∈ op.parts ∧ fits part

theorem Op.mentions_of_mem {fits : Expr -> Prop} {op : Op} {expr : Expr}
    (hmem : expr ∈ op.exprs) (h : expr.Mentions fits) : op.Mentions fits := by
  rcases h with ⟨part, hpart, hfits⟩
  exact ⟨part, List.mem_flatMap.mpr ⟨expr, hmem, hpart⟩, hfits⟩

end IL

open IL.Emit (Includes)

/-!
# Shown immediates
-/

namespace Instruction

/-- An immediate that is shown is a source, and of all names only that of a branch may
stand before it. -/
theorem Decoded.source?_of_shown {inst : Instruction} (h : inst.Decoded) {value : Nat}
    (hmem : .immediate value ∈ inst.displayedOperands) :
    inst.source? = some (.immediate value) ∧
      forall emulated, inst.emulated? = some emulated ->
        emulated = .br ∨ emulated = .bra := by
  have hdestination : .immediate value ∉ inst.destination?.toList := by
    intro hmem
    have hplace := h.destination_isPlace (Option.mem_toList.mp hmem)
    cases hplace
  unfold displayedOperands at hmem
  cases hname : inst.emulated? with
  | none =>
      rw [hname] at hmem
      rcases List.mem_append.mp hmem with hmem | hmem
      · exact ⟨Option.mem_toList.mp hmem, nofun⟩
      · exact absurd hmem hdestination
  | some emulated =>
      rw [hname] at hmem
      have hsource : emulated = .br ∨ emulated = .bra := by
        cases emulated <;>
          first
          | exact .inl rfl
          | exact .inr rfl
          | exact absurd hmem hdestination
          | cases hmem
      refine ⟨?_, fun _ heq => Option.some.inj heq ▸ hsource⟩
      rcases hsource with rfl | rfl <;> exact Option.mem_toList.mp hmem

end Instruction

namespace Lift
namespace Context

variable (context : Context) {value : Nat}

theorem read_immediate (h : value < context.width.modulus) :
    context.read (.immediate value) = .const context.width value := by
  show Expr.const _ (context.width.truncate (context.width.ofInt value)) = _
  rw [Width.ofInt_natCast, Width.truncate_truncate, Width.truncate_of_lt h]

theorem holds_read (h : value < context.width.modulus) :
    (context.read (.immediate value)).Holds context.width value := by
  rw [context.read_immediate h]
  exact .const

theorem holds_codePointer (width : Width) (h : value < Width.address.modulus) :
    (codePointer value).Holds width value := by
  unfold codePointer Expr.address
  split
  · next hlow =>
      rw [Width.truncate_of_lt hlow]
      exact .pointer .word hlow
  · rw [Width.truncate_of_lt h]
    exact .pointer .address h

/-!
# What is written
-/

section

variable {fits : Expr -> Prop} {target : Expr} (h : target.Mentions fits)

include h

/-- A jump mentions its target, unless it goes to a label. -/
theorem includes_branchTo {known : KnownLabels}
    (hlabel : forall address, target.constant? = some address ->
      known.label? (UInt64.ofNat address) = none) :
    (Emit.op (branchTo known target)).Includes (Op.Mentions fits) := by
  have hjump : branchTo known target = .jump target := by
    unfold branchTo
    cases hconstant : target.constant? with
    | none => rfl
    | some address => rw [Option.bind_some, hlabel address hconstant]
  rw [hjump]
  exact .op (Op.mentions_of_mem List.mem_cons_self h)

theorem mentions_setRegister (r : Register) (width : Width) :
    (setRegister r width target).Mentions fits := by
  cases width with
  | byte => exact Op.mentions_of_mem List.mem_cons_self h.unary
  | word | address => exact Op.mentions_of_mem List.mem_cons_self h

/-- What is written to a place is mentioned, unless it is dropped. -/
theorem includes_write {operand : Operand} (hplace : operand.isValue = false)
    (hdropped : operand ≠ .register .cg)
    (hcomputed : operand = .register .pc -> target.constant? = none) :
    (context.write operand target).Includes (Op.Mentions fits) := by
  unfold write
  cases hoperand : context.place operand with
  | memory location =>
      have hmem : target ∈ (Op.store context.width location target).exprs :=
        List.mem_cons_of_mem _ List.mem_cons_self
      exact .op (Op.mentions_of_mem hmem h)
  | value number => cases operand <;> cases hoperand <;> cases hplace
  | register r =>
      have heq : operand = .register r := by
        cases operand <;> cases hoperand
        rfl
      cases r with
      | pc =>
          apply includes_branchTo h
          intro address haddress
          cases (hcomputed heq).symm.trans haddress
      | cg => exact absurd heq hdropped
      | sr => exact .ops List.mem_cons_self (mentions_setRegister h .sr _)
      | _ => exact .ops List.mem_cons_self (mentions_setRegister h _ _)

end

theorem mentions_arithmetic {fits : Expr -> Prop} (operation : Arithmetic)
    (width : Width) {a b : Expr} (h : a.Mentions fits ∨ b.Mentions fits) :
    (operation.expr width a b).Mentions fits := by
  cases operation with
  | add | sub | and | xor => exact h.elim .left .right
  | addc => exact h.elim .first .second
  | subc => exact h.elim .first fun hb => hb.unary.second

/-!
# Operands that are not kept

What can be read again without cost is not kept in a temporary, and then what is
computed from the operand mentions what reading it yields.
-/

section

variable {fits : Expr -> Prop}

theorem mentions_resultAndFlags (rule : FlagRule) (a b : Expr) {value : Expr}
    (h : value.Mentions fits) :
    (context.resultAndFlags rule a b value).Includes (Op.Mentions fits) :=
  .bind (.save fun _ => Op.mentions_of_mem List.mem_cons_self h) _

variable {operand : Operand} (hread : (context.read operand).Mentions fits)

include hread

theorem includes_write_read {destination : Operand}
    (hplace : destination.isValue = false) (hdropped : destination ≠ .register .cg)
    (hpc : destination ≠ .register .pc) :
    (context.write destination (context.read operand)).Includes (Op.Mentions fits) :=
  context.includes_write hread hplace hdropped fun heq => absurd heq hpc

section Bits

variable {source destination : Operand} (hplace : destination.isValue = false)
  (hdropped : destination ≠ .register .cg)
  (hmem : source = operand ∨ destination = operand)

include hplace hdropped hmem

theorem includes_clearBits :
    (context.clearBits source destination).Includes (Op.Mentions fits) := by
  have hmentions : (Expr.and context.width (context.read destination)
      (.complement context.width (context.read source))).Mentions fits := by
    rcases hmem with rfl | rfl
    · exact .right (.unary hread)
    · exact .left hread
  exact (context.includes_write hmentions hplace hdropped fun _ => rfl).bind _

theorem includes_setBits :
    (context.setBits source destination).Includes (Op.Mentions fits) := by
  have hmentions : (Expr.or context.width (context.read destination)
      (context.read source)).Mentions fits := by
    rcases hmem with rfl | rfl
    · exact .right hread
    · exact .left hread
  exact (context.includes_write hmentions hplace hdropped fun _ => rfl).bind _

end Bits

theorem includes_swapBytes (hplace : operand.isValue = false)
    (hdropped : operand ≠ .register .cg) :
    (context.swapBytes operand).Includes (Op.Mentions fits) := by
  have hmentions : (swappedBytes context.width (context.read operand)).Mentions fits := by
    cases context.width with
    | address => exact .unary (.left hread.unary)
    | byte | word => exact .left hread
  have hvaries : (swappedBytes context.width (context.read operand)).constant? = none := by
    cases context.width <;> rfl
  exact (context.includes_write hmentions hplace hdropped fun _ => hvaries).bind _

theorem includes_pushOperand (hconstant : (context.read operand).constant?.isSome = true) :
    (context.pushOperand operand).Includes (Op.Mentions fits) := by
  have hmem : context.read operand ∈ (Op.store context.width
      (context.stackTop context.width) (context.read operand)).exprs :=
    List.mem_cons_of_mem _ List.mem_cons_self
  have hpush : (Emit.ops (context.push context.width (context.read operand))).Includes
      (Op.Mentions fits) :=
    .ops (List.mem_cons_of_mem _ List.mem_cons_self) (Op.mentions_of_mem hmem hread)
  unfold pushOperand
  dsimp only
  rw [if_pos hconstant]
  exact .behindPure (hpush.bind _)

variable (hleaf : (context.read operand).isPureLeaf = true)

include hleaf

theorem includes_arithmetic (operation : Arithmetic) (store : Bool)
    {source destination : Operand} (hmem : source = operand ∨ destination = operand) :
    (context.arithmetic operation store source destination).Includes
      (Op.Mentions fits) := by
  have hresult : forall a b, a.Mentions fits ∨ b.Mentions fits ->
      (context.resultAndFlags operation.rule a b
        (operation.expr context.width a b)).Includes (Op.Mentions fits) :=
    fun a b h =>
      context.mentions_resultAndFlags _ a b (mentions_arithmetic operation _ h)
  unfold arithmetic
  rcases hmem with rfl | rfl
  · refine .behindSnapshot hleaf (.behind _ fun a => ?_)
    exact (hresult a _ (.inr hread)).bind _
  · refine .behind _ fun b => .behindSnapshot hleaf ?_
    exact (hresult _ b (.inl hread)).bind _

theorem includes_replaceOperand (rule : FlagRule) {compute : Expr -> Expr}
    (hcompute : forall a, a.Mentions fits -> (compute a).Mentions fits) :
    (context.replaceOperand rule operand compute).Includes (Op.Mentions fits) := by
  unfold replaceOperand
  apply Includes.behindSnapshot hleaf
  exact (context.mentions_resultAndFlags _ _ _ (hcompute _ hread)).bind _

end

/-!
# Each body
-/

/-- The code mentions the value. -/
abbrev ShowsValue (value : Nat) (emit : Emit Unit) : Prop :=
  emit.Includes (Op.Mentions (Expr.Holds context.width value))

section

variable (hvalue : value < context.width.modulus)

include hvalue

theorem mentions_read :
    (context.read (.immediate value)).Mentions (Expr.Holds context.width value) :=
  .self (context.holds_read hvalue)

/-- A constant is not kept, and so the result mentions it. -/
theorem showsValue_arithmetic (destination : Operand) (operation : Arithmetic)
    (store : Bool) :
    context.ShowsValue value
      (context.arithmetic operation store (.immediate value) destination) :=
  context.includes_arithmetic (context.mentions_read hvalue) rfl operation store (.inl rfl)

theorem showsValue_call : context.ShowsValue value
    (context.call (.immediate value)) := by
  have hlt := Nat.lt_of_lt_of_le hvalue (Encoding.modulus_le_address _)
  have hmem : codePointer value ∈ (Op.call (codePointer value)).exprs :=
    List.mem_cons_self
  exact Includes.op (Op.mentions_of_mem hmem (.self (holds_codePointer _ hlt)))

theorem showsValue_move {destination : Operand} (hplace : destination.isValue = false)
    (hdropped : destination ≠ .register .cg)
    (hskipped : destination = .register .sp -> context.options.skipStackReseed = false)
    (hlabel : destination = .register .pc ->
      context.known.label? (UInt64.ofNat value) = none) :
    context.ShowsValue value (context.move (.immediate value) destination) := by
  have hlt := Nat.lt_of_lt_of_le hvalue (Encoding.modulus_le_address _)
  have hwrite := context.includes_write_read (context.mentions_read hvalue) hplace hdropped
  unfold move
  split
  · apply includes_branchTo (.self (holds_codePointer context.width hlt))
    intro address haddress
    cases (constant?_codePointer hlt).symm.trans haddress
    exact hlabel rfl
  · rw [hskipped rfl]
    exact hwrite nofun
  · next hother _ => exact (hwrite hother).bind _

end

end Context

/-!
# Whole runs
-/

/-- Why code may leave out an immediate: there is no code for the instruction, the
constant generator drops what is written to it, loading the stack pointer is skipped, or
the address of a branch has a label. -/
inductive Unmentioned (options : Options) (known : KnownLabels) (body : Body Operand)
    (value : Nat) : Prop where
  | unsupported : unsupported? body ≠ none -> Unmentioned options known body value
  | dropped : body.destination? = some (.register .cg) ->
      Unmentioned options known body value
  | skipped : options.skipStackReseed = true -> reseedsStack body = true ->
      Unmentioned options known body value
  | labelled : known.label? (UInt64.ofNat value) ≠ none ->
      movedToPc? body = some (.immediate value) -> Unmentioned options known body value

/-- A body with an immediate source mentions it, unless there is a reason not to. -/
theorem Context.showsValue_body (context : Context) {body : Body Operand} {value : Nat}
    (hsource : body.source? = some (.immediate value))
    (hvalue : value < context.width.modulus)
    (hplace : forall destination, body.destination? = some destination ->
      destination.isValue = false)
    (hmentioned : ¬ Unmentioned context.options context.known body value) :
    context.ShowsValue value (context.body body) := by
  have hdropped : forall destination, body.destination? = some destination ->
      destination ≠ .register .cg := by
    rintro destination hdestination rfl
    exact hmentioned (.dropped hdestination)
  have hskipped : reseedsStack body = true -> context.options.skipStackReseed = false :=
    fun hreseeds => Bool.eq_false_iff.mpr fun hskip => hmentioned (.skipped hskip hreseeds)
  have hlabel : movedToPc? body = some (.immediate value) ->
      context.known.label? (UInt64.ofNat value) = none := fun hmoved =>
    Decidable.byContradiction fun hsome => hmentioned (.labelled hsome hmoved)
  cases body with
  | reti | jump _ _ | multiple _ _ _ | shift _ _ _ => cases hsource
  | calla target =>
      cases hsource
      exact context.showsValue_call hvalue
  | single opcode target =>
      cases hsource
      cases opcode with
      | push => exact context.includes_pushOperand (context.mentions_read hvalue) rfl
      | call => exact context.showsValue_call hvalue
      | _ => exact absurd (.unsupported nofun) hmentioned
  | double opcode source destination =>
      cases hsource
      have hwritable := hplace destination rfl
      have hkept := hdropped destination rfl
      have hread := context.mentions_read hvalue
      cases opcode with
      | mov =>
          apply context.showsValue_move hvalue hwritable hkept
          · rintro rfl
            exact hskipped rfl
          · rintro rfl
            exact hlabel rfl
      | bic => exact context.includes_clearBits hread hwritable hkept (.inl rfl)
      | bis => exact context.includes_setBits hread hwritable hkept (.inl rfl)
      | dadd => exact absurd (.unsupported ne_dadd_of_supported) hmentioned
      | _ => exact context.showsValue_arithmetic hvalue destination _ _
  | address opcode source destination =>
      cases hsource
      cases opcode with
      | mova =>
          apply context.showsValue_move hvalue (hplace destination rfl)
            (hdropped destination rfl)
          · rintro rfl
            exact hskipped rfl
          · rintro rfl
            exact hlabel rfl
      | _ => exact context.showsValue_arithmetic hvalue destination _ _

/-- The code of an instruction with a shown immediate mentions it, as a constant of the
width or as an address, unless there is a reason not to. -/
theorem mentions_of_shown (options : Options) (buffer : IL.Buffer) {inst : Instruction}
    (hdecoded : inst.Decoded) {value : Nat}
    (hmem : .immediate value ∈ inst.displayedOperands) :
    value < inst.width.modulus ∧
      (Unmentioned options buffer.known inst.body value ∨
        exists op, op ∈ appended buffer options inst ∧
          op.Mentions (Expr.Holds inst.width value)) := by
  let context := Context.of options buffer.known inst
  rcases hdecoded.source?_of_shown hmem with ⟨hsource, hname⟩
  have hoperand := Instruction.mem_operands_of_source hsource nofun
  have hvalue := hdecoded.immediate_lt hoperand
  refine ⟨hvalue, ?_⟩
  by_cases hmentioned : Unmentioned options buffer.known inst.body value
  · exact .inl hmentioned
  · right
    have hrun : context.ShowsValue value (context.run inst) := by
      rw [context.run_eq_body]
      · apply context.showsValue_body hsource hvalue _ hmentioned
        intro destination hdestination
        exact hdecoded.destination_isPlace hdestination
      · exact Decidable.byContradiction fun h => hmentioned (.unsupported h)
      · intro emulated hemulated
        rcases hname emulated hemulated with rfl | rfl <;> rfl
    unfold appended
    rw [code_emit_of_once options buffer.known
      (hdecoded.once_of_operand hoperand nofun nofun)]
    exact hrun _

end Lift
end MSP430
