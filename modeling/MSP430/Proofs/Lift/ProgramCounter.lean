import MSP430.Proofs.Lift.Immediates

/-!
# The program counter as an operand

Code that runs elsewhere has no program counter to read.  Where an instruction takes the
value of the program counter, its code has a constant instead, the address of the word
behind the first one.  That is the address of the next instruction unless a prefix word
stands before the opcode word.  Only a range of registers is pushed without such a
constant.
-/

namespace MSP430

open IL (Composes Emit Expr KnownLabels Op)
open IL.Emit (Emits EmitsCode Includes)

/-- A body takes the value of a register: as an operand, as what it shifts, or as one of
a range that it pushes. -/
inductive Body.Takes (r : Register) : Body Operand -> Prop where
  | single (opcode : SingleOpcode) : Takes r (.single opcode (.register r))
  | calla : Takes r (.calla (.register r))
  | source (opcode : DoubleOpcode) (destination : Operand) :
      Takes r (.double opcode (.register r) destination)
  | destination {opcode : DoubleOpcode} (source : Operand) :
      opcode ≠ .mov -> Takes r (.double opcode source (.register r))
  | addressSource (opcode : AddressOpcode) (destination : Operand) :
      Takes r (.address opcode (.register r) destination)
  | addressDestination {opcode : AddressOpcode} (source : Operand) :
      opcode ≠ .mova -> Takes r (.address opcode source (.register r))
  | shift (opcode : ShiftOpcode) (count : Nat) : Takes r (.shift opcode count r)
  | pushed {count : Nat} {highest : Register} :
      r ∈ Lift.registerRange count highest -> Takes r (.multiple .pushm count highest)

/-- What the code has for the value of the program counter. -/
def Instruction.counterRead (inst : Instruction) : Expr :=
  match inst.body with
  | .multiple _ _ _ => .reg inst.width .pc
  | _ => (Lift.Place.register .pc).read inst.address inst.width

/-- Why the value of the program counter is left out: there is no code for the
instruction, the constant generator drops what is written to it, or the address has a
label to branch to. -/
inductive Instruction.CounterOmitted (known : KnownLabels) (inst : Instruction) :
    Prop where
  | unsupported : Lift.unsupported? inst.body ≠ none -> CounterOmitted known inst
  | dropped : Lift.writtenOperand? inst.body = some (.register .cg) ->
      CounterOmitted known inst
  | labelled {address : Nat} : Lift.movedToPc? inst.body = some (.register .pc) ->
      inst.counterRead.constant? = some address ->
      known.label? (UInt64.ofNat address) ≠ none -> CounterOmitted known inst

/-- The instruction reads what is stored in a register: as the base of a memory operand,
as the count of a repetition, or as a register that it pushes in a range. -/
inductive Instruction.ReadsStored (r : Register) (inst : Instruction) : Prop where
  | base {operand : Operand} : operand ∈ inst.body.operands -> operand.base? = some r ->
      ReadsStored r inst
  | repetition {zeroCarry : Bool} :
      inst.extension = some { repetition := .register r, zeroCarry := zeroCarry } ->
      ReadsStored r inst
  | pushed {count : Nat} {highest : Register} :
      inst.body = .multiple .pushm count highest ->
      r ∈ Lift.registerRange count highest -> ReadsStored r inst

/-!
# Code that leaves a register unread
-/

namespace IL

def Expr.Avoids (r : Register) (expr : Expr) : Prop :=
  forall width, .reg width r ∉ expr.parts

def Op.Avoids (r : Register) (op : Op) : Prop :=
  forall width, .reg width r ∉ op.parts

/-- No operation of the code reads what is stored in the register. -/
def Avoids (r : Register) (code : List Op) : Prop :=
  forall op, op ∈ code -> op.Avoids r

instance (r : Register) : Composes (Avoids r) :=
  .ofEach (Op.Avoids r)

theorem Expr.closed_avoids (r : Register) : Closed (Avoids r) := by
  constructor <;> intros <;> simp_all [Avoids, parts]

theorem Expr.avoids_reg {r other : Register} (h : other ≠ r) (width : Width) :
    (Expr.reg width other).Avoids r := by
  intro otherWidth hmem
  cases List.mem_singleton.mp hmem
  exact h rfl

theorem avoids_single {r : Register} {op : Op}
    (h : forall expr, expr ∈ op.exprs -> expr.Avoids r) : Avoids r [op] := by
  intro other hmem width hpart
  rw [List.mem_singleton.mp hmem] at hpart
  rcases List.mem_flatMap.mp hpart with ⟨expr, hexpr, hpart⟩
  exact h expr hexpr width hpart

theorem avoids_of_expr {r : Register} {op : Op} {expr : Expr} (hexprs : op.exprs = [expr])
    (h : expr.Avoids r) : Avoids r [op] := by
  apply avoids_single
  intro other hmem
  rw [hexprs] at hmem
  rw [List.mem_singleton.mp hmem]
  exact h

theorem avoids_branchTo {r : Register} (known : KnownLabels) {target : Expr}
    (h : target.Avoids r) : Avoids r [Lift.branchTo known target] := by
  unfold Lift.branchTo
  split
  · exact avoids_single nofun
  · exact avoids_of_expr rfl h

theorem Op.SetsOnly.avoids {r : Register} {op : Op} (h : op.SetsOnly (Expr.Avoids r)) :
    IL.Avoids r [op] := by
  cases op with
  | setReg _ _ _ | setTemp _ _ _ | setFlag _ _ => exact avoids_of_expr rfl h
  | store _ address value =>
      apply avoids_single
      intro expr hmem
      rcases List.mem_cons.mp hmem with rfl | hmem
      · exact h.1
      · rw [List.mem_singleton.mp hmem]
        exact h.2
  | nop | unimplemented => exact avoids_single nofun
  | jump _ | goto _ | branch _ _ _ | call _ | ret _ | label _ => exact h.elim

end IL

/-!
# Names
-/

/-- No name with code of its own goes to an instruction that takes the value of the
program counter. -/
theorem Instruction.hasOwnCode_of_takes {inst : Instruction} (h : inst.body.Takes .pc)
    {emulated : Emulated} (hemulated : inst.emulated? = some emulated) :
    Lift.hasOwnCode emulated = false := by
  apply Lift.hasOwnCode_eq_false hemulated
  intro hown
  generalize inst.body = body at h hown
  -- A pop and a value are no registers, and a move does not take its destination.
  cases hown with
  | ret hsource =>
      cases h with
      | source _ _ => cases hsource
      | destination _ hmove => exact hmove rfl
  | reta hsource =>
      cases h with
      | addressSource _ _ => cases hsource
      | addressDestination _ hmove => exact hmove rfl
  | nop hsource | clear hsource | set hsource =>
      cases h
      cases hsource

namespace Lift
namespace Context

variable (context : Context)

/-!
# The constant is there
-/

theorem includes_pushRange {count : Nat} {highest r : Register}
    (h : r ∈ registerRange count highest) :
    (Emit.ops (context.pushRange count highest)).Includes
      (Op.Mentions fun part => part = .reg context.width r) := by
  have hpush : Op.store context.width (context.stackTop context.width)
      (.reg context.width r) ∈ context.push context.width (.reg context.width r) :=
    List.mem_cons_of_mem _ List.mem_cons_self
  refine .ops (List.mem_flatMap.mpr ⟨r, h, hpush⟩) ?_
  exact Op.mentions_of_mem (List.mem_cons_of_mem _ List.mem_cons_self) (.self rfl)

theorem mentions_shiftExpr {fits : Expr -> Prop} (opcode : ShiftOpcode) (width : Width)
    (count : Nat) {a : Expr} (h : a.Mentions fits) :
    (shiftExpr opcode width count a).Mentions fits := by
  cases opcode with
  | rrcm => exact h.left.left.left
  | rram | rlam | rrum => exact h.left

section

variable {fits : Expr -> Prop}
  (hread : (context.read (.register .pc)).Mentions fits)

include hread

/-- A move of the program counter to itself is a jump to the constant. -/
theorem includes_moveCounter {destination : Operand}
    (hplace : destination.isValue = false) (hdropped : destination ≠ .register .cg)
    (hlabel : destination = .register .pc -> forall address,
      (context.read (.register .pc)).constant? = some address ->
        context.known.label? (UInt64.ofNat address) = none) :
    (context.move (.register .pc) destination).Includes (Op.Mentions fits) := by
  by_cases hpc : destination = .register .pc
  · rw [hpc, context.move_pc]
    refine .behindPure (.behind _ fun _ => ?_)
    exact includes_branchTo hread (hlabel hpc)
  · have hwrite := context.includes_write_read hread hplace hdropped hpc
    unfold move
    split
    · exact absurd rfl hpc
    · next hsource => cases hsource
    · exact hwrite.bind _

theorem includes_singleCounter (opcode : SingleOpcode) :
    (context.single opcode (.register .pc)).Includes (Op.Mentions fits) := by
  cases opcode with
  | rrc =>
      apply context.includes_replaceOperand hread rfl
      exact fun a ha => ha.rotated
  | rra =>
      apply context.includes_replaceOperand hread rfl
      exact fun a ha => ha.left
  | sxt =>
      apply context.includes_replaceOperand hread rfl
      exact fun a ha => ha.unary.unary
  | swpb => exact context.includes_swapBytes hread rfl nofun
  | push => exact context.includes_pushOperand hread rfl
  | call => exact .op (Op.mentions_of_mem List.mem_cons_self hread)

/-- The code of a body that takes the program counter mentions the constant, unless it
is dropped or gives way to a label. -/
theorem includes_bodyCounter {body : Body Operand} (htakes : body.Takes .pc)
    (hrange : forall count highest, body ≠ .multiple .pushm count highest)
    (hplace : forall destination, body.destination? = some destination ->
      destination.isValue = false)
    (hsupported : unsupported? body = none)
    (hdropped : writtenOperand? body ≠ some (.register .cg))
    (hlabel : movedToPc? body = some (.register .pc) -> forall address,
      (context.read (.register .pc)).constant? = some address ->
        context.known.label? (UInt64.ofNat address) = none) :
    (context.body body).Includes (Op.Mentions fits) := by
  cases htakes with
  | single opcode => exact context.includes_singleCounter hread opcode
  | calla => exact .op (Op.mentions_of_mem List.mem_cons_self hread)
  | shift opcode count =>
      apply context.includes_replaceOperand hread rfl
      exact fun a ha => mentions_shiftExpr opcode _ count ha
  | pushed hmem => exact absurd rfl (hrange _ _)
  | source opcode destination =>
      have hwritable := hplace destination rfl
      have hkept : opcode.writesDestination = true ->
          destination ≠ .register .cg := by
        rintro hwrites rfl
        exact hdropped (if_pos hwrites)
      cases opcode with
      | mov =>
          apply context.includes_moveCounter hread hwritable (hkept rfl)
          rintro rfl
          exact hlabel rfl
      | bic => exact context.includes_clearBits hread hwritable (hkept rfl) (.inl rfl)
      | bis => exact context.includes_setBits hread hwritable (hkept rfl) (.inl rfl)
      | dadd => exact absurd hsupported ne_dadd_of_supported
      | _ => exact context.includes_arithmetic hread rfl _ _ (.inl rfl)
  | @destination opcode source hmove =>
      cases opcode with
      | mov => exact absurd rfl hmove
      | bic => exact context.includes_clearBits hread rfl nofun (.inr rfl)
      | bis => exact context.includes_setBits hread rfl nofun (.inr rfl)
      | dadd => exact absurd hsupported ne_dadd_of_supported
      | _ => exact context.includes_arithmetic hread rfl _ _ (.inr rfl)
  | addressSource opcode destination =>
      cases opcode with
      | mova =>
          apply context.includes_moveCounter hread (hplace destination rfl)
          · rintro rfl
            exact hdropped rfl
          · rintro rfl
            exact hlabel rfl
      | _ => exact context.includes_arithmetic hread rfl _ _ (.inl rfl)
  | @addressDestination opcode source hmove =>
      cases opcode with
      | mova => exact absurd rfl hmove
      | _ => exact context.includes_arithmetic hread rfl _ _ (.inr rfl)

end

end Context

/-!
# The register is left alone
-/

theorem avoids_status (width : Width) : (Expr.reg width .sr).Avoids .pc :=
  Expr.avoids_reg (by decide) width

theorem avoids_flagsFromStatus : IL.Avoids .pc flagsFromStatus := by
  have hclosed := Expr.closed_avoids .pc
  apply Composes.all
  intro op hmem
  rcases List.mem_map.mp hmem with ⟨flag, _, rfl⟩
  exact IL.avoids_of_expr rfl
    (hclosed.compareZero (hclosed.binary (avoids_status _) (hclosed.int _ _)))

theorem avoids_statusRegister (width : Width) :
    (statusRegister width).Avoids .pc := by
  have hclosed := Expr.closed_avoids .pc
  have hbit : forall flag, (flagBit width flag).Avoids .pc := fun flag =>
    hclosed.binary (hclosed.ofBool (hclosed.flag flag)) (hclosed.int _ _)
  have hrest : (Expr.and width (.reg width .sr)
      (.int width (width.complement flagBits))).Avoids .pc :=
    hclosed.binary (avoids_status width) (hclosed.int _ _)
  have hor : forall flags value, Expr.Avoids .pc value -> Expr.Avoids .pc
      (List.foldl (fun value flag => Expr.or width value (flagBit width flag))
        value flags) := by
    intro flags
    induction flags with
    | nil => exact fun value hvalue => hvalue
    | cons flag flags ih =>
        exact fun value hvalue => ih _ (hclosed.binary hvalue (hbit flag))
  exact hor _ _ hrest

theorem admits_avoids (known : KnownLabels) :
    Admits known (IL.Avoids .pc) (Expr.Avoids .pc) where
  closed := Expr.closed_avoids .pc
  register := fun _ hpc => Expr.avoids_reg hpc _
  status := avoids_statusRegister
  sets := Op.SetsOnly.avoids
  setsStatus := by
    intro width value hvalue
    refine Composes.cons ?_ avoids_flagsFromStatus
    apply Op.SetsOnly.avoids
    cases width with
    | byte => exact (Expr.closed_avoids .pc).unary hvalue
    | word | address => exact hvalue
  leaves := fun hvalue _ => IL.avoids_branchTo known hvalue

theorem Context.avoids_body (context : Context) {body : Body Operand}
    (htakes : body.Takes .pc)
    (hbase : forall operand, operand ∈ body.operands -> operand.base? ≠ some .pc)
    (hrange : forall count highest, body = .multiple .pushm count highest ->
      .pc ∉ registerRange count highest) :
    EmitsCode (IL.Avoids .pc) (context.body body) := by
  have hadmits := admits_avoids context.known
  have hreachable : forall operand, operand ∈ body.operands ->
      Reachable (Expr.Avoids .pc) operand := by
    rintro operand hoperand r hr width
    apply Expr.avoids_reg
    rintro rfl
    exact hbase operand hoperand hr
  have hread : Expr.Avoids .pc (context.read (.register .pc)) :=
    (Expr.closed_avoids .pc).pointer _ _
  have hcall : EmitsCode (IL.Avoids .pc) (context.call (.register .pc)) :=
    .op (IL.avoids_of_expr rfl hread)
  cases htransfer : isTransfer body with
  | false =>
      apply hadmits.body htransfer hreachable
      intro count highest hbody r hmem width
      apply Expr.avoids_reg
      rintro rfl
      exact hrange count highest hbody hmem
  | true =>
      -- A transfer that takes the program counter calls it or moves it to itself.
      rcases transfer_cases htransfer with
        rfl | ⟨_, _, rfl⟩ | ⟨target, rfl | rfl⟩ | ⟨source, hmoved⟩
      · cases htakes
      · cases htakes
      · cases htakes
        exact hcall
      · cases htakes
        exact hcall
      · have hsource : Reachable (Expr.Avoids .pc) source := by
          apply hreachable
          rcases body_of_movedToPc? hmoved with rfl | rfl <;> exact List.mem_cons_self
        have hmove : EmitsCode (IL.Avoids .pc) (context.move source (.register .pc)) :=
          hadmits.movePc hsource fun _ => IL.avoids_branchTo context.known
        rcases body_of_movedToPc? hmoved with rfl | rfl <;> exact hmove

/-- Each run leaves the register alone, and so does what repeats it, unless it counts by
the register. -/
theorem avoids_emit (options : Options) (known : KnownLabels) {inst : Instruction}
    (htakes : inst.body.Takes .pc) (hstored : ¬ inst.ReadsStored .pc) :
    EmitsCode (IL.Avoids .pc) (emit options known inst) := by
  let context := Context.of options known inst
  have hadmits := admits_avoids known
  have hbody := context.avoids_body htakes
    (fun operand hoperand hbase => hstored (.base hoperand hbase))
    (fun count highest hbody hmem => hstored (.pushed hbody hmem))
  have hret : forall width, EmitsCode (IL.Avoids .pc) (context.ret width) := fun width =>
    (hadmits.pop width).bind fun _ htarget => .op (IL.avoids_of_expr rfl htarget)
  apply emits_repeating_of _ _ (hadmits.run hbody fun width _ => hret width)
  · intro extension _ _
    exact hadmits.sets (hadmits.closed.bool false)
  · intro counter zeroCarry op hextension hrepeating _
    have hclosed := Expr.closed_avoids .pc
    have hcounter : counter ≠ .pc := by
      rintro rfl
      exact hstored (.repetition hextension)
    cases hrepeating with
    | clear => exact hadmits.sets (hclosed.bool false)
    | start count =>
        have hcount : (Expr.and .word (.reg .word counter) (.int .word 0xf)).Avoids .pc :=
          hclosed.binary (Expr.avoids_reg hcounter .word) (hclosed.int .word 0xf)
        exact hadmits.sets (hclosed.binary hcount (hclosed.int .word 1))
    | countDown count =>
        exact hadmits.sets (hclosed.binary (hclosed.temp .word count) (hclosed.int .word 1))
    | choose count start done =>
        exact IL.avoids_of_expr rfl (hclosed.compareZero (hclosed.temp .word count))
    | mark label => exact IL.avoids_single nofun

end Lift

/-!
# Which constant it is
-/

namespace Instruction

variable {inst : Instruction}

theorem counterRead_of_ne_multiple
    (h : forall opcode count highest, inst.body ≠ .multiple opcode count highest) :
    inst.counterRead = .address inst.width (inst.address.toNat + 2) := by
  unfold counterRead
  split
  · next hbody => exact absurd hbody (h _ _ _)
  · rfl

/-- Addresses wrap at a multiple of every width. -/
theorem truncate_nextAddress (inst : Instruction) (width : Width) :
    width.truncate inst.nextAddress.toNat =
      width.truncate (inst.address.toNat + inst.length) := by
  unfold nextAddress
  rw [UInt64.toNat_add, UInt64.toNat_ofNat']
  cases width <;> simp only [Width.truncate, Width.modulus] <;> omega

/-- Without extension words the constant is the next address exactly if there is no
prefix word. -/
theorem counterRead_eq_iff
    (hlength : inst.length = if inst.isExtended then 4 else 2) :
    inst.counterRead = .address inst.width inst.nextAddress.toNat ↔
      inst.isExtended = false ∧
        forall opcode count highest, inst.body ≠ .multiple opcode count highest := by
  by_cases hrange : forall opcode count highest,
      inst.body ≠ .multiple opcode count highest
  · have hshort : inst.width.truncate (inst.address.toNat + 2) =
        inst.width.truncate (inst.address.toNat + inst.length) ↔
          inst.isExtended = false := by
      rw [hlength]
      cases inst.isExtended <;> cases inst.width <;>
        simp only [Width.truncate, Width.modulus] <;> simp <;> omega
    rw [counterRead_of_ne_multiple hrange, and_iff_left hrange, ← hshort]
    unfold Expr.address
    rw [truncate_nextAddress, Expr.pointer.injEq, and_iff_right rfl]
  · constructor
    · intro heq
      unfold counterRead at heq
      split at heq
      · cases heq
      · next hbody => exact absurd (fun _ _ _ => hbody _ _ _) hrange
    · exact fun h => absurd h.2 hrange

end Instruction

namespace Lift

/-- The program counter reads as the address of the next word.  Whatever decoded
instruction without extension words takes the value of the program counter, its code has
one expression for it, unless the value is left out, and reads the register itself only
where something else is reached, counted or pushed through it.  The expression is the
constant address of the next instruction, cut to the width, exactly if no prefix word
stands before the opcode word and the program counter is not pushed in a range. -/
theorem programCounter_read_iff (options : Options) (buffer : IL.Buffer)
    {inst : Instruction} (hdecoded : inst.Decoded)
    (hlength : inst.length = if inst.isExtended then 4 else 2)
    (htakes : inst.body.Takes .pc) :
    (inst.CounterOmitted buffer.known ∨
      exists op, op ∈ appended buffer options inst ∧
        op.Mentions fun part => part = inst.counterRead) ∧
    (inst.ReadsStored .pc ∨ IL.Avoids .pc (appended buffer options inst)) ∧
    (inst.counterRead = .address inst.width inst.nextAddress.toNat ↔
      inst.isExtended = false ∧
        forall opcode count highest, inst.body ≠ .multiple opcode count highest) := by
  let context := Context.of options buffer.known inst
  refine ⟨?_, ?_, inst.counterRead_eq_iff hlength⟩
  · by_cases homitted : inst.CounterOmitted buffer.known
    · exact .inl homitted
    have hsupported : unsupported? inst.body = none :=
      Decidable.byContradiction fun h => homitted (.unsupported h)
    have hbody : (context.body inst.body).Includes
        (Op.Mentions fun part => part = inst.counterRead) := by
      by_cases hrange : exists count highest, inst.body = .multiple .pushm count highest
      · rcases hrange with ⟨count, highest, hrange⟩
        have hread : inst.counterRead = .reg context.width .pc := by
          unfold Instruction.counterRead
          rw [hrange]
          rfl
        rw [hrange] at htakes ⊢
        rw [hread]
        cases htakes with
        | pushed hmem => exact context.includes_pushRange hmem
      · have hread : inst.counterRead = context.read (.register .pc) := by
          apply Instruction.counterRead_of_ne_multiple
          intro opcode count highest hmultiple
          rw [hmultiple] at htakes
          cases htakes
          exact hrange ⟨_, _, hmultiple⟩
        apply context.includes_bodyCounter (.self hread.symm) htakes
        · exact fun count highest hbody => hrange ⟨count, highest, hbody⟩
        · exact fun destination hdestination => hdecoded.destination_isPlace hdestination
        · exact hsupported
        · exact fun hwritten => homitted (.dropped hwritten)
        · intro hmoved address haddress
          rw [← hread] at haddress
          exact Decidable.byContradiction fun h =>
            homitted (.labelled hmoved haddress h)
    right
    rw [← context.run_eq_body hsupported
      fun _ => Instruction.hasOwnCode_of_takes htakes] at hbody
    exact includes_emit options buffer.known hbody hdecoded.extension_ne_times_zero _
  · by_cases hstored : inst.ReadsStored .pc
    · exact .inl hstored
    · exact .inr ((avoids_emit options buffer.known htakes hstored).code _)

/-- The program counter is added to a register. -/
def addCounter : Instruction where
  address := 0x4400
  width := .word
  extension := none
  body := .double .add (.register .pc) (.register .r5)
  length := 2

/-- The word behind is the next instruction. -/
theorem programCounter_read_iff_add :
    (exists op, op ∈ appended (.empty 0x4400) .standard addCounter ∧
      op.Mentions fun part => part = .pointer .word 0x4402) ∧
    IL.Avoids .pc (appended (.empty 0x4400) .standard addCounter) := by
  have homitted : ¬ addCounter.CounterOmitted (IL.Buffer.empty 0x4400).known := by
    rintro (h | h | h)
    · exact h rfl
    · cases h
    · cases h
  have hstored : ¬ addCounter.ReadsStored .pc := by
    rintro (⟨hmem, hbase⟩ | h | h)
    · rcases List.mem_cons.mp hmem with rfl | hmem
      · cases hbase
      · rw [List.mem_singleton.mp hmem] at hbase
        cases hbase
    · cases h
    · cases h
  rcases @programCounter_read_iff .standard (.empty 0x4400) addCounter
      ⟨.msp430x, [0x05, 0x50], 0x4400, rfl⟩ rfl (.source .add _) with
    ⟨hmentions, havoids, _⟩
  exact ⟨hmentions.resolve_left homitted, havoids.resolve_left hstored⟩

/-- Behind a prefix word the constant is the address of the opcode word itself. -/
theorem programCounter_read_prefixed :
    exists inst,
      decode .msp430x [0x40, 0x18, 0x05, 0x40] 0x4400 = .ok inst ∧
        inst.length = 4 ∧ inst.isExtended = true ∧ inst.body.Takes .pc ∧
        code .standard inst = [.setReg .word .r5 (.address .word 0x4402)] ∧
        .address .word 0x4402 ≠ Expr.address inst.width inst.nextAddress.toNat :=
  ⟨_, rfl, rfl, rfl, .source .mov _, rfl, by decide⟩

end Lift
end MSP430
