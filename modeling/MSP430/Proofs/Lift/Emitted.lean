import MSP430.Lift
import MSP430.Proofs.Decode.Operands
import MSP430.Proofs.IL.Frame

/-!
# What one run emits

The code of one run is put together in few ways: values are computed from
operands, kept in temporaries and written to places.  A property of code that
survives these steps holds of the code of every instruction that is not itself
about where control goes.
-/

namespace MSP430

open IL (Composes Emit Expr KnownLabels Label Op)
open IL.Emit (Emits EmitsCode)

namespace Lift

/-- The registers through which an operand reaches memory may be read. -/
def Reachable (fits : Expr -> Prop) (operand : Operand) : Prop :=
  forall r, operand.base? = some r -> forall width, fits (.reg width r)

end Lift

/-!
# Values

The expressions that lifting makes of operands and temporaries.
-/

namespace IL.Expr.Closed

open Lift

variable {fits : Expr -> Prop} (h : Closed fits)

include h

theorem int (width : Width) (value : Nat) : fits (.int width value) :=
  h.const width (width.truncate value)

theorem location {space : Width} {operand : Operand}
    (hbase : Reachable fits operand) {address : Expr}
    (haddress : Place.of space operand = .memory address) : fits address := by
  cases operand with
  | register _ | immediate _ | constant _ => cases haddress
  | indirect r | autoIncrement r step =>
      cases haddress
      exact hbase r rfl _
  | indexed r offset =>
      cases haddress
      exact h.binary (hbase r rfl _) (h.int _ _)
  | absolute address | symbolic offset address =>
      cases haddress
      exact h.pointer _ _

theorem compareZero {op : CompareOp} {width : Width} {value : Expr}
    (hvalue : fits value) : fits (.compare op width value (.int width 0)) :=
  h.compare hvalue (h.int width 0)

theorem bitSetExpr {width : Width} {value : Expr} (hvalue : fits value)
    (bit : Nat) : fits (FlagRule.bitSetExpr width value bit) :=
  h.compareZero (h.binary hvalue (h.int _ _))

section FlagExpr

variable {operands : FlagRule.Operands} (ha : fits operands.a)
  (hb : fits operands.b) (hresult : fits operands.result)

include ha hb hresult

theorem carryExpr (rule : FlagRule) (width : Width)
    (hcarry : fits operands.carry) : fits (rule.carryExpr width operands) := by
  cases rule with
  | add => exact h.compare hresult ha
  | sub => exact h.compare ha hb
  | addc =>
      apply h.logic (h.compare hresult ha)
      exact h.logic hcarry (h.compare hresult ha)
  | subc =>
      apply h.logic (h.compare ha hb)
      exact h.logic hcarry (h.compare ha hb)
  | and | xor | sxt => exact h.compareZero hresult
  | rra _ | rrc _ | rru _ | rla _ => exact h.bitSetExpr ha _

theorem overflowExpr (rule : FlagRule) (width : Width) :
    fits (rule.overflowExpr width operands) := by
  cases rule with
  | add | addc =>
      exact h.compareZero (h.binary (h.binary ha hresult) (h.binary hb hresult))
  | sub | subc =>
      exact h.compareZero (h.binary (h.binary ha hb) (h.binary ha hresult))
  | xor => exact h.logic (h.compareZero ha) (h.compareZero hb)
  | and | sxt | rra _ | rrc _ | rru _ | rla _ => exact h.bool false

theorem flagExpr (rule : FlagRule) (width : Width)
    (hcarry : fits operands.carry) (flag : Flag) :
    fits (rule.flagExpr width operands flag) := by
  cases flag with
  | c => exact h.carryExpr ha hb hresult rule width hcarry
  | z | n => exact h.compareZero hresult
  | v => exact h.overflowExpr ha hb hresult rule width

end FlagExpr

theorem arithmeticExpr (operation : Context.Arithmetic) (width : Width)
    {a b : Expr} (ha : fits a) (hb : fits b) :
    fits (operation.expr width a b) := by
  cases operation with
  | add | sub | and | xor => exact h.binary ha hb
  | addc => exact h.addCarry ha hb (h.flag .c)
  | subc => exact h.addCarry ha (h.unary hb) (h.flag .c)

theorem swappedBytes (width : Width) {value : Expr} (hvalue : fits value) :
    fits (Context.swappedBytes width value) := by
  cases width with
  | address => exact h.unary (h.binary (h.unary hvalue) (h.int _ _))
  | byte | word => exact h.binary hvalue (h.int _ _)

theorem shiftExpr (opcode : ShiftOpcode) (width : Width) (count : Nat) {a : Expr}
    (ha : fits a) : fits (Context.shiftExpr opcode width count a) := by
  cases opcode with
  | rram | rlam | rrum => exact h.binary ha (h.int _ _)
  | rrcm =>
      have hint := h.int width
      apply h.binary
      · exact h.binary (h.binary ha (hint _))
          (h.binary (h.ofBool (h.flag .c)) (hint _))
      · exact h.binary ha (hint _)

end IL.Expr.Closed

namespace Lift

/-- What a property of code, and one of the values in it, have to allow.  The
status register is the only one that is read and written in a way of its own, and
the program counter is read as a constant and written by leaving. -/
structure Admits (known : KnownLabels) (good : List Op -> Prop)
    (fits : Expr -> Prop) : Prop where
  closed : Expr.Closed fits
  register : forall {width r}, r ≠ .sr -> r ≠ .pc -> fits (.reg width r)
  status : forall width, fits (statusRegister width)
  sets : forall {op : Op}, op.SetsOnly fits -> good [op]
  setsStatus : forall {width value}, fits value ->
    good (setRegister .sr width value :: flagsFromStatus)
  leaves : forall {value}, fits value -> value.constant? = none ->
    good [branchTo known value]

theorem Context.move_pc (context : Context) (source : Operand) :
    context.move source (.register .pc) = (do
      let target <- context.moveTarget source
      Emit.ops (postIncrement source)
      Emit.op (branchTo context.known target)) := by
  cases source <;> rfl

namespace Admits

variable {context : Context} {good : List Op -> Prop} {fits : Expr -> Prop}
  (h : Admits context.known good fits)

include h

/-!
# Operands
-/

theorem read {operand : Operand} (hbase : Reachable fits operand) :
    fits (context.read operand) := by
  unfold Context.read
  cases hplace : context.place operand with
  | memory address => exact h.closed.load (h.closed.location hbase hplace)
  | value number => exact h.closed.int _ _
  | register r =>
      cases r with
      | pc => exact h.closed.pointer _ _
      | cg => exact h.closed.int _ _
      | sr => exact h.status _
      | _ => exact h.register nofun nofun

theorem setRegister {register : Register} {width : Width} {value : Expr}
    (hvalue : fits value) : good [Lift.setRegister register width value] := by
  cases width with
  | byte => exact h.sets (h.closed.unary hvalue)
  | word | address => exact h.sets hvalue

/-- A value that is written to the program counter may not be a constant. -/
theorem write {operand : Operand} (hbase : Reachable fits operand) {value : Expr}
    (hvalue : fits value)
    (hleaves : operand = .register .pc -> value.constant? = none) :
    EmitsCode good (context.write operand value) := by
  apply Emits.ops
  cases hplace : context.place operand with
  | memory address => exact h.sets ⟨h.closed.location hbase hplace, hvalue⟩
  | value number => exact h.sets trivial
  | register r =>
      have hoperand : operand = .register r := by
        cases operand <;> cases hplace
        rfl
      cases r with
      | pc => exact h.leaves hvalue (hleaves hoperand)
      | cg => exact h.sets trivial
      | sr => exact h.setsStatus hvalue
      | _ => exact h.setRegister hvalue

theorem advance {r : Register} (hr : forall width, fits (.reg width r))
    (step : Nat) : good [Lift.advance r step] :=
  h.sets (h.closed.binary (hr _) (h.closed.int _ _))

theorem stackPointer (width : Width) : fits (.reg width .sp) :=
  h.register nofun nofun

variable [Composes good]

theorem postIncrement {operand : Operand} (hbase : Reachable fits operand) :
    EmitsCode good (Emit.ops (Lift.postIncrement operand)) := by
  apply Emits.ops
  cases operand with
  | autoIncrement r step => exact h.advance (hbase r rfl) step
  | _ => exact Composes.nil

/-!
# The stack
-/

theorem push {width : Width} {value : Expr} (hvalue : fits value) :
    good (context.push width value) := by
  apply Composes.cons
  · exact h.sets (h.closed.binary (h.stackPointer _) (h.closed.int _ _))
  · exact h.sets ⟨h.stackPointer _, hvalue⟩

theorem pop (width : Width) : Emits good fits (context.pop width) := by
  have hload : fits (.load width (context.stackTop width)) :=
    h.closed.load (h.stackPointer _)
  apply Emits.bind (.save (fun _ => h.sets hload) (h.closed.temp width))
  intro value hvalue
  exact Emits.seq (.op (h.advance h.stackPointer _)) (.pure hvalue)

theorem pushRange {count : Nat} {highest : Register}
    (hrange : forall r, r ∈ registerRange count highest ->
      forall width, fits (.reg width r)) :
    EmitsCode good (Emit.ops (context.pushRange count highest)) := by
  apply Emits.ops
  apply Composes.flatMap
  intro r hmem
  exact h.push (hrange r hmem _)

theorem popRange (count : Nat) (highest : Register) :
    EmitsCode good (Emit.ops (context.popRange count highest)) := by
  apply Emits.ops
  apply Composes.flatMap
  intro r _
  apply Composes.cons
  · exact h.sets (h.closed.load (h.stackPointer _))
  · exact h.advance h.stackPointer _

/-!
# Results
-/

theorem snapshot {width : Width} {value : Expr} (hvalue : fits value) :
    Emits good fits (Emit.snapshot width value) :=
  .snapshot hvalue (fun _ => h.sets hvalue) (h.closed.temp width)

/-- A kept result may be written anywhere. -/
theorem resultAndFlags (rule : FlagRule) {a b value : Expr} (ha : fits a)
    (hb : fits b) (hvalue : fits value) :
    Emits good (fun result => fits result ∧ result.constant? = none)
      (context.resultAndFlags rule a b value) := by
  have hsave : Emits good (fun result => fits result ∧ result.constant? = none)
      (Emit.save context.width value) :=
    .save (fun _ => h.sets hvalue) fun _ => ⟨h.closed.temp _ _, rfl⟩
  unfold Context.resultAndFlags
  apply hsave.bind
  intro result hresult
  refine Emits.seq ?_ (.pure hresult)
  apply Emits.ops
  apply Composes.all
  intro op hmem
  rcases List.mem_map.mp hmem with ⟨⟨flag, value⟩, hflag, rfl⟩
  rcases List.mem_map.mp hflag with ⟨written, _, heq⟩
  cases heq
  apply h.sets
  exact h.closed.flagExpr ha hb hresult.1 rule context.width (h.closed.flag .c)
    flag

/-!
# Two operands
-/

section TwoOperands

variable {source destination : Operand} (hsource : Reachable fits source)
  (hdestination : Reachable fits destination)

include hsource hdestination

theorem arithmetic (operation : Context.Arithmetic) (store : Bool) :
    EmitsCode good (context.arithmetic operation store source destination) := by
  unfold Context.arithmetic
  apply Emits.bind (h.snapshot (h.read hsource))
  intro b hb
  apply Emits.bind (h.snapshot (h.read hdestination))
  intro a ha
  apply Emits.bind
    (h.resultAndFlags _ ha hb (h.closed.arithmeticExpr operation _ ha hb))
  intro result hresult
  cases store with
  | true =>
      apply Emits.seq (h.write hdestination hresult.1 fun _ => hresult.2)
      exact h.postIncrement hsource
  | false => exact h.postIncrement hsource

theorem clearBits :
    EmitsCode good (context.clearBits source destination) := by
  have hvalue : fits (.and context.width (context.read destination)
      (.complement context.width (context.read source))) :=
    h.closed.binary (h.read hdestination) (h.closed.unary (h.read hsource))
  exact Emits.seq (h.write hdestination hvalue fun _ => rfl)
    (h.postIncrement hsource)

theorem setBits : EmitsCode good (context.setBits source destination) := by
  have hvalue : fits (.or context.width (context.read destination)
      (context.read source)) :=
    h.closed.binary (h.read hdestination) (h.read hsource)
  exact Emits.seq (h.write hdestination hvalue fun _ => rfl)
    (h.postIncrement hsource)

theorem move (hpc : destination ≠ .register .pc) :
    EmitsCode good (context.move source destination) := by
  have hwrite : EmitsCode good
      (context.write destination (context.read source)) :=
    h.write hdestination (h.read hsource) fun heq => absurd heq hpc
  unfold Context.move
  split
  · exact absurd rfl hpc
  · split
    · exact .op (h.sets trivial)
    · exact hwrite
  · exact hwrite.seq (h.postIncrement hsource)

theorem double {opcode : DoubleOpcode}
    (hpc : opcode = .mov -> destination ≠ .register .pc) :
    EmitsCode good (context.double opcode source destination) := by
  cases opcode with
  | mov => exact h.move hsource hdestination (hpc rfl)
  | bic => exact h.clearBits hsource hdestination
  | bis => exact h.setBits hsource hdestination
  | dadd => exact .op (h.sets trivial)
  | _ => exact h.arithmetic hsource hdestination _ _

theorem addressArithmetic {opcode : AddressOpcode}
    (hpc : opcode = .mova -> destination ≠ .register .pc) :
    EmitsCode good (context.addressArithmetic opcode source destination) := by
  cases opcode with
  | mova => exact h.move hsource hdestination (hpc rfl)
  | _ => exact h.arithmetic hsource hdestination _ _

end TwoOperands

/-- A move to the program counter leaves for a target that may be a constant. -/
theorem movePc {source : Operand} (hsource : Reachable fits source)
    (hleaves : forall target, fits target ->
      good [branchTo context.known target]) :
    EmitsCode good (context.move source (.register .pc)) := by
  have hread : fits (context.read source) := h.read hsource
  have htarget : Emits good fits (context.moveTarget source) := by
    unfold Context.moveTarget
    split
    · exact .pure (h.closed.pointer _ _)
    · exact .save (fun _ => h.sets hread) (h.closed.temp _)
    · exact .pure hread
  rw [context.move_pc]
  apply htarget.bind
  intro target hfits
  exact (h.postIncrement hsource).seq (.op (hleaves target hfits))

/-!
# One operand
-/

theorem replaceOperand (rule : FlagRule) {operand : Operand}
    (hoperand : Reachable fits operand) {compute : Expr -> Expr}
    (hcompute : forall a, fits a -> fits (compute a)) :
    EmitsCode good (context.replaceOperand rule operand compute) := by
  unfold Context.replaceOperand
  apply Emits.bind (h.snapshot (h.read hoperand))
  intro a ha
  apply Emits.bind (h.resultAndFlags rule ha ha (hcompute a ha))
  intro result hresult
  apply Emits.seq (h.write hoperand hresult.1 fun _ => hresult.2)
  exact h.postIncrement hoperand

theorem swapBytes {operand : Operand} (hoperand : Reachable fits operand) :
    EmitsCode good (context.swapBytes operand) := by
  have hvalue := h.closed.swappedBytes context.width (h.read hoperand)
  have hvaries : (Context.swappedBytes context.width
      (context.read operand)).constant? = none := by
    cases context.width <;> rfl
  unfold Context.swapBytes
  exact Emits.seq (h.write hoperand hvalue fun _ => hvaries)
    (h.postIncrement hoperand)

theorem pushOperand {operand : Operand} (hoperand : Reachable fits operand) :
    EmitsCode good (context.pushOperand operand) := by
  have hpush : forall value, fits value -> EmitsCode good (do
      Emit.ops (context.push context.width value)
      Emit.ops (Lift.postIncrement operand)) := by
    intro value hvalue
    exact Emits.seq (.ops (h.push hvalue)) (h.postIncrement hoperand)
  have hread := h.read hoperand
  unfold Context.pushOperand
  dsimp only
  split
  · exact hpush _ hread
  · apply Emits.bind (.save (fun _ => h.sets hread) (h.closed.temp _))
    exact hpush

theorem single {opcode : SingleOpcode} (hcall : opcode ≠ .call)
    {operand : Operand} (hoperand : Reachable fits operand) :
    EmitsCode good (context.single opcode operand) := by
  cases opcode with
  | rrc =>
      apply h.replaceOperand _ hoperand
      intro a ha
      exact h.closed.rotateCarry ha (h.closed.flag .c)
  | rra =>
      apply h.replaceOperand _ hoperand
      intro a ha
      exact h.closed.binary ha (h.closed.int _ _)
  | sxt =>
      apply h.replaceOperand _ hoperand
      intro a ha
      exact h.closed.unary (h.closed.unary ha)
  | swpb => exact h.swapBytes hoperand
  | push => exact h.pushOperand hoperand
  | call => exact absurd rfl hcall

theorem shift (opcode : ShiftOpcode) (count : Nat) (destination : Register) :
    EmitsCode good (context.shift opcode count destination) := by
  apply h.replaceOperand
  · exact nofun
  · intro a ha
    exact h.closed.shiftExpr opcode context.width count ha

end Admits

/-!
# Jumps
-/

/-- The operations by which a jump chooses where control goes. -/
inductive Jumping (known : KnownLabels) (condition : Condition) (target : Nat) :
    Op -> Prop where
  | leave : Jumping known condition target (branchTo known (codePointer target))
  | choose (ifTrue ifFalse : Label) :
      Jumping known condition target (.branch condition.expr ifTrue ifFalse)
  | mark (label : Label) : Jumping known condition target (.label label)
  | arm : Jumping known condition target (.jump (codePointer target))

/-- Jumps have a property that the operations have of which they are made. -/
theorem Context.emits_jump (context : Context) {good : List Op -> Prop} [Composes good]
    {condition : Condition} {offset : Int}
    (h : forall {op : Op}, Jumping context.known condition
      (Instruction.jumpTarget context.address offset) op -> good [op]) :
    EmitsCode good (context.jump condition offset) := by
  have hlabel : forall known, Emits good (fun _ => True) (labelOrNew known) := by
    intro known
    cases known with
    | some label => exact .pure trivial
    | none => exact .newLabel
  unfold jump
  dsimp only
  split
  · exact .op (h .leave)
  · refine (hlabel _).bind fun ifTrue _ => (hlabel _).bind fun ifFalse _ => ?_
    refine Emits.seq (.op (h (.choose ifTrue ifFalse))) ?_
    have hnext : forall target : Option Label, EmitsCode good
        (if target.isNone = true then Emit.op (.label ifFalse) else pure ()) := by
      intro target
      split
      · exact .op (h (.mark ifFalse))
      · exact .pure trivial
    split
    · exact Emits.seq (.ops (Composes.cons (h (.mark ifTrue)) (h .arm))) (hnext _)
    · exact hnext _

/-!
# Whole runs
-/

/-- What a move to the program counter moves there. -/
def movedToPc? : Body Operand -> Option Operand
  | .double .mov source (.register .pc) => some source
  | .address .mova source (.register .pc) => some source
  | _ => none

theorem body_of_movedToPc? {body : Body Operand} {source : Operand}
    (h : movedToPc? body = some source) :
    body = .double .mov source (.register .pc) ∨
      body = .address .mova source (.register .pc) := by
  unfold movedToPc? at h
  split at h
  · cases h
    exact .inl rfl
  · cases h
    exact .inr rfl
  · cases h

/-- Whether the body is about where control goes.  Every other body transfers
control only by writing a result to the program counter. -/
def isTransfer : Body Operand -> Bool
  | .reti | .jump _ _ | .single .call _ | .calla _ => true
  | body => (movedToPc? body).isSome

theorem isTransfer_of_movedToPc? {body : Body Operand} {source : Operand}
    (h : movedToPc? body = some source) : isTransfer body = true := by
  rcases body_of_movedToPc? h with rfl | rfl <;> rfl

/-- The bodies that are about where control goes. -/
theorem transfer_cases {body : Body Operand} (h : isTransfer body = true) :
    body = .reti ∨ (exists condition offset, body = .jump condition offset) ∨
      (exists target, body = .single .call target ∨ body = .calla target) ∨
      exists source, movedToPc? body = some source := by
  unfold isTransfer at h
  split at h
  · exact .inl rfl
  · exact .inr (.inl ⟨_, _, rfl⟩)
  · exact .inr (.inr (.inl ⟨_, .inl rfl⟩))
  · exact .inr (.inr (.inl ⟨_, .inr rfl⟩))
  · exact .inr (.inr (.inr (Option.isSome_iff_exists.mp h)))

namespace Admits

variable {context : Context} {good : List Op -> Prop} {fits : Expr -> Prop}
  (h : Admits context.known good fits)

include h

theorem body [Composes good] {body : Body Operand}
    (htransfer : isTransfer body = false)
    (hoperands : forall operand, operand ∈ body.operands ->
      Reachable fits operand)
    (hpushed : forall count highest, body = .multiple .pushm count highest ->
      forall r, r ∈ registerRange count highest ->
        forall width, fits (.reg width r)) :
    EmitsCode good (context.body body) := by
  cases body with
  | reti | jump _ _ | calla _ => cases htransfer
  | single opcode target =>
      have hcall : opcode ≠ .call := by
        rintro rfl
        cases htransfer
      exact h.single hcall (hoperands target List.mem_cons_self)
  | double opcode source destination =>
      apply h.double (hoperands source (by simp [Body.operands]))
        (hoperands destination (by simp [Body.operands]))
      rintro rfl rfl
      cases htransfer
  | address opcode source destination =>
      apply h.addressArithmetic (hoperands source (by simp [Body.operands]))
        (hoperands destination (by simp [Body.operands]))
      rintro rfl rfl
      cases htransfer
  | multiple opcode count highest =>
      cases opcode with
      | pushm => exact h.pushRange (hpushed count highest rfl)
      | popm => exact h.popRange count highest
  | shift opcode count destination => exact h.shift opcode count destination

/-- One run has the property if its body does, and a return has it where the
instruction is one by name. -/
theorem run {inst : Instruction} (hbody : EmitsCode good (context.body inst.body))
    (hret : forall width,
      inst.emulated? = some .ret ∨ inst.emulated? = some .reta ->
        EmitsCode good (context.ret width)) :
    EmitsCode good (context.run inst) := by
  unfold Context.run
  split
  · exact .op (h.sets trivial)
  · split
    · next hemulated => exact hret _ (.inl hemulated)
    · next hemulated => exact hret _ (.inr hemulated)
    · exact .op (h.sets trivial)
    · split
      · next flag value _ => exact .op (h.sets (h.closed.bool value))
      · exact hbody
    · exact hbody

end Admits
end Lift

/-!
# Repetitions
-/

/-- The operations of which a repetition is made: it keeps a counter, clears the
carry and chooses between labels. -/
def IL.Op.Counts : Op -> Prop
  | setTemp _ _ _ | setFlag _ _ | branch _ _ _ | label _ => True
  | _ => False

/-- The same operations one by one, with what the count is set to and tested for. -/
inductive Lift.Repeating (counter : Register) : Op -> Prop where
  | clear : Repeating counter (.setFlag .c (.bool false))
  | start (count : Nat) :
      Repeating counter (.setTemp .word count
        (.add .word (.and .word (.reg .word counter) (.int .word 0xf))
          (.int .word 1)))
  | countDown (count : Nat) :
      Repeating counter (.setTemp .word count
        (.sub .word (.temp .word count) (.int .word 1)))
  | choose (count : Nat) (start done : Label) :
      Repeating counter (.branch
        (.compare .notEqual .word (.temp .word count) (.int .word 0)) start done)
  | mark (label : Label) : Repeating counter (.label label)

theorem Lift.Repeating.counts {counter : Register} {op : Op} (h : Repeating counter op) :
    op.Counts := by
  cases h <;> trivial

/-- Repetitions have a property that one run has, if the operations of which they
are made have it.  The carry is cleared and a register is counted only where the prefix
word says so. -/
theorem Lift.emits_repeating_of {good : List Op -> Prop} [Composes good]
    {options : Options} {known : KnownLabels} {inst : Instruction}
    (hclear : forall extension, inst.extension = some extension ->
      extension.zeroCarry = true -> good [.setFlag .c (.bool false)])
    (hrepeating : forall {counter : Register} {zeroCarry : Bool} {op : Op},
      inst.extension =
        some { repetition := .register counter, zeroCarry := zeroCarry } ->
      Repeating counter op -> op.flag? = none -> good [op])
    (h : EmitsCode good ((Context.of options known inst).run inst)) :
    EmitsCode good (emit options known inst) := by
  unfold emit
  split
  · exact h
  · next extension hextension =>
      have honce : EmitsCode good (do
          Emit.ops (clearedCarry extension.zeroCarry)
          (Context.of options known inst).run inst) := by
        refine Emits.seq (.ops ?_) h
        cases hcarry : extension.zeroCarry with
        | true => exact hclear extension hextension hcarry
        | false => exact Composes.nil
      rcases extension with ⟨repetition, zeroCarry⟩
      cases repetition with
      | times count => exact .replicate honce count
      | register counter =>
          have hcounts : forall {op : Op}, Repeating counter op -> op.flag? = none ->
              good [op] := hrepeating hextension
          dsimp only
          unfold loop
          refine Emits.newTemp.bind fun count _ => ?_
          refine Emits.seq (.op (hcounts (.start count) rfl)) ?_
          refine Emits.newLabel.bind fun start _ => ?_
          refine Emits.newLabel.bind fun done _ => ?_
          refine Emits.seq (.op (hcounts (.mark start) rfl)) (honce.seq ?_)
          refine Emits.seq (.op (hcounts (.countDown count) rfl)) ?_
          refine Emits.seq (.op (hcounts (.choose count start done) rfl)) ?_
          exact .op (hcounts (.mark done) rfl)

theorem Lift.emits_repeating {good : List Op -> Prop} [Composes good]
    (hrepeating : forall {counter : Register} {op : Op}, Repeating counter op -> good [op])
    {options : Options} {known : KnownLabels} {inst : Instruction}
    (h : EmitsCode good ((Context.of options known inst).run inst)) :
    EmitsCode good (emit options known inst) :=
  emits_repeating_of (fun _ _ _ => hrepeating (.clear : Repeating .cg _))
    (fun _ hop _ => hrepeating hop) h

theorem Lift.emits_repeated {good : List Op -> Prop} [Composes good]
    (hcounts : forall {op : Op}, op.Counts -> good [op]) {options : Options}
    {known : KnownLabels} {inst : Instruction}
    (h : EmitsCode good ((Context.of options known inst).run inst)) :
    EmitsCode good (emit options known inst) :=
  emits_repeating (fun hrepeating => hcounts hrepeating.counts) h

end MSP430
