import MSP430.Proofs.IL.Parallel
import MSP430.Proofs.Lift.Meaning

/-!
# One run, emitted twice

Apart from conditional jumps, one run of an instruction emits the same operations
whichever temporaries are free and whichever addresses have labels, up to the numbers
of the temporaries and the way in which control is transferred.
-/

namespace MSP430

open IL (Emit Expr KnownLabels Op Paired)
open IL.Emit (Parallel ParallelCode)

namespace IL

/-- The operation has nothing to do with labels and addresses of code. -/
def Op.Stays : Op -> Prop
  | setReg _ _ _ | setTemp _ _ _ | setFlag _ _ | store _ _ _ => True
  | call _ | ret _ | nop | unimplemented => True
  | jump _ | goto _ | branch _ _ _ | label _ => False

end IL

namespace Lift

/-- How operations are related that two labellings of addresses give rise to: they
are the same but for the temporaries in them, and a transfer goes to a label where its
own labelling has one. -/
structure CarriesOver (known known' : KnownLabels) (count : Nat)
    (related : Op -> Op -> Prop) : Prop where
  stays : forall {op : Op}, op.Stays -> related op (op.shifted count)
  branches : forall {target : Expr}, target.FitsAddress ->
    related (branchTo known target) (branchTo known' (target.shifted count))

/-- The context with labels for other addresses. -/
def Context.knowing (context : Context) (known : KnownLabels) : Context :=
  { context with known := known }

/-!
# Values
-/

theorem fitsAddress_int (width : Width) (value : Nat) :
    (Expr.int width value).FitsAddress := by
  intro constant h
  cases h
  apply Nat.lt_of_lt_of_le (width.truncate_lt value)
  cases width <;> decide

theorem fitsAddress_address (width : Width) (value : Nat) :
    (Expr.address width value).FitsAddress := by
  intro constant h
  cases h
  apply Nat.lt_of_lt_of_le (width.truncate_lt value)
  cases width <;> decide

theorem fitsAddress_read (context : Context) (operand : Operand) :
    (context.read operand).FitsAddress := by
  unfold Context.read
  cases context.place operand with
  | memory _ => exact nofun
  | value number => exact fitsAddress_int _ _
  | register r =>
      cases r with
      | pc => exact fitsAddress_address _ _
      | cg => exact fitsAddress_int _ _
      | _ => exact nofun

theorem shiftedTo_read (context : Context) (count : Nat) (operand : Operand) :
    (context.read operand).ShiftedTo count (context.read operand) :=
  Expr.shiftedTo_of_scopedIn count (context.read_scopedIn operand)
    (fitsAddress_read context operand)

theorem shiftedTo_codePointer (count address : Nat) :
    (codePointer address).ShiftedTo count (codePointer address) :=
  Expr.shiftedTo_of_scopedIn count trivial (fitsAddress_address _ address)

theorem flagExpr_shifted (count : Nat) (rule : FlagRule) (width : Width)
    (a b result : Expr) (flag : Flag) :
    (rule.flagExpr width ⟨a, b, .flag .c, result⟩ flag).shifted count =
      rule.flagExpr width
        ⟨a.shifted count, b.shifted count, .flag .c, result.shifted count⟩ flag := by
  cases flag <;> cases rule <;> rfl

/-!
# Places
-/

namespace CarriesOver

variable {known known' : KnownLabels} {count : Nat} {related : Op -> Op -> Prop}
  (h : CarriesOver known known' count related)

include h

/-- Operations of which only the temporaries differ. -/
theorem shifted {first second : List Op}
    (hshifted : second = first.map (Op.shifted count))
    (hstays : forall op, op ∈ first -> op.Stays) :
    Paired related first second := by
  rw [hshifted]
  apply Paired.map
  intro op hmem
  exact h.stays (hstays op hmem)

theorem single {op : Op} (hstays : op.Stays) :
    Paired related [op] [op.shifted count] :=
  .cons (h.stays hstays) .nil

theorem setRegister (register : Register) (width : Width) (value : Expr) :
    Paired related [Lift.setRegister register width value]
      [Lift.setRegister register width (value.shifted count)] := by
  cases width <;> exact h.single trivial

theorem flagsFromStatus : Paired related flagsFromStatus flagsFromStatus := by
  apply h.shifted rfl
  intro op hmem
  rcases List.mem_map.mp hmem with ⟨flag, _, rfl⟩
  trivial

end CarriesOver

namespace Context

variable {context : Context} {known' : KnownLabels} {count : Nat}
  {related : Op -> Op -> Prop}
  (h : CarriesOver context.known known' count related)

include h

theorem parallel_write (operand : Operand) {value value' : Expr}
    (hvalue : value.ShiftedTo count value') :
    ParallelCode related count (context.write operand value)
      ((context.knowing known').write operand value') := by
  apply Parallel.ops
  rcases hvalue with ⟨rfl, hfits⟩
  cases operand with
  | register r =>
      cases r with
      | pc => exact .cons (h.branches hfits) .nil
      | cg => exact h.single trivial
      | sr => exact (h.setRegister .sr _ value).append h.flagsFromStatus
      | _ => exact h.setRegister _ _ value
  | _ => exact h.single trivial

theorem parallel_postIncrement (operand : Operand) :
    ParallelCode related count (Emit.ops (postIncrement operand))
      (Emit.ops (postIncrement operand)) := by
  apply Parallel.ops
  cases operand with
  | autoIncrement r step => exact h.single trivial
  | _ => exact .nil

theorem parallel_op {op op' : Op} (hop : op' = op.shifted count)
    (hstays : op.Stays) :
    ParallelCode related count (Emit.op op) (Emit.op op') := by
  rw [hop]
  exact .op (h.stays hstays)

theorem parallel_save {width : Width} {value value' : Expr}
    (hvalue : value.ShiftedTo count value') :
    Parallel related count (Expr.ShiftedTo count) (Emit.save width value)
      (Emit.save width value') := by
  apply Parallel.save
  intro index
  rw [hvalue.eq]
  exact h.stays trivial

theorem parallel_snapshot {width : Width} {value value' : Expr}
    (hvalue : value.ShiftedTo count value') :
    Parallel related count (Expr.ShiftedTo count) (Emit.snapshot width value)
      (Emit.snapshot width value') := by
  apply Parallel.snapshot hvalue
  intro index
  rw [hvalue.eq]
  exact h.stays trivial

/-!
# The stack
-/

theorem parallel_push (width : Width) {value value' : Expr}
    (hvalue : value.ShiftedTo count value') :
    ParallelCode related count (Emit.ops (context.push width value))
      (Emit.ops ((context.knowing known').push width value')) := by
  rcases hvalue with ⟨rfl, _⟩
  apply Parallel.ops
  exact .cons (h.stays trivial) (h.single trivial)

theorem parallel_pop (width : Width) :
    Parallel related count (Expr.ShiftedTo count) (context.pop width)
      ((context.knowing known').pop width) := by
  have hload : (Expr.load width (context.stackTop width)).ShiftedTo count
      (.load width ((context.knowing known').stackTop width)) :=
    ⟨rfl, nofun⟩
  apply (parallel_save h hload).bind
  intro value value' hvalue
  refine Parallel.seq (parallel_op h rfl trivial) ?_
  exact .pure hvalue

theorem parallel_ret (width : Width) :
    ParallelCode related count (context.ret width)
      ((context.knowing known').ret width) := by
  apply (parallel_pop h width).bind
  rintro target _ ⟨rfl, _⟩
  exact parallel_op h rfl trivial

theorem parallel_reti :
    ParallelCode related count context.reti (context.knowing known').reti := by
  apply (parallel_pop h .word).bind
  rintro status _ ⟨rfl, _⟩
  refine Parallel.seq (parallel_op h rfl trivial) ?_
  apply (Parallel.ops h.flagsFromStatus).seq
  exact parallel_ret h .word

theorem parallel_pushRange (number : Nat) (highest : Register) :
    ParallelCode related count (Emit.ops (context.pushRange number highest))
      (Emit.ops ((context.knowing known').pushRange number highest)) := by
  apply Parallel.ops
  apply h.shifted
  · unfold Context.pushRange
    rw [List.map_flatMap]
    rfl
  · intro op hmem
    rcases List.mem_flatMap.mp hmem with ⟨register, _, hpush⟩
    rcases List.mem_cons.mp hpush with rfl | hpush
    · trivial
    · rw [List.mem_singleton.mp hpush]
      trivial

theorem parallel_popRange (number : Nat) (highest : Register) :
    ParallelCode related count (Emit.ops (context.popRange number highest))
      (Emit.ops ((context.knowing known').popRange number highest)) := by
  apply Parallel.ops
  apply h.shifted
  · unfold Context.popRange
    dsimp only
    rw [List.map_flatMap]
    rfl
  · intro op hmem
    rcases List.mem_flatMap.mp hmem with ⟨register, _, hpop⟩
    rcases List.mem_cons.mp hpop with rfl | hpop
    · trivial
    · rw [List.mem_singleton.mp hpop]
      trivial

/-!
# Control
-/

theorem parallel_call (target : Operand) :
    ParallelCode related count (context.call target)
      ((context.knowing known').call target) := by
  unfold Context.call
  split
  · next r step =>
      have hbase : (Expr.reg context.addressWidth r).ShiftedTo count
          (.reg context.addressWidth r) :=
        ⟨rfl, nofun⟩
      apply (parallel_save h hbase).bind
      rintro location _ ⟨rfl, _⟩
      refine Parallel.seq (parallel_op h rfl trivial) ?_
      exact parallel_op h rfl trivial
  · exact parallel_op h rfl trivial
  · have hread := (shiftedTo_read context count target).eq
    exact parallel_op h (congrArg Op.call hread) trivial

theorem parallel_branchTo {target target' : Expr}
    (htarget : target.ShiftedTo count target') :
    ParallelCode related count (Emit.op (branchTo context.known target))
      (Emit.op (branchTo known' target')) := by
  rw [htarget.eq]
  exact .op (h.branches htarget.fits)

theorem parallel_jump {condition : Condition} (offset : Int)
    (hcondition : condition.isUnconditional = true) :
    ParallelCode related count (context.jump condition offset)
      ((context.knowing known').jump condition offset) := by
  unfold Context.jump
  simp only [hcondition, if_true]
  exact parallel_branchTo h (shiftedTo_codePointer count _)

theorem parallel_moveTarget (source : Operand) :
    Parallel related count (Expr.ShiftedTo count) (context.moveTarget source)
      ((context.knowing known').moveTarget source) := by
  unfold Context.moveTarget
  split
  · exact .pure (shiftedTo_codePointer count _)
  · exact parallel_save h (shiftedTo_read context count _)
  · exact .pure (shiftedTo_read context count _)

theorem parallel_move (source destination : Operand) :
    ParallelCode related count (context.move source destination)
      ((context.knowing known').move source destination) := by
  have hwrite : ParallelCode related count
      (context.write destination (context.read source))
      ((context.knowing known').write destination (context.read source)) :=
    parallel_write h destination (shiftedTo_read context count source)
  unfold Context.move
  split
  · apply (parallel_moveTarget h source).bind
    intro target target' htarget
    apply (parallel_postIncrement h source).seq
    exact parallel_branchTo h htarget
  · show ParallelCode related count
      (if context.options.skipStackReseed then _ else _)
      (if context.options.skipStackReseed then _ else _)
    split
    · exact parallel_op h rfl trivial
    · exact hwrite
  · exact hwrite.seq (parallel_postIncrement h source)

/-!
# Results
-/

theorem parallel_resultAndFlags (rule : FlagRule) {a a' b b' value value' : Expr}
    (ha : a.ShiftedTo count a') (hb : b.ShiftedTo count b')
    (hvalue : value.ShiftedTo count value') :
    Parallel related count (Expr.ShiftedTo count)
      (context.resultAndFlags rule a b value)
      ((context.knowing known').resultAndFlags rule a' b' value') := by
  apply (parallel_save h hvalue).bind
  intro result result' hresult
  refine Parallel.seq (Parallel.ops (h.shifted ?_ ?_)) (.pure hresult)
  · rw [ha.eq, hb.eq, hresult.eq]
    unfold FlagRule.flagExprs
    rw [List.map_map, List.map_map, List.map_map]
    apply List.map_congr_left
    intro flag _
    exact congrArg (Op.setFlag flag)
      (flagExpr_shifted count rule context.width a b result flag).symm
  · intro op hmem
    rcases List.mem_map.mp hmem with ⟨⟨flag, value⟩, _, rfl⟩
    trivial

theorem parallel_arithmetic (operation : Arithmetic) (store : Bool)
    (source destination : Operand) :
    ParallelCode related count
      (context.arithmetic operation store source destination)
      ((context.knowing known').arithmetic operation store source destination) := by
  apply (parallel_snapshot h (shiftedTo_read context count source)).bind
  intro b b' hb
  apply (parallel_snapshot h (shiftedTo_read context count destination)).bind
  intro a a' ha
  have hvalue : (operation.expr context.width a b).ShiftedTo count
      (operation.expr context.width a' b') := by
    rw [ha.eq, hb.eq]
    constructor <;> cases operation <;> first | rfl | exact nofun
  apply (parallel_resultAndFlags h operation.rule ha hb hvalue).bind
  intro result result' hresult
  cases store with
  | true =>
      apply (parallel_write h destination hresult).seq
      exact parallel_postIncrement h source
  | false => exact parallel_postIncrement h source

theorem parallel_clearBits (source destination : Operand) :
    ParallelCode related count (context.clearBits source destination)
      ((context.knowing known').clearBits source destination) := by
  have hvalue : (Expr.and context.width (context.read destination)
      (.complement context.width (context.read source))).ScopedIn [] :=
    ⟨context.read_scopedIn destination, context.read_scopedIn source⟩
  have hwrite := parallel_write h destination
    (Expr.shiftedTo_of_scopedIn count hvalue nofun)
  exact hwrite.seq (parallel_postIncrement h source)

theorem parallel_setBits (source destination : Operand) :
    ParallelCode related count (context.setBits source destination)
      ((context.knowing known').setBits source destination) := by
  have hvalue : (Expr.or context.width (context.read destination)
      (context.read source)).ScopedIn [] :=
    ⟨context.read_scopedIn destination, context.read_scopedIn source⟩
  have hwrite := parallel_write h destination
    (Expr.shiftedTo_of_scopedIn count hvalue nofun)
  exact hwrite.seq (parallel_postIncrement h source)

theorem parallel_replaceOperand (rule : FlagRule) (operand : Operand)
    {compute : Expr -> Expr}
    (hcompute : forall {a a' : Expr}, a.ShiftedTo count a' ->
      (compute a).ShiftedTo count (compute a')) :
    ParallelCode related count (context.replaceOperand rule operand compute)
      ((context.knowing known').replaceOperand rule operand compute) := by
  apply (parallel_snapshot h (shiftedTo_read context count operand)).bind
  intro a a' ha
  apply (parallel_resultAndFlags h rule ha ha (hcompute ha)).bind
  intro result result' hresult
  apply (parallel_write h operand hresult).seq
  exact parallel_postIncrement h operand

theorem parallel_swapBytes (operand : Operand) :
    ParallelCode related count (context.swapBytes operand)
      ((context.knowing known').swapBytes operand) := by
  refine Parallel.seq (parallel_write h operand ?_) (parallel_postIncrement h operand)
  apply Expr.shiftedTo_of_scopedIn count
  · exact swappedBytes_scopedIn context.width (context.read_scopedIn operand)
  · cases context.width <;> exact nofun

theorem parallel_pushOperand (operand : Operand) :
    ParallelCode related count (context.pushOperand operand)
      ((context.knowing known').pushOperand operand) := by
  have hread := shiftedTo_read context count operand
  have hpush : forall {value value' : Expr}, value.ShiftedTo count value' ->
      ParallelCode related count
        (do
          Emit.ops (context.push context.width value)
          Emit.ops (postIncrement operand))
        (do
          Emit.ops ((context.knowing known').push context.width value')
          Emit.ops (postIncrement operand)) := by
    intro value value' hvalue
    exact (parallel_push h _ hvalue).seq (parallel_postIncrement h operand)
  unfold Context.pushOperand
  dsimp only
  show ParallelCode related count
    (if (context.read operand).constant?.isSome then _ else _)
    (if (context.read operand).constant?.isSome then _ else _)
  split
  · exact hpush hread
  · exact (parallel_save h hread).bind fun _ _ => hpush

theorem parallel_shift (opcode : ShiftOpcode) (number : Nat)
    (destination : Register) :
    ParallelCode related count (context.shift opcode number destination)
      ((context.knowing known').shift opcode number destination) := by
  apply parallel_replaceOperand h
  rintro a _ ⟨rfl, _⟩
  constructor <;> cases opcode <;> first | rfl | exact nofun

/-!
# All bodies
-/

theorem parallel_single (opcode : SingleOpcode) (operand : Operand) :
    ParallelCode related count (context.single opcode operand)
      ((context.knowing known').single opcode operand) := by
  cases opcode with
  | rrc | rra | sxt =>
      apply parallel_replaceOperand h
      rintro a _ ⟨rfl, _⟩
      exact ⟨rfl, nofun⟩
  | swpb => exact parallel_swapBytes h operand
  | push => exact parallel_pushOperand h operand
  | call => exact parallel_call h operand

theorem parallel_double (opcode : DoubleOpcode) (source destination : Operand) :
    ParallelCode related count (context.double opcode source destination)
      ((context.knowing known').double opcode source destination) := by
  cases opcode with
  | mov => exact parallel_move h source destination
  | bic => exact parallel_clearBits h source destination
  | bis => exact parallel_setBits h source destination
  | dadd => exact parallel_op h rfl trivial
  | _ => exact parallel_arithmetic h _ _ source destination

theorem parallel_addressArithmetic (opcode : AddressOpcode)
    (source destination : Operand) :
    ParallelCode related count (context.addressArithmetic opcode source destination)
      ((context.knowing known').addressArithmetic opcode source destination) := by
  cases opcode with
  | mova => exact parallel_move h source destination
  | _ => exact parallel_arithmetic h _ _ source destination

theorem parallel_body {body : Body Operand} (hjump : isConditionalJump body = false) :
    ParallelCode related count (context.body body)
      ((context.knowing known').body body) := by
  cases body with
  | reti => exact parallel_reti h
  | jump condition offset =>
      apply parallel_jump h
      simpa [isConditionalJump] using hjump
  | single opcode target => exact parallel_single h opcode target
  | double opcode source destination =>
      exact parallel_double h opcode source destination
  | calla target => exact parallel_call h target
  | address opcode source destination =>
      exact parallel_addressArithmetic h opcode source destination
  | multiple opcode number highest =>
      cases opcode with
      | pushm => exact parallel_pushRange h number highest
      | popm => exact parallel_popRange h number highest
  | shift opcode number destination => exact parallel_shift h opcode number destination

theorem parallel_run {inst : Instruction}
    (hjump : isConditionalJump inst.body = false) :
    ParallelCode related count (context.run inst)
      ((context.knowing known').run inst) := by
  unfold Context.run
  split
  · exact parallel_op h rfl trivial
  · split
    · exact parallel_ret h .word
    · exact parallel_ret h .address
    · exact parallel_op h rfl trivial
    · split
      · exact parallel_op h rfl trivial
      · exact parallel_body h hjump
    · exact parallel_body h hjump

theorem parallel_once (zeroCarry : Bool) {inst : Instruction}
    (hjump : isConditionalJump inst.body = false) :
    ParallelCode related count (context.once zeroCarry inst)
      ((context.knowing known').once zeroCarry inst) := by
  refine Parallel.seq (Parallel.ops ?_) (parallel_run h hjump)
  cases zeroCarry with
  | true => exact h.single trivial
  | false => exact .nil

end Context

/-- Unless a register counts its runs, a whole instruction is emitted alike. -/
theorem parallel_emit {known known' : KnownLabels} {count : Nat}
    {related : Op -> Op -> Prop} (h : CarriesOver known known' count related)
    (options : Options) {inst : Instruction}
    (hjump : isConditionalJump inst.body = false)
    (hcount : forall counter zeroCarry, inst.extension ≠
      some { repetition := .register counter, zeroCarry := zeroCarry }) :
    ParallelCode related count (emit options known inst) (emit options known' inst) := by
  have hcarries : CarriesOver (Context.of options known inst).known known' count
      related := h
  unfold emit
  cases hextension : inst.extension with
  | none => exact Context.parallel_run hcarries hjump
  | some extension =>
      rcases extension with ⟨repetition, zeroCarry⟩
      cases repetition with
      | times times =>
          exact Parallel.replicate (Context.parallel_once hcarries zeroCarry hjump) times
      | register counter => exact absurd hextension (hcount counter zeroCarry)

end Lift
end MSP430
