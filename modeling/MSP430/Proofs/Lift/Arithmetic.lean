import MSP430.Proofs.Decode.Decoded
import MSP430.Proofs.FlagRule.Expr
import MSP430.Proofs.Lift.Once
import MSP430.Proofs.Lift.Operand

/-!
# Arithmetic with two operands

The code of the two-operand arithmetic leaves the flags, and in the destination
the value, that the rule of the opcode gives for the values that the operands
had before it.
-/

namespace MSP430

open IL (Emit Expr Op RunsTo State Supply outcome)
open IL.Emit (Reaches)

/-!
# Setting flags
-/

/-- Flags are set one after the other; what each is set to may not depend on
those set before it. -/
theorem outcome_setFlags {values : Flag -> Expr} {result : Flag -> Bool}
    (flags : List Flag) (state : State)
    (h : forall flag, flag ∈ flags -> forall others : Flag -> Bool,
      (values flag).holds { state with flags := others } = result flag) :
    outcome (flags.map fun flag => .setFlag flag (values flag)) state =
      (.fallThrough,
        { state with
          flags := fun flag =>
            if flag ∈ flags then result flag else state.flags flag }) := by
  induction flags generalizing state with
  | nil => rfl
  | cons head rest ih =>
      have hhead : (values head).holds state = result head :=
        h head List.mem_cons_self state.flags
      have hrest := ih (state.setFlag head (result head)) fun flag hmem =>
        h flag (List.mem_cons_of_mem head hmem)
      rw [List.map_cons, IL.outcome_setFlag, hhead, hrest]
      congr 2
      funext flag
      by_cases hflag : flag = head
      · simp [State.setFlag, hflag]
      · simp [State.setFlag, hflag]

namespace FlagRule

theorem flagExpr_of_ne_carry (rule : FlagRule) (width : Width)
    (operands : Operands) (carry : Expr) {flag : Flag} (h : flag ≠ .c) :
    rule.flagExpr width operands flag =
      rule.flagExpr width { operands with carry := carry } flag := by
  cases flag with
  | c => exact absurd rfl h
  | z | n | v => rfl

/-- The carry is set first, and only once. -/
theorem exists_group (rule : FlagRule) :
    exists rest, rule.group.flags = .c :: rest ∧ Flag.c ∉ rest := by
  cases rule with
  | rra count | rrc count | rru count | rla count =>
      unfold group
      by_cases hcount : 1 < count
      · exact ⟨[.n, .z], congrArg FlagWrite.flags (if_pos hcount), by decide⟩
      · exact ⟨[.z, .n, .v], congrArg FlagWrite.flags (if_neg hcount), by decide⟩
  | _ => exact ⟨[.z, .n, .v], rfl, by decide⟩

/-- Setting the flags of a rule from expressions that stay what they are sets
them as the rule says. -/
theorem Sound.outcome_flagExprs {rule : FlagRule} {width : Width}
    {operands : Operands} {state : State} {a b : Nat}
    (hsound : rule.Sound width a b (state.flags .c))
    (hcarry : operands.carry.holds state = state.flags .c)
    (h : forall others : Flag -> Bool,
      { operands with carry := .bool (state.flags .c) }.StandFor
        { state with flags := others } a b (state.flags .c)
        (rule.result width a b (state.flags .c))) :
    outcome ((rule.flagExprs width operands).map fun (flag, value) =>
        .setFlag flag value) state =
      (.fallThrough, { state with flags := rule.flagsAfter width a b state.flags }) := by
  have hfirst : (rule.flagExpr width operands .c).holds state =
      rule.flagValue width a b (state.flags .c) .c := by
    have hstand : operands.StandFor state a b (state.flags .c)
        (rule.result width a b (state.flags .c)) :=
      ⟨(h state.flags).a, (h state.flags).b, hcarry, (h state.flags).result⟩
    exact hsound.holds hstand .c
  rcases rule.exists_group with ⟨rest, hgroup, hrest⟩
  have hlater : forall flag, flag ∈ rest -> forall others : Flag -> Bool,
      (rule.flagExpr width operands flag).holds { state with flags := others } =
        rule.flagValue width a b (state.flags .c) flag := by
    intro flag hmem others
    have hne : flag ≠ .c := by
      rintro rfl
      exact hrest hmem
    rw [flagExpr_of_ne_carry rule width operands (.bool (state.flags .c)) hne]
    exact hsound.holds (h others) flag
  have hset := outcome_setFlags rest
    (state.setFlag .c (rule.flagValue width a b (state.flags .c) .c)) hlater
  unfold flagExprs flagsAfter
  rw [List.map_map, hgroup, List.map_cons]
  show outcome (.setFlag .c (rule.flagExpr width operands .c) :: _) state = _
  rw [IL.outcome_setFlag, hfirst]
  refine hset.trans ?_
  congr 2
  funext flag
  by_cases hflag : flag = .c
  · simp [State.setFlag, hflag, hrest]
  · simp [State.setFlag, hflag]

end FlagRule

namespace Lift
namespace Context

namespace Arithmetic

theorem twoOperand_rule (operation : Arithmetic) : operation.rule.TwoOperand := by
  cases operation <;> constructor

theorem eval_expr (operation : Arithmetic) {width : Width} {a b : Expr}
    {state : State} {first second : Nat} (ha : a.eval state = first)
    (hb : b.eval state = second) (hfirst : first < width.modulus)
    (hsecond : second < width.modulus) :
    (operation.expr width a b).eval state =
      operation.rule.result width first second (state.flags .c) := by
  have hfirst' := Width.truncate_of_lt hfirst
  -- A bitwise result fits the width, so that truncating it changes nothing.
  have hfits := Width.truncate_of_lt
    (operation.twoOperand_rule.result_lt hfirst hsecond (state.flags .c))
  cases operation with
  | add =>
      simp only [expr, rule, FlagRule.result, Expr.add, Expr.eval,
        IL.BinaryOp.apply, ha, hb, hfirst']
  | addc =>
      simp only [expr, rule, FlagRule.result, Expr.eval_addCarry,
        Expr.holds_flag, ha, hb]
  | sub =>
      have hborrow : first + (width.modulus - second) =
          first + width.complement second + 1 := by
        unfold Width.complement Width.mask
        rw [Nat.mod_eq_of_lt hsecond]
        omega
      simp only [expr, rule, FlagRule.result, Expr.sub, Expr.eval,
        IL.BinaryOp.apply, ha, hb, hfirst', Width.truncate_of_lt hsecond, hborrow]
  | subc =>
      simp only [expr, rule, FlagRule.result, Expr.eval_addCarry,
        Expr.holds_flag, Expr.complement, Expr.eval, IL.UnaryOp.apply, ha, hb]
  | and =>
      simp only [expr, rule, FlagRule.result, Expr.and, Expr.eval,
        IL.BinaryOp.apply, ha, hb, hfirst'] at hfits ⊢
      exact hfits
  | xor =>
      simp only [expr, rule, FlagRule.result, Expr.xor, Expr.eval,
        IL.BinaryOp.apply, ha, hb, hfirst'] at hfits ⊢
      exact hfits

end Arithmetic

/-!
# The code of an operation
-/

/-- What an operand is worth to the code of a context. -/
def valueOf (context : Context) (state : State) (operand : Operand) : Nat :=
  operand.valueIn context.address context.width context.addressWidth state

theorem valueOf_lt (context : Context) (state : State) (operand : Operand) :
    context.valueOf state operand < context.width.modulus :=
  operand.valueIn_lt _ _ _ _

/-- A value that is read without code is settled by the registers alone. -/
theorem settled_read (context : Context) {operand : Operand}
    (h : (context.read operand).isPureLeaf = true) (state : State) (count : Nat) :
    (context.read operand).Settled state count
      (context.valueOf state operand) := by
  intro later hregs _
  unfold Context.read Context.place Context.valueOf
  rw [eval_read]
  cases operand with
  | register r =>
      cases r with
      | sr => cases h
      | pc | cg => rfl
      | _ =>
          simp only [Operand.valueIn, Operand.effectiveAddress?,
            Register.valueIn, hregs]
  | immediate _ | constant _ => rfl
  | _ => cases h

theorem exists_snapshot_read (context : Context) (operand : Operand)
    (supply : Supply) (state : State) :
    let emission := Emit.snapshot context.width (context.read operand)
    exists after,
      emission.Reaches supply state after ∧
        after.AgreeBelow supply.temp state ∧
        supply.temp ≤ (emission supply).supply.temp ∧
        (emission supply).result.Settled after (emission supply).supply.temp
          (context.valueOf state operand) :=
  Reaches.exists_snapshot
    (fun hleaf => context.settled_read hleaf state supply.temp)
    (eval_read context.addressWidth context.width context.address state operand)
    (context.valueOf_lt state operand)

/-- Keeping a result and setting the flags of its rule changes nothing else that
is visible. -/
theorem exists_resultAndFlags (context : Context) {rule : FlagRule}
    {a b value : Expr} {supply : Supply} {state : State}
    {first second : Nat} (ha : a.Settled state supply.temp first)
    (hb : b.Settled state supply.temp second)
    (hsound : rule.Sound context.width first second (state.flags .c))
    (hvalue : value.eval state =
      rule.result context.width first second (state.flags .c)) :
    let emission := context.resultAndFlags rule a b value
    exists after,
      emission.Reaches supply state after ∧
        after.regs = state.regs ∧ after.memory = state.memory ∧
        after.flags = rule.flagsAfter context.width first second state.flags ∧
        (emission supply).result.eval after =
          rule.result context.width first second (state.flags .c) := by
  rcases @Reaches.exists_save supply _ _ _ _ hvalue hsound.result_lt with
    ⟨kept, hsave, hagree, hkept⟩
  rw [← hagree.flags] at hsound ⊢
  have hoperands : forall others : Flag -> Bool,
      FlagRule.Operands.StandFor
        { a := a, b := b, carry := .bool (kept.flags .c)
          result := .temp context.width supply.temp }
        { kept with flags := others } first second (kept.flags .c)
        (rule.result context.width first second (kept.flags .c)) := by
    intro others
    constructor
    · exact ha _ hagree.regs hagree.temps
    · exact hb _ hagree.regs hagree.temps
    · exact Expr.holds_bool _ _
    · rw [hagree.flags]
      exact hkept _ rfl fun _ _ => rfl
  have hset := @FlagRule.Sound.outcome_flagExprs rule context.width
    { a := a, b := b, carry := .flag .c
      result := .temp context.width supply.temp } kept _ _ hsound
    (Expr.holds_flag kept .c) hoperands
  refine ⟨{ kept with
    flags := rule.flagsAfter context.width first second kept.flags },
    ?_, hagree.regs, hagree.memory, rfl, ?_⟩
  · unfold Context.resultAndFlags
    exact hsave.bind ((Reaches.ops hset).bind (.pure _))
  · rw [hagree.flags]
    exact hkept _ rfl fun _ _ => rfl

/-- The code of an operation sets the flags of its rule for the values that the
operands have before it.  Then the result is written, if it is to be stored, and
last the source moves on. -/
theorem exists_arithmetic (context : Context) (operation : Arithmetic)
    {store : Bool} {source destination : Operand}
    (hplace : store = true -> destination.isValue = false ∧
      destination ≠ .register .pc ∧ destination ≠ .register .sr)
    (supply : Supply) (state : State) :
    let a := context.valueOf state destination
    let b := context.valueOf state source
    let rule := operation.rule
    let value := rule.result context.width a b (state.flags .c)
    exists after,
      after.regs = state.regs ∧ after.memory = state.memory ∧
        after.flags = rule.flagValue context.width a b (state.flags .c) ∧
        (context.arithmetic operation store source destination).Reaches supply
          state
          (source.advanced
            (if store then
              destination.written context.width context.addressWidth value after
            else
              after)) := by
  dsimp only
  have ha := context.valueOf_lt state destination
  have hb := context.valueOf_lt state source
  rcases context.exists_snapshot_read source supply state with
    ⟨first, hfirst, hagree, _, hsource⟩
  rcases context.exists_snapshot_read destination _ first with
    ⟨second, hsecond, hagree', htemp, hdestination⟩
  have hvalue : context.valueOf first destination =
      context.valueOf state destination :=
    valueIn_congr hagree.toSameVisible _ _ _ destination
  rw [hvalue] at hdestination
  replace hsource := hsource.later htemp hagree'
  have hflags : second.flags = state.flags :=
    hagree'.flags.trans hagree.flags
  have hresult := operation.eval_expr hdestination.eval_eq hsource.eval_eq ha hb
  have hrule := operation.twoOperand_rule
  rcases context.exists_resultAndFlags hdestination hsource
      (hrule.sound ha hb _) hresult with
    ⟨after, hafter, hregs, hmemory, hset, hkept⟩
  rw [hrule.flagsAfter_eq, hflags] at hset
  rw [hflags] at hkept
  refine ⟨after, hregs.trans (hagree'.regs.trans hagree.regs),
    hmemory.trans (hagree'.memory.trans hagree.memory), hset, ?_⟩
  unfold Context.arithmetic
  refine hfirst.bind (hsecond.bind (hafter.bind ?_))
  cases store with
  | true =>
      rcases hplace rfl with ⟨hvalue, hpc, hsr⟩
      have hwrite := outcome_write context.known context.addressWidth hvalue
        hpc hsr hkept (operation.twoOperand_rule.result_lt ha hb _)
      exact (Reaches.ops hwrite).bind (.ops (outcome_postIncrement source _))
  | false => exact .ops (outcome_postIncrement source after)

end Context

end Lift

/-!
# Instructions
-/

/-- The rule that an arithmetic opcode follows. -/
def Opcode.flagRule? : Opcode -> Option FlagRule
  | .double .add | .address .adda => some .add
  | .double .addc => some .addc
  | .double .sub | .double .cmp | .address .suba | .address .cmpa => some .sub
  | .double .subc => some .subc
  | .double .and | .double .bit => some .and
  | .double .xor => some .xor
  | _ => none

theorem twoOperand_of_flagRule? {opcode : Opcode} {rule : FlagRule}
    (h : opcode.flagRule? = some rule) : rule.TwoOperand := by
  cases opcode with
  | double opcode => cases opcode <;> cases h <;> constructor
  | address opcode => cases opcode <;> cases h <;> constructor
  | _ => cases h

namespace Lift

theorem unsupported?_of_flagRule? {body : Body Operand} {rule : FlagRule}
    (hrule : body.opcode.flagRule? = some rule) {destination : Operand}
    (hdestination : body.destination? = some destination)
    (hplace : destination.isValue = false) : unsupported? body = none := by
  cases body with
  | double opcode source other =>
      cases hdestination
      cases opcode with
      | dadd => cases hrule
      | _ =>
          simp [unsupported?, writtenOperand?, DoubleOpcode.writesDestination,
            hplace]
  | address opcode source other =>
      cases hdestination
      cases opcode <;>
        simp [unsupported?, writtenOperand?, AddressOpcode.writesDestination,
          hplace]
  | _ => cases hrule

/-- None of the names of arithmetic instructions stands for code of its own. -/
theorem hasOwnCode_of_flagRule? {inst : Instruction} {rule : FlagRule}
    (hrule : inst.opcode.flagRule? = some rule) {emulated : Emulated}
    (hemulated : inst.emulated? = some emulated) :
    hasOwnCode emulated = false := by
  apply hasOwnCode_eq_false hemulated
  intro hown
  unfold Instruction.opcode at hrule
  generalize inst.body = body at hrule hown
  cases hown <;> cases hrule

/-- One run of an arithmetic instruction is an operation with the rule of its
opcode, and the result is stored if the opcode says so. -/
theorem exists_operation {inst : Instruction} {rule : FlagRule}
    (hrule : inst.opcode.flagRule? = some rule) {source destination : Operand}
    (hsource : inst.source? = some source)
    (hdestination : inst.destination? = some destination)
    (hplace : destination.isValue = false) :
    exists operation : Context.Arithmetic,
      operation.rule = rule ∧
        forall context : Context,
          context.run inst =
            context.arithmetic operation inst.opcode.writesDestination source
              destination := by
  have hbody : forall context : Context,
      context.run inst = context.body inst.body := by
    intro context
    apply context.run_eq_body
    · exact unsupported?_of_flagRule? hrule hdestination hplace
    · intro emulated hemulated
      exact hasOwnCode_of_flagRule? hrule hemulated
  rcases inst with ⟨address, width, extension, body, length⟩
  cases body with
  | double opcode _ _ =>
      cases hsource
      cases hdestination
      cases opcode with
      | add => exact ⟨.add, Option.some.inj hrule, hbody⟩
      | addc => exact ⟨.addc, Option.some.inj hrule, hbody⟩
      | sub | cmp => exact ⟨.sub, Option.some.inj hrule, hbody⟩
      | subc => exact ⟨.subc, Option.some.inj hrule, hbody⟩
      | and | bit => exact ⟨.and, Option.some.inj hrule, hbody⟩
      | xor => exact ⟨.xor, Option.some.inj hrule, hbody⟩
      | mov | dadd | bic | bis => cases hrule
  | address opcode _ _ =>
      cases hsource
      cases hdestination
      cases opcode with
      | adda => exact ⟨.add, Option.some.inj hrule, hbody⟩
      | suba | cmpa => exact ⟨.sub, Option.some.inj hrule, hbody⟩
      | mova => cases hrule
  | _ => cases hrule

theorem body_ne_jump_of_flagRule? {inst : Instruction} {rule : FlagRule}
    (h : inst.opcode.flagRule? = some rule) (condition : Condition) (offset : Int) :
    inst.body ≠ .jump condition offset := by
  intro hbody
  unfold Instruction.opcode at h
  rw [hbody] at h
  cases h

theorem meaning_arithmetic (options : Options) (known : IL.KnownLabels)
    {inst : Instruction} (hdecoded : inst.Decoded) (honce : inst.RunsOnce)
    {rule : FlagRule} (hrule : inst.opcode.flagRule? = some rule)
    {source destination : Operand} (hsource : inst.source? = some source)
    (hdestination : inst.destination? = some destination)
    (hstored : inst.opcode.writesDestination = true ->
      destination ≠ .register .pc ∧ destination ≠ .register .sr)
    (state : State) :
    let a := inst.operandValue state destination
    let b := inst.operandValue state source
    let value := rule.result inst.width a b (state.flags .c)
    exists after,
      after.regs = state.regs ∧ after.memory = state.memory ∧
        after.flags = rule.flagValue inst.width a b (state.flags .c) ∧
        meaning options known inst state =
          (.fallThrough,
            source.advanced
              (if inst.opcode.writesDestination then
                destination.written inst.width (Context.addressWidthOf inst) value
                  after
              else
                after)) := by
  have hplace := hdecoded.destination_isPlace hdestination
  rcases exists_operation hrule hsource hdestination hplace with
    ⟨operation, rfl, hrun⟩
  rcases (Context.of options known inst).exists_arithmetic operation
      (fun hstore => ⟨hplace, hstored hstore⟩) { temp := 0, label := 0 } state with
    ⟨after, hregs, hmemory, hflags, hreaches⟩
  refine ⟨after, hregs, hmemory, hflags, ?_⟩
  rw [meaning_of_once options known honce]
  · apply reaches_emit_of_once options known honce
    rw [hrun]
    exact hreaches
  · exact body_ne_jump_of_flagRule? hrule

/-- Arithmetic follows its rule.  The code that a decoded arithmetic instruction
adds to a buffer reaches its end.  Every flag is then what the rule of the opcode
says for the values that the operands had at the start.  An opcode that stores
its result has left it in the destination, the others leave the destination
alone. -/
theorem arithmetic_follows_rule (options : Options) (buffer : IL.Buffer)
    {inst : Instruction} (hdecoded : inst.Decoded) (honce : inst.RunsOnce)
    {rule : FlagRule} (hrule : inst.opcode.flagRule? = some rule)
    {source destination : Operand} (hsource : inst.source? = some source)
    (hdestination : inst.destination? = some destination)
    (hpc : destination ≠ .register .pc) (hsr : destination ≠ .register .sr)
    (halias : forall r step, source = .autoIncrement r step ->
      destination ≠ .register r) (state : State) :
    let a := inst.operandValue state destination
    let b := inst.operandValue state source
    let expected := rule.evaluate inst.width a b (state.flags .c)
    exists last,
      RunsTo (appended buffer options inst) state .fallThrough last ∧
        (forall flag, expected.flag? flag = some (last.flags flag)) ∧
        if inst.opcode.writesDestination then
          destination.Receives inst.width (Context.addressWidthOf inst)
            expected.value state last
        else
          destination.Keeps state last := by
  rcases meaning_arithmetic options buffer.known hdecoded honce hrule hsource
      hdestination (fun _ => ⟨hpc, hsr⟩) state with
    ⟨after, hregs, hmemory, hflags, hmeaning⟩
  have hplace := hdecoded.destination_isPlace hdestination
  have htwo := twoOperand_of_flagRule? hrule
  have ha := inst.operandValue_lt state destination
  have hb := inst.operandValue_lt state source
  have hrun := runsTo_appended options buffer honce
    (body_ne_jump_of_flagRule? hrule) state
  rw [hmeaning] at hrun
  dsimp only
  refine ⟨_, hrun, ?_, ?_⟩
  · intro flag
    rw [htwo.evaluate_flag ha hb, Operand.advanced_flags, ← hflags]
    split
    · rw [Operand.written_flags]
    · rfl
  · rw [rule.evaluate_value ha hb]
    split
    · exact Operand.receives_written _ _ _ hregs hmemory hplace halias
    · exact Operand.keeps_advanced hregs hmemory halias

/-- An addition of bytes in memory, with the carry and through a register that
moves on. -/
def addBytesWithCarry : Instruction where
  address := 0x4400
  width := .byte
  extension := none
  body := .double .addc (.autoIncrement .r5 1) (.indexed .r6 2)
  length := 4

/-- All bytes are `0xff` and the carry is set, so that the sum is `0xff` again and
leaves the width. -/
theorem arithmetic_follows_rule_bytes :
    exists last,
      RunsTo (appended (.empty 0x4400) .standard addBytesWithCarry)
          ⟨fun _ => 0x1000, fun _ => true, fun _ => 0xff, fun _ => 0⟩ .fallThrough
          last ∧
        last.flags .c = true ∧ last.flags .z = false ∧ last.flags .n = true ∧
        last.flags .v = false ∧ last.memory 0x1002 = 0xff := by
  rcases @arithmetic_follows_rule .standard (.empty 0x4400) addBytesWithCarry
      ⟨.msp430x, [0xf6, 0x65, 0x02, 0x00], 0x4400, rfl⟩ (.inl rfl) .addc rfl
      (.autoIncrement .r5 1) (.indexed .r6 2) rfl rfl nofun nofun nofun
      ⟨fun _ => 0x1000, fun _ => true, fun _ => 0xff, fun _ => 0⟩ with
    ⟨last, hrun, hflags, hvalue⟩
  refine ⟨last, hrun, ?_, ?_, ?_, ?_, ?_⟩
  · exact (Option.some.inj (hflags .c)).symm
  · exact (Option.some.inj (hflags .z)).symm
  · exact (Option.some.inj (hflags .n)).symm
  · exact (Option.some.inj (hflags .v)).symm
  · exact congrFun hvalue 0x1002

end Lift
end MSP430
