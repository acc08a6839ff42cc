import MSP430.Proofs.IL.Temporaries
import MSP430.Proofs.Lift.KnownLabels

/-!
# Temporaries of lifted code

Each instruction starts with temporaries of its own.  It takes one for every value that
is kept, run after run where it is unrolled, and sets each of them once.  Only the count
of a loop is set a second time, at the end of the loop, and its body leaves it alone.
-/

namespace MSP430

open IL (Buffer DefinedAfter Emit Expr KnownLabels Label Op Scope Supply TempFree
  definedAfter_loop loopEnd tempsSet)
open IL.Emit (EmitsCode)

theorem Condition.expr_scopedIn (condition : Condition) (scope : Scope) :
    condition.expr.ScopedIn scope := by
  cases condition <;> simp [expr, Expr.ScopedIn]

namespace Lift

/-!
# Jumps
-/

namespace Context

variable (context : Context) (condition : Condition) (offset : Int)

theorem tempFree_jump : EmitsCode TempFree (context.jump condition offset) := by
  apply context.emits_jump
  intro op hop
  apply TempFree.single
  cases hop with
  | leave =>
      unfold branchTo
      split
      · exact ⟨rfl, nofun⟩
      · exact ⟨rfl, List.forall_mem_singleton.mpr trivial⟩
  | choose ifTrue ifFalse =>
      exact ⟨rfl, List.forall_mem_singleton.mpr (condition.expr_scopedIn [])⟩
  | mark label => exact ⟨rfl, nofun⟩
  | arm => exact ⟨rfl, List.forall_mem_singleton.mpr trivial⟩

theorem taken_jump (supply : Supply) :
    (context.jump condition offset).taken supply = [] := by
  have hlabel : forall (known : Option Label) (supply : Supply),
      (labelOrNew known supply).supply.temp = supply.temp := by
    intro known supply
    cases known <;> rfl
  have htemp : (context.jump condition offset supply).supply.temp = supply.temp := by
    unfold jump
    dsimp only
    split
    · rfl
    · simp only [IL.Emit.bind_apply, IL.Emit.op_apply]
      split <;> split <;> simp [hlabel]
  rw [Emit.taken, htemp, Nat.sub_self]
  rfl

end Context

/-!
# Whole instructions
-/

section

variable (options : Options) (known : KnownLabels) {inst : Instruction}

section Loop

variable {counter : Register} {zeroCarry : Bool}
  (hextension : inst.extension =
    some { repetition := .register counter, zeroCarry := zeroCarry })
  (hjump : isConditionalJump inst.body = false) (first : Label)

include hextension hjump

/-- A loop takes its count first, and its body sets what is taken behind that. -/
theorem taken_counted :
    (emit options known inst).taken { temp := 0, label := first } =
      0 :: tempsSet ((Context.of options known inst).once zeroCarry inst
        { temp := 1, label := first + 2 }).code := by
  have hstraight := (Context.of options known inst).straight_counted zeroCarry hjump
  have hloop : emit options known inst =
      loop counter ((Context.of options known inst).once zeroCarry inst) := by
    unfold emit
    rw [hextension]
    rfl
  have hgrows := hstraight.le_temp (first + 2)
  have hbody := hstraight.tempsSet_eq_taken (first + 2)
  simp only [List.length_singleton] at hgrows hbody
  rw [hbody, hloop]
  calc
    (loop counter ((Context.of options known inst).once zeroCarry inst)).taken
          { temp := 0, label := first } =
        Emit.newTemp.taken { temp := 0, label := first } ++
          ((Context.of options known inst).once zeroCarry inst).taken
            { temp := 1, label := first + 2 } := Emit.taken_bind (Nat.le_succ 0) hgrows
    _ = 0 :: ((Context.of options known inst).once zeroCarry inst).taken
          { temp := 1, label := first + 2 } := by
      rw [Emit.taken_newTemp]
      rfl

theorem definedAfter_counted :
    DefinedAfter [] (emit options known inst { temp := 0, label := first }).code := by
  have hstraight := (Context.of options known inst).straight_counted zeroCarry hjump
  rw [emit_loop options known hextension first]
  apply definedAfter_loop
  · exact ⟨⟨trivial, trivial⟩, trivial⟩
  · intro given hgiven
    exact hstraight.definedAfter hgiven (first + 2)

end Loop

section

variable (h : RepeatsStraight inst) (first : Label)

include h

/-- An instruction reads a temporary only after it has set it. -/
theorem definedAfter_emit :
    DefinedAfter [] (emit options known inst { temp := 0, label := first }).code := by
  cases h.runsAs with
  | @jump condition offset hbody _ hextension =>
      have hfree := (Context.of options known inst).tempFree_jump condition offset
      rw [emit_jump options known hbody hextension]
      exact (hfree.code _).definedAfter []
  | counted hextension hjump =>
      exact definedAfter_counted options known hextension hjump first
  | straight hcount hjump =>
      exact (straight_emit options known hjump hcount).definedAfter .nil first

/-- An instruction that no register counts sets what it takes. -/
theorem tempsSet_emit
    (huncounted : forall counter zeroCarry, inst.extension ≠
      some { repetition := .register counter, zeroCarry := zeroCarry }) :
    tempsSet (emit options known inst { temp := 0, label := first }).code =
      (emit options known inst).taken { temp := 0, label := first } := by
  cases h.runsAs with
  | @jump condition offset hbody _ hextension =>
      have hfree := (Context.of options known inst).tempFree_jump condition offset
      rw [emit_jump options known hbody hextension, Context.taken_jump]
      exact (hfree.code _).tempsSet_eq_nil
  | counted hextension _ => exact absurd hextension (huncounted _ _)
  | straight hcount hjump =>
      exact (straight_emit options known hjump hcount).tempsSet_eq_taken first

end

end

/-- The code of an instruction reads a temporary only after it has set it, at the same
width.  No two of the temporaries that are taken for it have one number, and each is set
once, in the order in which they are taken.  Only the count of a loop, which is taken
first, is set again at the end of the loop, and the body of the loop does not set it. -/
theorem temporaries_defined (options : Options) (buffer : Buffer) {inst : Instruction}
    (hdecoded : inst.Decoded) :
    exists code taken,
      (into buffer options inst).ops = buffer.ops ++ code ∧
      taken = (emit options buffer.known inst).taken (buffer.moveTo inst.address).supply ∧
      (forall before op after, code = before ++ op :: after ->
        forall width index, .temp width index ∈ op.parts ->
          exists value, .setTemp width index value ∈ before) ∧
      taken.Nodup ∧
      ((forall counter zeroCarry, inst.extension ≠
          some { repetition := .register counter, zeroCarry := zeroCarry }) ->
        tempsSet code = taken) ∧
      forall counter zeroCarry,
        inst.extension =
            some { repetition := .register counter, zeroCarry := zeroCarry } ->
          exists count value start done body,
            code = .setTemp .word count value :: .label start ::
              (body ++ loopEnd count start done) ∧
            taken = count :: tempsSet body ∧ count ∉ tempsSet body := by
  have hrepeats := repeatsStraight_of_decoded hdecoded
  have hnodup := (emit options buffer.known inst).nodup_taken
    (buffer.moveTo inst.address).supply
  refine ⟨appended buffer options inst, _, ops_into buffer options inst, rfl,
    definedAfter_emit options buffer.known hrepeats _, hnodup, ?_, ?_⟩
  · intro hcount
    exact tempsSet_emit options buffer.known hrepeats _ hcount
  · intro counter zeroCarry hextension
    have hjump : isConditionalJump inst.body = false := by
      apply hrepeats
      rw [hextension]
      rfl
    have htaken := taken_counted options buffer.known hextension hjump buffer.supply.label
    have hcode := congrArg IL.Emission.code
      (emit_loop options buffer.known hextension buffer.supply.label)
    refine ⟨0, _, _, _, _, hcode, htaken, ?_⟩
    exact (List.nodup_cons.mp (htaken ▸ hnodup)).1

/-- An addition of the status register that is repeated as often as a register says. -/
def countedStatusAdd : Instruction where
  address := 0x4400
  width := .word
  extension := some { repetition := .register .r6, zeroCarry := false }
  body := .double .add (.register .sr) (.register .r5)
  length := 4

theorem temporaries_defined_status :
    exists code value start done body,
      (into (.empty 0x4400) .standard countedStatusAdd).ops = [] ++ code ∧
      code = .setTemp .word 0 value :: .label start :: (body ++ loopEnd 0 start done) ∧
      tempsSet body = [1, 2] ∧
      forall before op after, code = before ++ op :: after ->
        forall width index, .temp width index ∈ op.parts ->
          exists value, .setTemp width index value ∈ before := by
  have hdecoded : countedStatusAdd.Decoded :=
    ⟨.msp430x, [0xc6, 0x18, 0x05, 0x52], 0x4400, rfl⟩
  rcases temporaries_defined .standard (.empty 0x4400) hdecoded with
    ⟨code, taken, hops, htaken, hdefined, _, _, hcounted⟩
  rcases hcounted .r6 false rfl with
    ⟨count, value, start, done, body, hcode, hbody, _⟩
  have hthree : taken = [0, 1, 2] := htaken
  rw [hthree] at hbody
  rcases List.cons.inj hbody with ⟨rfl, hset⟩
  exact ⟨code, value, start, done, body, hops, hcode, hset.symm, hdefined⟩

end Lift
end MSP430
