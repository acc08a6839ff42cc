import MSP430.Proofs.Decode.Counts
import MSP430.Proofs.Lift.Order
import MSP430.Proofs.Lift.StatusWrite

/-!
# Values that are moved and combined

Moves, bit masks and exchanges of bytes set no flags.  Each computes one value from what
its operands are worth and writes it to the destination, at the address that the
destination has before anything is written, and only then does the source move on.
-/

namespace MSP430

open IL (Emit Expr RunsTo State Supply)
open IL.Emit (Reaches)

/-- A number with its two low bytes exchanged and nothing above them. -/
def exchangedBytes (value : Nat) : Nat :=
  0x100 * (value % 0x100) + value / 0x100 % 0x100

/-- A body puts into its destination what it makes of the values of the destination and
the source, in this order, before the width cuts it. -/
inductive Body.Combines :
    Body Operand -> Operand -> Operand -> (Width -> Nat -> Nat -> Nat) -> Prop
  | mov (source destination : Operand) :
      Combines (.double .mov source destination) source destination fun _ _ b => b
  | mova (source destination : Operand) :
      Combines (.address .mova source destination) source destination fun _ _ b => b
  | bic (source destination : Operand) :
      Combines (.double .bic source destination) source destination
        fun width a b => a &&& width.complement b
  | bis (source destination : Operand) :
      Combines (.double .bis source destination) source destination
        fun _ a b => a ||| b
  | swpb (operand : Operand) :
      Combines (.single .swpb operand) operand operand fun _ a _ => exchangedBytes a

namespace Body.Combines

variable {body : Body Operand} {source destination : Operand}
  {combine : Width -> Nat -> Nat -> Nat} (h : body.Combines source destination combine)

include h

theorem ne_jump (condition : Condition) (offset : Int) :
    body ≠ .jump condition offset := by
  cases h <;> exact nofun

theorem unsupported?_eq_none (hplace : destination.isValue = false) :
    Lift.unsupported? body = none := by
  cases h <;>
    simp [Lift.unsupported?, Lift.writtenOperand?, DoubleOpcode.writesDestination,
      AddressOpcode.writesDestination, SingleOpcode.writesOperand, hplace]

end Body.Combines

namespace Lift

/-- Where no register with a role of its own is replaced, no name stands for code of its
own. -/
theorem hasOwnCode_of_combines {inst : Instruction} {source destination : Operand}
    {combine : Width -> Nat -> Nat -> Nat}
    (hbody : inst.body.Combines source destination combine)
    (hpc : destination ≠ .register .pc) (hsr : destination ≠ .register .sr)
    (hcg : destination ≠ .register .cg) {emulated : Emulated}
    (h : inst.emulated? = some emulated) : hasOwnCode emulated = false := by
  apply hasOwnCode_eq_false h
  intro hown
  generalize inst.body = body at hbody hown
  cases hown with
  | ret _ | reta _ => cases hbody <;> exact hpc rfl
  | nop _ => cases hbody <;> exact hcg rfl
  | clear _ | set _ => cases hbody <;> exact hsr rfl

/-!
# Exchanged bytes
-/

theorem rol_eight (value : Nat) :
    IL.BinaryOp.rol.apply .word value 8 = exchangedBytes value := by
  show (value % 0x10000) <<< 8 % 0x10000 + (value % 0x10000) >>> 8 = _
  rw [Nat.shiftLeft_eq, Nat.shiftRight_eq_div_pow]
  unfold exchangedBytes
  omega

theorem exchangedBytes_lt (value : Nat) : exchangedBytes value < 0x10000 := by
  unfold exchangedBytes
  omega

theorem exchangedBytes_truncate (value : Nat) :
    exchangedBytes (Width.word.truncate value) = exchangedBytes value := by
  simp only [exchangedBytes, Width.truncate, Width.modulus]
  omega

/-- Bytes have nothing to exchange, and so they are left out. -/
theorem eval_swappedBytes {width : Width} (hwidth : width ≠ .byte) {value : Expr}
    {state : State} {number : Nat} (hvalue : value.eval state = number) :
    (Context.swappedBytes width value).eval state =
      width.truncate (exchangedBytes number) := by
  have hlt := exchangedBytes_lt number
  cases width with
  | byte => exact absurd rfl hwidth
  | word =>
      show IL.BinaryOp.rol.apply .word (value.eval state) 8 = _
      rw [hvalue, rol_eight, Width.truncate_of_lt hlt]
  | address =>
      show Width.address.truncate (IL.BinaryOp.rol.apply .word
        (Width.word.truncate (value.eval state)) 8) = _
      rw [hvalue, rol_eight, exchangedBytes_truncate]

/-!
# The code
-/

namespace Context

variable (context : Context) {source destination : Operand} {state : State}

/-- Writing a value and then moving the source on reaches the end of the code. -/
theorem reaches_written (hplace : destination.isValue = false)
    (hpc : destination ≠ .register .pc) (hsr : destination ≠ .register .sr)
    {value : Expr} {number : Nat} (hvalue : value.eval state = number)
    (hnumber : number < context.width.modulus) (supply : Supply) :
    Reaches (do
        context.write destination value
        Emit.ops (postIncrement source)) supply state
      (source.advanced
        (destination.written context.width context.addressWidth number state)) :=
  Reaches.bind
    (.ops (outcome_write context.known context.addressWidth hplace hpc hsr hvalue hnumber))
    (.ops (outcome_postIncrement source _))

/-- By default a move writes its source, also where it loads the stack pointer with an
immediate. -/
theorem code_move (hoptions : context.options.skipStackReseed = false)
    (hpc : destination ≠ .register .pc) (supply : Supply) :
    (context.move source destination supply).code =
      ((do
        context.write destination (context.read source)
        Emit.ops (postIncrement source) : Emit Unit) supply).code := by
  unfold move
  split
  · exact absurd rfl hpc
  · rw [hoptions]
    exact (List.append_nil _).symm
  · rfl

/-- The code of the body writes the combined value and moves the source on. -/
theorem reaches_combined {body : Body Operand} {combine : Width -> Nat -> Nat -> Nat}
    (hbody : body.Combines source destination combine)
    (hrange : body.InRange context.width)
    (hoptions : context.options.skipStackReseed = false)
    (hplace : destination.isValue = false) (hpc : destination ≠ .register .pc)
    (hsr : destination ≠ .register .sr) (state : State) (supply : Supply) :
    (context.body body).Reaches supply state
      (source.advanced
        (destination.written context.width context.addressWidth
          (context.width.truncate
            (combine context.width (context.valueOf state destination)
              (context.valueOf state source))) state)) := by
  have hread : forall operand, (context.read operand).eval state =
      context.valueOf state operand := eval_read _ _ _ state
  have hfits : forall operand, (context.read operand).eval state =
      context.width.truncate (context.valueOf state operand) := by
    intro operand
    rw [hread, Width.truncate_of_lt (context.valueOf_lt state operand)]
  have hwrite := fun (value : Expr) number hvalue =>
    @context.reaches_written source destination state hplace hpc hsr value
      (context.width.truncate number) hvalue (context.width.truncate_lt number) supply
  cases hbody with
  | mov _ _ | mova _ _ =>
      unfold Reaches
      show IL.outcome (context.move source destination supply).code state = _
      rw [context.code_move hoptions hpc]
      exact hwrite _ _ (hfits source)
  | bic _ _ => exact hwrite _ _ (eval_clearedBits (hfits destination) (hread source))
  | bis _ _ => exact hwrite _ _ (eval_setBits (hfits destination) (hread source))
  | swpb _ => exact hwrite _ _ (eval_swappedBytes (hrange rfl) (hread _))

end Context

/-!
# Instructions
-/

/-- Moves, masks and exchanges leave the combined value.  The code that such an
instruction adds to a buffer reaches its end, if no prefix word repeats it.  The
destination has then what the body makes of the values that the operands had at the
start, cut to the width, with the rest of a register clear.  A memory destination is the
one that the registers named at the start.  A prefix word may have the carry cleared
before, which shows only where the status register is the source. -/
theorem combined_in_destination (buffer : IL.Buffer) {inst : Instruction}
    (hdecoded : inst.Decoded) (hsingly : inst.RunsSingly) {source destination : Operand}
    {combine : Width -> Nat -> Nat -> Nat}
    (hbody : inst.body.Combines source destination combine)
    (hplace : destination.isValue = false) (hpc : destination ≠ .register .pc)
    (hsr : destination ≠ .register .sr) (hcg : destination ≠ .register .cg)
    (halias : forall r step, source = .autoIncrement r step ->
      destination ≠ .register r) (state : State) :
    let before := started inst.clearsCarry state
    let value := inst.width.truncate
      (combine inst.width (inst.operandValue before destination)
        (inst.operandValue before source))
    exists last,
      RunsTo (appended buffer .standard inst) state .fallThrough last ∧
        destination.Receives inst.width (Context.addressWidthOf inst) value state last := by
  let context := Context.of .standard buffer.known inst
  have hrun : context.run inst = context.body inst.body := by
    apply context.run_eq_body (hbody.unsupported?_eq_none hplace)
    intro emulated hemulated
    exact hasOwnCode_of_combines hbody hpc hsr hcg hemulated
  have hreaches := context.reaches_combined hbody hdecoded.inRange rfl hplace hpc hsr
    (started inst.clearsCarry state) { temp := 0, label := 0 }
  rw [← hrun] at hreaches
  refine ⟨_, runsTo_of_reaches_singly .standard buffer hsingly hbody.ne_jump hreaches, ?_⟩
  exact Operand.receives_written _ _ _ (started_regs _ _) (started_memory _ _) hplace halias

/-- Bytes of a mask come through the register by which the destination is reached. -/
def clearBytes : Instruction where
  address := 0x4400
  width := .byte
  extension := none
  body := .double .bic (.autoIncrement .r5 1) (.indexed .r5 2)
  length := 4

/-- The destination is the one from before the register moves on. -/
theorem combined_in_destination_bytes :
    exists last,
      RunsTo (appended (.empty 0x4400) .standard clearBytes)
          ⟨fun _ => 0x1000, fun _ => true, fun a => if a = 0x1000 then 0x0f else 0x3c,
            fun _ => 0⟩ .fallThrough last ∧
        last.memory 0x1002 = 0x30 ∧ last.memory 0x1003 = 0x3c := by
  rcases @combined_in_destination (.empty 0x4400) clearBytes
      ⟨.msp430x, [0xf5, 0xc5, 0x02, 0x00], 0x4400, rfl⟩ nofun (.autoIncrement .r5 1)
      (.indexed .r5 2) _ (.bic _ _) rfl nofun nofun nofun nofun
      ⟨fun _ => 0x1000, fun _ => true, fun a => if a = 0x1000 then 0x0f else 0x3c,
        fun _ => 0⟩ with
    ⟨last, hrun, hmemory⟩
  exact ⟨last, hrun, congrFun hmemory 0x1002, congrFun hmemory 0x1003⟩

end Lift
end MSP430
