import MSP430.Lift.Place

/-!
# One run of an instruction

Operands that are mentioned more than once are first kept in temporaries.  The
result is computed into a temporary, the flags are set from the temporaries, and
only then is the destination written.  Auto-increments come last.
-/

namespace MSP430
namespace Lift

open IL (Emit Expr Label KnownLabels Op)

/-- Why an instruction has no code. -/
inductive Unsupported where
  | destinationNotWritable
  | decimalArithmetic
  deriving DecidableEq, Repr

namespace Unsupported

def message : Unsupported -> String
  | destinationNotWritable => "destination is not writable"
  | decimalArithmetic => "decimal arithmetic"

end Unsupported

/-- The registers of a range, the highest first. -/
def registerRange (count : Nat) (highest : Register) : List Register :=
  (List.range count).map fun below => .ofField (highest.id - below)

/-- An instruction as it is being lifted. -/
structure Context where
  address : UInt64
  width : Width
  /-- The width in which memory is addressed. -/
  addressWidth : Width
  /-- The address of the instruction that follows. -/
  next : UInt64
  known : KnownLabels
  options : Options
  deriving DecidableEq, Repr

namespace Context

/-- Memory is addressed in twenty bits by extended instructions, by twenty-bit
operations and by all instructions of the address format. -/
def addressWidthOf (inst : Instruction) : Width :=
  if inst.isExtended || decide (inst.width = .address) ||
      decide (inst.format = .address) then
    .address
  else
    .word

def of (options : Options) (known : KnownLabels) (inst : Instruction) : Context where
  address := inst.address
  width := inst.width
  addressWidth := addressWidthOf inst
  next := inst.nextAddress
  known := known
  options := options

def place (context : Context) (operand : Operand) : Place :=
  .of context.addressWidth operand

def read (context : Context) (operand : Operand) : Expr :=
  (context.place operand).read context.address context.width

def write (context : Context) (operand : Operand) (value : Expr) : Emit Unit :=
  .ops ((context.place operand).write context.known context.width value)

/-- The width in which the stack is addressed by values of a width. -/
def stackWidth (context : Context) : Width -> Width
  | .address => .address
  | .byte | .word => context.addressWidth

def stackTop (context : Context) (width : Width) : Expr :=
  .reg (context.stackWidth width) .sp

/-!
# The stack
-/

/-- Moves the stack pointer down and stores a value there. -/
def push (context : Context) (width : Width) (value : Expr) : List Op :=
  [retreat .sp (stackStep width), .store width (context.stackTop width) value]

/-- Keeps the value on the stack and moves the stack pointer up. -/
def pop (context : Context) (width : Width) : Emit Expr := do
  let value <- Emit.save width (.load width (context.stackTop width))
  Emit.op (advance .sp (stackStep width))
  return value

def pushRange (context : Context) (count : Nat) (highest : Register) : List Op :=
  (registerRange count highest).flatMap fun register =>
    context.push context.width (.reg context.width register)

def popRange (context : Context) (count : Nat) (highest : Register) : List Op :=
  let width := context.width
  (registerRange count highest).reverse.flatMap fun register =>
    [.setReg width register (.load width (context.stackTop width)),
      advance .sp (stackStep width)]

/-!
# Control
-/

def ret (context : Context) (width : Width) : Emit Unit := do
  let target <- context.pop width
  Emit.op (.ret target)

/-- A return from an interrupt takes the status register and then the program
counter from the stack. -/
def reti (context : Context) : Emit Unit := do
  let status <- context.pop .word
  Emit.op (.setReg .word .sr status)
  Emit.ops flagsFromStatus
  context.ret .word

/-- A call reads its target before the register it comes through advances. -/
def call (context : Context) (target : Operand) : Emit Unit :=
  match target with
  | .autoIncrement r step => do
      let location <- Emit.save context.addressWidth (.reg context.addressWidth r)
      Emit.op (advance r step)
      Emit.op (.call (.load context.width location))
  | .immediate address => Emit.op (.call (codePointer address))
  | _ => Emit.op (.call (context.read target))

/-- The label of an address, or a new one that nothing else has. -/
def labelOrNew : Option Label -> Emit Label
  | some label => return label
  | none => Emit.newLabel

/-- A conditional jump chooses between two labels.  A target without a label
gets a jump of its own, and what follows in memory then follows in the code. -/
def jump (context : Context) (condition : Condition) (offset : Int) : Emit Unit :=
  let target := Instruction.jumpTarget context.address offset
  if condition.isUnconditional then
    Emit.op (branchTo context.known (codePointer target))
  else do
    let knownTarget := context.known.label? (UInt64.ofNat target)
    let knownNext := context.known.label? context.next
    let ifTrue <- labelOrNew knownTarget
    let ifFalse <- labelOrNew knownNext
    Emit.op (.branch condition.expr ifTrue ifFalse)
    if knownTarget.isNone then
      Emit.ops [.label ifTrue, .jump (codePointer target)]
    if knownNext.isNone then
      Emit.op (.label ifFalse)

/-!
# Moves
-/

/-- The target of a move to the program counter.  What comes through an
auto-incremented register is kept, since the register advances before control
leaves. -/
def moveTarget (context : Context) (source : Operand) : Emit Expr :=
  match source with
  | .immediate address => return codePointer address
  | .autoIncrement _ _ => Emit.save context.width (context.read source)
  | _ => return context.read source

def move (context : Context) (source destination : Operand) : Emit Unit :=
  match source, destination with
  | _, .register .pc => do
      let target <- context.moveTarget source
      Emit.ops (postIncrement source)
      Emit.op (branchTo context.known target)
  | .immediate _, .register .sp =>
      if context.options.skipStackReseed then
        Emit.op .nop
      else
        context.write destination (context.read source)
  | _, _ => do
      context.write destination (context.read source)
      Emit.ops (postIncrement source)

/-!
# Arithmetic
-/

/-- The two-operand operations that follow a flag rule. -/
inductive Arithmetic where
  | add | addc
  | sub | subc
  | and | xor
  deriving DecidableEq, Repr

namespace Arithmetic

def rule : Arithmetic -> FlagRule
  | add => .add
  | addc => .addc
  | sub => .sub
  | subc => .subc
  | and => .and
  | xor => .xor

def expr (operation : Arithmetic) (width : Width) (a b : Expr) : Expr :=
  match operation with
  | add => .add width a b
  | addc => .addCarry width a b (.flag .c)
  | sub => .sub width a b
  | subc => .addCarry width a (.complement width b) (.flag .c)
  | and => .and width a b
  | xor => .xor width a b

end Arithmetic

/-- Keeps a result and sets the flags of its rule. -/
def resultAndFlags (context : Context) (rule : FlagRule) (a b value : Expr) :
    Emit Expr := do
  let result <- Emit.save context.width value
  let operands : FlagRule.Operands :=
    { a := a, b := b, carry := .flag .c, result := result }
  Emit.ops ((rule.flagExprs context.width operands).map fun (flag, value) =>
    .setFlag flag value)
  return result

def arithmetic (context : Context) (operation : Arithmetic) (store : Bool)
    (source destination : Operand) : Emit Unit := do
  let width := context.width
  let b <- Emit.snapshot width (context.read source)
  let a <- Emit.snapshot width (context.read destination)
  let result <-
    context.resultAndFlags operation.rule a b (operation.expr width a b)
  if store then
    context.write destination result
  Emit.ops (postIncrement source)

def clearBits (context : Context) (source destination : Operand) : Emit Unit := do
  let mask := context.read source
  let value := context.read destination
  context.write destination
    (.and context.width value (.complement context.width mask))
  Emit.ops (postIncrement source)

def setBits (context : Context) (source destination : Operand) : Emit Unit := do
  let mask := context.read source
  let value := context.read destination
  context.write destination (.or context.width value mask)
  Emit.ops (postIncrement source)

/-!
# One operand
-/

/-- An operation that replaces its operand and sets flags; `compute` mentions
the operand. -/
def replaceOperand (context : Context) (rule : FlagRule) (operand : Operand)
    (compute : Expr -> Expr) : Emit Unit := do
  let a <- Emit.snapshot context.width (context.read operand)
  let result <- context.resultAndFlags rule a a (compute a)
  context.write operand result
  Emit.ops (postIncrement operand)

def rotateRight (context : Context) (operand : Operand) : Emit Unit :=
  context.replaceOperand (.rrc 1) operand fun a =>
    .rotateCarry context.width a (.flag .c)

def shiftRight (context : Context) (operand : Operand) : Emit Unit :=
  context.replaceOperand (.rra 1) operand fun a =>
    .asr context.width a (.int context.width 1)

def extendSign (context : Context) (operand : Operand) : Emit Unit :=
  context.replaceOperand .sxt operand fun a =>
    .signExtend context.width (.lowPart .byte a)

/-- A value with its two low bytes exchanged; higher bits are cleared. -/
def swappedBytes (width : Width) (value : Expr) : Expr :=
  match width with
  | .address =>
      .zeroExtend .address (.rol .word (.lowPart .word value) (.int .word 8))
  | .byte | .word => .rol .word value (.int .word 8)

def swapBytes (context : Context) (operand : Operand) : Emit Unit := do
  let value := context.read operand
  context.write operand (swappedBytes context.width value)
  Emit.ops (postIncrement operand)

/-- The operand is read before the stack pointer moves, so that pushing the
stack pointer pushes its old value. -/
def pushOperand (context : Context) (operand : Operand) : Emit Unit := do
  let value := context.read operand
  let value <-
    if value.constant?.isSome then
      (return value)
    else
      Emit.save context.width value
  Emit.ops (context.push context.width value)
  Emit.ops (postIncrement operand)

/-!
# Shifts by several bits
-/

def shiftRule (opcode : ShiftOpcode) (count : Nat) : FlagRule :=
  match opcode with
  | .rrcm => .rrc count
  | .rram => .rra count
  | .rlam => .rla count
  | .rrum => .rru count

/-- Rotating through the carry moves the low bits above the carry, which itself
lands above the bits that were shifted right. -/
def shiftExpr (opcode : ShiftOpcode) (width : Width) (count : Nat) (a : Expr) :
    Expr :=
  let amount : Expr := .int width count
  match opcode with
  | .rram => .asr width a amount
  | .rlam => .lsl width a amount
  | .rrum => .lsr width a amount
  | .rrcm =>
      .or width
        (.or width (.lsr width a amount)
          (.lsl width (.ofBool width (.flag .c)) (.int width (width.bits - count))))
        (.lsl width a (.int width (width.bits - count + 1)))

def shift (context : Context) (opcode : ShiftOpcode) (count : Nat)
    (destination : Register) : Emit Unit :=
  context.replaceOperand (shiftRule opcode count) (.register destination)
    (shiftExpr opcode context.width count)

end Context

/-!
# All bodies
-/

/-- The operand that the instruction replaces, if it replaces one. -/
def writtenOperand? : Body Operand -> Option Operand
  | .single opcode target => if opcode.writesOperand then some target else none
  | .double opcode _ destination =>
      if opcode.writesDestination then some destination else none
  | .address opcode _ destination =>
      if opcode.writesDestination then some destination else none
  | .shift _ _ destination => some (.register destination)
  | .reti | .jump _ _ | .calla _ | .multiple _ _ _ => none

/-- Why a body has no code: it writes to a value, or it counts in decimal. -/
def unsupported? (body : Body Operand) : Option Unsupported :=
  if ((writtenOperand? body).map Operand.isValue).getD false then
    some .destinationNotWritable
  else
    match body with
    | .double .dadd _ _ => some .decimalArithmetic
    | _ => none

/-- The flag that an emulated instruction sets or clears and does nothing
else. -/
def flagShortcut? : Emulated -> Option (Flag × Bool)
  | .clrc => some (.c, false)
  | .clrz => some (.z, false)
  | .clrn => some (.n, false)
  | .setc => some (.c, true)
  | .setz => some (.z, true)
  | .setn => some (.n, true)
  | _ => none

namespace Context

def double (context : Context) (opcode : DoubleOpcode)
    (source destination : Operand) : Emit Unit :=
  match opcode with
  | .mov => context.move source destination
  | .add => context.arithmetic .add true source destination
  | .addc => context.arithmetic .addc true source destination
  | .sub => context.arithmetic .sub true source destination
  | .subc => context.arithmetic .subc true source destination
  | .cmp => context.arithmetic .sub false source destination
  | .and => context.arithmetic .and true source destination
  | .bit => context.arithmetic .and false source destination
  | .xor => context.arithmetic .xor true source destination
  | .bic => context.clearBits source destination
  | .bis => context.setBits source destination
  | .dadd => Emit.op .unimplemented

def addressArithmetic (context : Context) (opcode : AddressOpcode)
    (source destination : Operand) : Emit Unit :=
  match opcode with
  | .mova => context.move source destination
  | .adda => context.arithmetic .add true source destination
  | .suba => context.arithmetic .sub true source destination
  | .cmpa => context.arithmetic .sub false source destination

def single (context : Context) (opcode : SingleOpcode) (operand : Operand) :
    Emit Unit :=
  match opcode with
  | .rrc => context.rotateRight operand
  | .rra => context.shiftRight operand
  | .swpb => context.swapBytes operand
  | .sxt => context.extendSign operand
  | .push => context.pushOperand operand
  | .call => context.call operand

def body (context : Context) : Body Operand -> Emit Unit
  | .reti => context.reti
  | .jump condition offset => context.jump condition offset
  | .single opcode target => context.single opcode target
  | .double opcode source destination => context.double opcode source destination
  | .calla target => context.call target
  | .address opcode source destination =>
      context.addressArithmetic opcode source destination
  | .multiple .pushm count highest => Emit.ops (context.pushRange count highest)
  | .multiple .popm count highest => Emit.ops (context.popRange count highest)
  | .shift opcode count destination => context.shift opcode count destination

/-- One run of an instruction: a few emulated instructions have code of their
own, the others that of their body. -/
def run (context : Context) (inst : Instruction) : Emit Unit :=
  if (unsupported? inst.body).isSome then
    Emit.op .unimplemented
  else
    match inst.emulated? with
    | some .ret => context.ret .word
    | some .reta => context.ret .address
    | some .nop => Emit.op .nop
    | some emulated =>
        match flagShortcut? emulated with
        | some (flag, value) => Emit.op (.setFlag flag (.bool value))
        | none => context.body inst.body
    | none => context.body inst.body

end Context

end Lift
end MSP430
