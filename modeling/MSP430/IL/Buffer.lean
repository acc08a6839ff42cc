import MSP430.IL.Emit

/-!
# Code buffers

A buffer collects the operations of one lifting pass.  Its owner may name
addresses that belong to the code being lifted; each gets a label, and branches
to them stay inside the buffer.  Temporaries are local to an instruction, so
their numbers start again with each one, while label numbers never do.
-/

namespace MSP430
namespace IL

/-- Addresses that have labels: the label of an address is its position in the
list.  Of an address that stands there more than once, the last position
counts. -/
abbrev KnownLabels : Type :=
  List UInt64

namespace KnownLabels

def labelFrom? (first : Label) (known : KnownLabels) (address : UInt64) :
    Option Label :=
  match known with
  | [] => none
  | head :: rest =>
      match labelFrom? (first + 1) rest address with
      | some label => some label
      | none => if head = address then some first else none

def label? (known : KnownLabels) (address : UInt64) : Option Label :=
  labelFrom? 0 known address

end KnownLabels

structure Buffer where
  /-- The address of the instruction being lifted. -/
  address : UInt64
  ops : List Op
  known : KnownLabels
  supply : Supply
  deriving DecidableEq, Repr

namespace Buffer

/-- An empty buffer that has labels for the given addresses. -/
def withLabels (address : UInt64) (known : KnownLabels) : Buffer where
  address := address
  ops := []
  known := known
  supply := { temp := 0, label := known.length }

def empty (address : UInt64) : Buffer :=
  withLabels address []

def size (buffer : Buffer) : Nat :=
  buffer.ops.length

def isEmpty (buffer : Buffer) : Bool :=
  buffer.ops.isEmpty

/-- Moves to another instruction, which has temporaries of its own. -/
def moveTo (buffer : Buffer) (address : UInt64) : Buffer :=
  { buffer with
    address := address
    supply := { buffer.supply with temp := 0 } }

def label? (buffer : Buffer) (address : UInt64) : Option Label :=
  buffer.known.label? address

/-- Appends what an emission emits, and returns its result. -/
def run {value : Type} (buffer : Buffer) (emit : Emit value) : value × Buffer :=
  let emission := emit buffer.supply
  (emission.result,
    { buffer with
      ops := buffer.ops ++ emission.code
      supply := emission.supply })

def append (buffer : Buffer) (op : Op) : Buffer :=
  (buffer.run (Emit.op op)).2

def markLabel (buffer : Buffer) (label : Label) : Buffer :=
  buffer.append (.label label)

end Buffer

end IL
end MSP430
