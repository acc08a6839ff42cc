import MSP430.Architecture
import MSP430.IL.Machine
import MSP430.Proofs.Decode.Injective
import MSP430.Proofs.Decode.PrefixCode
import MSP430.Proofs.Decode.Steps
import MSP430.Proofs.Lift.Branches
import MSP430.Proofs.Lift.Comparison
import MSP430.Proofs.Lift.StatusWrite
import MSP430.Proofs.Lift.StoredStatus
import MSP430.Proofs.Lift.Registers
import MSP430.Proofs.Lift.Coherence
import MSP430.Proofs.Lift.AutoIncrement
import MSP430.Proofs.Lift.Pop
import MSP430.Proofs.Lift.PushRange
import MSP430.Proofs.Lift.Unstored
import MSP430.Proofs.Decode.Variant
import MSP430.Proofs.Decode.Relocation
import MSP430.Proofs.Lift.Repetition
import MSP430.Proofs.Lift.KnownLabels
import MSP430.Proofs.Lift.Shift
import MSP430.Proofs.Lift.Typed
import MSP430.Proofs.Lift.Labels
import MSP430.Proofs.Lift.Unimplemented
import MSP430.Proofs.Lift.RestoredRange
import MSP430.Proofs.Lift.SavedStatus
import MSP430.Proofs.Lift.NamedAddresses
import MSP430.Proofs.Lift.Answers
import MSP430.Proofs.FlagRule.Exact
import MSP430.Proofs.FlagRule.Mirror
import MSP430.Proofs.Lift.Replaced
import MSP430.Proofs.Lift.Flags
import MSP430.Proofs.Lift.Overwritten
import MSP430.Proofs.Lift.Frame
import MSP430.Proofs.Lift.Combined
import MSP430.Proofs.Lift.AccessCount
import MSP430.Proofs.Lift.ProgramCounter
import MSP430.Proofs.Decode.Resolve
import MSP430.Proofs.FlagRule.Composition
import MSP430.Proofs.Text
import MSP430.Proofs.Decode.WellFormed
import MSP430.Proofs.Lift.Temporaries
import MSP430.Proofs.Checked.NoFault
