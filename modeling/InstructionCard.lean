import InstructionCard.Frame.Log
import InstructionCard.Machine.Run
import InstructionCard.Reader.Card
import InstructionCard.Reader.Script
import InstructionCard.Proofs.Code.Duality
import InstructionCard.Proofs.Code.Separation
import InstructionCard.Proofs.Code.Linear
import InstructionCard.Proofs.Code.Agreement
import InstructionCard.Proofs.Machine.Exact
import InstructionCard.Proofs.Machine.Atomic
import InstructionCard.Proofs.Machine.FaultTable
import InstructionCard.Proofs.Machine.Capacity
import InstructionCard.Proofs.Machine.Speech
import InstructionCard.Proofs.Machine.Overflow
import InstructionCard.Proofs.Reader.Fidelity
import InstructionCard.Proofs.Reader.FirstSuccess
import InstructionCard.Proofs.Reader.RowByRow
import InstructionCard.Proofs.Reader.Explained
import InstructionCard.Proofs.Wire.Lawful
import InstructionCard.Proofs.Frame.Decode
import InstructionCard.Proofs.Frame.Torn
import InstructionCard.Proofs.Frame.InPlace
import InstructionCard.Proofs.Frame.Stream
import InstructionCard.Proofs.Frame.Log
import InstructionCard.Proofs.Frame.Size
import InstructionCard.Proofs.Frame.Normal
import InstructionCard.Proofs.Reader.Logged
