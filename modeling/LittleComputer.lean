import LittleComputer.Console.Script
import LittleComputer.Machine.Step
import LittleComputer.Main
import LittleComputer.Terminal.Key
import LittleComputer.Terminal.Writer
import LittleComputer.Proofs.InstructionTable
import LittleComputer.Proofs.Strings
import LittleComputer.Proofs.Exchange
import LittleComputer.Proofs.StringOutput
import LittleComputer.Proofs.AtomicStep
import LittleComputer.Proofs.World
import LittleComputer.Proofs.Attempt
import LittleComputer.Proofs.InputConservation
import LittleComputer.Proofs.Access
import LittleComputer.Proofs.KeyboardLatch
import LittleComputer.Proofs.Agreement
import LittleComputer.Proofs.Solo
import LittleComputer.Proofs.ScheduleIndependence
import LittleComputer.Proofs.StepCall
import LittleComputer.Proofs.IteratedSteps
import LittleComputer.Proofs.FailedStep
import LittleComputer.Proofs.PlainStep
import LittleComputer.Proofs.ConcurrentRuns
import LittleComputer.Proofs.Moves
import LittleComputer.Proofs.OutputDelivery
import LittleComputer.Proofs.Cancellation
import LittleComputer.Proofs.OutputTraps
import LittleComputer.Proofs.Tokens
import LittleComputer.Proofs.StopCalls
import LittleComputer.Proofs.EndOfInput
import LittleComputer.Proofs.Descent
import LittleComputer.Proofs.FairRun
import LittleComputer.Proofs.Process
import LittleComputer.Proofs.ProgramRun
import LittleComputer.Proofs.InstructionCycle
import LittleComputer.Proofs.KeyAcknowledgement
import LittleComputer.Proofs.ConditionCodes
import LittleComputer.Proofs.ImageFormat
import LittleComputer.Proofs.Assembly
import LittleComputer.Proofs.BackoffDelays
import LittleComputer.Proofs.InputForwarding
