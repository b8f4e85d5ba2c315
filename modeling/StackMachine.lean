import StackMachine.Assembly.Unchecked
import StackMachine.Main
import StackMachine.Proofs.Arithmetic
import StackMachine.Proofs.Assembly.Canonical
import StackMachine.Proofs.Assembly.Labels
import StackMachine.Proofs.Assembly.Locality
import StackMachine.Proofs.Assembly.Marks
import StackMachine.Proofs.Assembly.Operations
import StackMachine.Proofs.Assembly.ReadingBack
import StackMachine.Proofs.Configuration
import StackMachine.Proofs.Machine.Leaving
import StackMachine.Proofs.Machine.Lockstep
import StackMachine.Proofs.Machine.Operands
import StackMachine.Proofs.Machine.Soundness
import StackMachine.Proofs.Machine.Table
import StackMachine.Proofs.Source.Desugaring
import StackMachine.Proofs.Source.Discipline
import StackMachine.Proofs.Source.Jumps
import StackMachine.Proofs.Source.Offences
import StackMachine.Proofs.Source.Renaming
import StackMachine.Proofs.Source.Termination
import StackMachine.Source.Walk
import StackMachine.Proofs.Trace.Accounting
import StackMachine.Proofs.Json.Words
import StackMachine.Proofs.Text.Utf8
import StackMachine.Proofs.Command.Runs
import StackMachine.Proofs.Files.Store
import StackMachine.Proofs.Command.Checking
import StackMachine.Proofs.Command.Agreement
import StackMachine.Proofs.Command.Formatting
import StackMachine.Proofs.Source.Visiting
import StackMachine.Proofs.Json.Diagnostics
import StackMachine.Proofs.Trace.Runs
