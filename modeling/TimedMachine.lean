import TimedMachine.Text.Blank
import TimedMachine.Number.Literal
import TimedMachine.Crc32c
import TimedMachine.Token.Basic
import TimedMachine.Token.Read
import TimedMachine.Machine.Json
import TimedMachine.Machine.OfToken
import TimedMachine.Naming
import TimedMachine.Explore.Report
import TimedMachine.Settings.Environment
import TimedMachine.Checker
import TimedMachine.Settings.OfYaml
import TimedMachine.Proofs.Checker.FrontEnds
import TimedMachine.Proofs.Machine.Accepts
import TimedMachine.Proofs.Run.Exits
import TimedMachine.Proofs.Run.History
import TimedMachine.Proofs.Search.Plain
import TimedMachine.Proofs.Report.Verdicts
import TimedMachine.Proofs.Machine.Repeats
import TimedMachine.Proofs.Naming.Conflicts
import TimedMachine.Proofs.Naming.Signatures
import TimedMachine.Proofs.Token.Order
import TimedMachine.Proofs.Machine.Order
import TimedMachine.Proofs.Run.Order
import TimedMachine.Proofs.Report.Order
import TimedMachine.Proofs.Report.Rebuilt
import TimedMachine.Proofs.Token.Paths
import TimedMachine.Proofs.Machine.Parts
import TimedMachine.Proofs.Read.Options
import TimedMachine.Proofs.Read.Marks
import TimedMachine.Proofs.Machine.Text
import TimedMachine.Proofs.Checker.Passes
import TimedMachine.Proofs.Machine.Places
import TimedMachine.Proofs.Machine.Respelled
import TimedMachine.Proofs.Report.Unentered
import TimedMachine.Proofs.Settings.Saved
import TimedMachine.Proofs.Machine.Delays
import TimedMachine.Proofs.Search.Stages
import TimedMachine.Proofs.Search.Sets
