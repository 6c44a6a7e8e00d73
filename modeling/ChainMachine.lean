import ChainMachine.Chain.Lemmas
import ChainMachine.CommandLine.Folder
import ChainMachine.Main
import ChainMachine.Script.Word.Lemmas
import ChainMachine.Text.Numeral.Lemmas
import ChainMachine.Text.Utf8.Lemmas
import ChainMachine.Proofs.Contents
import ChainMachine.Proofs.Operations
import ChainMachine.Proofs.Handlers
import ChainMachine.Proofs.WellLinked
import ChainMachine.Proofs.Words
import ChainMachine.Proofs.Lines
import ChainMachine.Proofs.Execution
import ChainMachine.Proofs.Reference
import ChainMachine.Proofs.Step
import ChainMachine.Proofs.Output
import ChainMachine.Proofs.Stepping
import ChainMachine.Proofs.Composition
import ChainMachine.Proofs.Atomicity
import ChainMachine.Proofs.Decoding
import ChainMachine.Proofs.Effects
import ChainMachine.Proofs.History
import ChainMachine.Proofs.Interruption
import ChainMachine.Proofs.Counting
import ChainMachine.Proofs.Ending
import ChainMachine.Proofs.Truncation
import ChainMachine.Proofs.Depth
import ChainMachine.Proofs.Modes
import ChainMachine.Proofs.InitialMode
import ChainMachine.Proofs.StackOnly
import ChainMachine.Proofs.Sessions
import ChainMachine.Proofs.PopOrder
import ChainMachine.Proofs.ByteWords
import ChainMachine.Proofs.Spelling
import ChainMachine.Proofs.Filling
import ChainMachine.Proofs.ReadBack
import ChainMachine.Proofs.Numerals
import ChainMachine.Proofs.Failures
import ChainMachine.Proofs.Messages
import ChainMachine.Proofs.Requests
import ChainMachine.Proofs.Arithmetic
import ChainMachine.Proofs.Turning
import ChainMachine.Proofs.Reduction
import ChainMachine.Proofs.Scanning
import ChainMachine.Proofs.Operands
import ChainMachine.Proofs.Characters
import ChainMachine.Proofs.Registration
import ChainMachine.Proofs.Surplus
import ChainMachine.Proofs.Growth
