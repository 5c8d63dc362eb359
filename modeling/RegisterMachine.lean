import RegisterMachine.Factorial
import RegisterMachine.Main
import RegisterMachine.Proofs.Disassembly
import RegisterMachine.Proofs.Extension
import RegisterMachine.Proofs.Flags
import RegisterMachine.Proofs.LetterCase
import RegisterMachine.Proofs.Resolution
import RegisterMachine.Proofs.Safety
import RegisterMachine.Proofs.Stack
import RegisterMachine.Proofs.Layout
import RegisterMachine.Proofs.Depth
import RegisterMachine.Proofs.Confinement
import RegisterMachine.Proofs.Refusal
import RegisterMachine.Proofs.Footprint
import RegisterMachine.Proofs.Saturation
import RegisterMachine.Proofs.Budget
import RegisterMachine.Proofs.CommandLine
import RegisterMachine.Proofs.AddressingMode
import RegisterMachine.Proofs.Arrangement
import RegisterMachine.Proofs.Transfer
import RegisterMachine.Proofs.Addition
import RegisterMachine.Proofs.Decoding
import RegisterMachine.Proofs.AssemblyLog
import RegisterMachine.Proofs.StepLog
import RegisterMachine.Proofs.Access
