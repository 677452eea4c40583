import WordMachine.CommandLine.Session
import WordMachine.Main
import WordMachine.Template
import WordMachine.Trace
import WordMachine.Proofs.Source.Listing
import WordMachine.Proofs.Source.Names
import WordMachine.Proofs.Source.Generated
import WordMachine.Proofs.Source.Layout
import WordMachine.Proofs.Source.Assembles
import WordMachine.Proofs.Machine.Decode
import WordMachine.Proofs.Source.Linked
import WordMachine.Proofs.Source.Control
import WordMachine.Proofs.Source.Meaning
import WordMachine.Proofs.Machine.Memory
import WordMachine.Proofs.Source.Blocks
import WordMachine.Proofs.Source.WordCode
import WordMachine.Proofs.Source.Statements
import WordMachine.Proofs.Source.StraightLine
import WordMachine.Proofs.Source.Depth
import WordMachine.Proofs.Machine.Fault
import WordMachine.Proofs.Machine.Invariant
import WordMachine.Proofs.Assembly.Lines
import WordMachine.Proofs.Assembly.Disassembly
import WordMachine.Proofs.Assembly.Resolution
import WordMachine.Proofs.Source.Allocation
import WordMachine.Proofs.Source.Structure
import WordMachine.Proofs.Source.Targets
import WordMachine.Proofs.Source.Height
import WordMachine.Proofs.Source.Checked
import WordMachine.Proofs.Source.Inclusion
import WordMachine.Proofs.Source.StringData
import WordMachine.Proofs.Include
import WordMachine.Proofs.Printing
import WordMachine.Proofs.LineNumbers
import WordMachine.Proofs.Machine.Reload
import WordMachine.Proofs.Buffering
import WordMachine.Proofs.Assembly.Phrases
import WordMachine.Proofs.Assembly.Literals
import WordMachine.Proofs.Machine.Codec
import WordMachine.Proofs.Machine.Access
import WordMachine.Proofs.Machine.Effect
import WordMachine.Proofs.StringLiterals
import WordMachine.Proofs.ConsoleLines
import WordMachine.Proofs.Machine.Sweep
import WordMachine.Proofs.Machine.Strings
import WordMachine.Proofs.Machine.StoredFiles
