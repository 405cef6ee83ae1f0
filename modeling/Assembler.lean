import Assembler.Text.Blank
import Assembler.Text.Digits
import Assembler.Text.Utf8
import Assembler.Text.Quoted
import Assembler.Text.Lines
import Assembler.Source.Cursor
import Assembler.Log.Event
import Assembler.Token
import Assembler.Token.Lexer
import Assembler.Token.Stream
import Assembler.Diagnostic
import Assembler.Node
import Assembler.Session.Family
import Assembler.Program
import Assembler.Workspace
import Assembler.Program.Parser
import Assembler.Program.Resolution
import Assembler.Bytecode.Instruction
import Assembler.Bytecode.Chunk
import Assembler.Bytecode.Listing
import Assembler.Bytecode.Emission
import Assembler.Json.Reader
import Assembler.Project
import Assembler.Report
import Assembler.Command.Run
import Assembler.Main
import Assembler.Proofs.Prior
import Assembler.Proofs.Arena
import Assembler.Proofs.Stages
import Assembler.Proofs.Formed
import Assembler.Proofs.Recovery
import Assembler.Proofs.Resolved
import Assembler.Proofs.PlainCode
import Assembler.Proofs.Emitted
import Assembler.Proofs.Assembled
import Assembler.Proofs.Characters
import Assembler.Proofs.Decoded
import Assembler.Proofs.Defined
import Assembler.Proofs.Spelling
import Assembler.Proofs.Grammar
import Assembler.Proofs.Bindings
import Assembler.Proofs.WellFormed
import Assembler.Proofs.Faults
import Assembler.Proofs.Parsed
import Assembler.Proofs.Bodies
import Assembler.Proofs.Tiling
import Assembler.Proofs.Clauses
import Assembler.Proofs.Relabelled
import Assembler.Proofs.Meaning
import Assembler.Proofs.Reordering
import Assembler.Proofs.Printed
import Assembler.Proofs.Dumped
import Assembler.Proofs.Known
import Assembler.Proofs.Denotation
import Assembler.Proofs.Substitution
import Assembler.Proofs.Families
import Assembler.Proofs.Stepping
import Assembler.Proofs.WriteOnce
import Assembler.Proofs.Emittable
import Assembler.Proofs.Interpolations
import Assembler.Proofs.Evaluations
import Assembler.Proofs.Excerpts
import Assembler.Proofs.Located
import Assembler.Proofs.LineTables
import Assembler.Proofs.Rounds
import Assembler.Proofs.Searches
import Assembler.Proofs.Offsets
import Assembler.Proofs.NodeLines
import Assembler.Proofs.LineFeeds
import Assembler.Proofs.OneLine
import Assembler.Proofs.Messages
import Assembler.Proofs.Renderings
import Assembler.Proofs.Literals
import Assembler.Proofs.Operands
import Assembler.Proofs.Numerals
import Assembler.Proofs.Reanalysis
import Assembler.Proofs.Absorptions
import Assembler.Proofs.Values
import Assembler.Proofs.Copies
import Assembler.Proofs.Phases
import Assembler.Proofs.Extents
import Assembler.Proofs.Files
import Assembler.Proofs.Runs
import Assembler.Proofs.DefaultOutput
import Assembler.Proofs.Streams
