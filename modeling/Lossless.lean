import Lossless.Text.Alphabetic
import Lossless.Text.Blank
import Lossless.Text.Lines
import Lossless.Text.Numeric
import Lossless.Text.Place
import Lossless.Text.Quoted
import Lossless.Number.Shortest
import Lossless.Json.Basic
import Lossless.Json.Reader
import Lossless.Token.Lexer
import Lossless.Ast.Equality
import Lossless.Ast.Estree
import Lossless.Ast.Json
import Lossless.Program.Statement
import Lossless.Report.SourceFile
import Lossless.Grammar.Shape
import Lossless.Extras.Basic
import Lossless.Schedule.Neighbours
import Lossless.Cst.Outline
import Lossless.Cst.Strip
import Lossless.Schema.LabelTable
import Lossless.Cst.Build
import Lossless.Cst.Source
import Lossless.Cst.Records
import Lossless.Report.Window
import Lossless.Report.Diagnostic
import Lossless.Report.RoundTrip
import Lossless.Main
import Lossless.Proofs.RoundTrip
import Lossless.Proofs.Configuration
import Lossless.Proofs.Rebuilding
import Lossless.Proofs.Restoring
import Lossless.Proofs.Crossing
import Lossless.Proofs.Transcripts
import Lossless.Proofs.Enclosing
import Lossless.Proofs.Listing
import Lossless.Proofs.Conservation
import Lossless.Proofs.Keeping
import Lossless.Proofs.Places
import Lossless.Proofs.Respacing
import Lossless.Proofs.Roles
import Lossless.Proofs.Decoding
import Lossless.Proofs.Hexadecimal
import Lossless.Proofs.Interchange
import Lossless.Proofs.Traversals
import Lossless.Proofs.Undeclared
import Lossless.Proofs.Stripping
import Lossless.Proofs.Outline
import Lossless.Proofs.Copies
import Lossless.Proofs.Lifting
import Lossless.Proofs.Readings
import Lossless.Proofs.Locality
import Lossless.Proofs.History
import Lossless.Proofs.Adjacency
import Lossless.Proofs.Loop
import Lossless.Proofs.Openings
import Lossless.Proofs.Unrolling
import Lossless.Proofs.Counters
