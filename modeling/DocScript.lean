import DocScript.Host.Literal
import DocScript.Program.Printer
import DocScript.Proofs.Grammar.Progress
import DocScript.Proofs.Grammar.Placement
import DocScript.Proofs.Run.Restoration
import DocScript.Proofs.Run.Unwinding
import DocScript.Proofs.Run.Termination
import DocScript.Proofs.Run.Growth
import DocScript.Proofs.Run.Course
import DocScript.Proofs.Run.Descent
import DocScript.Proofs.Run.Monotone
import DocScript.Proofs.Run.Sealed
import DocScript.Proofs.Run.Lists
import DocScript.Proofs.Run.Lexical
import DocScript.Proofs.Scoping
import DocScript.Proofs.Grammar.Records
import DocScript.Proofs.Grammar.Scoping
import DocScript.Proofs.BadStatements
import DocScript.Proofs.Grammar.Accounts
import DocScript.Proofs.Token.Lines
import DocScript.Proofs.Token.Scanner
import DocScript.Proofs.Number.Encoding
import DocScript.Proofs.Number.Reading
import DocScript.Proofs.Number.Shortest
import DocScript.Proofs.Number.Text
import DocScript.Proofs.Print.Outline
import DocScript.Proofs.Print.Kinds
import DocScript.Proofs.Print.Positions
import DocScript.Proofs.Print.Expressions
import DocScript.Proofs.Print.Layout
import DocScript.Proofs.Print.Lines
import DocScript.Proofs.Print.RoundTrip
import DocScript.Proofs.Number.Sign
import DocScript.Proofs.Run.Tidy
import DocScript.Proofs.Grammar.Advance
import DocScript.Proofs.Grammar.Blocks
import DocScript.Proofs.Token.Lossless
import DocScript.Proofs.Token.LineFeed
import DocScript.Proofs.Token.BlankLines
import DocScript.Proofs.Data.Content
import DocScript.Proofs.Data.Reading
import DocScript.Proofs.Number.Equality
import DocScript.Proofs.Data.Keys
import DocScript.Proofs.Run.Globals
import DocScript.Proofs.Token.CarriageReturn
import DocScript.Proofs.Grammar.Sources
import DocScript.Proofs.Token.Joined
import DocScript.Proofs.Grammar.Abreast
import DocScript.Proofs.Grammar.Continuation
import DocScript.Proofs.Concatenation
import DocScript.Proofs.Grammar.Fuel
import DocScript.Proofs.Grammar.Levels
import DocScript.Proofs.Grammar.Order
import DocScript.Proofs.Grammar.Spans
import DocScript.Proofs.Positions
import DocScript.Proofs.Print.Standalone
import DocScript.Proofs.Token.Reindented
import DocScript.Proofs.Token.Continued
import DocScript.Proofs.Number.Counts
import DocScript.Proofs.Data.Sequences
import DocScript.Proofs.Number.Order
import DocScript.Proofs.Rendering
import DocScript.Proofs.Run.Assignment
import DocScript.Proofs.Text.Bytes
import DocScript.Proofs.Data.Maps
import DocScript.Proofs.Data.Iteration
import DocScript.Proofs.Run.CallFree
import DocScript.Proofs.Token.Complaints
import DocScript.Proofs.Number.Nearest
import DocScript.Proofs.Token.Numerals
import DocScript.Proofs.Collecting
import DocScript.Proofs.Run.Methods
