import TrieLexer.Text.Bytes
import TrieLexer.Text.CodePoints
import TrieLexer.Text.Alphabetic
import TrieLexer.Text.Numeric
import TrieLexer.Text.GraphemeExtend
import TrieLexer.Text.Unprintable
import TrieLexer.Text.Blank
import TrieLexer.Token
import TrieLexer.Grammar.CharClass
import TrieLexer.Grammar.Definition
import TrieLexer.Grammar.Labels
import TrieLexer.Grammar.Basic
import TrieLexer.Text.Quoted
import TrieLexer.Text.Column
import TrieLexer.Token.Listing
import TrieLexer.Grammar.Role
import TrieLexer.Decimal.Binary64
import TrieLexer.Decimal.Shortest
import TrieLexer.Json.Number
import TrieLexer.Json.StringLiteral
import TrieLexer.Json.Document
import TrieLexer.Json.Problem
import TrieLexer.Json.Decoding
import TrieLexer.Json.Value
import TrieLexer.Grammar.Error
import TrieLexer.Grammar.Validation
import TrieLexer.Trie
import TrieLexer.Automaton.Basic
import TrieLexer.Automaton.Draft
import TrieLexer.Automaton.Assembly
import TrieLexer.Text.Span
import TrieLexer.Scanner.Progress
import TrieLexer.Scanner.Stepping
import TrieLexer.Scanner.Basic
import TrieLexer.Scanner.Transducer
import TrieLexer.Grammar.Preset
import TrieLexer.Grammar.FlagText
import TrieLexer.Grammar.Document
import TrieLexer.Text.Hexadecimal
import TrieLexer.Grammar.Writing
import TrieLexer.Token.Document
import TrieLexer.Text.Utf8
import TrieLexer.Stream.TokenReader
import TrieLexer.Stream.TokenQueue
import TrieLexer.CommandLine.FileSystem
import TrieLexer.CommandLine.Options
import TrieLexer.CommandLine.Place
import TrieLexer.CommandLine.Run
import TrieLexer.Main
import TrieLexer.Proofs.Lexeme
import TrieLexer.Proofs.Reading
import TrieLexer.Proofs.Locus
import TrieLexer.Proofs.Chart
import TrieLexer.Proofs.Footing
import TrieLexer.Proofs.Window
import TrieLexer.Proofs.Arena
import TrieLexer.Proofs.Pruning
import TrieLexer.Proofs.Drafting
import TrieLexer.Proofs.Yielding
import TrieLexer.Proofs.Construction
import TrieLexer.Proofs.Completion
import TrieLexer.Proofs.Compiled
import TrieLexer.Proofs.Chunking
import TrieLexer.Proofs.Interiors
import TrieLexer.Proofs.Fidelity
import TrieLexer.Proofs.Spelling
import TrieLexer.Proofs.Safety
import TrieLexer.Proofs.Decoding
import TrieLexer.Proofs.Streaming
import TrieLexer.Proofs.Endings
import TrieLexer.Proofs.Lossless
import TrieLexer.Proofs.Forgetting
import TrieLexer.Proofs.Mirroring
import TrieLexer.Proofs.Lockstep
import TrieLexer.Proofs.Nesting
import TrieLexer.Proofs.Renewal
import TrieLexer.Proofs.Backlog
import TrieLexer.Proofs.Sparing
import TrieLexer.Proofs.Survey
import TrieLexer.Proofs.Naming
import TrieLexer.Proofs.Plain
import TrieLexer.Proofs.Clearing
import TrieLexer.Proofs.Resumption
import TrieLexer.Proofs.Rewinding
import TrieLexer.Proofs.Subtrees
import TrieLexer.Proofs.Vocabulary
import TrieLexer.Proofs.Wordless
import TrieLexer.Proofs.Relabelling
import TrieLexer.Proofs.Transduction
import TrieLexer.Proofs.Policies
import TrieLexer.Proofs.Refusal
import TrieLexer.Proofs.Concord
import TrieLexer.Proofs.Rereading
import TrieLexer.Proofs.Rearranging
import TrieLexer.Proofs.RoundTrip
import TrieLexer.Proofs.Lines
import TrieLexer.Proofs.Forests
import TrieLexer.Proofs.Bodies
import TrieLexer.Proofs.Seeking
import TrieLexer.Proofs.Terminating
import TrieLexer.Proofs.Escaping
import TrieLexer.Proofs.Numerals
import TrieLexer.Proofs.Reckoning
import TrieLexer.Proofs.Marks
import TrieLexer.Proofs.Munching
import TrieLexer.Proofs.Seals
import TrieLexer.Proofs.Signposts
import TrieLexer.Proofs.Stopping
import TrieLexer.Proofs.Sources
import TrieLexer.Proofs.Figuring
import TrieLexer.Proofs.Reporting
import TrieLexer.Proofs.Muting
import TrieLexer.Proofs.Unnamed
import TrieLexer.Proofs.Arguments
import TrieLexer.Proofs.Coordinates
import TrieLexer.Proofs.Truthful
import TrieLexer.Proofs.Claims
import TrieLexer.Proofs.WellFormed
import TrieLexer.Proofs.Retracing
import TrieLexer.Proofs.Coinciding
import TrieLexer.Proofs.Lagging
