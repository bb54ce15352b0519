import Descent.CommandLine
import Descent.Diagnostic.Basic
import Descent.Diagnostic.Expectation
import Descent.Diagnostic.Lexical
import Descent.Diagnostic.Syntactic
import Descent.Grammar
import Descent.Input
import Descent.Json.Basic
import Descent.Json.Text
import Descent.Main
import Descent.Parse
import Descent.Parser.Basic
import Descent.Parser.Choice
import Descent.Parser.Repeat
import Descent.Proofs.CommandLine
import Descent.Proofs.Diagnostic.Folding
import Descent.Proofs.Diagnostic.Joining
import Descent.Proofs.Json.Numbers
import Descent.Proofs.Json.Reading
import Descent.Proofs.Json.Strings
import Descent.Proofs.Language.Automaton
import Descent.Proofs.Language.Derivation
import Descent.Proofs.Language.Production
import Descent.Proofs.Language.Reading
import Descent.Proofs.Navigation
import Descent.Proofs.Parser.Acceptance
import Descent.Proofs.Parser.Agreement
import Descent.Proofs.Parser.Alike
import Descent.Proofs.Parser.Beginning
import Descent.Proofs.Parser.Blame
import Descent.Proofs.Parser.Branches
import Descent.Proofs.Parser.Coherence
import Descent.Proofs.Parser.Completeness
import Descent.Proofs.Parser.Concatenation
import Descent.Proofs.Parser.Course
import Descent.Proofs.Parser.Deepest
import Descent.Proofs.Parser.Depth
import Descent.Proofs.Parser.Diagnosis
import Descent.Proofs.Parser.Excess
import Descent.Proofs.Parser.Forward
import Descent.Proofs.Parser.Grouping
import Descent.Proofs.Parser.Horizon
import Descent.Proofs.Parser.Indifference
import Descent.Proofs.Parser.Layout
import Descent.Proofs.Parser.Limits
import Descent.Proofs.Parser.Matches
import Descent.Proofs.Parser.Naturality
import Descent.Proofs.Parser.Origin
import Descent.Proofs.Parser.Outvoted
import Descent.Proofs.Parser.Passage
import Descent.Proofs.Parser.Predictive
import Descent.Proofs.Parser.Recursion
import Descent.Proofs.Parser.Repetition
import Descent.Proofs.Parser.Rereading
import Descent.Proofs.Parser.Separation
import Descent.Proofs.Parser.Soundness
import Descent.Proofs.Parser.Termination
import Descent.Proofs.Parser.Tracking
import Descent.Proofs.Parser.ViablePrefix
import Descent.Proofs.Settings
import Descent.Proofs.Source.Movement
import Descent.Proofs.Token.Concatenation
import Descent.Proofs.Token.Cutting
import Descent.Proofs.Token.Gaps
import Descent.Proofs.Token.Locality
import Descent.Proofs.Token.LongestMatch
import Descent.Proofs.Token.Matching
import Descent.Proofs.Token.Munch
import Descent.Proofs.Token.Partition
import Descent.Proofs.Token.Pieces
import Descent.Proofs.Token.Slices
import Descent.Proofs.Tree.Erasure
import Descent.Proofs.Tree.Nodes
import Descent.Proofs.Tree.Printable
import Descent.Proofs.Tree.Relocation
import Descent.Proofs.Tree.RoundTrip
import Descent.Proofs.Tree.Spans
import Descent.Rule
import Descent.Settings.Basic
import Descent.Settings.Json
import Descent.Source.Caret
import Descent.Source.Position
import Descent.Text.Decimal
import Descent.Text.Quoted
import Descent.Token.Basic
import Descent.Token.Pattern
import Descent.Token.Scan
import Descent.Tree.Basic
import Descent.Tree.Pretty
import Descent.Unicode.DefaultIgnorable
import Descent.Unicode.GraphemeExtend
import Descent.Unicode.Invisible
import Descent.Unicode.Ranges
import Descent.Unicode.WhiteSpace
