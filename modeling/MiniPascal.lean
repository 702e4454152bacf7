import MiniPascal.Source.Position
import MiniPascal.Number.Binary64
import MiniPascal.Number.Rounding
import MiniPascal.Number.Decimal
import MiniPascal.Number.RealStyle
import MiniPascal.Number.Integer
import MiniPascal.Token.Basic
import MiniPascal.Token.Recogniser
import MiniPascal.Token.Scanner
import MiniPascal.Token.Feed
import MiniPascal.Tree.Basic
import MiniPascal.Tree.Printer
import MiniPascal.Grammar.Rule
import MiniPascal.Grammar.Parse
import MiniPascal.Grammar.Expression
import MiniPascal.Grammar.Program
import MiniPascal.OrderedMap
import MiniPascal.Run.Value
import MiniPascal.Run.Session
import MiniPascal.Scope.Table
import MiniPascal.Scope.Check
import MiniPascal.Interpretation
import MiniPascal.Report
import MiniPascal.Command
import MiniPascal.Main
import MiniPascal.Proofs.Token.Offer
import MiniPascal.Proofs.Token.MaximalMunch
import MiniPascal.Proofs.Grammar.Derivation
import MiniPascal.Proofs.Grammar.ExpressionReading
import MiniPascal.Proofs.Grammar.ProgramReading
import MiniPascal.Proofs.Grammar.Recognition
import MiniPascal.Proofs.Number.ReadBack
import MiniPascal.Proofs.Token.Lexing
import MiniPascal.Proofs.Printing.WellFormed
import MiniPascal.Proofs.Printing.Derived
import MiniPascal.Proofs.Printing.Lexed
import MiniPascal.Proofs.Printing.Parsed
import MiniPascal.Proofs.Printing.RoundTrip
import MiniPascal.Proofs.Source.Place
import MiniPascal.Proofs.Token.Placement
import MiniPascal.Proofs.Scope.Environment
import MiniPascal.Proofs.Scope.Lexical
import MiniPascal.Proofs.Run.Fold
import MiniPascal.Proofs.Run.Performed
import MiniPascal.Proofs.Grammar.Sentences
import MiniPascal.Proofs.Grammar.Composition
import MiniPascal.Proofs.Grammar.Locality
import MiniPascal.Proofs.Grammar.ViablePrefix
import MiniPascal.Proofs.Grammar.Acceptance
import MiniPascal.Proofs.Grammar.Pinpointing
import MiniPascal.Proofs.Token.Fetching
import MiniPascal.Proofs.Grammar.Lookahead
import MiniPascal.Proofs.Run.Operations
import MiniPascal.Proofs.Run.Declared
import MiniPascal.Proofs.Run.Trail
import MiniPascal.Proofs.Grammar.Moved
import MiniPascal.Proofs.Token.Spacing
import MiniPascal.Proofs.Run.Layout
import MiniPascal.Proofs.Scope.Blocks
import MiniPascal.Proofs.Scope.Course
import MiniPascal.Proofs.Scope.Orderly
import MiniPascal.Proofs.Scope.Cursor
import MiniPascal.Proofs.Scope.Mirror
import MiniPascal.Proofs.Scope.History
import MiniPascal.Proofs.Scope.Complaints
import MiniPascal.Proofs.Run.Finite
import MiniPascal.Proofs.Grammar.OpenRules
import MiniPascal.Proofs.Run.Exact
import MiniPascal.Proofs.Token.Progress
import MiniPascal.Proofs.Grammar.RuleStack
import MiniPascal.Proofs.Grammar.Agreement
import MiniPascal.Proofs.Grammar.RuleAgreement
import MiniPascal.Proofs.Grammar.Discipline
import MiniPascal.Proofs.Token.Rebased
import MiniPascal.Proofs.Run.Postorder
import MiniPascal.Proofs.Run.Dependence
import MiniPascal.Proofs.Printing.ValueText
import MiniPascal.Proofs.Token.AnyOrder
import MiniPascal.Proofs.Run.Kinds
import MiniPascal.Proofs.Source.Cover
import MiniPascal.Proofs.Grammar.ReadingLog
import MiniPascal.Proofs.Scope.CheckingLog
import MiniPascal.Proofs.Run.RunningLog
import MiniPascal.Proofs.Transcript
