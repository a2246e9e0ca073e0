import TreeMatcher.Compile.Basic
import TreeMatcher.Compile.Bounds
import TreeMatcher.Compile.Outcome
import TreeMatcher.Grammar.Basic
import TreeMatcher.Grammar.Expression
import TreeMatcher.Grammar.Load
import TreeMatcher.Grammar.Table
import TreeMatcher.Json.Basic
import TreeMatcher.Json.Quoted
import TreeMatcher.Json.Reader
import TreeMatcher.Matcher.Basic
import TreeMatcher.Matcher.Normal
import TreeMatcher.Matcher.Spelling
import TreeMatcher.Number.Basic
import TreeMatcher.Number.Decimal
import TreeMatcher.Number.Shortest
import TreeMatcher.Pattern.Diagnostic
import TreeMatcher.Pattern.Error
import TreeMatcher.Pattern.Lexeme
import TreeMatcher.Pattern.Literal
import TreeMatcher.Pattern.Parse
import TreeMatcher.Pattern.Parser
import TreeMatcher.Pattern.Piece
import TreeMatcher.Pattern.Token
import TreeMatcher.Pattern.Tokenize
import TreeMatcher.Pattern.Tree
import TreeMatcher.Proofs.Compile.Captures
import TreeMatcher.Proofs.Compile.Excerpt
import TreeMatcher.Proofs.Compile.Faults
import TreeMatcher.Proofs.Compile.Grouping
import TreeMatcher.Proofs.Compile.HandBuilt
import TreeMatcher.Proofs.Compile.Layout
import TreeMatcher.Proofs.Compile.Orderly
import TreeMatcher.Proofs.Compile.Phrases
import TreeMatcher.Proofs.Compile.Places
import TreeMatcher.Proofs.Compile.Safety
import TreeMatcher.Proofs.Compile.Shape
import TreeMatcher.Proofs.Compile.SourceOrder
import TreeMatcher.Proofs.Compile.Written
import TreeMatcher.Proofs.Grammar.Declared
import TreeMatcher.Proofs.Grammar.Indexed
import TreeMatcher.Proofs.Grammar.Loaded
import TreeMatcher.Proofs.Matcher.Built
import TreeMatcher.Proofs.Matcher.Names
import TreeMatcher.Proofs.Matcher.Normal
import TreeMatcher.Proofs.Matcher.Total
import TreeMatcher.Proofs.Matcher.Within
import TreeMatcher.Proofs.Meaning.Captured
import TreeMatcher.Proofs.Meaning.Layers
import TreeMatcher.Proofs.Meaning.Matcher
import TreeMatcher.Proofs.Meaning.Phrase
import TreeMatcher.Proofs.Meaning.Relation
import TreeMatcher.Proofs.Meaning.Sound
import TreeMatcher.Proofs.Number.Bounds
import TreeMatcher.Proofs.Number.Digits
import TreeMatcher.Proofs.Number.LargeText
import TreeMatcher.Proofs.Number.ReadBounds
import TreeMatcher.Proofs.Pattern.Accepted
import TreeMatcher.Proofs.Pattern.Alike
import TreeMatcher.Proofs.Pattern.Composed
import TreeMatcher.Proofs.Pattern.Continued
import TreeMatcher.Proofs.Pattern.Decoding
import TreeMatcher.Proofs.Pattern.Derivation
import TreeMatcher.Proofs.Pattern.Elements
import TreeMatcher.Proofs.Pattern.Escapes
import TreeMatcher.Proofs.Pattern.Excerpt
import TreeMatcher.Proofs.Pattern.FirstFault
import TreeMatcher.Proofs.Pattern.Foresight
import TreeMatcher.Proofs.Pattern.Grouped
import TreeMatcher.Proofs.Pattern.Layout
import TreeMatcher.Proofs.Pattern.Lenient
import TreeMatcher.Proofs.Pattern.LiteralPattern
import TreeMatcher.Proofs.Pattern.Partition
import TreeMatcher.Proofs.Pattern.Quoting
import TreeMatcher.Proofs.Pattern.Ranges
import TreeMatcher.Proofs.Pattern.Replacement
import TreeMatcher.Proofs.Pattern.Rules
import TreeMatcher.Proofs.Pattern.Scan
import TreeMatcher.Proofs.Pattern.Settling
import TreeMatcher.Proofs.Pattern.SourceLine
import TreeMatcher.Proofs.Pattern.Syntax
import TreeMatcher.Proofs.Pattern.ThreeMarks
import TreeMatcher.Proofs.Pattern.Unambiguous
import TreeMatcher.Proofs.Repeat.Descending
import TreeMatcher.Proofs.Repeat.Nested
import TreeMatcher.Proofs.Repeat.Products
import TreeMatcher.Proofs.Repeat.Units
import TreeMatcher.Proofs.Spelling.Faithful
import TreeMatcher.Proofs.Spelling.Quoted
import TreeMatcher.Proofs.Spelling.Rebuild
import TreeMatcher.Proofs.Spelling.Regroup
import TreeMatcher.Proofs.Spelling.Repeater
import TreeMatcher.Proofs.Spelling.RoundTrip
import TreeMatcher.Proofs.Spelling.Twice
import TreeMatcher.Proofs.Spelling.Units
import TreeMatcher.Proofs.Spelling.Written
import TreeMatcher.Proofs.Text.Backtracking
import TreeMatcher.Proofs.Text.Lines
import TreeMatcher.Session
import TreeMatcher.Text.Basic
import TreeMatcher.Text.CodePoint
import TreeMatcher.Text.Decimal
import TreeMatcher.Text.Letter
import TreeMatcher.Text.LetterCase
