import ImpSyntax.Precedence
import ImpSyntax.Fault
import ImpSyntax.Scanner
import ImpSyntax.Tree.Build
import ImpSyntax.Tree.SourceText
import ImpSyntax.Tree.Outline
import ImpSyntax.Tree.Annotations
import ImpSyntax.Diagnostics
import ImpSyntax.Proofs.Parser.Steps
import ImpSyntax.Proofs.Relocation
import ImpSyntax.Proofs.Grammar.Phrase
import ImpSyntax.Proofs.Grammar.Sentence
import ImpSyntax.Proofs.Reading.Complete
import ImpSyntax.Proofs.Reading.Sound
import ImpSyntax.Proofs.Parser.Complete
import ImpSyntax.Proofs.Lexical.Spelling
import ImpSyntax.Proofs.Lexical.Words
import ImpSyntax.Proofs.Parser.Sound
import ImpSyntax.Proofs.Language
import ImpSyntax.Proofs.SourceText.WellFormed
import ImpSyntax.Proofs.SourceText.Linear
import ImpSyntax.Proofs.SourceText.Written
import ImpSyntax.Proofs.SourceText.RoundTrip
import ImpSyntax.Proofs.SourceText.Parentheses
import ImpSyntax.Proofs.Height
import ImpSyntax.Proofs.Parser.Acts
import ImpSyntax.Proofs.Parser.History
import ImpSyntax.Proofs.Lexical.Tiling
import ImpSyntax.Proofs.Reports
import ImpSyntax.Proofs.Lexical.Lines
import ImpSyntax.Proofs.Parser.Boundary
import ImpSyntax.Proofs.Parser.Stacking
import ImpSyntax.Proofs.Recovery
import ImpSyntax.Proofs.Lexical.LongestMatch
import ImpSyntax.Proofs.Lexical.Pattern
import ImpSyntax.Proofs.Lexical.Rules
import ImpSyntax.Proofs.Lexical.Stepwise
import ImpSyntax.Proofs.ReportOrder
import ImpSyntax.Proofs.FirstFault
import ImpSyntax.Proofs.Lexical.Cutting
import ImpSyntax.Proofs.Parser.Braces
import ImpSyntax.Proofs.Truncation
import ImpSyntax.Proofs.Agreement
import ImpSyntax.Proofs.Concatenation
import ImpSyntax.Proofs.Lines
import ImpSyntax.Proofs.Tree.Preorder
import ImpSyntax.Proofs.Tree.Occurrences
import ImpSyntax.Proofs.Tree.Positions
import ImpSyntax.Proofs.Tree.WellFormed
import ImpSyntax.Proofs.Tree.Annotations
import ImpSyntax.Proofs.SourceText.Layout
import ImpSyntax.Proofs.SourceText.Minimal
import ImpSyntax.Proofs.Lexical.Separators
import ImpSyntax.Proofs.Tree.Shape
import ImpSyntax.Proofs.Tree.Rows
import ImpSyntax.Proofs.Tree.Walk
import ImpSyntax.Proofs.Tree.Writing
import ImpSyntax.Proofs.Listings
import ImpSyntax.Parser.Descent
import ImpSyntax.Proofs.Descent.Progress
import ImpSyntax.Proofs.Descent.Expressions
import ImpSyntax.Proofs.Descent.Statements
import ImpSyntax.Proofs.Descent.Termination
import ImpSyntax.Proofs.Descent.Past
import ImpSyntax.Proofs.Descent.Nesting
import ImpSyntax.Proofs.Descent.Ledger
import ImpSyntax.Proofs.Parser.AccountSteps
