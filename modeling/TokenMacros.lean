import TokenMacros.Expander
import TokenMacros.Proofs.Token.Balance
import TokenMacros.Proofs.Token.Pairing
import TokenMacros.Proofs.Token.Tree
import TokenMacros.Proofs.Token.Mates
import TokenMacros.Proofs.Token.Span
import TokenMacros.Proofs.Expansion.Step
import TokenMacros.Proofs.Expansion.Scan
import TokenMacros.Proofs.Expansion.Stages
import TokenMacros.Proofs.Expansion.Completeness
import TokenMacros.Proofs.Expansion.Balance
import TokenMacros.Proofs.Expansion.UnitInvocation
import TokenMacros.Proofs.Expansion.Delimited
import TokenMacros.Proofs.Expansion.Inert
import TokenMacros.Proofs.Expansion.Counting
import TokenMacros.Proofs.Expansion.Frame
import TokenMacros.Proofs.Expansion.Closed
import TokenMacros.Proofs.Expansion.Limits
import TokenMacros.Proofs.Rule.Slots
import TokenMacros.Proofs.Rule.Binding
import TokenMacros.Proofs.Rule.Soundness
import TokenMacros.Proofs.Rule.Substitution
import TokenMacros.Proofs.Rule.Mirror
import TokenMacros.Proofs.Rule.Lockstep
import TokenMacros.Proofs.Rule.Derivation
import TokenMacros.Proofs.Rule.Closed
import TokenMacros.Proofs.Rule.Greedy
import TokenMacros.Proofs.Rule.Rows
import TokenMacros.Proofs.Rule.Trees
import TokenMacros.Proofs.Rule.Delimited
import TokenMacros.Proofs.Rule.Declaration
import TokenMacros.Proofs.Rule.Forms
import TokenMacros.Proofs.Rule.Spelling
import TokenMacros.Proofs.Source.Cut
import TokenMacros.Proofs.Source.Numeral
import TokenMacros.Proofs.Source.Lexeme
import TokenMacros.Proofs.Source.Lines
import TokenMacros.Proofs.Source.Printing
import TokenMacros.Proofs.Source.Grammar
import TokenMacros.Proofs.Source.Content
import TokenMacros.Proofs.Source.Nesting
import TokenMacros.Proofs.Source.Places
import TokenMacros.Proofs.Source.LogicalLines
import TokenMacros.Proofs.Source.Quoting
import TokenMacros.Proofs.Import.Content
import TokenMacros.Proofs.Import.Flattening
import TokenMacros.Proofs.Import.Graph
import TokenMacros.Proofs.Position.Bare
import TokenMacros.Proofs.Position.Spelling
import TokenMacros.Proofs.Position.Matching
import TokenMacros.Proofs.Position.Heads
import TokenMacros.Proofs.Position.Agree
import TokenMacros.Proofs.Position.Expansion
import TokenMacros.Proofs.Rule.TemplateSpelling
import TokenMacros.Proofs.Import.Path
import TokenMacros.Proofs.Expansion.Items
import TokenMacros.Proofs.Expansion.Rounds
import TokenMacros.Proofs.Rule.Renaming
import TokenMacros.Proofs.Rule.RenamedRules
import TokenMacros.Proofs.Cursor.Basic
import TokenMacros.Proofs.Cursor.Matching
import TokenMacros.Proofs.Rule.Entries
import TokenMacros.Proofs.Cursor.Finds
import TokenMacros.Proofs.Cursor.Forms
import TokenMacros.Proofs.Cursor.Parsing
import TokenMacros.Proofs.Cursor.Declaration
import TokenMacros.Proofs.Cursor.Heads
import TokenMacros.Proofs.Cursor.UnitTop
import TokenMacros.Proofs.Cursor.Scan
