import MacroScript.Proofs.Completion.Agreement
import MacroScript.Proofs.Completion.TextBefore
import MacroScript.Proofs.Grammar.Languages
import MacroScript.Proofs.Grammar.Layout
import MacroScript.Proofs.Grammar.NumberRules
import MacroScript.Proofs.Json.RoundTrip
import MacroScript.Proofs.Number.Binary64
import MacroScript.Proofs.Number.Double
import MacroScript.Proofs.Number.Numeral
import MacroScript.Proofs.Number.Reading
import MacroScript.Proofs.Number.Spelling
import MacroScript.Proofs.Script.Results
import MacroScript.Proofs.Statement.Arguments
import MacroScript.Proofs.Statement.Beginning
import MacroScript.Proofs.Statement.CommandLine
import MacroScript.Proofs.Statement.FirstWait
import MacroScript.Proofs.Statement.Merging
import MacroScript.Proofs.Statement.OfTokens
import MacroScript.Proofs.Statement.Pieces
import MacroScript.Proofs.Statement.Relevance
import MacroScript.Proofs.Statement.Spacing
import MacroScript.Proofs.Text.Breaks
import MacroScript.Proofs.Text.Lines
import MacroScript.Proofs.Token.Cut
import MacroScript.Proofs.Token.NormalForm
import MacroScript.Proofs.Token.Slices
import MacroScript.Proofs.Token.Spacing
import MacroScript.Proofs.Wait.HalfUp
import MacroScript.Proofs.Wait.Numeral
import MacroScript.Proofs.Wait.Prefix
import MacroScript.Proofs.Wait.Rounding
import MacroScript.Script
