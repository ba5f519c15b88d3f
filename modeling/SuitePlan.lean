import SuitePlan.TagExpr.Document
import SuitePlan.FileTree
import SuitePlan.Main
import SuitePlan.Proofs.TagExpr.Rendering
import SuitePlan.Proofs.TagExpr.Agreement
import SuitePlan.Proofs.Distribution.Idle
import SuitePlan.Proofs.Manifest.Totals
import SuitePlan.Proofs.Selection.Scheduled
import SuitePlan.Proofs.Selection.Header
import SuitePlan.Proofs.Selection.Suite
import SuitePlan.Proofs.Weight.Merging
import SuitePlan.Proofs.Manifest.Keys
import SuitePlan.Proofs.Decimal.Digits
import SuitePlan.Proofs.Json.Number
import SuitePlan.Proofs.Json.Lexing
import SuitePlan.Proofs.Json.RoundTrip
import SuitePlan.Proofs.Json.Record
import SuitePlan.Proofs.TagExpr.Document
import SuitePlan.Proofs.Time.Rfc3339
import SuitePlan.Proofs.Manifest.Document
import SuitePlan.Proofs.Decimal.Rounding
import SuitePlan.Proofs.Decimal.Stepwise
import SuitePlan.Proofs.Json.Doubles
import SuitePlan.Proofs.Weight.Document
import SuitePlan.Selection.Batch
import SuitePlan.Proofs.Selection.Batch
import SuitePlan.Proofs.Decimal.Nonnegative
import SuitePlan.Proofs.Distribution.Makespan
import SuitePlan.Proofs.Distribution.Patterns
import SuitePlan.Proofs.Selection.Sharing
import SuitePlan.Proofs.Weight.Matching
import SuitePlan.Proofs.TagExpr.Pairing
import SuitePlan.Proofs.TagExpr.Completion
import SuitePlan.Proofs.TagExpr.LegacyRendering
import SuitePlan.Proofs.TagExpr.Enclosure
import SuitePlan.Proofs.TagExpr.LegacyMeaning
import SuitePlan.Proofs.TagExpr.Neighbours
import SuitePlan.Proofs.Text.Pieces
import SuitePlan.Proofs.Browser.Search
import SuitePlan.Proofs.Browser.Mentions
import SuitePlan.Proofs.Browser.Modes
import SuitePlan.Proofs.Browser.Negation
import SuitePlan.Proofs.Browser.Meaning
import SuitePlan.Proofs.Manifest.Expected
import SuitePlan.Proofs.Weight.Updating
import SuitePlan.Proofs.Selection.SameTags
import SuitePlan.Proofs.Selection.Layout
import SuitePlan.Proofs.Weight.Shares
import SuitePlan.Proofs.Weight.Stored
import SuitePlan.Proofs.Text.Span
import SuitePlan.Proofs.Text.Trim
import SuitePlan.Proofs.TagExpr.Tokens
import SuitePlan.Proofs.TagExpr.LegacyLeaves
import SuitePlan.Proofs.Command.Run
