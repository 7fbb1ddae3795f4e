import ExprText.Expr.Build
import ExprText.Form.Kind
import ExprText.Form.Member
import ExprText.Json.Printer
import ExprText.Render
import ExprText.Settings.Form
import ExprText.Settings.Toml
import ExprText.Proofs.Formula.RoundTrip
import ExprText.Proofs.Names.Rendering
import ExprText.Proofs.Sharing.Unfolding
import ExprText.Proofs.WellShaped
import ExprText.Proofs.Frame.Basic
import ExprText.Proofs.Frame.Scripts
import ExprText.Proofs.Names.Spelling
import ExprText.Proofs.Parallel.Basic
import ExprText.Proofs.Parallel.Actions
import ExprText.Proofs.Parallel.Renderers
import ExprText.Proofs.Parallel.Run
import ExprText.Proofs.Text.Lines
import ExprText.Proofs.Text.Nesting
import ExprText.Proofs.Brackets
import ExprText.Proofs.Text.Squeeze
import ExprText.Proofs.Layout
import ExprText.Proofs.Locals.Plan
import ExprText.Proofs.Locals.Writing
import ExprText.Proofs.Locals.Once
import ExprText.Proofs.Forms
import ExprText.Proofs.Sharing.Again
import ExprText.Proofs.PartialRegistry
import ExprText.Proofs.Composed.Run
import ExprText.Proofs.Composed.Children
import ExprText.Proofs.Text.Phrase
import ExprText.Proofs.Composed.Parts
import ExprText.Proofs.Composed.Phrases
import ExprText.Proofs.Composed.Statements
import ExprText.Proofs.Composed.Blocks
import ExprText.Proofs.Returns
import ExprText.Proofs.Choice.RoundTrip
import ExprText.Proofs.ElseIf
import ExprText.Proofs.Composed.Endings
import ExprText.Proofs.Composed.Tails
import ExprText.Proofs.Termination
import ExprText.Proofs.Single.Marked
import ExprText.Proofs.CallChains
import ExprText.Proofs.Literals
import ExprText.Proofs.OverflowChecks
import ExprText.Proofs.PrefixSigns
import ExprText.Proofs.Text.Paired
import ExprText.Proofs.Names.Readable
import ExprText.Proofs.ArrayNames
import ExprText.Proofs.GenericArguments
import ExprText.Proofs.Names.Claim
import ExprText.Proofs.Scopes
import ExprText.Proofs.Comments
import ExprText.Proofs.Text.Indentation
