import InlayHints.Syntax.Outline
import InlayHints.Semantics.Tables
import InlayHints.Hint.Settings
import InlayHints.Hint.Request
import InlayHints.Proofs.Syntax.Lossless
import InlayHints.Proofs.Grammar.Bare
import InlayHints.Proofs.Grammar.Faultless
import InlayHints.Proofs.Grammar.Pattern
import InlayHints.Proofs.Syntax.Production
import InlayHints.Proofs.Grammar.Agreement
import InlayHints.Proofs.Syntax.Agreement.Declaration
import InlayHints.Proofs.Syntax.Agreement.Expression
import InlayHints.Proofs.Syntax.Acceptance
import InlayHints.Proofs.Text.Position
import InlayHints.Proofs.Syntax.Token.Language
import InlayHints.Proofs.Syntax.Token.LongestMatch
import InlayHints.Proofs.Hint.Anchor
import InlayHints.Proofs.Text.Order
import InlayHints.Proofs.Hint.Order
import InlayHints.Proofs.Hint.Coverage
import InlayHints.Proofs.Syntax.Trivia
import InlayHints.Proofs.Syntax.Composition
import InlayHints.Proofs.Hint.Switches
import InlayHints.Proofs.Hint.Encodings
import InlayHints.Proofs.Grammar.Nesting
import InlayHints.Proofs.Syntax.Depth
import InlayHints.Proofs.Grammar.Layout
import InlayHints.Proofs.Grammar.Parts
import InlayHints.Proofs.Syntax.Layout
import InlayHints.Proofs.Syntax.Trimmed
import InlayHints.Proofs.Syntax.Site.Parts
import InlayHints.Proofs.Syntax.Schema
import InlayHints.Proofs.Syntax.Token.Relexing
import InlayHints.Proofs.Syntax.Site.Preorder
import InlayHints.Proofs.Hint.Siblings
import InlayHints.Proofs.Hint.Portion
import InlayHints.Proofs.Grammar.Sealing
import InlayHints.Proofs.Syntax.Boundary
import InlayHints.Proofs.Text.Columns
import InlayHints.Proofs.Syntax.Site.Leaves
import InlayHints.Proofs.Syntax.Navigation
import InlayHints.Proofs.Grammar.Reports
import InlayHints.Proofs.Syntax.Faults
import InlayHints.Proofs.Syntax.Expression
import InlayHints.Proofs.Hint.Arguments
import InlayHints.Proofs.Hint.Distinct
import InlayHints.Proofs.Syntax.Trailing
import InlayHints.Proofs.Hint.Labels
import InlayHints.Proofs.Hint.Redundancy
import InlayHints.Proofs.Hint.Visits
import InlayHints.Proofs.Hint.Descriptors
import InlayHints.Proofs.Syntax.Adjacent
import InlayHints.Proofs.Semantics.Qualifiers
import InlayHints.Proofs.Grammar.Derivation
import InlayHints.Proofs.Hint.Declared
import InlayHints.Proofs.Syntax.Reconstruction
import InlayHints.Proofs.Semantics.Written.Signature
import InlayHints.Proofs.Semantics.Written.Depth
import InlayHints.Proofs.Text.Monotone
import InlayHints.Proofs.Builtin.Argument
import InlayHints.Proofs.Syntax.Precedence
import InlayHints.Proofs.Syntax.Recovery
import InlayHints.Proofs.Syntax.Single
import InlayHints.Proofs.Grammar.Skipping
import InlayHints.Proofs.Grammar.Reader
import InlayHints.Proofs.Grammar.Cost
import InlayHints.Proofs.Syntax.Missing
import InlayHints.Proofs.Syntax.Price
import InlayHints.Proofs.Syntax.Termination
import InlayHints.Proofs.Syntax.Balance
