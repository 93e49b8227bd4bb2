import Stencil.Formatting
import Stencil.Grammar
import Stencil.Matcher.Hook
import Stencil.Store.Command
import Stencil.Proofs.Store.Stack
import Stencil.Proofs.Matcher.Parsing
import Stencil.Proofs.Jsp.Progress
import Stencil.Proofs.Token.Nesting
import Stencil.Proofs.Placeholder.Form
import Stencil.Proofs.Text.Filling
import Stencil.Proofs.Placeholder.Finding
import Stencil.Proofs.Placeholder.Building
import Stencil.Proofs.Substitution.Neutral
import Stencil.Proofs.Substitution.Offsets
import Stencil.Proofs.Substitution.Braces
import Stencil.Proofs.Substitution.Lines
import Stencil.Proofs.Substitution.LineComments
import Stencil.Proofs.Restoration.Spacing
import Stencil.Proofs.Restoration.Mismatch
import Stencil.Proofs.Restoration.Pieces
import Stencil.Proofs.Restoration.Rounds
import Stencil.Proofs.Token.Completeness
import Stencil.Proofs.Token.Hiding
import Stencil.Proofs.Token.Alone
import Stencil.Proofs.Token.Ending
import Stencil.Proofs.Token.Switching
import Stencil.Proofs.Token.Attributes
import Stencil.Proofs.Text.Slicing
import Stencil.Proofs.Substitution.Success
import Stencil.Proofs.Substitution.Opacity
import Stencil.Proofs.Placeholder.Recognition
import Stencil.Proofs.Jsp.Expressions
import Stencil.Proofs.Token.Scripts
import Stencil.Proofs.Matcher.Tracing
import Stencil.Proofs.Matcher.Faults
import Stencil.Proofs.Jsp.EmptyMatches
import Stencil.Proofs.Token.EndTags
import Stencil.Proofs.Grammar.Building
import Stencil.Proofs.Token.Locating
