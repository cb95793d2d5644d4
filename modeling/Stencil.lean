import Stencil.Proofs.Balance
import Stencil.Proofs.Concat
import Stencil.Proofs.Constants
import Stencil.Proofs.Contexts
import Stencil.Proofs.Enclosing
import Stencil.Proofs.Enumeration
import Stencil.Proofs.Escaping
import Stencil.Proofs.Expansion
import Stencil.Proofs.Grammar
import Stencil.Proofs.Histories
import Stencil.Proofs.Insulation
import Stencil.Proofs.Interchange
import Stencil.Proofs.Isolation
import Stencil.Proofs.Layout
import Stencil.Proofs.Leftmost
import Stencil.Proofs.Locating
import Stencil.Proofs.Meaning
import Stencil.Proofs.Mirror
import Stencil.Proofs.Negation
import Stencil.Proofs.Origins
import Stencil.Proofs.Places
import Stencil.Proofs.Quotation
import Stencil.Proofs.Reachable
import Stencil.Proofs.Reports
import Stencil.Proofs.RootReads
import Stencil.Proofs.Scopes
import Stencil.Proofs.Spacing
import Stencil.Proofs.Statements
import Stencil.Proofs.Stops
import Stencil.Proofs.Totality
import Stencil.Proofs.Trailing
import Stencil.Proofs.Truth
import Stencil.Render.Recursive
import Stencil.Session
