import Stylesheet.Document.Handle
import Stylesheet.Proofs.Account
import Stylesheet.Proofs.Document.Attributes
import Stylesheet.Proofs.Downward
import Stylesheet.Proofs.EmptyMode
import Stylesheet.Proofs.FirstFailure
import Stylesheet.Proofs.History
import Stylesheet.Proofs.Isolation
import Stylesheet.Proofs.Ledger
import Stylesheet.Proofs.Lineage
import Stylesheet.Proofs.Malformed
import Stylesheet.Proofs.Nested
import Stylesheet.Proofs.Numbering
import Stylesheet.Proofs.Overridden
import Stylesheet.Proofs.Pattern.Agreement
import Stylesheet.Proofs.Pattern.Extent
import Stylesheet.Proofs.Pattern.Literal
import Stylesheet.Proofs.Pattern.Naming
import Stylesheet.Proofs.Pattern.Narrowing
import Stylesheet.Proofs.Pattern.Number
import Stylesheet.Proofs.Pattern.Reordering
import Stylesheet.Proofs.Query.Descent
import Stylesheet.Proofs.Query.Position
import Stylesheet.Proofs.Recursion
import Stylesheet.Proofs.Report
import Stylesheet.Proofs.Strict
import Stylesheet.Proofs.Ties
