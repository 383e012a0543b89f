import DynLisp.Main
import DynLisp.Proofs.Plan
import DynLisp.Proofs.Stopping
import DynLisp.Proofs.Chains
import DynLisp.Proofs.Layout
import DynLisp.Proofs.Preservation
import DynLisp.Proofs.Regime
import DynLisp.Proofs.Soundness
import DynLisp.Proofs.Requests
import DynLisp.Proofs.Bindings
import DynLisp.Proofs.Abandonment
import DynLisp.Proofs.Limits
import DynLisp.Proofs.StackReader
import DynLisp.Proofs.Separation
import DynLisp.Proofs.Provenance
import DynLisp.Proofs.Nearest
import DynLisp.Proofs.Bits
import DynLisp.Proofs.Numerals
import DynLisp.Proofs.RoundTrip
import DynLisp.Proofs.Cuts
import DynLisp.Proofs.Scopes
import DynLisp.Proofs.Frames
import DynLisp.Proofs.Reports
import DynLisp.Proofs.Coverage
import DynLisp.Proofs.Joining
import DynLisp.Proofs.Lines
import DynLisp.Proofs.Warnings
import DynLisp.Proofs.Contents
import DynLisp.Proofs.Likeness
import DynLisp.Proofs.Correspondence
import DynLisp.Proofs.Sharing
import DynLisp.Proofs.CallStack
import DynLisp.Proofs.Interference
import DynLisp.Proofs.Clauses
import DynLisp.Proofs.Copies
import DynLisp.Proofs.Heights
import DynLisp.Proofs.Trimming
import DynLisp.Proofs.Printing
import DynLisp.Proofs.Prompting
import DynLisp.Proofs.Quotients
import DynLisp.Proofs.Terms
import DynLisp.Proofs.Nesting
import DynLisp.Proofs.Rounding
import DynLisp.Proofs.Doubles
import DynLisp.Proofs.Comparisons
import DynLisp.Proofs.Grammar
import DynLisp.Proofs.Words
import DynLisp.Proofs.Comments
import DynLisp.Proofs.Equality
import DynLisp.Proofs.Truth
import DynLisp.Proofs.Parameters
import DynLisp.Proofs.Building
