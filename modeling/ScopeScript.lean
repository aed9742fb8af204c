import ScopeScript.Main
import ScopeScript.Proofs.Eval.ScopesKept
import ScopeScript.Proofs.Printing.ReadBack
import ScopeScript.Proofs.Scoping.NeverUndeclared
import ScopeScript.Proofs.Layout.Joining
import ScopeScript.Proofs.Separation.Separate
import ScopeScript.Proofs.Eval.Lenient
import ScopeScript.Proofs.Fresh.Parts
import ScopeScript.Proofs.Fresh.Thunks
import ScopeScript.Proofs.Fresh.Unmentioned
import ScopeScript.Proofs.SyntaxErrors.Programs
import ScopeScript.Proofs.SyntaxErrors.EndOfInput
import ScopeScript.Session
import ScopeScript.Syntax.Parser.Unfolding
import ScopeScript.Value.Display
import ScopeScript.Proofs.Token.Cut
import ScopeScript.Proofs.Token.Failing
import ScopeScript.Proofs.Lines.Scripts
import ScopeScript.Proofs.Session.Agreement
import ScopeScript.Proofs.Heap.Counting
import ScopeScript.Proofs.Links.Reachable
import ScopeScript.Proofs.Arithmetic.Written
import ScopeScript.Proofs.Arithmetic.Results
import ScopeScript.Proofs.Token.Assembled
import ScopeScript.Proofs.Eval.Frames
import ScopeScript.Proofs.Printing.Objects
import ScopeScript.Proofs.Eval.Chains
import ScopeScript.Proofs.Number.Integers
import ScopeScript.Proofs.Number.Keys
import ScopeScript.Proofs.Value.Equality
import ScopeScript.Proofs.Routines.Equations
import ScopeScript.Proofs.SyntaxErrors.MalformedNumbers
