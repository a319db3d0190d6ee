import ActionSystem.Proofs.Index
import ActionSystem.Proofs.Reachability
import ActionSystem.Proofs.Search.Coherence
import ActionSystem.Search.Walk
import ActionSystem.Sorted.Maps
import ActionSystem.Value.Order
import ActionSystem.Proofs.Search.Invariant
import ActionSystem.Proofs.Search.Exploration
import ActionSystem.Proofs.Search.Outcome
import ActionSystem.Proofs.Search.Limits
import ActionSystem.Proofs.Search.Unbounded
import ActionSystem.Proofs.Search.History
import ActionSystem.Proofs.Deduplication
import ActionSystem.Proofs.Eval.Agreement
import ActionSystem.Proofs.Eval.Truth
import ActionSystem.Proofs.Comparison
import ActionSystem.Proofs.Solve.Candidates
import ActionSystem.Proofs.Solve.Derivation
import ActionSystem.Proofs.Solve.Admission
import ActionSystem.Proofs.Solve.Enumeration
import ActionSystem.Proofs.Solve.Solutions
import ActionSystem.Proofs.Solve.Relevance
import ActionSystem.Proofs.Solve.Declarations
import ActionSystem.Proofs.Enabling
import ActionSystem.Proofs.Search.Walks
import ActionSystem.Proofs.Value.Canonical
import ActionSystem.Proofs.Value.Extensionality
import ActionSystem.Proofs.Eval.Canonical
import ActionSystem.Proofs.Solve.Canonical
import ActionSystem.Proofs.CanonicalForm
import ActionSystem.Proofs.Eval.Errors
import ActionSystem.Proofs.Solve.Ordering
import ActionSystem.Proofs.Solve.Prospect
import ActionSystem.Proofs.Solve.Sources
import ActionSystem.Proofs.Eval.Meaning
import ActionSystem.Proofs.Eval.Regrouping
import ActionSystem.Proofs.Solve.Commitment
import ActionSystem.Proofs.Solve.Regrouping
import ActionSystem.Proofs.Solve.Cursor
import ActionSystem.Proofs.Solve.Sequence
import ActionSystem.Proofs.Solve.Combination
import ActionSystem.Proofs.Solve.Indifference
import ActionSystem.Proofs.Eval.Replacement
import ActionSystem.Proofs.Eval.Unrolling
import ActionSystem.Proofs.Solve.Replacement
import ActionSystem.Proofs.Solve.Lockstep
import ActionSystem.Proofs.Solve.Dependence
import ActionSystem.Proofs.Solve.Unrolling
import ActionSystem.Proofs.Eval.Expansion
import ActionSystem.Proofs.Solve.Expansion
import ActionSystem.Proofs.Value.Arithmetic
import ActionSystem.Proofs.Value.Sets
import ActionSystem.Proofs.Value.Functions
import ActionSystem.Proofs.Solve.Binding
import ActionSystem.Proofs.Eval.Binders
import ActionSystem.Proofs.Bindings
import ActionSystem.Proofs.Text.Scanning
import ActionSystem.Proofs.Value.Reading
import ActionSystem.Proofs.Solve.Pruning
import ActionSystem.Proofs.Solve.Location
import ActionSystem.Proofs.Search.Failure
import ActionSystem.Proofs.Solve.Resolution
import ActionSystem.Proofs.Value.Lexicographic
import ActionSystem.Proofs.Search.Lineage
import ActionSystem.Proofs.Fingerprint
