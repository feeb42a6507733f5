import ProcessCalculus.Cbor.Codec
import ProcessCalculus.Explorer.Basic
import ProcessCalculus.Proofs.Explorer.Bisimilarity
import ProcessCalculus.Proofs.Program.GuardednessSearch
import ProcessCalculus.Proofs.Program.RepeatedChecks
import ProcessCalculus.Proofs.Program.UnguardedNames
import ProcessCalculus.Proofs.Sharing.History
import ProcessCalculus.Proofs.Simplification.Bisimilarity
import ProcessCalculus.Proofs.Transition.History
import ProcessCalculus.Proofs.Transition.Replies
import ProcessCalculus.Proofs.Transition.Totality
import ProcessCalculus.Proofs.Treap.Requests
import ProcessCalculus.Proofs.Transition.Classes
import ProcessCalculus.Proofs.Transition.Steady
import ProcessCalculus.Proofs.Transition.Partition
import ProcessCalculus.Proofs.Program.DigestEquality
import ProcessCalculus.Proofs.Program.ExposedNames
import ProcessCalculus.Proofs.Explorer.Decision
import ProcessCalculus.Proofs.Explorer.Runs
import ProcessCalculus.Proofs.Cbor.Transitions
import ProcessCalculus.Proofs.Transition.Finiteness
import ProcessCalculus.Proofs.Transition.Quotient
import ProcessCalculus.Proofs.Simplification.Visits
import ProcessCalculus.Proofs.Simplification.NormalForms
import ProcessCalculus.Proofs.Simplification.Recursion
import ProcessCalculus.Proofs.Simplification.Accounts
import ProcessCalculus.Proofs.Transition.Targets
import ProcessCalculus.Proofs.Transition.Overlaps
import ProcessCalculus.Proofs.Transition.Failures
import ProcessCalculus.Proofs.Sharing.Counts
import ProcessCalculus.Proofs.Treap.Histories
import ProcessCalculus.Proofs.Transition.Sets
import ProcessCalculus.Proofs.Transition.Interning
import ProcessCalculus.Proofs.Program.NameTable
import ProcessCalculus.Proofs.Text.Unambiguous
import ProcessCalculus.Proofs.Transition.ExpansionLoop
