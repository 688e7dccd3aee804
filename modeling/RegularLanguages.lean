import RegularLanguages.Dfa.Builder
import RegularLanguages.Main
import RegularLanguages.Proofs.Dfa.Distinguishing
import RegularLanguages.Proofs.Dfa.Embedding
import RegularLanguages.Proofs.Dfa.NormalForm
import RegularLanguages.Proofs.Gnfa.Elimination
import RegularLanguages.Proofs.Nfa.Composition
import RegularLanguages.Proofs.Regex.Printing
import RegularLanguages.Proofs.Nfa.DeadStates
import RegularLanguages.Proofs.Snapshot.Document
import RegularLanguages.Proofs.Gnfa.Labels
import RegularLanguages.Proofs.Builder
import RegularLanguages.Proofs.Snapshot.Dfa
import RegularLanguages.Proofs.Lookups
import RegularLanguages.Proofs.Consistency
import RegularLanguages.Proofs.CommandLine.Closure
import RegularLanguages.Proofs.Regex.Nesting
import RegularLanguages.Proofs.Snapshot.Gnfa
import RegularLanguages.Proofs.Snapshot.Validation
import RegularLanguages.Proofs.Snapshot.GnfaValidation
import RegularLanguages.Proofs.Dfa.MergedSubsets
import RegularLanguages.Proofs.RenamedSearch
import RegularLanguages.Proofs.Nfa.Renumbering
import RegularLanguages.Proofs.Dfa.RenamedSubsets
import RegularLanguages.Proofs.Nfa.Pruning
import RegularLanguages.Proofs.Dfa.SearchOrder
import RegularLanguages.Proofs.Nfa.Completion
import RegularLanguages.Proofs.Gnfa.Orders
import RegularLanguages.Proofs.Emptiness
import RegularLanguages.Proofs.Regex.Errors
import RegularLanguages.Proofs.BuilderCalls
import RegularLanguages.Proofs.Nfa.PausedRun
import RegularLanguages.Proofs.Dfa.CoarsestPartition
import RegularLanguages.Proofs.Nfa.Closure
import RegularLanguages.Proofs.Snapshot.Spelling
import RegularLanguages.Proofs.GrowingSet
import RegularLanguages.Proofs.LabelCalls
