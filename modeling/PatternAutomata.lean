import PatternAutomata.Compile
import PatternAutomata.Dfa.Graph
import PatternAutomata.Dfa.Run
import PatternAutomata.Nfa.Builder
import PatternAutomata.Nfa.Stored
import PatternAutomata.StateSet.Store
import PatternAutomata.Proofs.Search
import PatternAutomata.Proofs.Dfa.Completion
import PatternAutomata.Proofs.Dfa.Reachability
import PatternAutomata.Proofs.Dfa.Canonical
import PatternAutomata.Proofs.Dfa.Chart
import PatternAutomata.Proofs.Dfa.Layout
import PatternAutomata.Proofs.Dfa.Limits
import PatternAutomata.Proofs.Dfa.Morphism
import PatternAutomata.Proofs.Nfa.Path
import PatternAutomata.Proofs.Nfa.Stored
import PatternAutomata.Proofs.Nfa.Operators
import PatternAutomata.Proofs.Nfa.OfRegex
import PatternAutomata.Proofs.Nfa.OfDfa
import PatternAutomata.Proofs.Powerset
import PatternAutomata.Proofs.Nfa.Obtainable
import PatternAutomata.Proofs.Nfa.Minimal
import PatternAutomata.Proofs.Nfa.Marks
import PatternAutomata.Proofs.Minimize.Refinement
import PatternAutomata.Proofs.Minimize.Quotient
import PatternAutomata.Proofs.Minimize.Uniqueness
import PatternAutomata.Proofs.Pattern.InStep
import PatternAutomata.Proofs.Pattern.Grammar
import PatternAutomata.Proofs.Pattern.Scanning
import PatternAutomata.Proofs.Pattern.Classes
import PatternAutomata.Proofs.Pattern.Unambiguous
import PatternAutomata.Proofs.Pattern.Soundness
import PatternAutomata.Proofs.Pattern.Completeness
import PatternAutomata.Proofs.Pattern.Reading
import PatternAutomata.Proofs.Pattern.Denotation
import PatternAutomata.Proofs.Pattern.Automaton
import PatternAutomata.Proofs.Pattern.Shape
import PatternAutomata.Proofs.Trie
import PatternAutomata.Proofs.Recognition
import PatternAutomata.Proofs.Strategy
import PatternAutomata.Proofs.Direct
import PatternAutomata.Proofs.Compile
import PatternAutomata.Proofs.Room
import PatternAutomata.Proofs.Limits
import PatternAutomata.Proofs.Nfa.Edges
import PatternAutomata.Proofs.Nfa.Stepwise
import PatternAutomata.Proofs.Pattern.Draft
import PatternAutomata.Proofs.Pattern.Refusals
import PatternAutomata.Proofs.Stepwise
import PatternAutomata.Proofs.Guarded.Basic
import PatternAutomata.Proofs.Guarded.Partition
import PatternAutomata.Proofs.Guarded.Quotient
import PatternAutomata.Proofs.Guarded.Direct
import PatternAutomata.Proofs.Guarded.Compile
import PatternAutomata.Proofs.Orderly
import PatternAutomata.Proofs.Minimize.Gaps
import PatternAutomata.Proofs.Nfa.Languages
import PatternAutomata.Proofs.Pattern.ClassSize
import PatternAutomata.Proofs.Minimize.Mapping
import PatternAutomata.Proofs.Minimize.Idempotence
import PatternAutomata.Proofs.Nfa.ActiveSets
import PatternAutomata.Proofs.Nfa.Merged
import PatternAutomata.Proofs.Pattern.Size
import PatternAutomata.Pattern.Descent
import PatternAutomata.Proofs.Pattern.ClassDescent
import PatternAutomata.Proofs.Pattern.Descent
import PatternAutomata.Proofs.Pattern.Nesting
import PatternAutomata.Proofs.Dfa.Editing
import PatternAutomata.Proofs.Nfa.Memo
import PatternAutomata.Proofs.Nfa.Walks
import PatternAutomata.Pattern.Reporting
import PatternAutomata.Proofs.Pattern.Culprits
import PatternAutomata.Proofs.Pattern.Reporting
import PatternAutomata.Dfa.Traversal
import PatternAutomata.Nfa.Emptiness
import PatternAutomata.Proofs.Dfa.Traversal
import PatternAutomata.Proofs.Nfa.Emptiness
import PatternAutomata.Proofs.Dfa.Frame
import PatternAutomata.Proofs.Trace
import PatternAutomata.Proofs.Text.Unescaped
import PatternAutomata.Proofs.Dfa.Graph
import PatternAutomata.Proofs.Nfa.Display
import PatternAutomata.Proofs.StateSet.Registers
import PatternAutomata.Proofs.Minimize.Worklist
import PatternAutomata.Proofs.Trie.Tables
