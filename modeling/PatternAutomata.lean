import PatternAutomata.Builder
import PatternAutomata.Dfa.Dump
import PatternAutomata.Language
import PatternAutomata.Matcher
import PatternAutomata.Matcher.Session
import PatternAutomata.Nfa.Dump
import PatternAutomata.Node.Grammar
import PatternAutomata.Node.Printer
import PatternAutomata.Node.Shape
import PatternAutomata.PointMap.Edit
import PatternAutomata.PointSet.Edit
import PatternAutomata.Program.Dump
import PatternAutomata.Proofs.Collections
import PatternAutomata.Proofs.Decision
import PatternAutomata.Proofs.SparseSet
import PatternAutomata.Proofs.Fragment
import PatternAutomata.Proofs.Passage
import PatternAutomata.Proofs.PointSet
import PatternAutomata.Proofs.Traces
import PatternAutomata.Proofs.Patterns
import PatternAutomata.Proofs.Subset
import PatternAutomata.Proofs.Reached
import PatternAutomata.Proofs.Simulation
import PatternAutomata.Proofs.Renumber
import PatternAutomata.Proofs.Resumption
import PatternAutomata.Proofs.Generate
import PatternAutomata.Proofs.Matcher
import PatternAutomata.Proofs.History
import PatternAutomata.Proofs.Which
import PatternAutomata.Proofs.ByteSearch
import PatternAutomata.Proofs.Acceleration
import PatternAutomata.Proofs.Ambiguity
import PatternAutomata.Proofs.Grammar
import PatternAutomata.Proofs.Reading
import PatternAutomata.Proofs.Derivation
import PatternAutomata.Proofs.Printing
import PatternAutomata.Proofs.RoundTrip
import PatternAutomata.Proofs.SetSplices
import PatternAutomata.Proofs.MapSplices
import PatternAutomata.Proofs.CanonicalSets
import PatternAutomata.Proofs.CanonicalMaps
import PatternAutomata.Proofs.Surrogates
import PatternAutomata.Proofs.Reluctance
import PatternAutomata.Proofs.Accounts
import PatternAutomata.Proofs.Bounds.Access
import PatternAutomata.Proofs.Bounds.Ambiguity
import PatternAutomata.Proofs.Bounds.Assembler
import PatternAutomata.Proofs.Bounds.Assembly
import PatternAutomata.Proofs.Bounds.Builder
import PatternAutomata.Proofs.Bounds.Decision
import PatternAutomata.Proofs.Bounds.Explore
import PatternAutomata.Proofs.Bounds.Generate
import PatternAutomata.Proofs.Bounds.Session
import PatternAutomata.Proofs.Bounds.Subset
import PatternAutomata.Proofs.Pieces
import PatternAutomata.Proofs.LongestMatch
import PatternAutomata.Proofs.Liveness
import PatternAutomata.Proofs.Validity
import PatternAutomata.Proofs.Lookup
import PatternAutomata.Proofs.DepthFirst
import PatternAutomata.Proofs.Trees
import PatternAutomata.Proofs.Tidy
import PatternAutomata.Proofs.Nesting
import PatternAutomata.Proofs.NormalForm
import PatternAutomata.Proofs.StateCount
import PatternAutomata.Proofs.WellFormed
import PatternAutomata.Proofs.NestLimit
import PatternAutomata.Proofs.StateLimit
import PatternAutomata.Proofs.Ending
import PatternAutomata.Proofs.ErrorPlaces
import PatternAutomata.Proofs.Exits
import PatternAutomata.Proofs.Translation
import PatternAutomata.Proofs.Trim
import PatternAutomata.Proofs.Drafting
import PatternAutomata.Proofs.Workshop
import PatternAutomata.Proofs.Insertions
import PatternAutomata.Proofs.SilentClosure
import PatternAutomata.Proofs.Balance
