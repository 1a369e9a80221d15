import HornLogic.Bindings.Basic
import HornLogic.Bindings.Substitution
import HornLogic.Clause
import HornLogic.Config
import HornLogic.Fault
import HornLogic.Json.Codec
import HornLogic.Json.Parser
import HornLogic.Json.Printer
import HornLogic.Json.Value
import HornLogic.KnowledgeBase
import HornLogic.Main
import HornLogic.Proofs.Bindings.Acyclicity
import HornLogic.Proofs.Bindings.Chains
import HornLogic.Proofs.Bindings.Expansion
import HornLogic.Proofs.Bindings.Renaming
import HornLogic.Proofs.Bindings.Resolution
import HornLogic.Proofs.Bindings.SolvedForm
import HornLogic.Proofs.FirstOccurrences
import HornLogic.Proofs.Json.RoundTrip
import HornLogic.Proofs.Json.WrittenValues
import HornLogic.Proofs.KnowledgeBase
import HornLogic.Proofs.KnowledgeBase.Changes
import HornLogic.Proofs.Search.AddedClauses
import HornLogic.Proofs.Search.Branches
import HornLogic.Proofs.Search.CalledGoals
import HornLogic.Proofs.Search.Calls
import HornLogic.Proofs.Search.Completeness
import HornLogic.Proofs.Search.Counters
import HornLogic.Proofs.Search.DepthLimit
import HornLogic.Proofs.Search.Derivability
import HornLogic.Proofs.Search.Exploration
import HornLogic.Proofs.Search.ExploredAnswers
import HornLogic.Proofs.Search.FirstOrder
import HornLogic.Proofs.Search.Freshness
import HornLogic.Proofs.Search.FullScan
import HornLogic.Proofs.Search.GoalOrder
import HornLogic.Proofs.Search.Grouping
import HornLogic.Proofs.Search.Instantiation
import HornLogic.Proofs.Search.Interleaving
import HornLogic.Proofs.Search.LimitedPrefix
import HornLogic.Proofs.Search.NamesApart
import HornLogic.Proofs.Search.PredicateOrder
import HornLogic.Proofs.Search.Process
import HornLogic.Proofs.Search.ProofTrees
import HornLogic.Proofs.Search.Rearrangement
import HornLogic.Proofs.Search.Refinement
import HornLogic.Proofs.Search.RenamedSteps
import HornLogic.Proofs.Search.Renaming
import HornLogic.Proofs.Search.RenumberedBranches
import HornLogic.Proofs.Search.Renumbering
import HornLogic.Proofs.Search.Reporting
import HornLogic.Proofs.Search.Run
import HornLogic.Proofs.Search.SolutionTexts
import HornLogic.Proofs.Search.SolvedSolutions
import HornLogic.Proofs.Search.Soundness
import HornLogic.Proofs.Search.Stack
import HornLogic.Proofs.Search.Tests
import HornLogic.Proofs.Session.EnteredPrograms
import HornLogic.Proofs.Session.Listing
import HornLogic.Proofs.Session.Reports
import HornLogic.Proofs.Session.Samples
import HornLogic.Proofs.Session.StatementEnds
import HornLogic.Proofs.Source.Acceptance
import HornLogic.Proofs.Source.Agreement
import HornLogic.Proofs.Source.AnonymousNames
import HornLogic.Proofs.Source.Concatenation
import HornLogic.Proofs.Source.Derivations
import HornLogic.Proofs.Source.Grammar
import HornLogic.Proofs.Source.Places
import HornLogic.Proofs.Source.Reading
import HornLogic.Proofs.Source.RejectedPrograms
import HornLogic.Proofs.Source.Relayout
import HornLogic.Proofs.Source.Reprinting
import HornLogic.Proofs.Source.RoundTrip
import HornLogic.Proofs.Source.Statements
import HornLogic.Proofs.Source.StuckReading
import HornLogic.Proofs.Source.Tokens
import HornLogic.Proofs.Source.TrimmedLines
import HornLogic.Proofs.Source.Unambiguity
import HornLogic.Proofs.Source.UnambiguousTerms
import HornLogic.Proofs.Source.VariableNames
import HornLogic.Proofs.Source.WrittenNames
import HornLogic.Proofs.Source.WrittenTerms
import HornLogic.Proofs.Term.FreshNames
import HornLogic.Proofs.Term.RenamedApart
import HornLogic.Proofs.Term.Renaming
import HornLogic.Proofs.Term.Substitution
import HornLogic.Proofs.Text.Lines
import HornLogic.Proofs.Unification.CheckAnswers
import HornLogic.Proofs.Unification.Extension
import HornLogic.Proofs.Unification.KnownEquations
import HornLogic.Proofs.Unification.Measure
import HornLogic.Proofs.Unification.MostGeneral
import HornLogic.Proofs.Unification.OccursCheck
import HornLogic.Proofs.Unification.RefusedCycles
import HornLogic.Proofs.Unification.Renaming
import HornLogic.Proofs.Unification.Solutions
import HornLogic.Proofs.Unification.Step
import HornLogic.Proofs.Unification.Termination
import HornLogic.Proofs.Unification.UnusedBinding
import HornLogic.Sample
import HornLogic.Search.Basic
import HornLogic.Search.Step
import HornLogic.Search.Stream
import HornLogic.Session.Basic
import HornLogic.Session.Command
import HornLogic.Session.Transcript
import HornLogic.Solution
import HornLogic.Source.Anonymous
import HornLogic.Source.Layout
import HornLogic.Source.Name
import HornLogic.Source.Parser
import HornLogic.Source.Printer
import HornLogic.Source.Reader
import HornLogic.Term.Basic
import HornLogic.Term.Renaming
import HornLogic.Text.Blank
import HornLogic.Text.Decimal
import HornLogic.Unification
