import Constituency.Chart.Basic
import Constituency.Chart.Candidate
import Constituency.Chart.Fill
import Constituency.CommandLine
import Constituency.Decimal.Binary64
import Constituency.Decimal.Numeral
import Constituency.Decimal.Shortest
import Constituency.Directory
import Constituency.Fault
import Constituency.Grammar.Basic
import Constituency.Grammar.Treebank
import Constituency.Grammar.Words
import Constituency.Lexicon
import Constituency.Main
import Constituency.NormalForm.Conversion
import Constituency.NormalForm.LongRules
import Constituency.NormalForm.Pending
import Constituency.NormalForm.UnitRules
import Constituency.Parser
import Constituency.Proofs.Chart.Cells
import Constituency.Proofs.Chart.Exhaustive
import Constituency.Proofs.Chart.Fill
import Constituency.Proofs.Chart.FirstBest
import Constituency.Proofs.Chart.Forest
import Constituency.Proofs.Chart.Pruned
import Constituency.Proofs.Chart.Spelling
import Constituency.Proofs.Decimal.Numeral
import Constituency.Proofs.Derivation.Basic
import Constituency.Proofs.Grammar.Counting
import Constituency.Proofs.Grammar.Estimation
import Constituency.Proofs.Grammar.Handles
import Constituency.Proofs.Grammar.Lookups
import Constituency.Proofs.Grammar.Numbers
import Constituency.Proofs.Grammar.Operations
import Constituency.Proofs.Grammar.Plain
import Constituency.Proofs.Grammar.Reachable
import Constituency.Proofs.Grammar.Recovery
import Constituency.Proofs.Grammar.Renormalizing
import Constituency.Proofs.Grammar.TrainingScore
import Constituency.Proofs.Grammar.TreeScore
import Constituency.Proofs.Grammar.Treebank
import Constituency.Proofs.NormalForm.BestParse
import Constituency.Proofs.NormalForm.Collapsing
import Constituency.Proofs.NormalForm.Conversion
import Constituency.Proofs.NormalForm.Elimination
import Constituency.Proofs.NormalForm.Expansion
import Constituency.Proofs.NormalForm.FixedPoint
import Constituency.Proofs.NormalForm.HelperNames
import Constituency.Proofs.NormalForm.InputOrder
import Constituency.Proofs.NormalForm.Lossless
import Constituency.Proofs.NormalForm.Mass
import Constituency.Proofs.NormalForm.Parses
import Constituency.Proofs.NormalForm.Plain
import Constituency.Proofs.NormalForm.Rescoring
import Constituency.Proofs.NormalForm.Rewriting
import Constituency.Proofs.NormalForm.Splicing
import Constituency.Proofs.NormalForm.Splitting
import Constituency.Proofs.NormalForm.SplittingRun
import Constituency.Proofs.NormalForm.Survivors
import Constituency.Proofs.NormalForm.Totality
import Constituency.Proofs.NormalForm.UnitChains
import Constituency.Proofs.NormalForm.UnitClosure
import Constituency.Proofs.NormalForm.UnitRounds
import Constituency.Proofs.Rule.Brackets
import Constituency.Proofs.Rule.Comparison
import Constituency.Proofs.Rule.Kinds
import Constituency.Proofs.Rule.Written
import Constituency.Proofs.Score.Ranking
import Constituency.Proofs.Sorted.Bisection
import Constituency.Proofs.Sorted.Widening
import Constituency.Proofs.Store.FiniteMap
import Constituency.Proofs.Store.Handles
import Constituency.Proofs.Store.Index
import Constituency.Proofs.Store.Lookup
import Constituency.Proofs.Store.Plain
import Constituency.Proofs.Store.Removal
import Constituency.Proofs.Store.Renumbering
import Constituency.Proofs.Store.Scanning
import Constituency.Proofs.Store.Update
import Constituency.Proofs.Text.Ranges
import Constituency.Proofs.Text.Runs
import Constituency.Proofs.Tree.Balanced
import Constituency.Proofs.Tree.Building
import Constituency.Proofs.Tree.Labels
import Constituency.Proofs.Tree.Leaves
import Constituency.Proofs.Tree.Lexemes
import Constituency.Proofs.Tree.Parents
import Constituency.Proofs.Tree.Planting
import Constituency.Proofs.Tree.Reading
import Constituency.Proofs.Tree.Relabelling
import Constituency.Proofs.Tree.Reshaping
import Constituency.Proofs.Tree.SplicedOut
import Constituency.Proofs.Tree.Table
import Constituency.Proofs.Tree.Traversal
import Constituency.Proofs.Tree.Written
import Constituency.Rule.Basic
import Constituency.Rule.Order
import Constituency.Rule.Text
import Constituency.Score
import Constituency.Sorted
import Constituency.Store.Basic
import Constituency.Store.Lookup
import Constituency.Symbol
import Constituency.Text.Blank
import Constituency.Text.DecimalDigit
import Constituency.Text.Hidden
import Constituency.Text.Numeral
import Constituency.Text.Quoted
import Constituency.Text.Ranges
import Constituency.Tree.Basic
import Constituency.Tree.Bracketed
import Constituency.Tree.LocalRule
import Constituency.Tree.NodeTable
import Constituency.Weight
