import SaturationCore.Cluster
import SaturationCore.Matching
import SaturationCore.Order.Literal
import SaturationCore.Unification
import SaturationCore.Ledger.Splice
import SaturationCore.Ledger.Trail
import SaturationCore.Ledger.Worklist
import SaturationCore.Walk.Log
import SaturationCore.Walk.Scope
import SaturationCore.DiscriminationTree.Retriever
import SaturationCore.FeatureVector.Cursor
import SaturationCore.FeatureVector.Nodes
import SaturationCore.FeatureVector.Extractor
import SaturationCore.Subsumption.Index
import SaturationCore.Subsumption.Marked
import SaturationCore.Signature.Tables
import SaturationCore.Json.Reader
import SaturationCore.Json.Writer
import SaturationCore.Interchange
import SaturationCore.Settings
import SaturationCore.Vocabulary
import SaturationCore.Proofs.Unification.MostGeneral
import SaturationCore.Proofs.DiscriminationTree.Forest
import SaturationCore.Proofs.DiscriminationTree.History
import SaturationCore.Proofs.DiscriminationTree.Refinement
import SaturationCore.Proofs.DiscriminationTree.Inventory
import SaturationCore.Proofs.DiscriminationTree.Census
import SaturationCore.Proofs.Retrieval.Frames
import SaturationCore.Proofs.Retrieval.Passage
import SaturationCore.Proofs.Retrieval.Search
import SaturationCore.Proofs.Retrieval.Exactness
import SaturationCore.Proofs.WellFormed
import SaturationCore.Proofs.Order.Weight
import SaturationCore.Proofs.Order.Comparison
import SaturationCore.Proofs.Order.DecisionTree
import SaturationCore.Proofs.Order.KnuthBendix
import SaturationCore.Proofs.Ledger.Instance
import SaturationCore.Proofs.Order.Stability
import SaturationCore.Proofs.Order.Literal
import SaturationCore.Proofs.Matching.Cycles
import SaturationCore.Proofs.Ledger.Replacement
import SaturationCore.Proofs.Matching.Tree
import SaturationCore.Proofs.Subsumption.Search
import SaturationCore.Proofs.Subsumption.Marked
import SaturationCore.Proofs.Subsumption.Decision
import SaturationCore.Proofs.Subsumption.Features
import SaturationCore.Proofs.FeatureVector.Trie
import SaturationCore.Proofs.FeatureVector.Selection
import SaturationCore.Proofs.Subsumption.Index
import SaturationCore.Proofs.FeatureVector.Nodes
import SaturationCore.Proofs.FeatureVector.Enumeration
import SaturationCore.Proofs.DiscriminationTree.Summary
import SaturationCore.Proofs.DiscriminationTree.Canonical
import SaturationCore.Proofs.Retrieval.Extension
import SaturationCore.Proofs.Retrieval.Lockstep
import SaturationCore.Proofs.Retrieval.Session
import SaturationCore.Proofs.Retrieval.Interleaving
import SaturationCore.Proofs.Retrieval.Retriever
import SaturationCore.Proofs.Order.LiteralStability
import SaturationCore.Proofs.Order.Termination
import SaturationCore.Proofs.Order.Simplification
import SaturationCore.Proofs.Matching.OneWay
import SaturationCore.Proofs.DiscriminationTree.Filter
import SaturationCore.Proofs.Interchange
import SaturationCore.Proofs.Subsumption.Preorder
import SaturationCore.Proofs.Order.Context
import SaturationCore.Proofs.FreeVariables
import SaturationCore.Proofs.Order.GreaterInstances
import SaturationCore.Proofs.Order.Maximal
import SaturationCore.Proofs.Order.Valuation
import SaturationCore.Proofs.Ledger.Splice
import SaturationCore.Proofs.Order.Forms
import SaturationCore.Proofs.Unification.Prefilter
import SaturationCore.Proofs.Cluster.Words
import SaturationCore.Proofs.Walk.Moves
import SaturationCore.Proofs.Walk.Agenda
import SaturationCore.Proofs.Walk.Log
import SaturationCore.Proofs.Matching.Agreement
import SaturationCore.Proofs.Ledger.Trail
import SaturationCore.Proofs.Ledger.Consistency
import SaturationCore.Proofs.Walk.Scope
import SaturationCore.Proofs.FeatureVector.Places
import SaturationCore.Proofs.Signature.History
