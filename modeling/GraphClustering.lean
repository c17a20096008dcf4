import GraphClustering.IR
import GraphClustering.Block
import GraphClustering.Cluster
import GraphClustering.MoveSet
import GraphClustering.Merge
import GraphClustering.Invariant
import GraphClustering.MergeSpec
import GraphClustering.Run
import GraphClustering.Strategy
import GraphClustering.Candidates
import GraphClustering.Rewrite
import GraphClustering.Semantics
import GraphClustering.CreateCalls
import GraphClustering.Layout
import GraphClustering.Rewritten
import GraphClustering.Equivalence
import GraphClustering.Scope
import GraphClustering.Pass
import GraphClustering.Fallback
import GraphClustering.ReturnPositions
import GraphClustering.PassOutcome
import GraphClustering.FallbackPass
