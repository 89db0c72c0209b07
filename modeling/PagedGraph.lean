import PagedGraph.Json.Element
import PagedGraph.Adjacency.Estimate
import PagedGraph.Triangle.Clustering
import PagedGraph.Work.Progress
import PagedGraph.Proofs.Load.RoundTrip
import PagedGraph.Proofs.Triangle.Enumerate
import PagedGraph.Proofs.View.Reload
import PagedGraph.Proofs.Similarity.Run
import PagedGraph.Proofs.Load.Graph
import PagedGraph.Proofs.Cursor.Encoded
import PagedGraph.Proofs.Cursor.Faithful
import PagedGraph.Proofs.Page.Partition
import PagedGraph.Proofs.Load.Fold
import PagedGraph.Proofs.Load.Aligned
import PagedGraph.Proofs.Load.Transpose
import PagedGraph.Proofs.Similarity.Assembly
import PagedGraph.Proofs.View.Transpose
import PagedGraph.Proofs.Load.Calls
import PagedGraph.Proofs.Load.Columns
import PagedGraph.Proofs.Load.Faults
import PagedGraph.Proofs.Load.Rearranged
import PagedGraph.Proofs.Load.Nulls
import PagedGraph.Proofs.Load.Refused
import PagedGraph.Proofs.Numbering.Recompact
import PagedGraph.Proofs.Triangle.Counts
import PagedGraph.Proofs.View.Neighbors
import PagedGraph.Proofs.View.Agreement
import PagedGraph.Proofs.View.Symmetry
import PagedGraph.Proofs.Graph.Release
import PagedGraph.Proofs.Load.PageCount
import PagedGraph.Proofs.Similarity.Candidates
import PagedGraph.Proofs.Similarity.Graph
import PagedGraph.Proofs.Similarity.Comparison
import PagedGraph.Proofs.Load.Mergeable
import PagedGraph.Proofs.Load.ReadBack
import PagedGraph.Proofs.Graph.Lifecycle
import PagedGraph.Proofs.Codec.Canonical
import PagedGraph.Proofs.Numbering.SparseTable
import PagedGraph.Proofs.Work.Progress
import PagedGraph.Proofs.Load.Partition
import PagedGraph.Proofs.Load.Schedules
