import PlanarJoin.Arrangement.Contact
import PlanarJoin.Arrangement.Crossing
import PlanarJoin.Arrangement.Edge
import PlanarJoin.Arrangement.Fan
import PlanarJoin.Arrangement.Outline
import PlanarJoin.Binary64.Exact
import PlanarJoin.Binary64.Expansion
import PlanarJoin.Binary64.Hypot
import PlanarJoin.Binary64.Order
import PlanarJoin.Decimal.Shortest
import PlanarJoin.Decimal.Spelling
import PlanarJoin.Decimal.Style
import PlanarJoin.Envelope.Basic
import PlanarJoin.Envelope.Text
import PlanarJoin.Failure
import PlanarJoin.Geometry.Basic
import PlanarJoin.Geometry.Centroid
import PlanarJoin.Geometry.Dimension
import PlanarJoin.Geometry.Distance
import PlanarJoin.Geometry.Meeting
import PlanarJoin.Geometry.Position
import PlanarJoin.Geometry.Segment
import PlanarJoin.Geometry.Turn
import PlanarJoin.Index.Basic
import PlanarJoin.Index.Buckets
import PlanarJoin.Index.Grid
import PlanarJoin.Index.Layout
import PlanarJoin.Index.Packed
import PlanarJoin.Index.Quadrants
import PlanarJoin.Index.Tiers
import PlanarJoin.Journal.Building
import PlanarJoin.Journal.Querying
import PlanarJoin.Journal.Record
import PlanarJoin.Json.Reader
import PlanarJoin.Json.Token
import PlanarJoin.Json.Value
import PlanarJoin.Json.Writer
import PlanarJoin.Matching.Batches
import PlanarJoin.Matching.Plan
import PlanarJoin.Matching.Rule
import PlanarJoin.Matching.Stream
import PlanarJoin.Nearest.Heap
import PlanarJoin.Nearest.Search
import PlanarJoin.Nearest.Selector
import PlanarJoin.Object.Basic
import PlanarJoin.Object.Relation
import PlanarJoin.Proofs.Binary64.Arithmetic
import PlanarJoin.Proofs.Binary64.Rank
import PlanarJoin.Proofs.Binary64.Rounding
import PlanarJoin.Query.Crew
import PlanarJoin.Query.Join
import PlanarJoin.Query.Nearest
import PlanarJoin.Settings.Basic
import PlanarJoin.Settings.Json
import PlanarJoin.Tiling.Basic
import PlanarJoin.Tiling.Collection
import PlanarJoin.Tiling.Ownership
import PlanarJoin.Proofs.Binary64.Monotone
import PlanarJoin.Proofs.Binary64.Root
import PlanarJoin.Proofs.Envelope.Order
import PlanarJoin.Proofs.Tiling.Ownership
import PlanarJoin.Proofs.Tiling.Uniform
import PlanarJoin.Proofs.Gathering
import PlanarJoin.Proofs.Rounds
import PlanarJoin.Proofs.Index.Candidates
import PlanarJoin.Proofs.Matching.Pairs
import PlanarJoin.Proofs.Nearest.Heap
import PlanarJoin.Proofs.Nearest.Search
import PlanarJoin.Proofs.Query.Crew
import PlanarJoin.Proofs.Query.Join
import PlanarJoin.Proofs.Query.Nearest
import PlanarJoin.Proofs.Geometry.Bounds
import PlanarJoin.Proofs.Matching.Strategies
import PlanarJoin.Proofs.Index.Exactness
import PlanarJoin.Proofs.Nearest.Scan
import PlanarJoin.Proofs.Binary64.Halving
import PlanarJoin.Proofs.Index.Tiers
import PlanarJoin.Proofs.Tiling.Coverage
import PlanarJoin.Proofs.Query.Repeats
import PlanarJoin.Proofs.Query.Parallel
import PlanarJoin.Proofs.Query.Distinct
import PlanarJoin.Proofs.Geometry.Vertexless
import PlanarJoin.Proofs.Envelope.Growing
import PlanarJoin.Proofs.Matching.Batches
import PlanarJoin.Proofs.Matching.EmptyItems
import PlanarJoin.Proofs.Query.Switch
import PlanarJoin.Proofs.Nearest.Offers
import PlanarJoin.Proofs.Query.Failures
import PlanarJoin.Proofs.Decimal.Spelling
import PlanarJoin.Proofs.Json.Number
import PlanarJoin.Proofs.Json.Grammar
import PlanarJoin.Proofs.Json.Pieces
import PlanarJoin.Proofs.Json.Reader
import PlanarJoin.Proofs.Json.Texts
import PlanarJoin.Proofs.Json.Token
import PlanarJoin.Proofs.Json.Writer
import PlanarJoin.Proofs.Settings.Records
import PlanarJoin.Proofs.Settings.RoundTrip
import PlanarJoin.Proofs.Settings.Drafts
import PlanarJoin.Proofs.Nearest.Parts
import PlanarJoin.Proofs.Index.Shape
import PlanarJoin.Proofs.Query.Endings
import PlanarJoin.Proofs.Nearest.Ties
import PlanarJoin.Proofs.Index.Cuts
import PlanarJoin.Proofs.Query.Once
import PlanarJoin.Proofs.Matching.Containment
import PlanarJoin.Proofs.Query.Groups
import PlanarJoin.Proofs.Query.Boundary
import PlanarJoin.Proofs.Matching.Tallies
import PlanarJoin.Proofs.Tiling.Contents
import PlanarJoin.Proofs.Index.Contents
import PlanarJoin.Proofs.Tiling.Lifecycle
import PlanarJoin.Proofs.Binary64.Bounded
import PlanarJoin.Proofs.Tiling.Covering
import PlanarJoin.Proofs.Matching.Symmetry
import PlanarJoin.Proofs.Binary64.Whole
import PlanarJoin.Proofs.Index.Counts
import PlanarJoin.Proofs.Nearest.Usable
import PlanarJoin.Proofs.Index.Places
import PlanarJoin.Proofs.Envelope.Points
