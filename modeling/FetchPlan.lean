import FetchPlan.Error.Shelf
import FetchPlan.Flow.Listing
import FetchPlan.Schema.Description
import FetchPlan.Planner
import FetchPlan.Proofs.JoinGraph.Reaches
import FetchPlan.Proofs.JoinGraph.Views
import FetchPlan.Proofs.Yields
import FetchPlan.Proofs.JoinGraph.Building
import FetchPlan.Proofs.Json.Grammar
import FetchPlan.Proofs.Schema.Consistent
import FetchPlan.Proofs.Schema.Verified
import FetchPlan.Proofs.JoinGraph.Absorbs
import FetchPlan.Proofs.Exhausts
import FetchPlan.Proofs.JoinGraph.Contracts
import FetchPlan.Proofs.JoinGraph.Optimizes
import FetchPlan.Proofs.JoinGraph.LabelPath
import FetchPlan.Proofs.JoinGraph.Tree
import FetchPlan.Proofs.JoinGraph.OptimizeTree
import FetchPlan.Proofs.Batch.FreshName
import FetchPlan.Proofs.Batch.Staged
import FetchPlan.Proofs.Planned
import FetchPlan.Proofs.Batch.Executable
import FetchPlan.Proofs.Keeps
import FetchPlan.Proofs.Flow.OnlyNavigates
import FetchPlan.Proofs.JoinGraph.Navigated
import FetchPlan.Proofs.Batch.Execution
import FetchPlan.Proofs.Batch.Selects
import FetchPlan.Proofs.Batch.Tableau
import FetchPlan.Proofs.Covers
import FetchPlan.Proofs.Batch.Multiplicity
import FetchPlan.Proofs.JoinGraph.Sourced
import FetchPlan.Proofs.JoinGraph.Walked
import FetchPlan.Proofs.Batch.Fetched
import FetchPlan.Proofs.JoinGraph.SourcedWalk
import FetchPlan.Proofs.Fetches
import FetchPlan.Proofs.JoinGraph.JoinedOn
import FetchPlan.Proofs.Joins
import FetchPlan.Proofs.JoinGraph.WellFormed
import FetchPlan.Proofs.JoinGraph.Visits
import FetchPlan.Proofs.Batch.Accepted
import FetchPlan.Proofs.Accepts
import FetchPlan.Proofs.Flow.Numbering
import FetchPlan.Proofs.Query.Exchanged
import FetchPlan.Proofs.JoinGraph.Facts
import FetchPlan.Proofs.JoinGraph.Operations
import FetchPlan.Proofs.JoinGraph.Walks
import FetchPlan.Proofs.JoinGraph.Builds
import FetchPlan.Proofs.JoinGraph.Mirrors
import FetchPlan.Proofs.JoinGraph.Exchanged
import FetchPlan.Proofs.JoinGraph.Oriented
import FetchPlan.Proofs.Exchanges
import FetchPlan.Proofs.Json.StringText
import FetchPlan.Proofs.Json.Lexing
import FetchPlan.Proofs.Json.RoundTrip
import FetchPlan.Proofs.Schema.Description
import FetchPlan.Proofs.Query.Shapes
import FetchPlan.Proofs.Query.Grammar
import FetchPlan.Proofs.Query.Respelled
import FetchPlan.Proofs.Spelling
import FetchPlan.JoinGraph.OfListing
import FetchPlan.Proofs.Flow.Numbered
import FetchPlan.Proofs.Flow.Stored
import FetchPlan.Proofs.JoinGraph.Listed
import FetchPlan.Proofs.JoinGraph.Targets
import FetchPlan.Proofs.JoinGraph.Undirected
import FetchPlan.Proofs.JoinGraph.Folded
import FetchPlan.Proofs.JoinGraph.Component
import FetchPlan.Proofs.JoinGraph.Preorder
import FetchPlan.Proofs.Batch.Emits
import FetchPlan.Proofs.Schema.Spelled
import FetchPlan.Proofs.Flow.Linked
import FetchPlan.Proofs.Flow.Scoped
import FetchPlan.Flow.Arena
import FetchPlan.Proofs.Flow.Arena
import FetchPlan.Proofs.Flow.Marked
import FetchPlan.Proofs.JoinGraph.PartByPart
import FetchPlan.Proofs.JoinGraph.RowEqualities
import FetchPlan.Proofs.Error.Context
import FetchPlan.Proofs.Batch.TableNames
import FetchPlan.Proofs.JoinGraph.ConnectTwice
import FetchPlan.Proofs.Text.Delimited
import FetchPlan.Proofs.Batch.SqlText
import FetchPlan.JoinGraph.PairArray
import FetchPlan.Proofs.OrderedSet
import FetchPlan.Proofs.Text.ByteOrder
import FetchPlan.Proofs.JoinGraph.PairArray
