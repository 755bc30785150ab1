import RelQuery.Proofs.Alias.Assign
import RelQuery.Proofs.Merge.KeyPath
import RelQuery.Proofs.Plan.Scope
import RelQuery.Proofs.Rows.Reconstruct
import RelQuery.QuerySet
import RelQuery.Settings.Source
import RelQuery.Proofs.Sql.Order
import RelQuery.Proofs.Join.Rows
import RelQuery.Proofs.Filter.Truth
import RelQuery.Proofs.Sql.Answer
import RelQuery.Proofs.Plan.Order
import RelQuery.Proofs.Rows.Read
import RelQuery.Proofs.Projection
import RelQuery.Proofs.Plan.Kept
import RelQuery.Proofs.Plan.Page
import RelQuery.Proofs.Plan.Paginate
import RelQuery.Proofs.Engine.Fetch
import RelQuery.Proofs.Engine.Page
import RelQuery.Proofs.Engine.Slice
import RelQuery.Proofs.Schema.Mirror
import RelQuery.Proofs.Rows.Gather
import RelQuery.Proofs.Join.Links
import RelQuery.Proofs.Join.Exchange
import RelQuery.Proofs.Plan.Spans
import RelQuery.Proofs.Engine.Loaded
import RelQuery.Proofs.Plan.Exists
import RelQuery.Proofs.Engine.Recorder
import RelQuery.Proofs.Engine.Roots
import RelQuery.Proofs.Prefetch.Faults
import RelQuery.Proofs.Plan.Masked
import RelQuery.Proofs.Projection.Meaning
import RelQuery.Proofs.Plan.Faults
import RelQuery.Proofs.Filter.Masked
import RelQuery.Proofs.Engine.Strategies
import RelQuery.Proofs.Engine.Count
import RelQuery.Proofs.Engine.Related
import RelQuery.Proofs.Prefetch.Attached
import RelQuery.Proofs.Sql.Spelling
import RelQuery.Proofs.Filter.Reading
import RelQuery.Proofs.Schema.Declared
import RelQuery.Proofs.Plan.Replay
import RelQuery.Proofs.Rows.Accepted
import RelQuery.Proofs.Filter.Like
import RelQuery.Proofs.Prefetch.Shares
import RelQuery.Proofs.Prefetch.FollowUps
import RelQuery.Proofs.Prefetch.HandedOver
import RelQuery.Proofs.Prefetch.Tree
import RelQuery.Proofs.Plan.Wanted
import RelQuery.Proofs.Plan.Labels
import RelQuery.Proofs.Prefetch.KeyLookups
import RelQuery.Proofs.Join.Leaves
import RelQuery.Proofs.Schema.Field
import RelQuery.Proofs.Alias.Run
import RelQuery.Proofs.Alias.Exhausted
import RelQuery.Proofs.Alias.Reordered
import RelQuery.Proofs.Merge.Fold
import RelQuery.Proofs.Path.Reread
import RelQuery.Proofs.Sql.PageBounds
import RelQuery.Proofs.Sql.Chained
