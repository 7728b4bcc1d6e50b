import Postings.Archive.Basic
import Postings.Archive.Encode
import Postings.Bits.Basic
import Postings.Bits.Reader
import Postings.Bits.Regions
import Postings.Bits.Scan
import Postings.Bits.Stored
import Postings.Bits.Truncate
import Postings.Bits.Universal
import Postings.Bits.View
import Postings.Bits.Words
import Postings.Bytes
import Postings.Codec.Base128
import Postings.Codec.Block
import Postings.Codec.Buffer
import Postings.Codec.Grouped
import Postings.Codec.Input
import Postings.Codec.Interpolative
import Postings.Codec.Kind
import Postings.Decimal
import Postings.Density
import Postings.Error
import Postings.Index.Basic
import Postings.Index.Builder
import Postings.Index.Create
import Postings.Index.Cursor
import Postings.Index.Header
import Postings.Index.Intersection
import Postings.Index.PostingList
import Postings.Index.Stored
import Postings.Index.Verify
import Postings.Plan.Cost
import Postings.Plan.Exact
import Postings.Plan.Optimal
import Postings.Plan.ShortestPath
import Postings.Plan.Windows
import Postings.Power
import Postings.Sample.Collection
import Postings.Sample.Docs
import Postings.Sample.Draws
import Postings.Sample.Wyrand
import Postings.Sequence.Adaptive
import Postings.Sequence.EliasFano
import Postings.Sequence.FixedWidth
import Postings.Sequence.Format
import Postings.Sequence.GapBlocks
import Postings.Sequence.Monotone
import Postings.Sequence.Partitioned
import Postings.Sequence.Plain
import Postings.Sequence.Planned
import Postings.Sequence.PrefixSums
import Postings.Sequence.Scan
import Postings.Sequence.Settings
import Postings.Word
import Postings.Work.Channel
import Postings.Work.Pool
import Postings.Work.Queue
import Postings.Proofs.Bits.Carry
import Postings.Proofs.Checked
import Postings.Proofs.Bits.Fields
import Postings.Proofs.Codec.Bytes
import Postings.Proofs.Codec.GroupUnary
import Postings.Proofs.Codec.Block
import Postings.Proofs.Codec.Buffer
import Postings.Proofs.Sequence.FixedWidth
import Postings.Proofs.Bits.InPlace
import Postings.Proofs.Bits.Marks
import Postings.Proofs.Sequence.EliasFano.Written
import Postings.Proofs.Sequence.EliasFano.Walk
import Postings.Proofs.Sequence.GapBlocks.Gaps
import Postings.Proofs.Sequence.GapBlocks.Walk
import Postings.Proofs.Sequence.GapBlocks.Reading
import Postings.Proofs.Sequence.Adaptive
import Postings.Proofs.Sequence.Partitioned.Bounds
import Postings.Proofs.Sequence.Partitioned.Written
import Postings.Proofs.Sequence.Partitioned.Opened
import Postings.Proofs.Sequence.Partitioned.Walk
import Postings.Proofs.Sequence.Partitioned.Faithful
import Postings.Proofs.Codec.Length
import Postings.Proofs.Plan.Ways
import Postings.Proofs.Plan.Exact
import Postings.Proofs.Plan.Windows
import Postings.Proofs.Plan.Superblocks
import Postings.Proofs.Plan.Optimal
import Postings.Proofs.Sequence.Planned
import Postings.Proofs.Sequence.Accepted
import Postings.Proofs.Bits.Regions
import Postings.Proofs.Loading
import Postings.Proofs.Bits.Stored
import Postings.Proofs.Index.Fields
import Postings.Proofs.Index.Cursor
import Postings.Proofs.Index.Opened
import Postings.Proofs.Index.Builder
import Postings.Proofs.Index.Create
import Postings.Proofs.Index.Stored
import Postings.Proofs.Index.Accepted
import Postings.Proofs.Plan.Approximate
import Postings.Proofs.Codec.Exact
import Postings.Proofs.Bits.Cut
import Postings.Proofs.Sequence.Damage
import Postings.Proofs.Sequence.GapBlocks.Cut
import Postings.Proofs.Sequence.Adaptive.Cut
import Postings.Proofs.Sequence.Partitioned.Cut
import Postings.Proofs.Sequence.Truncated
import Postings.Proofs.Work.Queue
import Postings.Proofs.Index.Verify
import Postings.Proofs.Index.Difference
import Postings.Proofs.Sequence.Partitioned.Opening
import Postings.Proofs.Sequence.Scan
import Postings.Proofs.Sequence.Batches
import Postings.Proofs.Sequence.Aligned
import Postings.Proofs.Sample.Collection
import Postings.Proofs.Archive.Lists
import Postings.Proofs.Archive.Records
import Postings.Proofs.Archive.Encode
import Postings.Proofs.Sequence.Adaptive.Chosen
import Postings.Proofs.Codec.Runs
import Postings.Proofs.Codec.Checked
import Postings.Proofs.Codec.CheckedBlocks
import Postings.Proofs.Sequence.GapBlocks.Readers
import Postings.Proofs.Work.Joined
import Postings.Proofs.Work.Refusals
import Postings.Proofs.Plan.Moments
import Postings.Proofs.Plan.Traced
import Postings.Proofs.Plan.Honest
import Postings.Proofs.Plan.Splitting
import Postings.Proofs.Sequence.Adaptive.Estimate
import Postings.Proofs.Sequence.Partitioned.Measured
import Postings.Proofs.Sequence.Guarded
import Postings.Proofs.Sequence.PrefixSums
import Postings.Proofs.Sequence.Tables
import Postings.Proofs.Bits.Script
import Postings.Proofs.Bits.Scans
import Postings.Proofs.Bits.Universal
import Postings.Proofs.Bits.Codewords
import Postings.Proofs.Bits.Header
import Postings.Proofs.Plan.Sliding
import Postings.Proofs.Codec.Symbols
import Postings.Proofs.Codec.CheckedSymbols
