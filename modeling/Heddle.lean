import Heddle.Object.Resume
import Heddle.Merge.VisitOrder
import Heddle.Merge.NothingLost
import Heddle.Merge.Separate
import Heddle.Refs.PackedText
import Heddle.Oplog.RecordCodec
import Heddle.Atomic.AllOrNothing
import Heddle.Object.TreeDeltaRoundTrip
import Heddle.Format.DeltaRoundTrip
import Heddle.Object.GitLayoutRoundTrip
import Heddle.Object.StatePreimage
import Heddle.SourceTarget.History
import Heddle.Repo.HistoryQuery
import Heddle.Transfer.Ancestry
import Heddle.Git.CommitRoundTrip
import Heddle.Collaboration.Convergence
import Heddle.LineDiff.Arrays
import Heddle.Visibility.SigningPayload
import Heddle.Visibility.Replicas
import Heddle.Repo.AtMostOnce
import Heddle.Manifest.Exact
import Heddle.Worktree.CrashSafety
import Heddle.Worktree.HotAgreement
import Heddle.Replication.Frontiers
import Heddle.Object.PortableNames
import Heddle.Merge.Disjoint
import Heddle.Merge.CleanLines
import Heddle.Merge.Symmetry
import Heddle.Merge.Placeholder
import Heddle.Oplog.SegmentedScan
import Heddle.Timeline.NoLoss
import Heddle.Oplog.Salvage
import Heddle.Object.TreeEdit
import Heddle.Format.PackIndex
import Heddle.Worktree.Subtrees
