import AccessPath.Version.Checkpoint
import AccessPath.Version.DeleteUndo
import AccessPath.Transaction.Isolation
import AccessPath.Update.Conflicts
import AccessPath.Art.Bulk
import AccessPath.Art.MaxOffset
import AccessPath.Art.Vacuum
import AccessPath.Compression.BitpackingFetch
import AccessPath.Temporal.TimeTz
import AccessPath.Temporal.IntervalArithmetic
import AccessPath.Numeric.HugeintDivision
import AccessPath.Sort.MergeRound
import AccessPath.Optimizer.PropagateJoin
import AccessPath.Optimizer.TimestampComparison
import AccessPath.Sketch.Evaluate
import AccessPath.Sketch.Scalar
import AccessPath.Optimizer.PropagateExpression
import AccessPath.Strings.BitString
import AccessPath.Strings.LikeOptimizations
import AccessPath.Compression.StringCompress
import AccessPath.Compression.ValidityUncompressed
import AccessPath.Storage.BlockRuns
import AccessPath.Storage.RemoveFromIndexes
import AccessPath.Storage.TableFilter
