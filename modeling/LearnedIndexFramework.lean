import LearnedIndexFramework.Lib.Line
import LearnedIndexFramework.Lib.Greedy
import LearnedIndexFramework.Lib.Machine
import LearnedIndexFramework.Lib.Fallible
import LearnedIndexFramework.Metric.Model
import LearnedIndexFramework.Metric.Hull
import LearnedIndexFramework.Metric.Fit
import LearnedIndexFramework.Metric.Update
import LearnedIndexFramework.Metric.Exact
import LearnedIndexFramework.Metric.Optimal
import LearnedIndexFramework.Metric.Agree
import LearnedIndexFramework.Benchmark.Model
import LearnedIndexFramework.Benchmark.Load
import LearnedIndexFramework.Benchmark.Generate
import LearnedIndexFramework.Benchmark.Targets
import LearnedIndexFramework.Benchmark.Kinds
import LearnedIndexFramework.Lippol.Model
import LearnedIndexFramework.Lippol.Entries
import LearnedIndexFramework.Lippol.Fmcd
import LearnedIndexFramework.Lippol.Build
import LearnedIndexFramework.Lib.Overlay
import LearnedIndexFramework.Lippol.Scan
import LearnedIndexFramework.Lippol.Insert
import LearnedIndexFramework.Lippol.Remove
import LearnedIndexFramework.Lippol.State
import LearnedIndexFramework.Lib.Run
import LearnedIndexFramework.Lippol.Frame
import LearnedIndexFramework.Lippol.Runs
import LearnedIndexFramework.Lippol.Epoch
import LearnedIndexFramework.Lippol.Instances
import LearnedIndexFramework.Lib.Words
import LearnedIndexFramework.Benchmark.Files
import LearnedIndexFramework.Ours.Entries
import LearnedIndexFramework.Lippol.Depth
import LearnedIndexFramework.Lippol.Drain
import LearnedIndexFramework.Lib.Layout
import LearnedIndexFramework.Fast.Model
import LearnedIndexFramework.Fast.Layout
import LearnedIndexFramework.Fast.Search
import LearnedIndexFramework.Lib.Gallop
import LearnedIndexFramework.Lib.Gapped
import LearnedIndexFramework.Alexol.Bitmap
import LearnedIndexFramework.Alexol.DataNode
import LearnedIndexFramework.Alexol.Slots
import LearnedIndexFramework.Alexol.Insert
import LearnedIndexFramework.Alexol.WellFormed
import LearnedIndexFramework.Lib.Chain
import LearnedIndexFramework.Alexol.Index
import LearnedIndexFramework.Alexol.Fanout
import LearnedIndexFramework.Alexol.Layout
import LearnedIndexFramework.Alexol.Graft
import LearnedIndexFramework.Alexol.Replace
import LearnedIndexFramework.Alexol.Splits
import LearnedIndexFramework.Alexol.Downwards
import LearnedIndexFramework.Alexol.Built
import LearnedIndexFramework.Alexol.BulkLoad
import LearnedIndexFramework.Alexol.Outermost
import LearnedIndexFramework.Alexol.Growth
import LearnedIndexFramework.Alexol.Fill
import LearnedIndexFramework.Alexol.ExpandRoot
import LearnedIndexFramework.Alexol.InStep
import LearnedIndexFramework.Metric.Segment
import LearnedIndexFramework.Metric.Mse
import LearnedIndexFramework.Metric.Segments
import LearnedIndexFramework.Metric.MeanError
import LearnedIndexFramework.Metric.Checked
import LearnedIndexFramework.Alexol.VersionLock
import LearnedIndexFramework.Alexol.ModelLock
import LearnedIndexFramework.Lib.RightmostOne
import LearnedIndexFramework.Alexol.Iterator
import LearnedIndexFramework.Alexol.Scan
import LearnedIndexFramework.Alex.Scan
import LearnedIndexFramework.Alex.Agree
import LearnedIndexFramework.Metric.Duplicates
import LearnedIndexFramework.Metric.Canonical
import LearnedIndexFramework.Metric.Protocol
import LearnedIndexFramework.Metric.Outside
import LearnedIndexFramework.Metric.Chunks
import LearnedIndexFramework.Metric.Generators
import LearnedIndexFramework.Benchmark.Truncated
import LearnedIndexFramework.Benchmark.Difference
import LearnedIndexFramework.Ours.Uniform
import LearnedIndexFramework.Metric.Constraint
import LearnedIndexFramework.Metric.Partition
import LearnedIndexFramework.Metric.Filling
import LearnedIndexFramework.Metric.Tangent
import LearnedIndexFramework.Lib.Layers
import LearnedIndexFramework.Pgm.Model
import LearnedIndexFramework.Pgm.Search
import LearnedIndexFramework.Pgm.Levels
import LearnedIndexFramework.Pgm.Insert
import LearnedIndexFramework.Pgm.Find
import LearnedIndexFramework.Pgm.Iterator
import LearnedIndexFramework.Lib.Tournament
import LearnedIndexFramework.Pgm.LoserTree
import LearnedIndexFramework.Pgm.LowerBound
import LearnedIndexFramework.Pgm.Advance
import LearnedIndexFramework.Pgm.Scan
import LearnedIndexFramework.Pgm.Build
import LearnedIndexFramework.Pgm.Range
import LearnedIndexFramework.Pgm.Growth
import LearnedIndexFramework.Pgm.Interface
import LearnedIndexFramework.Lib.Rounding
import LearnedIndexFramework.Pgm.Static
import LearnedIndexFramework.Pgm.Segmentation
import LearnedIndexFramework.Pgm.Prediction
import LearnedIndexFramework.Pgm.Positions
import LearnedIndexFramework.Pgm.Level
import LearnedIndexFramework.Pgm.StaticBuild
import LearnedIndexFramework.Pgm.StaticSearch
import LearnedIndexFramework.Pgm.Indexed
import LearnedIndexFramework.Lib.OrderedMap
import LearnedIndexFramework.Ours.Naive
