import Keybench.Config.SizeGrammar
import Keybench.Engine.KeyOrder
import Keybench.Engine.RocksdbOptions
import Keybench.Engine.TidesdbBrackets
import Keybench.Engine.TidesdbConfig
import Keybench.Hist.Percentile
import Keybench.Hist.Saturation
import Keybench.Kv.Attempts
import Keybench.Kv.Counters
import Keybench.Kv.Deletes
import Keybench.Kv.Gather
import Keybench.Kv.Limits
import Keybench.Kv.Lists
import Keybench.Plot.RoundTrip
import Keybench.Plot.Timeline
import Keybench.Run.AffinityText
import Keybench.Run.BlockDevice
import Keybench.Run.Cells
import Keybench.Run.DiskUsage
import Keybench.Run.IntList
import Keybench.Run.Medians
import Keybench.Run.Plotter
import Keybench.Run.Precedence
import Keybench.Run.Replay
import Keybench.Run.ReportDir
import Keybench.Run.Sampler
import Keybench.Run.Stores
import Keybench.Run.WorkerEnds
import Keybench.Skiplist.Close
import Keybench.Skiplist.Draws
import Keybench.Workload.IndexRuns
import Keybench.Workload.SharedBatches
import Keybench.Workload.SharedSeed
import Keybench.Workload.WholeVerbs
