import HushEngine.Runs
import HushEngine.Events
import HushEngine.Sketch
import HushEngine.Replay
import HushEngine.ExactlyOnce
import HushEngine.FailedFlush
import HushEngine.IdleTicks
import HushEngine.Fleet
import HushEngine.Finality
import HushEngine.DurableProgress
import HushEngine.Conservation
import HushEngine.BackgroundLoops
import HushEngine.GroundTruth
import HushEngine.Pipeline
import HushEngine.Rebalance
import HushEngine.ClockSkew
import HushEngine.TimeRange
import HushEngine.Mapping
import HushEngine.WikiSource
import HushEngine.Reconnects
import HushEngine.Privacy
import HushEngine.Suppression
import HushEngine.Rollup
import HushEngine.FlushSchedules
import HushEngine.KAnonymity
import HushEngine.Differencing
import HushEngine.Estimators
import HushEngine.Cache
import HushEngine.NoiseDraws
import HushEngine.Redelivery
import HushEngine.Reflush
import HushEngine.Thresholds
import HushEngine.SketchUnion
import HushEngine.SketchDecoding
import HushEngine.SketchHash
import HushEngine.Reads
import HushEngine.ResumeOffset
import HushEngine.Ingest
import HushEngine.MappedBatches
import HushEngine.Attribution
import HushEngine.Reconciliation
import HushEngine.Answers
import HushEngine.LiveTables
import HushEngine.ConsumeLoop
import HushEngine.Handover
import HushEngine.Chaos
import HushEngine.LoadGenerator
import HushEngine.Production
import HushEngine.EndToEnd
import HushEngine.EditFeed
import HushEngine.SketchSwitch
import HushEngine.SketchAnswers
import HushEngine.Repartitioning
import HushEngine.OpenWindows
import HushEngine.Sensitivity
import HushEngine.DailyPartitions
