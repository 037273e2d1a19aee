import Theft.Lib.PackedBits
import Theft.Lib.Exec
import Theft.Lib.TwistedRegister
import Theft.Lib.BinaryFloat
import Theft.Lib.Dialogue
import Theft.Rng
import Theft.Pool
import Theft.PoolRead
import Theft.Random
import Theft.RandomStream
import Theft.MersenneTwister
import Theft.PoolInv
import Theft.Source
import Theft.BulkBuffer
import Theft.Bloom
import Theft.BloomExact
import Theft.BloomGrowth
import Theft.Autoshrink
import Theft.PoolEdit
import Theft.AutoshrinkSafe
import Theft.AutoshrinkFrame
import Theft.AutoshrinkLedger
import Theft.PoolGenerations
import Theft.Replay
import Theft.Runner
import Theft.Shrink
import Theft.Trial
import Theft.Run
import Theft.Frames
import Theft.RunFrames
import Theft.Trials
import Theft.TrialBooks
import Theft.Released
import Theft.Accounting
import Theft.Held
import Theft.Books
import Theft.ArgHashes
import Theft.PoolHash
import Theft.ShrinkStep
import Theft.ShrinkBooks
import Theft.TrialStart
import Theft.Genuine
import Theft.HookView
import Theft.Seeds
import Theft.Addresses
import Theft.TrialSeed
import Theft.Ownership
import Theft.Errors
import Theft.ErrorPaths
import Theft.ErrorRuns
import Theft.LocalMinimum
import Theft.CalledOnce
import Theft.DirectGeneration
import Theft.MutationEnds
import Theft.ShrinkEnds
import Theft.ShrinkDescends
import Theft.AlwaysSeeds
import Theft.ShrinkEndless
import Theft.ShrinkTermination
import Theft.Fork
import Theft.ForkCalls
import Theft.ForkErrors
import Theft.ForkEnds
import Theft.ForkChildren
import Theft.ForkVerdict
import Theft.LiveFrees
import Theft.LiveRuns
import Theft.BloomLimits
import Theft.DropSelection
import Theft.DropProgress
import Theft.Truncation
import Theft.MutationReport
import Theft.BitExtents
import Theft.BuiltinScalars
import Theft.RandomChoice
import Theft.CharArray
import Theft.Hexdump
import Theft.MaskProgress
import Theft.PoolDump
import Theft.ShiftAmounts
import Theft.Lib.BitValue
import Theft.MutationOrder
import Theft.Protocol
import Theft.ShrinkProtocol
import Theft.RunProtocol
import Theft.Verdict
import Theft.AttemptCounts
import Theft.FirstFailHalt
import Theft.Lib.Mirror
import Theft.Watching
import Theft.WatchedRuns
import Theft.SeededArguments
import Theft.Weights
import Theft.MutationDraws
import Theft.WeightRuns
import Theft.Lib.ScaledTally
import Theft.Progress
import Theft.ProgressRuns
import Theft.Lib.Exchanges
import Theft.ShrinkRefines
