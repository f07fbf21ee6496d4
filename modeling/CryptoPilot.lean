import CryptoPilot.Live.History
import CryptoPilot.Live.DelistedLag
import CryptoPilot.Live.SchedulerRuns
import CryptoPilot.Live.Resync
import CryptoPilot.Engine.FinishedLifecycle
import CryptoPilot.Engine.Coupled
import CryptoPilot.Engine.Lifecycle
import CryptoPilot.Capture.Corruption
import CryptoPilot.Capture.GridSamplerRuns
import CryptoPilot.Streams.LiquidationRuns
import CryptoPilot.Live.SignalRuns
import CryptoPilot.Archive.CoverageRuns
import CryptoPilot.Archive.Sealing
import CryptoPilot.Archive.ImportDays
import CryptoPilot.Archive.SourceGaps
import CryptoPilot.Research.SealedPlans
import CryptoPilot.Backtests.RetentionPlan
import CryptoPilot.Live.BookedNotional
import CryptoPilot.Engine.AccountConserves
import CryptoPilot.Strategy.SizingSafety
import CryptoPilot.Strategy.SnapshotCache
import CryptoPilot.Research.TrialEvidence
import CryptoPilot.Live.UnitHistory
import CryptoPilot.Lab.PrefixCausal
import CryptoPilot.Live.ExecutorLabels
import CryptoPilot.Live.SliceRuns
import CryptoPilot.Live.ForceCloses
import CryptoPilot.Live.BasisConserves
import CryptoPilot.Engine.TrancheContracts
import CryptoPilot.Engine.SpreadClock
import CryptoPilot.Engine.TapeFillRuns
import CryptoPilot.Engine.SettleContracts
import CryptoPilot.Live.JournalCrashes
import CryptoPilot.Live.LedgerRuns
import CryptoPilot.Strategy.ZombieMask
import CryptoPilot.Strategy.GrowthSizing
import CryptoPilot.Research.TrialCollisions
import CryptoPilot.Archive.CollectCounts
import CryptoPilot.Engine.DailyReturns
