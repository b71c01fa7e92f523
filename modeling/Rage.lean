import Rage.Framing
import Rage.StableSort
import Rage.Runs
import Rage.Overlay
import Rage.FileSystem
import Rage.PathSpelling
import Rage.Utf8Text
import Rage.Wildcard
import Rage.Fingerprint
import Rage.WeakCollisions
import Rage.StrongSet
import Rage.AccessEvents
import Rage.ReadCoverage
import Rage.Abi
import Rage.AbiSeparation
import Rage.TwoPhaseCache
import Rage.CacheFiles
import Rage.RecordedHits
import Rage.PathsetFile
import Rage.CacheSoundness
import Rage.PackageTask
import Rage.SandboxFallback
import Rage.Observation
import Rage.RunWindow
import Rage.AbiCutoff
import Rage.IncrementalBuild
import Rage.ArtifactStore
import Rage.SideFiles
import Rage.RootTask
import Rage.RootImitation
import Rage.InstallMarker
import Rage.RestoredInstall
import Rage.InstalledReads
import Rage.InstallView
import Rage.SharedHost
import Rage.WorkspaceKeys
import Rage.Separation
import Rage.TaskList
import Rage.Scheduler
import Rage.DependencyOrder
import Rage.FailureContainment
import Rage.FirstError
import Rage.CommandLife
import Rage.BudgetWakeup
import Rage.Liveness
import Rage.Admission
import Rage.HubDag
import Rage.HubReports
import Rage.HubRun
import Rage.HubProgress
import Rage.HubDrive
import Rage.HubBuild
import Rage.Coordinator
import Rage.Spokes
import Rage.Inodes
import Rage.LinkedStore
import Rage.PostinstallCache
import Rage.StoreIntegrity
import Rage.AtomicPut
import Rage.PostinstallPhase
import Rage.Lockfile
import Rage.LockfileKeys
import Rage.FileProtocol
import Rage.PostinstallKeys
import Rage.DeltaRoundTrip
import Rage.Reconciler
import Rage.LatestBuild
import Rage.Watcher
import Rage.SelfTrigger
import Rage.Broadcast
import Rage.Dashboard
import Rage.DashboardSync
import Rage.Posix
import Rage.Extraction
import Rage.Containment
import Rage.Escape
import Rage.GlobLanguage
import Rage.Listing
import Rage.DeclaredInputs
import Rage.NpmLockfile
import Rage.YarnClassic
import Rage.LockText
import Rage.YarnBerry
import Rage.PnpmLockfile
import Rage.PnpmReads
import Rage.PipeProto
import Rage.NodePath
import Rage.VersionDirs
import Rage.ToolPath
import Rage.Layers
import Rage.TaskLevels
import Rage.Discovery
import Rage.ActiveCount
import Rage.WhyMiss
import Rage.ReplayedOutput
import Rage.AffectedScope
import Rage.InstallScripts
import Rage.PackageRoundTrip
import Rage.FileRestore
import Rage.ListingOrder
import Rage.DependencyClosure
import Rage.JsonText
import Rage.LineStream
import Rage.EventMessages
import Rage.EventServer
import Rage.ObservedPaths
import Rage.Rebuild
import Rage.CriticalPath
import Rage.DaemonFiles
import Rage.DaemonSocket
import Rage.Workers
import Rage.ParallelBuild
import Rage.HubVerdict
import Rage.EarlyCutoff
import Rage.CachedRun
import Rage.HubOutputs
import Rage.ScopedBuild
import Rage.CaptureHistory
