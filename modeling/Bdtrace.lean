import Bdtrace.General.IntervalSweep
import Bdtrace.General.PrefixIntervals
import Bdtrace.General.StoppableLoops
import Bdtrace.General.Tallies
import Bdtrace.Store.PrefixQueries
import Bdtrace.View.BuildComparison
import Bdtrace.View.Hotspots
import Bdtrace.View.ScriptTokens
import Bdtrace.View.InlineCode
import Bdtrace.View.Diagnostics
import Bdtrace.View.ParallelBuckets
import Bdtrace.View.Parallelism
import Bdtrace.Session.IdOverflow
import Bdtrace.Session.RepeatedAccesses
import Bdtrace.Session.SilentLosses
import Bdtrace.Session.InternedNames
import Bdtrace.Session.AppendedRuns
import Bdtrace.Session.AsyncWrites
import Bdtrace.Session.CommitIntegrity
import Bdtrace.Session.WriterThread
import Bdtrace.Session.InterruptedTrace
import Bdtrace.Tracer.EventLoop
import Bdtrace.Tracer.RestartRequests
import Bdtrace.Tracer.LostResumes
import Bdtrace.Tracer.ForeignTasks
import Bdtrace.Tracer.ProcessTimes
import Bdtrace.Tracer.ProcsOnly
import Bdtrace.Tracer.FastPath
import Bdtrace.Tracer.Interleavings
import Bdtrace.Tracer.InitialStops
import Bdtrace.Tracer.SignalDelivery
import Bdtrace.Tracer.TerminationSignals
import Bdtrace.Tracer.PathArguments
import Bdtrace.Tracer.TraceeMemory
import Bdtrace.Tracer.CwdCoherence
import Bdtrace.View.StoredTrees
import Bdtrace.View.NestedCollapses
import Bdtrace.View.MissingProcesses
import Bdtrace.View.ReverseDependencies
import Bdtrace.Web.JsonRoundTrip
import Bdtrace.Web.RebuildRequests
import Bdtrace.View.TreePrinting
import Bdtrace.Tracer.StallWatchdog
import Bdtrace.Tracer.StallReports
import Bdtrace.Web.FailedAccesses
import Bdtrace.Web.FileDirectories
import Bdtrace.Web.FileExplorer
import Bdtrace.Web.FileListings
import Bdtrace.Web.QueryKeys
import Bdtrace.View.PidRenaming
import Bdtrace.View.Races
import Bdtrace.View.ImpactRanking
import Bdtrace.View.FinishedRuns
import Bdtrace.View.UnfinishedRuns
import Bdtrace.View.DescendantTotals
import Bdtrace.View.ProcessIo
import Bdtrace.Web.ExpandAll
import Bdtrace.Web.ProcessEndpoints
import Bdtrace.Web.Routing
import Bdtrace.Web.SlowestProcesses
import Bdtrace.Web.SubtreeTotals
import Bdtrace.Web.TimelineDepths
