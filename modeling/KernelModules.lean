import KernelModules.Foundation.TransitionSystem
import KernelModules.Foundation.SerialOrder
import KernelModules.Foundation.Ledger
import KernelModules.Foundation.CString
import KernelModules.Foundation.DecimalText
import KernelModules.Foundation.ListHead
import KernelModules.Foundation.Ring
import KernelModules.Foundation.Sprintf
import KernelModules.Foundation.CommandText
import KernelModules.Foundation.WellFormedCommand
import KernelModules.Foundation.LockDiscipline
import KernelModules.Foundation.ProcessTable
import KernelModules.ProcessTimes.ProcessList
import KernelModules.ProcessTimes.ProcessHistory
import KernelModules.ProcessTimes.InterruptSafety
import KernelModules.ProcessTimes.UnloadMachine
import KernelModules.ProcessTimes.TimerLifecycle
import KernelModules.RateMonotonic.TaskStruct
import KernelModules.RateMonotonic.SchedulerOperations
import KernelModules.RateMonotonic.DispachingThread
import KernelModules.RateMonotonic.AtomicRuns
import KernelModules.RateMonotonic.FailedOperations
import KernelModules.RateMonotonic.StatusCommands
import KernelModules.RateMonotonic.UtilisationAccounting
import KernelModules.RateMonotonic.SingleRunner
import KernelModules.RateMonotonic.LockBalance
import KernelModules.RateMonotonic.AdmissionBound
import KernelModules.RateMonotonic.RateMonotonicChoice
import KernelModules.RateMonotonic.PreemptionStep
import KernelModules.RateMonotonic.Interleaving
import KernelModules.RateMonotonic.LinkedRecords
import KernelModules.RateMonotonic.TaskReferences
import KernelModules.RateMonotonic.TimerRelease
import KernelModules.RateMonotonic.DispatcherWakeups
import KernelModules.RateMonotonic.RegistrationSerializability
import KernelModules.RateMonotonic.YieldDeadlock
import KernelModules.RateMonotonic.SignalledLocks
import KernelModules.RateMonotonic.UnloadMachine
import KernelModules.RateMonotonic.UnloadOrder
import KernelModules.RateMonotonic.TimedYields
import KernelModules.RateMonotonic.DriftFreeDeadlines
import KernelModules.RateMonotonic.EnforcedPeriods
import KernelModules.RateMonotonic.ProcessExits
import KernelModules.FaultProfiler.ProfilerBuffer
import KernelModules.FaultProfiler.BufferRing
import KernelModules.FaultProfiler.MonitorDrain
import KernelModules.FaultProfiler.MonitorSteps
import KernelModules.FaultProfiler.ProfilerAgreement
import KernelModules.FaultProfiler.RepeatedDrain
import KernelModules.FaultProfiler.TaskSampling
import KernelModules.FaultProfiler.StatusCommands
import KernelModules.FaultProfiler.FaultConservation
import KernelModules.FaultProfiler.SamplingMachine
import KernelModules.FaultProfiler.SamplingStops
import KernelModules.FaultProfiler.FlushDeadlock
import KernelModules.FaultProfiler.TaskListSerializability
import KernelModules.FaultProfiler.TaskListDestroy
import KernelModules.FaultProfiler.SamplingTick
import KernelModules.FaultProfiler.UtilisationColumn
import KernelModules.FaultProfiler.BufferMapping
import KernelModules.StatusFiles.MalformedCommands
import KernelModules.StatusFiles.StatusReaders
import KernelModules.StatusFiles.ReadBounds
import KernelModules.AccessControl.SecurityLabels
import KernelModules.AccessControl.LsmHooks
import KernelModules.AccessControl.SkippedPaths
import KernelModules.AccessControl.FilePermissions
import KernelModules.AccessControl.CreateThenAccess
import KernelModules.AccessControl.CredentialLineage
import KernelModules.AccessControl.ProcessLabels
import KernelModules.AccessControl.AttributeReads
import KernelModules.AccessControl.NonTargetAccess
import KernelModules.AccessControl.AliasChoice
import KernelModules.AccessControl.InitSecurityContract
import KernelModules.Foundation.TimeDemand
import KernelModules.Foundation.FixedPriority
import KernelModules.RateMonotonic.TimedExecution
import KernelModules.RateMonotonic.PromptDispatch
import KernelModules.RateMonotonic.GuaranteedDeadlines
import KernelModules.RateMonotonic.TimelyProgress
import KernelModules.Foundation.HeapProgram
import KernelModules.Foundation.SharedHeap
import KernelModules.AccessControl.HookPrograms
import KernelModules.AccessControl.ConcurrentHooks
import KernelModules.AccessControl.KernelMemory
import KernelModules.AccessControl.HookRefinement
import KernelModules.AccessControl.ConcurrentRuns
import KernelModules.AccessControl.DecidedAccesses
import KernelModules.FaultProfiler.ConcurrentMonitor
import KernelModules.FaultProfiler.WorkProcess
import KernelModules.FaultProfiler.WorkProtocol
import KernelModules.RateMonotonic.UserProcesses
import KernelModules.FaultProfiler.PrintedTotals
import KernelModules.StatusFiles.ListingText
