import CsappExperiments.Framework.System
import CsappExperiments.Framework.KeyedTable
import CsappExperiments.CLib
import CsappExperiments.ShellLab.Jobs
import CsappExperiments.ShellLab.CommandLine
import CsappExperiments.ShellLab.Machine
import CsappExperiments.ShellLab.Masks
import CsappExperiments.ShellLab.View
import CsappExperiments.ShellLab.Registry
import CsappExperiments.ShellLab.Foreground
import CsappExperiments.ShellLab.FullTable
import CsappExperiments.ShellLab.StopReports
import CsappExperiments.ShellLab.JobSlots
import CsappExperiments.ShellLab.WaitFg
import CsappExperiments.ShellLab.JobIds
import CsappExperiments.ShellLab.TerminalSignals
import CsappExperiments.ShellLab.Reaping
import CsappExperiments.CacheLab.Cache
import CsappExperiments.Framework.Recency
import CsappExperiments.CacheLab.Lru
import CsappExperiments.CacheLab.Trans
import CsappExperiments.CacheLab.Transpose
import CsappExperiments.CacheLab.AddrSplit
import CsappExperiments.CacheLab.Inclusion
import CsappExperiments.CacheLab.SetInvariant
import CsappExperiments.CacheLab.SetIndependence
import CsappExperiments.CacheLab.TraceLine
import CsappExperiments.CacheLab.Counters
import CsappExperiments.CacheLab.LineAddress
import CsappExperiments.CacheLab.TraceFile
import CsappExperiments.CacheLab.Modify
import CsappExperiments.ShellLab.Arguments
import CsappExperiments.ShellLab.ParseInPlace
import CsappExperiments.ShellLab.ReadLoop
import CsappExperiments.ShellLab.NamedJobs
import CsappExperiments.DataLab.FloatToInt
import CsappExperiments.DataLab.FloatScale
import CsappExperiments.DataLab.HowManyBits
import CsappExperiments.DataLab.Puzzles
import CsappExperiments.CacheLab.IntPow
import CsappExperiments.Framework.Memory
import CsappExperiments.MallocLab.Heap
import CsappExperiments.MallocLab.Requests
import CsappExperiments.MallocLab.Layout
import CsappExperiments.MallocLab.Realloc
import CsappExperiments.MallocLab.Checker
import CsappExperiments.MallocLab.Verdict
import CsappExperiments.MallocLab.Evaluation
import CsappExperiments.MallocLab.ReadTrace
import CsappExperiments.CacheLab.EvalPerf
import CsappExperiments.Framework.Smallest
import CsappExperiments.MallocLab.KBest
import CsappExperiments.DataLab.Btest
import CsappExperiments.DataLab.NumVal
import CsappExperiments.DataLab.Options
import CsappExperiments.Framework.Quiescence
import CsappExperiments.ShellLab.LifeCycle
import CsappExperiments.ShellLab.Listing
import CsappExperiments.ShellLab.Targets
