import PmcBench.AssertedAccess
import PmcBench.Quiescence
import PmcBench.Bookkeeping
import PmcBench.TableExtent
import PmcBench.Workers
import PmcBench.SharedArray
import PmcBench.Pinning
import PmcBench.Cleanup
import PmcBench.Handshake
import PmcBench.EndToEnd
import PmcBench.LogText
import PmcBench.MainRitika
import PmcBench.KernelModule
import PmcBench.Teardown
import PmcBench.ReadFailures
import PmcBench.Overwrites
import PmcBench.WorkingBuffers
import PmcBench.HalfArray
import PmcBench.Locality
import PmcBench.MatrixDoubling
import PmcBench.Generator
import PmcBench.CacheParams
import PmcBench.PerfMonLeaf
import PmcBench.L3Readings
import PmcBench.Completion
import PmcBench.WrmsrRuns
import PmcBench.MsrtestEnds
import PmcBench.CacheReports
import PmcBench.FileWork
import PmcBench.PlotScript
