import SysPerf.ConnectServerSettles
import SysPerf.CreateProcessesEnds
import SysPerf.CreateTasksContract
import SysPerf.CsvFileErrors
import SysPerf.CtxSwitchKernelMain
import SysPerf.CtxSwitchKernelPins
import SysPerf.CtxSwitchMainRuns
import SysPerf.DescriptorUse
import SysPerf.EchoWorker
import SysPerf.FileContentionContract
import SysPerf.FileContentionEnds
import SysPerf.FileReadsContract
import SysPerf.IntSession
import SysPerf.LocalAveragesExact
import SysPerf.MemoryBandwidthPlain
import SysPerf.PageFault
import SysPerf.RamAccessBytes
import SysPerf.SameWork
import SysPerf.ServerIsolation
import SysPerf.SessionFaultless
import SysPerf.SessionPhases
import SysPerf.StatsFrame
import SysPerf.StatsInt
import SysPerf.TransferSamples
