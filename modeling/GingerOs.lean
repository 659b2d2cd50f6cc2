import GingerOs.Proofs.VmmPartition
import GingerOs.Proofs.SyscallGate
import GingerOs.Proofs.OpenMode
import GingerOs.Proofs.MmapCopy
import GingerOs.Proofs.Delivery
import GingerOs.Proofs.WriteOnce
import GingerOs.Proofs.PipeFifo
import GingerOs.Proofs.KillRights
import GingerOs.Proofs.SessionRun
import GingerOs.Proofs.FileRun
import GingerOs.Proofs.MmapExpand
import GingerOs.Proofs.BootMemory
import GingerOs.Proofs.SignalStores
import GingerOs.Proofs.MutexRuns
import GingerOs.Proofs.CondRuns
import GingerOs.Proofs.ParkRuns
import GingerOs.Proofs.Munmap
import GingerOs.Proofs.WriteExecute
import GingerOs.Proofs.FileOffsets
import GingerOs.Proofs.KernelStore
import GingerOs.Proofs.DentryRuns
import GingerOs.Proofs.LookupFailure
import GingerOs.Proofs.ChdirFold
import GingerOs.Proofs.UserRuns
import GingerOs.Proofs.EventRuns
import GingerOs.Proofs.LoginRuns
import GingerOs.Proofs.ConsoleRuns
import GingerOs.Proofs.TtyLines
import GingerOs.Proofs.MousePackets
import GingerOs.Proofs.QueueMirror
import GingerOs.Proofs.QueueSequence
import GingerOs.Proofs.PathTokens
import GingerOs.Proofs.Numerals
