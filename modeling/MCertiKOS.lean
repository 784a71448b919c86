import MCertiKOS.Device.Firmware
import MCertiKOS.Device.Number
import MCertiKOS.FileSystem.Crash
import MCertiKOS.FileSystem.Descriptors
import MCertiKOS.FileSystem.Failures
import MCertiKOS.FileSystem.Recovery
import MCertiKOS.FileSystem.SharedCache
import MCertiKOS.FileSystem.SpawnFds
import MCertiKOS.FileSystem.Stat
import MCertiKOS.FileSystem.WorkingDir
import MCertiKOS.Memory.ElfLoad
import MCertiKOS.Memory.Mapping
import MCertiKOS.Memory.MapLists
import MCertiKOS.Memory.UserCopy
import MCertiKOS.Shell.Arguments
import MCertiKOS.Shell.Edit
import MCertiKOS.Shell.Kill
import MCertiKOS.Shell.Move
import MCertiKOS.Shell.Output
import MCertiKOS.Shell.Wiring
import MCertiKOS.Thread.Pause
import MCertiKOS.Thread.Pids
import MCertiKOS.Thread.Queues
import MCertiKOS.Thread.Ready
import MCertiKOS.Thread.Signal
import MCertiKOS.Thread.Spinlock
