import Xv6Rpi.Theory.Action
import Xv6Rpi.Theory.Bytes
import Xv6Rpi.Theory.Ring
import Xv6Rpi.Kernel.State
import Xv6Rpi.Kernel.Bio
import Xv6Rpi.Kernel.BioInv
import Xv6Rpi.Theory.Machine
import Xv6Rpi.Kernel.BioRefine
import Xv6Rpi.Kernel.Log
import Xv6Rpi.Theory.Redo
import Xv6Rpi.Kernel.BioSpec
import Xv6Rpi.Kernel.LogInv
import Xv6Rpi.Kernel.LogCommit
import Xv6Rpi.Kernel.LogCrash
import Xv6Rpi.Theory.Dyadic
import Xv6Rpi.Kernel.Buddy
import Xv6Rpi.Kernel.BuddyInv
import Xv6Rpi.Kernel.BuddyHeap
import Xv6Rpi.Kernel.Fs
import Xv6Rpi.Kernel.FsRep
import Xv6Rpi.Kernel.FsBlock
import Xv6Rpi.Tools.Mkfs
import Xv6Rpi.Kernel.BlockClient
import Xv6Rpi.Proc.Pipe
import Xv6Rpi.Proc.PipeRun
import Xv6Rpi.Proc.Life
import Xv6Rpi.Proc.LifeStep
import Xv6Rpi.Proc.LifeRun
import Xv6Rpi.Proc.LifeHistory
import Xv6Rpi.Proc.Killed
import Xv6Rpi.Proc.UserMem
import Xv6Rpi.Proc.Vm
import Xv6Rpi.Proc.VmCalls
import Xv6Rpi.Proc.VmOwn
import Xv6Rpi.Proc.VmSpace
import Xv6Rpi.Proc.VmWhole
import Xv6Rpi.Theory.Count
import Xv6Rpi.Proc.VmFiles
import Xv6Rpi.Proc.VmProcs
import Xv6Rpi.Proc.VmExec
import Xv6Rpi.Proc.VmRun
import Xv6Rpi.Proc.VmFail
import Xv6Rpi.Proc.Slots
import Xv6Rpi.Theory.Cycle
import Xv6Rpi.Theory.Tiling
import Xv6Rpi.User.Umalloc
import Xv6Rpi.User.UmallocInv
import Xv6Rpi.User.UmallocRun
import Xv6Rpi.User.Shell
import Xv6Rpi.User.ShellGrammar
import Xv6Rpi.User.ShellParse
import Xv6Rpi.User.ShellText
import Xv6Rpi.Switch.Code
import Xv6Rpi.Switch.Machine
import Xv6Rpi.Switch.Discipline
import Xv6Rpi.Switch.Inv
import Xv6Rpi.Switch.Segment
import Xv6Rpi.Switch.Run
import Xv6Rpi.Proc.VmGrow
import Xv6Rpi.Proc.Elf
import Xv6Rpi.Kernel.FsRead
import Xv6Rpi.Kernel.FsWrite
import Xv6Rpi.Kernel.FsFile
import Xv6Rpi.Kernel.FileWrite
import Xv6Rpi.Kernel.SharedWrite
import Xv6Rpi.Proc.VmDir
import Xv6Rpi.Proc.VmRange
import Xv6Rpi.Proc.VmCopy
import Xv6Rpi.Proc.Exec
import Xv6Rpi.Proc.ExecLoad
import Xv6Rpi.Proc.ExecArgs
import Xv6Rpi.Proc.ExecRun
import Xv6Rpi.Proc.ExecSpec
import Xv6Rpi.Proc.Syscall
import Xv6Rpi.User.Grep
import Xv6Rpi.User.UmallocLimit
import Xv6Rpi.Proc.Console
import Xv6Rpi.Kernel.FsPath
import Xv6Rpi.Kernel.FsNamei
import Xv6Rpi.Kernel.BuddyMarks
import Xv6Rpi.Kernel.BuddyDouble
import Xv6Rpi.Proc.VmMap
import Xv6Rpi.Kernel.BuddyOrder
import Xv6Rpi.Lib.Memory
import Xv6Rpi.Kernel.InodeLayer
import Xv6Rpi.Proc.UserFile
