import LinuxRv.Mm.CopyOnWrite
import LinuxRv.Fs.Elevator
import LinuxRv.Mm.VerifyArea
import LinuxRv.Proc.PipeWakeups
import LinuxRv.Minix.Access
import LinuxRv.Proc.Dup
import LinuxRv.Proc.FullTable
import LinuxRv.Proc.Offsets
import LinuxRv.Minix.Truncate
import LinuxRv.Fs.InodeLocks
import LinuxRv.Proc.LoadedImage
import LinuxRv.Proc.ExecSegment
import LinuxRv.Mm.Translation
import LinuxRv.Mm.FaultData
import LinuxRv.Mm.WriteProtect
import LinuxRv.Kernel.StackSwitch
import LinuxRv.Kernel.TrapReturn
import LinuxRv.Proc.KillSignal
import LinuxRv.Proc.SchedulerChoice
import LinuxRv.Proc.Timers
import LinuxRv.Proc.TtyAlarm
import LinuxRv.Proc.WaitQueue
import LinuxRv.Proc.Pids
import LinuxRv.Proc.Reaping
import LinuxRv.Chr.ConsoleWait
import LinuxRv.Chr.WholeLines
import LinuxRv.Chr.TtyWrite
import LinuxRv.Kernel.FormatStars
import LinuxRv.Kernel.NumberText
import LinuxRv.Kernel.Mktime
import LinuxRv.Proc.Credentials
import LinuxRv.User.Shell
import LinuxRv.Fs.BufferInit
