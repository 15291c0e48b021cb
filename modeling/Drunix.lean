import Drunix.Mm.BootMap
import Drunix.Mm.VmaView
import Drunix.Mm.VmaGap
import Drunix.Mm.Kheap
import Drunix.Mm.Slab
import Drunix.Mm.Contents
import Drunix.Mm.Mprotect
import Drunix.Blk.Acquire
import Drunix.Ext3.Bounds
import Drunix.Ext3.Recovery
import Drunix.Vfs.UserPath
import Drunix.Arm64.RamLayout
import Drunix.Arm64.VirtioBlk
import Drunix.Proc.TaskGroup
import Drunix.Proc.FdRun
import Drunix.Proc.UserStack
import Drunix.Proc.SignalPriv
import Drunix.Proc.Poll
import Drunix.Proc.Timed
import Drunix.Io.Identity
import Drunix.Drivers.TtyInterrupt
import Drunix.Drivers.InputDev
import Drunix.Vfs.Dirents
import Drunix.User.Time
