import Micron.Kernel.ScacheData
import Micron.Kernel.Vcache
import Micron.Kernel.Systimer
import Micron.Kernel.Filter
import Micron.Kernel.Tty
import Micron.Mkmfs.Pack
import Micron.Filesys.Bitmap
import Micron.Filesys.Write
import Micron.Lib.Names
import Micron.Filesys.Tree
import Micron.Filesys.Mount
import Micron.Filesys.Crossing
import Micron.Mkmfs.Regions
import Micron.Filesys.Table
import Micron.Filesys.Lookup
import Micron.Filesys.Attach
import Micron.Mkmfs.Layout
import Micron.Filesys.Readback
import Micron.Filesys.Save
import Micron.Filesys.Relink
import Micron.Filesys.Link
import Micron.Filesys.Inodes
import Micron.Filesys.Mkdir
import Micron.Filesys.Rmdir
import Micron.Kernel.Keyboard
import Micron.Kernel.Time
import Micron.Filesys.Format
import Micron.Kernel.ScacheMarks
import Micron.Filesys.Frame
import Micron.Filesys.Files
import Micron.Filesys.Tiles
import Micron.Filesys.Read
import Micron.Filesys.Splice
import Micron.Filesys.Removal
import Micron.Filesys.Creation
import Micron.Filesys.Recycle
import Micron.Filesys.OpenVnodes
import Micron.Kernel.Hda
import Micron.Kernel.ScacheInsert
import Micron.Kernel.ScacheCommit
import Micron.Kernel.ScacheReject
import Micron.Filesys.Position
import Micron.Filesys.Resolve
import Micron.Filesys.OpenFlags
import Micron.Filesys.Release
import Micron.Kernel.ScacheSizes
import Micron.Filesys.SuperBlock
import Micron.Kernel.HdaInit
import Micron.Boot.Loader
import Micron.Boot.KernCopy
import Micron.Kernel.TimerHandlers
import Micron.Kernel.TimerTicks
import Micron.Kernel.Number
import Micron.Filesys.NameCopy
import Micron.Mkmfs.PathLookup
import Micron.Filesys.LoadEnds
import Micron.Filesys.SaveFrame
import Micron.Kernel.ScacheCycle
import Micron.Filesys.SaveLoad
import Micron.Kernel.Clock
import Micron.Kernel.MemSize
import Micron.Kernel.Itoa
import Micron.Kernel.Device
import Micron.Kernel.Vsprintf
import Micron.Kernel.TryCatch
import Micron.Kernel.Report
import Micron.Kernel.HdaWrite
import Micron.Kernel.HdaIdentify
import Micron.Kernel.TimerRaces
import Micron.Kernel.TtyKeys
import Micron.Boot.Handoff
import Micron.Kernel.Strtime
import Micron.Kernel.Modinit
import Micron.Mkmfs.Main
