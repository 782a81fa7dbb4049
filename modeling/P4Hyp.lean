import P4Hyp.Lib.Run
import P4Hyp.VirtioBlk.Status
import P4Hyp.VirtioBlk.Sectors
import P4Hyp.VirtioBlk.Level
import P4Hyp.VirtioBlk.Notify
import P4Hyp.VirtioBlk.Confine
import P4Hyp.VirtioBlk.Reset
import P4Hyp.VirtioBlk.Delivery
import P4Hyp.Hart
import P4Hyp.Wakeup
import P4Hyp.Inject
import P4Hyp.Zicsr
import P4Hyp.Nest
import P4Hyp.Receive
import P4Hyp.Wfi
import P4Hyp.Cycles
import P4Hyp.User
import P4Hyp.Refused
import P4Hyp.Fetch
import P4Hyp.Pmp
import P4Hyp.BootPatch
import P4Hyp.Vectors
import P4Hyp.Gateway
import P4Hyp.ClaimOrder
import P4Hyp.LoadStore
import P4Hyp.Narrow
import P4Hyp.VirtioBlk.Bounce
import P4Hyp.VirtioBlk.Written
import P4Hyp.VirtioBlk.Disk
import P4Hyp.Mkflt.PcRelative
import P4Hyp.Mkflt.Position
import P4Hyp.Mkflt.Placing
import P4Hyp.Romfs.RoundTrip
import P4Hyp.Romfs.Names
import P4Hyp.Romfs.Circles
import P4Hyp.Romfs.Extents
import P4Hyp.Probes
import P4Hyp.Keys
import P4Hyp.Render
import P4Hyp.Screen.Slot
import P4Hyp.Screen.Scroll
import P4Hyp.Screen.Resync
import P4Hyp.Screen.Plain
import P4Hyp.Screen.Charset
import P4Hyp.Screen.Stray
import P4Hyp.Screen.Pen
import P4Hyp.Screen.Motion
import P4Hyp.Screen.Growth
import P4Hyp.Screen.Swallow
import P4Hyp.Screen.Clean
import P4Hyp.Screen.Chunks
import P4Hyp.LogView
import P4Hyp.RawKeys
import P4Hyp.Scrape
import P4Hyp.Virtual.Refine
import P4Hyp.Boot.Image
import P4Hyp.Boot.Rest
import P4Hyp.Watch
import P4Hyp.Display.Clean
import P4Hyp.Display.Mirror
import P4Hyp.Display.Session
