import Tina.Recycling
import Tina.Removal
import Tina.Rotation
import Tina.Victims
import Tina.Channels
import Tina.Clock
import Tina.Runs
import Tina.Splitting
import Tina.Resolution
import Tina.LongPaths
import Tina.Allocator
import Tina.Cursor
import Tina.Stream
import Tina.Overrun
import Tina.Names
import Tina.Ownership
import Tina.Wakeups
import Tina.Barrier
import Tina.Condition
import Tina.Layout
import Tina.Buffer
import Tina.Disk
import Tina.Bitmap
import Tina.Files
import Tina.Transfers
import Tina.Directory
import Tina.Intact
import Tina.Creation
import Tina.Commands
import Tina.Paths
import Tina.Mounting
import Tina.Shell
import Tina.Structure
import Tina.Refinement
import Tina.Remount
import Tina.Crash
import Tina.Reboot
import Tina.Unmounted
import Tina.Exhaustion
import Tina.Selection
import Tina.Mailbox
import Tina.Ring
import Tina.Fifo
import Tina.Frames
import Tina.Stacks
import Tina.Crowd
import Tina.Boxes
import Tina.Refresh
import Tina.Card
import Tina.Extents
import Tina.Neighbours
import Tina.Descriptors
import Tina.Stale
import Tina.Closing
import Tina.Scans
import Tina.Page
import Tina.Bounds
import Tina.Console
import Tina.Decode
import Tina.Killer
import Tina.Output
import Tina.Image
import Tina.Handover
import Tina.Hosting
import Tina.Lifetime
import Tina.Sharing
import Tina.Tlb
import Tina.Drawing
import Tina.Progress
import Tina.Fairness
import Tina.Words
import Tina.Dialogue
import Tina.Linked
import Tina.Traffic
import Tina.Relational
import Tina.Adjacent
