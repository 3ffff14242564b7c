import Ovni.Player.EmuEv
import Ovni.Player.Merge
import Ovni.Runtime.FlushOrder
import Ovni.Sort.Winsort
import Ovni.Mux.Network
import Ovni.System.Model
import Ovni.Mux.Lists
import Ovni.Patch.Termination
import Ovni.Patch.Timeline
import Ovni.Patch.Rows
import Ovni.System.Resting
import Ovni.Task.Shows
import Ovni.Loom.Init
import Ovni.Loom.Metadata
import Ovni.Chan.History
import Ovni.System.Life
import Ovni.System.Affinity
import Ovni.Mux.Select
import Ovni.Stream.Bounds
import Ovni.Stream.Clocks
import Ovni.Sort.Check
import Ovni.Clkoff.Offsets
import Ovni.Mark.Types
import Ovni.Breakdown.Channels
import Ovni.Lib.Before
import Ovni.Patch.Order
import Ovni.Loom.Cpus
import Ovni.Loom.Process
import Ovni.Task.Types
import Ovni.Task.Reads
import Ovni.Mark.Labels
import Ovni.Mark.Define
import Ovni.Hwc.Create
import Ovni.Version.Parse
import Ovni.EvSpec.Compile
import Ovni.EvSpec.Inside
import Ovni.Patch.InPlace
import Ovni.Sort.Destination
import Ovni.Heap.Moves
import Ovni.System.Accelerators
import Ovni.System.Labels
import Ovni.Breakdown.Models
import Ovni.Region.Accepts
import Ovni.Region.Kernel
import Ovni.Runtime.Attributes
import Ovni.Runtime.Files
import Ovni.Json.Turns
import Ovni.Json.Objects
