import Memtoy.Lib.Trans
import Memtoy.Lib.CString
import Memtoy.Lib.Ledger
import Memtoy.Lib.MachineWord
import Memtoy.Lib.Scan
import Memtoy.Lib.Numeral
import Memtoy.Lib.Words
import Memtoy.Lib.Scanf
import Memtoy.Lib.Reader
import Memtoy.Lib.ByteMemory
import Memtoy.Lib.LinkedRing
import Memtoy.Lib.Ancestry
import Memtoy.Lib.Descriptors
import Memtoy.Lib.Baton
import Memtoy.Lib.Phrase
import Memtoy.Lib.AddressSpace
import Memtoy.Segment.Model
import Memtoy.Segment.Range
import Memtoy.Segment.Invariant
import Memtoy.Segment.Steps
import Memtoy.Segment.Api
import Memtoy.Segment.Refinement
import Memtoy.Segment.Pages
import Memtoy.Segment.Ownership
import Memtoy.Process.Tree
import Memtoy.Segment.Guard
import Memtoy.Segment.Clamp
import Memtoy.Segment.Maps
import Memtoy.Segment.Protection
import Memtoy.Segment.Remap
import Memtoy.Segment.Record
import Memtoy.Segment.FileMap
import Memtoy.Segment.Naming
import Memtoy.Segment.Settled
import Memtoy.Segment.Fixed
import Memtoy.Signal.Touch
import Memtoy.Child.Input
import Memtoy.Child.Command
import Memtoy.Child.Route
import Memtoy.Child.Handshake
import Memtoy.Child.Reap
import Memtoy.Child.Lookup
import Memtoy.Child.Bounds
import Memtoy.Command.CpuSet
import Memtoy.Command.Shell
import Memtoy.Command.Args
import Memtoy.Command.Handlers
import Memtoy.Command.Answers
import Memtoy.Command.Reports
import Memtoy.Command.Slips
import Memtoy.Command.Batch
import Memtoy.Command.Goes
import Memtoy.Command.Adjacent
import Memtoy.Command.Sizes
import Memtoy.Command.Ids
import Memtoy.Command.CpuMask
import Memtoy.Command.CpuText
import Memtoy.Command.MbindFlags
import Memtoy.Command.Policies
import Memtoy.Command.Spawned
import Memtoy.Segment.Accesses
import Memtoy.Segment.Layout
import Memtoy.Command.Dispatch
import Memtoy.Child.Prepare
import Memtoy.Command.Nodes
import Memtoy.Segment.TaskMaps
import Memtoy.Segment.MapsFormat
import Memtoy.Child.ListHead
import Memtoy.Child.Records
import Memtoy.Process.Pipes
import Memtoy.Process.Holding
import Memtoy.Process.Orphans
import Memtoy.Process.Turns
import Memtoy.Process.OneAtATime
import Memtoy.Command.Language
import Memtoy.Command.Spelling
import Memtoy.Command.Meaning
import Memtoy.Command.Script
import Memtoy.Command.Printing
import Memtoy.Command.Inventory
import Memtoy.Command.Forecast
import Memtoy.Segment.Memory
import Memtoy.Segment.Isolation
