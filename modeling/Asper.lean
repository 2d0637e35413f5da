import Asper.Lib.Decimal
import Asper.Lib.Disk
import Asper.Lib.Act
import Asper.Lib.Runs
import Asper.Lib.Slice
import Asper.Lib.Scanner
import Asper.Lib.JsonEscape
import Asper.Base.Text
import Asper.Base.Utf8
import Asper.Base.Time
import Asper.Base.Proof.Calendar
import Asper.Base.Proof.Time
import Asper.Base.Proof.Duration
import Asper.Base.Uuid
import Asper.Event.Frame
import Asper.Event.Proof.Frame
import Asper.Event.Proof.Damage
import Asper.Event.Proof.Canon
import Asper.Base.Proof.Utf8
import Asper.Admin.Frames
import Asper.Admin.Proof.Frames
import Asper.Admin.Proof.Erase
import Asper.Curator.Proof.Acknowledge
import Asper.Curator.Proof.Answers
import Asper.Curator.Proof.Safety
import Asper.Record.Proof.Scan
import Asper.Record.Proof.HashTable
import Asper.Record.Hybrid
import Asper.Record.Proof.Hybrid
import Asper.Mcp.Proof.Server
import Asper.Base.Os
import Asper.Event.Index
import Asper.Event.Log
import Asper.Event.Indexed
import Asper.Event.Proof.Index
import Asper.Base.Proof.Os
import Asper.Event.Proof.Log
import Asper.Event.Proof.Recover
import Asper.Event.Proof.Indexed
import Asper.Lib.Lines
import Asper.Source.Paths
import Asper.Xcdn.Node
import Asper.Source.Store
import Asper.Source.Events
import Asper.Source.Commits
import Asper.Source.Pending
import Asper.Source.Calls
import Asper.Lib.Greedy
import Asper.Source.History
import Asper.Event.Proof.Touch
import Asper.Source.Proof.Dirs
import Asper.Source.Proof.Store
import Asper.Source.Proof.State
import Asper.Source.Proof.Events
import Asper.Source.Proof.View
import Asper.Source.Proof.Admit
import Asper.Source.Proof.Pending
import Asper.Source.Proof.Pinning
import Asper.Source.Proof.Objects
import Asper.Source.Proof.Append
import Asper.Source.Proof.Touch
import Asper.Source.Proof.Commits
import Asper.Source.Proof.Registry
import Asper.Source.Proof.History
import Asper.Source.Proof.Fill
import Asper.Lib.Sweep
import Asper.Knowledge.Status
import Asper.Knowledge.Proof.Support
import Asper.Knowledge.Proof.Refresh
import Asper.Knowledge.Proof.Rename
import Asper.Knowledge.Proof.Order
import Asper.Journal.Journal
import Asper.Journal.Proof.Replay
import Asper.Record.Store
import Asper.Record.Registry
import Asper.Record.Proof.Registry
import Asper.Record.Funnel
import Asper.Record.Calls
import Asper.Record.Proof.Funnel
import Asper.Record.Proof.Journaled
import Asper.Lib.Dense
import Asper.Record.Row
import Asper.Record.Shelf
import Asper.Lib.Template
import Asper.Record.Inject
import Asper.Record.Proof.Inject
import Asper.Knowledge.Proof.Isolation
import Asper.Record.Strings
import Asper.Record.Codec
import Asper.Record.Snapshot
import Asper.Record.Proof.Codec
import Asper.Record.Proof.Snapshot
import Asper.Record.Runs
import Asper.Record.Proof.Counts
import Asper.Record.Proof.Strings
import Asper.Record.Retrieve
import Asper.Record.Proof.Retrieve
import Asper.Lib.Buffer
import Asper.Record.Transaction
import Asper.Record.Proof.Transaction
import Asper.Record.Marker
import Asper.Record.Proof.Marker
import Asper.Record.Cache
import Asper.Record.Proof.Cache
import Asper.Base.Files
import Asper.Curator.Queue
import Asper.Curator.Wrapper
import Asper.Curator.Proof.Wrapper
import Asper.Curator.Output
import Asper.Curator.Proof.Output
import Asper.Curator.Acknowledge
import Asper.Curator.Cycle
import Asper.Curator.Proof.Authority
import Asper.Curator.Proof.Shown
import Asper.Curator.Counters
import Asper.Curator.Proof.Counters
import Asper.Lib.Monitor
import Asper.Curator.Slot
import Asper.Curator.Proof.Slot
import Asper.Curator.Proof.Quorum
import Asper.Source.Proof.Feed
import Asper.Lib.Reach
import Asper.Knowledge.Codec
import Asper.Knowledge.Store
import Asper.Knowledge.Proof.Codec
import Asper.Knowledge.Proof.Validate
import Asper.Lib.Depth
import Asper.Knowledge.Proof.Reaches
import Asper.Lib.Cover
import Asper.Knowledge.Proof.Cover
import Asper.Lib.Versions
import Asper.Knowledge.Proof.Replay
import Asper.Knowledge.Grounding
import Asper.Knowledge.Proof.Grounding
import Asper.Lib.Pager
import Asper.Source.Pages
import Asper.Knowledge.History
import Asper.Source.Proof.Pages
import Asper.Knowledge.Proof.History
import Asper.Lib.Fixed
import Asper.Curator.Timers
import Asper.Curator.Proof.Timers
import Asper.Lib.Blocks
import Asper.Lib.Sha2
import Asper.Base.Sha256
import Asper.Base.Proof.Sha256
import Asper.Journal.Proof.Atomic
import Asper.Record.Proof.Runs
import Asper.Record.Proof.Storable
import Asper.Record.Proof.Reopen
import Asper.Record.Proof.Durability
import Asper.Record.Proof.Failures
import Asper.Lib.Crash
import Asper.Record.Compaction
import Asper.Record.Live
import Asper.Record.Proof.Compaction
import Asper.Record.Proof.Compacted
import Asper.Record.Proof.Opening
import Asper.Record.Proof.Live
