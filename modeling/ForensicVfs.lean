import ForensicVfs.Lib.Delim
import ForensicVfs.Lib.Numeral
import ForensicVfs.Lib.BigEndian
import ForensicVfs.Lib.Result
import ForensicVfs.Lib.Template
import ForensicVfs.Lib.Slice
import ForensicVfs.Lib.OrderedSearch
import ForensicVfs.Lib.DepthFirst
import ForensicVfs.Lib.Subtree
import ForensicVfs.Lib.Worklist
import ForensicVfs.Lib.Labelled
import ForensicVfs.Lib.Simulation
import ForensicVfs.Lib.Nested
import ForensicVfs.Lib.Pooled
import ForensicVfs.Lib.Clients
import ForensicVfs.Lib.Service
import ForensicVfs.Lib.Layered
import ForensicVfs.Core.Error
import ForensicVfs.Core.Source
import ForensicVfs.Core.Adapters
import ForensicVfs.Core.Fs
import ForensicVfs.Core.Layers
import ForensicVfs.Core.Registry
import ForensicVfs.Core.Read
import ForensicVfs.Core.Locator
import ForensicVfs.Core.Uri
import ForensicVfs.Core.Display
import ForensicVfs.Resolver.Descent
import ForensicVfs.Resolver.Walk
import ForensicVfs.Resolver.Snapshot
import ForensicVfs.Resolver.Doubles
import ForensicVfs.Verify.Uri.Values
import ForensicVfs.Verify.Uri.Grammar
import ForensicVfs.Verify.Uri.RoundTrip
import ForensicVfs.Verify.Uri.Fields
import ForensicVfs.Verify.Uri.Canonical
import ForensicVfs.Verify.Uri.Legacy
import ForensicVfs.Verify.Uri.Errors
import ForensicVfs.Verify.Uri.Human
import ForensicVfs.Verify.Uri.Stored
import ForensicVfs.Verify.Descent.Tree
import ForensicVfs.Verify.Descent.Record
import ForensicVfs.Verify.Descent.LastResort
import ForensicVfs.Verify.Descent.Source
import ForensicVfs.Verify.Descent.Invariance
import ForensicVfs.Verify.Descent.Extend
import ForensicVfs.Verify.Descent.Leftmost
import ForensicVfs.Verify.Descent.Identity
import ForensicVfs.Verify.Descent.Unknown
import ForensicVfs.Verify.Descent.Cited
import ForensicVfs.Verify.Descent.Resume
import ForensicVfs.Verify.Descent.Sniff
import ForensicVfs.Verify.Descent.Verdicts
import ForensicVfs.Verify.Walk.Search
import ForensicVfs.Verify.Walk.Reach
import ForensicVfs.Verify.Walk.Turns
import ForensicVfs.Verify.Walk.Genuine
import ForensicVfs.Verify.Walk.Listing
import ForensicVfs.Verify.Walk.Below
import ForensicVfs.Verify.Walk.Spec
import ForensicVfs.Verify.Walk.Order
import ForensicVfs.Verify.Walk.Shape
import ForensicVfs.Verify.Adapters.Window
import ForensicVfs.Verify.Adapters.Cursor
import ForensicVfs.Verify.Adapters.Pool
import ForensicVfs.Verify.Adapters.Schedule
import ForensicVfs.Verify.Adapters.Stack
import ForensicVfs.Verify.Adapters.Exact
import ForensicVfs.Verify.Adapters.Transparent
import ForensicVfs.Verify.Adapters.Concurrent
import ForensicVfs.Verify.Descent.Seen
import ForensicVfs.Verify.Read.Readers
import ForensicVfs.Verify.Read.Fields
import ForensicVfs.Verify.Snapshot.Epoch
