import Bakemono.Lib.Bytes
import Bakemono.Lib.Chain
import Bakemono.Lib.Except
import Bakemono.Lib.File
import Bakemono.Lib.Hoare
import Bakemono.Lib.Run
import Bakemono.Lib.Text
import Bakemono.Hash
import Bakemono.Dir
import Bakemono.Lib.Fields
import Bakemono.Dir.Fields
import Bakemono.Directory.Segment
import Bakemono.Directory.Manager
import Bakemono.Directory.Chains
import Bakemono.Directory.Purge
import Bakemono.Directory.Insert
import Bakemono.Directory.Delete
import Bakemono.Directory.Validate
import Bakemono.Directory.Invariant
import Bakemono.Directory.Entries
import Bakemono.Directory.Frame
import Bakemono.Directory.Sweep
import Bakemono.Directory.Crowded
import Bakemono.Directory.Set
import Bakemono.Directory.Rebuild
import Bakemono.Directory.Table
import Bakemono.Directory.Mirror
import Bakemono.Ring.State
import Bakemono.Ring.Validity
import Bakemono.Error
import Bakemono.Doc
import Bakemono.HttpInfo
import Bakemono.Ram.Entry
import Bakemono.Ram.S3Fifo
import Bakemono.Ram.Accounting
import Bakemono.Ram.Eviction
import Bakemono.Ram.Bounds
import Bakemono.Read.Reader
import Bakemono.Read.Committed
import Bakemono.Read.Object
import Bakemono.Read.Complete
import Bakemono.Write.Log
import Bakemono.Write.AggBuffer
import Bakemono.Write.Refinement
import Bakemono.Write.Barrier
import Bakemono.Write.Writer
import Bakemono.Write.Pieces
import Bakemono.Write.Document
import Bakemono.Read.WhileWrite
import Bakemono.Read.Stream
import Bakemono.Fill.Epochs
import Bakemono.Fill.Fence
import Bakemono.Fill.Group
import Bakemono.Fill.Invalidate
import Bakemono.Fill.Replace
import Bakemono.Fill.Retire
import Bakemono.Range.Manifest
import Bakemono.Range.Serve
import Bakemono.Range.Exact
import Bakemono.Range.Bounds
import Bakemono.Stripe.DirTrie
import Bakemono.Stripe.Init
import Bakemono.Stripe.State
import Bakemono.Write.Commit
import Bakemono.Stripe.Effect
import Bakemono.Stripe.Backed
import Bakemono.Stripe.Memory
import Bakemono.Write.RoundTrip
import Bakemono.Stripe.Evacuate
import Bakemono.Stripe.Ledger
import Bakemono.Stripe.Abort
import Bakemono.Proxy.Request
import Bakemono.Proxy.CacheKey
import Bakemono.Proxy.Public
import Bakemono.Proxy.Forwarding
import Bakemono.Lib.Count
import Bakemono.Server.Buffers
import Bakemono.Server.Runtime
import Bakemono.Fill.Snapshot
import Bakemono.Fill.Share
import Bakemono.Refresh.Update
import Bakemono.Refresh.Untouched
import Bakemono.Read.Genuine
import Bakemono.Refresh.Atomic
import Bakemono.Lib.Strings
import Bakemono.Lib.While
import Bakemono.HttpInfo.RoundTrip
import Bakemono.Server.Directives
import Bakemono.Server.Freshness
import Bakemono.Server.Validation
import Bakemono.Server.NotModified
import Bakemono.Store.Layout
import Bakemono.Stripe.Identities
import Bakemono.Stripe.Catalog
import Bakemono.Ram.Lossy
import Bakemono.OpenDir
import Bakemono.Checkpoint.Session
import Bakemono.Checkpoint.Recover
import Bakemono.Checkpoint.Restart
import Bakemono.Budget
import Bakemono.Fill.Fetch
