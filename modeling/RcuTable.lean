import RcuTable.Zone.Effect
import RcuTable.Zone.Grace
import RcuTable.Zone.Accounting
import RcuTable.Zone.Synchronize
import RcuTable.Lib.Chain
import RcuTable.Lib.Prog
import RcuTable.Table.Model
import RcuTable.Table.View
import RcuTable.Table.Rules
import RcuTable.Table.Slist
import RcuTable.Table.Resize
import RcuTable.Table.Shrink
import RcuTable.Lib.Segments
import RcuTable.Table.Expand
import RcuTable.Table.Unzip
import RcuTable.Table.ResizeEffect
import RcuTable.Table.Ops
import RcuTable.Table.Init
import RcuTable.Table.Session
import RcuTable.Table.Counting
import RcuTable.Table.LoadFactor
import RcuTable.Table.Keyed
import RcuTable.Table.Search
import RcuTable.Table.Refusal
import RcuTable.Table.Append
import RcuTable.Table.Lookup
import RcuTable.Table.BucketIndex
import RcuTable.Zone.Registry
import RcuTable.Zone.Layout
import RcuTable.Dlist.Model
import RcuTable.Dlist.Ops
import RcuTable.Dlist.Sequence
import RcuTable.Dlist.Erase
import RcuTable.Dlist.Concurrent
import RcuTable.Dlist.Traversal
import RcuTable.System.Walk
import RcuTable.System.Find
import RcuTable.System.Model
import RcuTable.Zone.Young
import RcuTable.System.Invariant
import RcuTable.System.Run
import RcuTable.System.Lookup
import RcuTable.System.Reclaim
import RcuTable.System.History
import RcuTable.Lib.Switch
import RcuTable.System.Linearize
import RcuTable.System.Batch
import RcuTable.Lib.Protocol
import RcuTable.Table.Arrays
import RcuTable.System.Ownership
import RcuTable.Lib.Loops
import RcuTable.Table.Rounds
import RcuTable.Table.SlistOps
import RcuTable.Table.SlistRun
import RcuTable.Zone.Progress
import RcuTable.Lib.Cost
import RcuTable.System.Progress
import RcuTable.Client.Publish
import RcuTable.Client.QuickExample
import RcuTable.Dlist.Removals
import RcuTable.Client.DlistTest
import RcuTable.Slist.Answers
import RcuTable.Client.SingleThread
import RcuTable.Client.StressRun
