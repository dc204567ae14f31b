import PsMpi.Part.RoundsOk
import PsMpi.Pt2pt.SyncOk
import PsMpi.Pt2pt.Transfer
import PsMpi.Rma.GetAnswer
import PsMpi.Rma.LockSys
import PsMpi.Rma.AccountFence
import PsMpi.Part.Handshake
import PsMpi.Part.CrossTalk
import PsMpi.Connect.DirectOk
import PsMpi.Rma.AtomicOk
import PsMpi.Topo.GroupsOk
import PsMpi.Bsend.BufferOk
import PsMpi.Pg.LpidOk
import PsMpi.Pg.RefsOk
import PsMpi.Group.RunOk
import PsMpi.Topo.DistGraphOk
import PsMpi.Handle.AllocOk
import PsMpi.Nbc.Tags
import PsMpi.Tsp.FenceOk
import PsMpi.Attr.ListsOk
import PsMpi.Coll.RecexchOk
import PsMpi.Info.MergeOk
import PsMpi.Csel.RanksOk
import PsMpi.Topo.HierarchyAgree
import PsMpi.Coll.TreeDescentOk
import PsMpi.Pmi.ReadCmdOk
import PsMpi.RankMap.PrintOk
import PsMpi.Gavl.LifetimeOk
import PsMpi.Gavl.LookupOk
import PsMpi.Gavl.BalanceOk
import PsMpi.Group.ArgumentsOk
import PsMpi.Comm.CreateMapping
import PsMpi.Comm.ShrinkOk
import PsMpi.Comm.MapperRun
import PsMpi.Rma.PendingAcc
import PsMpi.Topo.DimsOk
import PsMpi.Coll.ReduceScatterOk
import PsMpi.Nbc.SchedRefsOk
import PsMpi.Csel.TotalSize
import PsMpi.Coll.BcastOk
import PsMpi.Coll.Barrier
import PsMpi.Io.FileDomainsOk
import PsMpi.Attr.CallbacksOk
import PsMpi.Data.FlattenOk
import PsMpi.Data.DarrayCommitOk
import PsMpi.ContextId.Agree
import PsMpi.Topo.CartShift
import PsMpi.Topo.CartCreateOk
import PsMpi.RankMap.ParseStops
import PsMpi.Pmi.FailResponse
import PsMpi.Pmi.Spawn
import PsMpi.Mpl.ArgStr
import PsMpi.Rma.ShmMutex
import PsMpi.ContextId.WaitList
import PsMpi.Connect.Ports
import PsMpi.Rma.ShmLayout
import PsMpi.Rma.WinCreate
