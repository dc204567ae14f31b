import PsMpi.Group.OpsOk

/-!
# Shrinking a communicator

See `MPIR_Comm_shrink_impl` (`mpich2/src/mpi/comm/ulfm_impl.c:125`) and
`MPIR_Comm_create_group_impl` (`mpich2/src/mpi/comm/comm_impl.c:580`).
-/

namespace PsMpi.Shrink

open PsMpi.Groups

/-- `MPIX_ERR_PROC_FAILED` and `MPI_ERR_OTHER` (`mpi.h.in`). -/
inductive ErrClass where
  | procFailed
  | other
deriving DecidableEq

/-- `MPIR_Errflag_t` (`mpir_misc.h:21`). -/
def ErrClass.flag : ErrClass → Nat
  | .procFailed => 101
  | .other => 15

abbrev Errno := Option ErrClass

/-! ## Groups and communicators -/

structure GroupObj where
  refs : Int
  freed : Bool
  group : MpiGroup

structure CommObj where
  refs : Int
  freed : Bool
  committed : Bool
  localGroup : Option Nat
  remoteGroup : Option Nat

/-- The objects of a process, and whether an object has been accessed after it was freed. -/
structure Heap where
  groups : List GroupObj
  comms : List CommObj
  fault : Bool

/-- `MPIR_Group_empty` (`mpir_group.h`). -/
def groupEmpty : Nat := 0

namespace Heap

def touchGroup (h : Heap) (i : Nat) : Heap :=
  { h with fault := h.fault || h.groups[i]?.any GroupObj.freed }

def touchComm (h : Heap) (i : Nat) : Heap :=
  { h with fault := h.fault || h.comms[i]?.any CommObj.freed }

/-- `MPIR_Object_get_ref` (`mpir_objects.h:337`). -/
def groupRefs (h : Heap) (i : Nat) : Int := (h.groups[i]?.map GroupObj.refs).getD 0

/-- `MPIR_Object_get_ref` (:337). -/
def commRefs (h : Heap) (i : Nat) : Int := (h.comms[i]?.map CommObj.refs).getD 0

/-- `MPIR_Object_set_ref` (:330). -/
def setGroupRef (h : Heap) (i : Nat) (n : Int) : Heap :=
  { h.touchGroup i with groups := h.groups.modify i fun o => { o with refs := n } }

/-- Line 330. -/
def setCommRef (h : Heap) (i : Nat) (n : Int) : Heap :=
  { h.touchComm i with comms := h.comms.modify i fun o => { o with refs := n } }

/-- `MPIR_Group_add_ref` (`mpir_group.h`). -/
def addGroupRef (h : Heap) (i : Nat) : Heap :=
  { h.touchGroup i with groups := h.groups.modify i fun o => { o with refs := o.refs + 1 } }

/-- `MPIR_Group_release` (`grouputil.c:39`). -/
def releaseGroup (h : Heap) (i : Nat) : Heap :=
  { h.touchGroup i with
    groups := h.groups.modify i fun o =>
      { o with refs := o.refs - 1, freed := o.freed || decide (o.refs - 1 = 0) } }

def releaseGroup? (h : Heap) : Option Nat → Heap
  | none => h
  | some i => h.releaseGroup i

/-- `MPIR_Comm_release` (`mpir_comm.h:326`), `MPIR_Comm_delete_internal` (`commutil.c:1118`). -/
def releaseComm (h : Heap) (i : Nat) : Heap :=
  let h' := { h.touchComm i with
    comms := h.comms.modify i fun o =>
      { o with refs := o.refs - 1, freed := o.freed || decide (o.refs - 1 = 0) } }
  match h.comms[i]? with
  | some o =>
    if o.refs - 1 = 0 then (h'.releaseGroup? o.localGroup).releaseGroup? o.remoteGroup else h'
  | none => h'

/-- `MPIR_Group_create` (`grouputil.c:62`). -/
def allocGroup (h : Heap) (g : MpiGroup) : Heap :=
  { h with groups := h.groups ++ [⟨1, false, g⟩] }

/-- `MPIR_Comm_create` (`commutil.c:344`). -/
def allocComm (h : Heap) : Heap :=
  { h with comms := h.comms ++ [⟨1, false, false, none, none⟩] }

/-- `MPIR_Comm_create_group_impl` (`comm_impl.c:625`). -/
def attachGroup (h : Heap) (c g : Nat) : Heap :=
  let h := (h.addGroupRef g).addGroupRef g
  { h with comms := h.comms.modify c fun o => { o with localGroup := some g, remoteGroup := some g } }

/-- `MPIR_Comm_commit` (`commutil.c`). -/
def commit (h : Heap) (c : Nat) : Heap :=
  { h with comms := h.comms.modify c fun o => { o with committed := true } }

def setGroup (h : Heap) (i : Nat) (g : MpiGroup) : Heap :=
  { h with groups := h.groups.modify i fun o => { o with group := g } }

end Heap

/-! ## One attempt -/

/-- What the search for failed processes gives: no group at all, the empty group, or a new one.
`MPID_Comm_get_all_failed_procs` (`mpid_unresolved.c:31`, `ch4_comm.c:72`). -/
inductive Discovery where
  | unset
  | empty
  | group (lpids : List Nat)

/-- How the creation of a communicator ends: with an error before the communicator is there, with an
error before it has its group, with one behind that, or committed.
`MPIR_Comm_create_group_impl` (`comm_impl.c:580`). -/
inductive Create where
  | early (e : ErrClass)
  | bare (e : ErrClass)
  | late (e : ErrClass)
  | done

/-- What an attempt meets; `others` is the greatest flag of the other processes. -/
structure Attempt where
  discovery : Discovery
  outOfMemory : Bool
  create : Create
  others : Nat
  allreduce : Errno

/-- `MPIR_Comm_shrink_impl` (`ulfm_impl.c:128`). -/
structure Vars where
  globalFailed : Option Nat
  newGroup : Option Nat
  newcomm : Option Nat
  errno : Errno

def discover (me : Nat) (h : Heap) (globalFailed : Option Nat) : Discovery → Heap × Option Nat
  | .unset => (h, globalFailed)
  | .empty => (h, some groupEmpty)
  | .group lpids => (h.allocGroup (fresh me lpids), some h.groups.length)

/-- `MPIR_Group_difference_impl` (`group_impl.c:72`). -/
def difference (h : Heap) (commGrp globalFailed : Nat) (outOfMemory : Bool) :
    Option (Heap × Option Nat) := do
  let h := (h.touchGroup commGrp).touchGroup globalFailed
  let o₁ ← h.groups[commGrp]?
  let o₂ ← h.groups[globalFailed]?
  let (g₁, g₂, g) ← differenceImpl o₁.group o₂.group
  let h := (h.setGroup commGrp g₁).setGroup globalFailed g₂
  if g.size = 0 then some (h, some groupEmpty)
  else if outOfMemory then some (h, none)
  else some (h.allocGroup g, some h.groups.length)

/-- `MPIR_Comm_create_group_impl` (`comm_impl.c:580`). -/
def createGroup (h : Heap) (newGroup : Nat) (rank : Int) : Create → Heap × Option Nat × Errno
  | .early e => if rank = undefined then (h, none, none) else (h, none, some e)
  | .bare e =>
    if rank = undefined then (h, none, none)
    else (h.allocComm.releaseComm h.comms.length, some h.comms.length, some e)
  | .late e =>
    if rank = undefined then (h, none, none)
    else ((h.allocComm.attachGroup h.comms.length newGroup).releaseComm h.comms.length,
      some h.comms.length, some e)
  | .done =>
    if rank = undefined then (h, none, none)
    else ((h.allocComm.attachGroup h.comms.length newGroup).commit h.comms.length,
      some h.comms.length, none)

/-- `MPIR_Comm_shrink_impl` (`ulfm_impl.c:150`). -/
def ownFlag (h : Heap) : Option Nat → Errno → Heap × Nat
  | none, _ => (h, ErrClass.procFailed.flag)
  | some c, some e => (h.releaseComm c, e.flag)
  | some _, none => (h, 0)

/-- `MPIR_Comm_shrink_impl` (:165). -/
def cleanComm (h : Heap) : Option Nat → Heap
  | none => h
  | some c =>
    if 0 < h.commRefs c then ((h.touchComm c).setCommRef c 1).releaseComm c else h.touchComm c

/-- Line 169. -/
def cleanGroup (h : Heap) (newGroup : Nat) : Heap :=
  if 0 < h.groupRefs newGroup then
    ((h.touchGroup newGroup).setGroupRef newGroup 1).releaseGroup newGroup
  else h.touchGroup newGroup

inductive Round where
  | failed (h : Heap) (v : Vars)
  | again (h : Heap) (v : Vars)
  | success (h : Heap) (v : Vars)

/-- Line 150. -/
def agree (h : Heap) (globalFailed newGroup : Nat) (newcomm : Option Nat) (errno : Errno)
    (a : Attempt) : Round :=
  let (h, own) := ownFlag h newcomm errno
  let errflag := max own a.others
  let h := h.releaseGroup newGroup
  let v : Vars := ⟨some globalFailed, some newGroup, newcomm, a.allreduce⟩
  if errflag ≠ 0 then .again (cleanGroup (cleanComm h newcomm) newGroup) v
  else .success h { v with errno := none }

/-- Line 145. -/
def tryGroup (h : Heap) (globalFailed newGroup : Nat) (a : Attempt) : Round :=
  let h := if globalFailed ≠ groupEmpty then h.releaseGroup globalFailed else h
  let rank := ((h.groups[newGroup]?).map fun o => o.group.rank).getD undefined
  let (h, newcomm, errno) := createGroup h newGroup rank a.create
  agree h globalFailed newGroup newcomm errno a

/-- Line 136. -/
def attempt (me : Nat) (h : Heap) (commGrp : Nat) (v : Vars) (a : Attempt) : Option Round :=
  let (h, globalFailed) := discover me h v.globalFailed a.discovery
  match globalFailed with
  | none => none
  | some f => do
    let (h, newGroup) ← difference h commGrp f a.outOfMemory
    match newGroup with
    | none => return .failed h ⟨some f, none, v.newcomm, some .other⟩
    | some g => return tryGroup h f g a

/-! ## The call -/

structure Result where
  heap : Heap
  errno : Errno
  newcomm : Option Nat

/-- `fn_exit` of `MPIR_Comm_shrink_impl` (:180). -/
def fnExit (h : Heap) (commGrp : Nat) (v : Vars) : Result :=
  ⟨h.releaseGroup commGrp, v.errno, v.newcomm⟩

/-- `fn_fail` of `MPIR_Comm_shrink_impl` (:184). -/
def fnFail (h : Heap) (commGrp : Nat) (v : Vars) : Option Result := do
  let h := match v.newcomm with
    | none => h
    | some c => h.setCommRef c 0
  let f ← v.globalFailed
  let g ← v.newGroup
  return fnExit ((h.setGroupRef f 0).setGroupRef g 0) commGrp v

/-- Line 136. -/
def attempts (me : Nat) (commGrp : Nat) : List Attempt → Heap → Vars → Option Result
  | [], h, v => fnFail h commGrp v
  | a :: as, h, v => do
    let round ← attempt me h commGrp v a
    match round with
    | .failed h v => fnFail h commGrp v
    | .again h v => attempts me commGrp as h v
    | .success h v => return fnExit h commGrp v

/-- `MPIR_Comm_group_impl` (`comm_impl.c:855`). -/
structure CommGroup where
  group : MpiGroup
  refs : Int
  outOfMemory : Bool

def commGrp : Nat := 1

/-- The objects before the call: the empty group and the group of the communicator. -/
def CommGroup.heap (cg : CommGroup) : Heap :=
  ⟨[⟨1, false, .empty⟩, ⟨cg.refs, false, cg.group⟩], [], false⟩

/-- `MPIR_Comm_shrink_impl` (`ulfm_impl.c:125`). -/
def shrinkImpl (me : Nat) (cg : CommGroup) (as : Fin 5 → Attempt) : Option Result :=
  if cg.outOfMemory then none
  else attempts me commGrp (List.ofFn as) (cg.heap.addGroupRef commGrp) ⟨none, none, none, none⟩

end PsMpi.Shrink
