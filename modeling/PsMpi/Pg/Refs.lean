import PsMpi.Lib.Store
import PsMpi.Lib.Trans

/-!
# References to virtual connections

See `mpich2/src/mpid/psp/src/mpid_vc.c`, `mpich2/src/mpid/psp/src/mpid_comm.c` and
`mpich2/src/mpi/comm/commutil.c`.
-/

namespace PsMpi.Refs

open PsMpi.Lib

/-- `MPIDI_VC` (`mpidimpl.h:108`). -/
structure Vc where
  refcnt : Nat
  pg : Nat
  pgRank : Nat

/-- `MPIDI_VCRT` (:116). -/
structure Vcrt where
  refcnt : Nat
  vcr : List Nat

/-- `MPIDI_PG` (:93). -/
structure Pg where
  refcnt : Nat
  vcr : List (Option Nat)

/-- A communicator: its table of the processes it sends to, its second table if it is an
intercommunicator, and the tables of its sub-communicators in the order in which these are
released. `MPIR_Comm` (`mpidpre.h:675`). -/
structure Comm where
  vcrt : Nat
  localVcrt : Option Nat
  subs : List Nat

def Comm.main (c : Comm) : List Nat := c.vcrt :: c.localVcrt.toList

def Comm.tables (c : Comm) : List Nat := c.main ++ c.subs

structure World where
  vcs : Store Vc
  vcrts : Store Vcrt
  pgs : Store Pg
  comms : Store Comm

namespace World

/-! ## Virtual connections and tables -/

/-- `new_VCR` (`mpid_vc.c:18`). -/
def vcCreate (w : World) (pg pgRank : Nat) : Option World := do
  let g ← w.pgs.get pg
  let slot ← g.vcr[pgRank]?
  if slot.isSome then none
  else some { w with
    vcs := w.vcs.alloc ⟨1, pg, pgRank⟩
    pgs := w.pgs.put pg (some ⟨g.refcnt + 1, g.vcr.set pgRank (some w.vcs.size)⟩) }

/-- `VCR_get` (:63). -/
def vcDup (w : World) (v : Nat) : World :=
  match w.vcs.get v with
  | some vc => { w with vcs := w.vcs.put v (some { vc with refcnt := vc.refcnt + 1 }) }
  | none => w

/-- Take a virtual connection out of its process group, which is destroyed with its last one.
`MPIDI_VCR_DeleteFromPG` (:158). -/
def deleteFromPg (w : World) (vc : Vc) : World :=
  match w.pgs.get vc.pg with
  | some g =>
    let g' : Pg := ⟨g.refcnt - 1, g.vcr.set vc.pgRank none⟩
    { w with pgs := w.pgs.put vc.pg (if g'.refcnt = 0 then none else some g') }
  | none => w

/-- One reference less to a virtual connection; a disconnect that leaves the reference of the
process group alone frees it. `VCR_put` (:44). -/
def vcrPut (w : World) (v : Nat) (isDisconnect : Bool) : World :=
  match w.vcs.get v with
  | some vc =>
    let vc := { vc with refcnt := vc.refcnt - 1 }
    if isDisconnect ∧ vc.refcnt = 1 then { w.deleteFromPg vc with vcs := w.vcs.put v none }
    else { w with vcs := w.vcs.put v (some vc) }
  | none => w

/-- `MPIDI_VCRT_Create` (:69) and the loops over `MPIDI_VC_Dup` behind it. -/
def vcrtCreate (w : World) (vcs : List Nat) : World × Nat :=
  ({ vcs.foldl vcDup w with vcrts := w.vcrts.alloc ⟨1, vcs⟩ }, w.vcrts.size)

/-- `MPIDI_VCRT_Dup` (:102). -/
def vcrtDup (w : World) (t : Nat) : World :=
  match w.vcrts.get t with
  | some table => { w with vcrts := w.vcrts.put t (some { table with refcnt := table.refcnt + 1 }) }
  | none => w

/-- One reference less to a table; with the last one the table is freed, and its references to
virtual connections are put. `MPIDI_VCRT_Release` (:125),
`MPIDI_VCRT_Destroy` (:109). -/
def vcrtRelease (w : World) (t : Nat) (isDisconnect : Bool) : World :=
  match w.vcrts.get t with
  | some table =>
    if table.refcnt - 1 = 0 then
      table.vcr.foldl (fun w v => w.vcrPut v isDisconnect) { w with vcrts := w.vcrts.put t none }
    else { w with vcrts := w.vcrts.put t (some { table with refcnt := table.refcnt - 1 }) }
  | none => w

end World

/-! ## Communicators -/

/-- How processes of a communicator are mapped to a new one: from a table of a source of `size`
processes, all of them in order, or those of an array of ranks. `MPIR_Comm_map_t`, as
read by `MPID_PSP_mapper_dup_vcrt` (:367). -/
structure Mapper where
  src : Nat
  size : Nat
  srcMapping : Option (List Nat)

/-- Where the table of a communicator comes from: the virtual connections of ranks of process
groups, or mappers. `MPIDI_PSP_Comm_commit_pre_hook` (`mpid_comm.c:626`),
`MPID_Create_intercomm_from_lpids` (:554), `MPID_PSP_comm_create_mapper`
(`mpid_vc.c:568`). -/
inductive TableSpec where
  | ofPgs (procs : List (Nat × Nat))
  | mapped (mappers : List Mapper)

namespace World

def vcOf (w : World) (pg pgRank : Nat) : Option Nat := do
  let g ← w.pgs.get pg
  (← g.vcr[pgRank]?)

/-- `MPID_PSP_mapper_dup_vcrt` (:404). -/
def mapperVcs (w : World) (m : Mapper) : Option (List Nat) := do
  let table ← w.vcrts.get m.src
  match m.srcMapping with
  | none => if m.size ≤ table.vcr.length then some (table.vcr.take m.size) else none
  | some ranks => ranks.mapM fun k => table.vcr[k]?

/-- The table of the source is shared: a single mapper, of all processes or of the first ones in
order. Line 376. -/
def shared : List Mapper → Option Nat
  | [m] =>
    match m.srcMapping with
    | none => some m.src
    | some ranks => if ranks = List.range ranks.length then some m.src else none
  | _ => none

/-- Make the table of a communicator. Line 367. -/
def makeTable (w : World) : TableSpec → Option (World × Nat)
  | .ofPgs procs => do
    let vcs ← procs.mapM fun p => w.vcOf p.1 p.2
    return w.vcrtCreate vcs
  | .mapped mappers =>
    match shared mappers with
    | some t => (w.vcrts.get t).map fun _ => (w.vcrtDup t, t)
    | none => do
      let vcs ← mappers.mapM w.mapperVcs
      return w.vcrtCreate vcs.flatten

/-- `MPIDI_PSP_Comm_commit_pre_hook` (`mpid_comm.c:626`). -/
def commCreate (w : World) (remote : TableSpec) (loc : Option TableSpec) : Option World := do
  let (w, vcrt) ← w.makeTable remote
  match loc with
  | none => some { w with comms := w.comms.alloc ⟨vcrt, none, []⟩ }
  | some spec =>
    let (w, localVcrt) ← w.makeTable spec
    return { w with comms := w.comms.alloc ⟨vcrt, some localVcrt, []⟩ }

/-- `MPIR_Comm_create_subcomms` (`commutil.c:613`), `MPII_Setup_intercomm_localcomm`
(:373). -/
def subCreate (w : World) (c : Nat) (m : Mapper) : Option World := do
  let (w, t) ← w.makeTable (.mapped [m])
  let comm ← w.comms.get c
  return { w with comms := w.comms.put c (some { comm with subs := comm.subs ++ [t] }) }

/-- Delete a communicator: its own tables are released as for a disconnect if it is disconnected,
those of its sub-communicators as for a free. `MPIR_Comm_delete_internal`
(:1197), `MPIDI_PSP_Comm_destroy_hook` (`mpid_comm.c:763`), `MPID_Comm_disconnect`
(`mpid_spawn.c:898`). -/
def commDelete (w : World) (c : Nat) (isDisconnected : Bool) : Option World := do
  let comm ← w.comms.get c
  let w := { w with comms := w.comms.put c none }
  let w := comm.main.foldl (fun w t => w.vcrtRelease t isDisconnected) w
  return comm.subs.foldl (fun w t => w.vcrtRelease t false) w

end World

/-! ## The system -/

inductive Act where
  | pgCreate (size : Nat)
  | connect (pg pgRank : Nat)
  | create (remote : TableSpec) (loc : Option TableSpec)
  | createSub (c : Nat) (m : Mapper)
  | free (c : Nat)
  | disconnect (c : Nat)

def refsStep (w : World) : Act → Option World
  | .pgCreate size => some { w with pgs := w.pgs.alloc ⟨0, List.replicate size none⟩ }
  | .connect pg pgRank => w.vcCreate pg pgRank
  | .create remote loc => w.commCreate remote loc
  | .createSub c m => w.subCreate c m
  | .free c => w.commDelete c false
  | .disconnect c => w.commDelete c true

/-- The process groups and communicators of a process, from before there are any. -/
def refsSys : Sys World Act := ⟨⟨.empty, .empty, .empty, .empty⟩, refsStep⟩

end PsMpi.Refs
