import PsMpi.Group.Subset

/-!
# Tables of a new communicator from mappers

See `mpich2/src/mpid/psp/src/mpid_vc.c`.
-/

namespace PsMpi.Mappers

open PsMpi.Lib PsMpi.Groups

/-- `MPIDI_VCRT` (`mpidimpl.h:116`). -/
abbrev Vcrt := List (Option Nat)

/-- A communicator: its kind, the sizes of its groups, its tables and the aliases of their arrays.
`MPIDI_DEV_COMM_DECL` (`mpidpre.h:674`). -/
structure Comm where
  kind : CommKind
  localSize : Nat
  remoteSize : Nat
  vcrt : Option Nat
  vcr : Option Nat
  localVcrt : Option Nat
  localVcr : Option Nat

/-- `MPIR_Comm_map_type_t` (`mpir_comm.h:34`), with the array of the ranks. -/
inductive MapType where
  | dup
  | irregular (srcMapping : List Nat)

/-- `MPIR_Comm_map_dir_t` (:41). -/
inductive MapDir where
  | l2l
  | l2r
  | r2l
  | r2r
deriving DecidableEq

/-- `MPIR_Comm_map_t` (:48). -/
structure CommMap where
  type : MapType
  srcComm : Comm
  dir : MapDir

/-- The tables of a process, the new communicator and its local communicator. -/
structure State where
  vcrts : List Vcrt
  comm : Comm
  localComm : Option Comm

/-! ## Tables -/

/-- `MPID_PSP_comm_set_vcrt` (:593). -/
def Comm.setVcrt (comm : Comm) (vcrt : Nat) : Comm :=
  { comm with vcrt := some vcrt, vcr := some vcrt }

/-- `MPID_PSP_comm_set_local_vcrt` (:601). -/
def Comm.setLocalVcrt (comm : Comm) (vcrt : Nat) : Comm :=
  { comm with localVcrt := some vcrt, localVcr := some vcrt }

/-- `MPIDI_VC_Dup` (:152). -/
def readVc (vcrts : List Vcrt) (vcrt : Option Nat) (i : Nat) : Option Nat := do
  let k ← vcrt
  let table ← vcrts[k]?
  (← table[i]?)

def writeVc (vcrts : List Vcrt) (vcrt i vc : Nat) : Option (List Vcrt) := do
  let table ← vcrts[vcrt]?
  if i < table.length then some (vcrts.set vcrt (table.set i (some vc))) else none

/-- `MPID_PSP_mapper_dup_vcrt` (:406). -/
def copyEntries (src : Option Nat) (dest : Nat) : List Nat → Nat → List Vcrt → Option (List Vcrt)
  | [], _, vcrts => some vcrts
  | rank :: ranks, i, vcrts => do
    let vc ← readVc vcrts src rank
    copyEntries src dest ranks (i + 1) (← writeVc vcrts dest i vc)

/-- Line 376. -/
def CommMap.Shares (mapper : CommMap) (srcCommSize vcrtSize : Nat) : Prop :=
  match mapper.type with
  | .dup => srcCommSize = vcrtSize
  | .irregular srcMapping =>
    srcMapping.length = vcrtSize ∧ srcMapping = List.range srcMapping.length

instance (mapper : CommMap) (srcCommSize vcrtSize : Nat) :
    Decidable (mapper.Shares srcCommSize vcrtSize) := by
  unfold CommMap.Shares
  split <;> infer_instance

/-- Line 367. -/
def mapperDupVcrt (vcrts : List Vcrt) (srcVcrt destVcrt : Option Nat) (mapper : CommMap)
    (srcCommSize vcrtSize vcrtOffset : Nat) : Option (List Vcrt × Nat) :=
  if mapper.Shares srcCommSize vcrtSize then do
    let src ← srcVcrt
    return (vcrts, src)
  else do
    let (vcrts, dest) ←
      (if vcrtOffset = 0 then some (vcrts ++ [List.replicate vcrtSize none], vcrts.length)
      else destVcrt.map (vcrts, ·))
    let ranks :=
      match mapper.type with
      | .dup => List.range srcCommSize
      | .irregular srcMapping => srcMapping
    let vcrts ← copyEntries srcVcrt dest ranks vcrtOffset vcrts
    return (vcrts, dest)

/-! ## Sizes -/

/-- `MPID_PSP_mapper_size` (:417). -/
def CommMap.mapperSize (mapper : CommMap) : Nat :=
  match mapper.type with
  | .irregular srcMapping => srcMapping.length
  | .dup =>
    match mapper.dir with
    | .l2l | .l2r => mapper.srcComm.localSize
    | .r2l | .r2r => mapper.srcComm.remoteSize

def CommMap.intoLocal (mapper : CommMap) : Bool := mapper.dir = .l2l ∨ mapper.dir = .r2l

def CommMap.intoRemote (mapper : CommMap) : Bool := mapper.dir = .l2r ∨ mapper.dir = .r2r

def listDestSize (into : CommMap → Bool) : List CommMap → Nat
  | [] => 0
  | mapper :: rest =>
    if into mapper then mapper.mapperSize + listDestSize into rest else listDestSize into rest

/-- `MPID_PSP_mapper_list_dest_local_size` (:435). -/
def listDestLocalSize : List CommMap → Nat := listDestSize CommMap.intoLocal

/-- `MPID_PSP_mapper_list_dest_remote_size` (:449). -/
def listDestRemoteSize : List CommMap → Nat := listDestSize CommMap.intoRemote

def intSize (size : Nat) : Option Nat := if (size : Int) ≤ intMax then some size else none

/-! ## Mapping -/

def State.dupVcrt (st : State) (srcVcrt : Option Nat) (mapper : CommMap)
    (srcCommSize vcrtSize vcrtOffset : Nat) : Option State := do
  let (vcrts, vcrt) ← mapperDupVcrt st.vcrts srcVcrt st.comm.vcrt mapper srcCommSize vcrtSize
    vcrtOffset
  return { st with vcrts, comm := st.comm.setVcrt vcrt }

def State.dupLocalVcrt (st : State) (srcVcrt : Option Nat) (mapper : CommMap)
    (srcCommSize vcrtSize vcrtOffset : Nat) : Option State := do
  let (vcrts, vcrt) ← mapperDupVcrt st.vcrts srcVcrt st.comm.localVcrt mapper srcCommSize vcrtSize
    vcrtOffset
  return { st with vcrts, comm := st.comm.setLocalVcrt vcrt }

/-- `MPID_PSP_mapper_list_map_local_vcr` (:509). -/
def State.dupLocalVcrtR2l (st : State) (srcVcrt : Option Nat) (mapper : CommMap)
    (srcCommSize vcrtSize vcrtOffset : Nat) : Option State := do
  let (vcrts, vcrt) ← mapperDupVcrt st.vcrts srcVcrt st.comm.localVcrt mapper srcCommSize vcrtSize
    vcrtOffset
  return { st with vcrts, comm := { st.comm with localVcrt := some vcrt }.setVcrt vcrt }

/-- Line 479. -/
def mapLocal (mapper : CommMap) (vcrtSize vcrtOffset : Nat) (st : State) : Option State :=
  let src := mapper.srcComm
  match mapper.dir with
  | .l2r | .r2r => some st
  | .l2l =>
    match src.kind, st.comm.kind with
    | .intracomm, .intracomm => st.dupVcrt src.vcrt mapper src.localSize vcrtSize vcrtOffset
    | .intracomm, .intercomm => st.dupLocalVcrt src.vcrt mapper src.localSize vcrtSize vcrtOffset
    | .intercomm, .intracomm => st.dupVcrt src.localVcrt mapper src.localSize vcrtSize vcrtOffset
    | .intercomm, .intercomm =>
      st.dupLocalVcrt src.localVcrt mapper src.localSize vcrtSize vcrtOffset
  | .r2l =>
    match src.kind, st.comm.kind with
    | .intracomm, _ => none
    | .intercomm, .intracomm => st.dupVcrt src.vcrt mapper src.remoteSize vcrtSize vcrtOffset
    | .intercomm, .intercomm =>
      st.dupLocalVcrtR2l src.vcrt mapper src.remoteSize vcrtSize vcrtOffset

/-- `MPID_PSP_mapper_list_map_remote_vcr` (:531). -/
def mapRemote (mapper : CommMap) (vcrtSize vcrtOffset : Nat) (st : State) : Option State :=
  let src := mapper.srcComm
  match mapper.dir with
  | .l2l | .r2l => some st
  | .l2r =>
    match st.comm.kind, src.kind with
    | .intracomm, _ => none
    | .intercomm, .intracomm => st.dupVcrt src.vcrt mapper src.localSize vcrtSize vcrtOffset
    | .intercomm, .intercomm => st.dupVcrt src.localVcrt mapper src.localSize vcrtSize vcrtOffset
  | .r2r =>
    match st.comm.kind, src.kind with
    | .intercomm, .intercomm => st.dupVcrt src.vcrt mapper src.remoteSize vcrtSize vcrtOffset
    | _, _ => none

def listMap (into : CommMap → Bool) (map : CommMap → Nat → State → Option State) :
    List CommMap → Nat → State → Option State
  | [], _, st => some st
  | mapper :: rest, vcrtOffset, st => do
    let st ← map mapper vcrtOffset st
    listMap into map rest
      (if into mapper then vcrtOffset + mapper.mapperSize else vcrtOffset) st

/-- `MPID_PSP_mapper_list_map_local_vcr` (:463). -/
def listMapLocalVcr (vcrtSize : Nat) (mappers : List CommMap) (st : State) : Option State :=
  listMap CommMap.intoLocal (mapLocal · vcrtSize) mappers 0 st

/-- `MPID_PSP_mapper_list_map_remote_vcr` (:523). -/
def listMapRemoteVcr (vcrtSize : Nat) (mappers : List CommMap) (st : State) : Option State :=
  listMap CommMap.intoRemote (mapRemote · vcrtSize) mappers 0 st

/-- `MPID_PSP_comm_create_mapper` (:581). -/
def setLocalComm (st : State) : Option State :=
  match st.comm.kind, st.localComm with
  | .intercomm, some localComm => do
    let vcrt ← st.comm.localVcrt
    return { st with localComm := some (localComm.setVcrt vcrt) }
  | _, _ => some st

/-- Line 568. -/
def commCreateMapper (mappers : List CommMap) (st : State) : Option State :=
  if mappers = [] then some st
  else do
    let vcrtSize ← intSize (listDestLocalSize mappers)
    let st ← listMapLocalVcr vcrtSize mappers st
    let vcrtSize ← intSize (listDestRemoteSize mappers)
    let st ← listMapRemoteVcr vcrtSize mappers st
    setLocalComm st

end PsMpi.Mappers
