import PsMpi.Lib.Trans

/-!
# Local process ids

See `mpich2/src/mpid/psp/src/mpid_pg.c` and `mpich2/src/mpid/psp/src/mpid_vc.c`.
-/

namespace PsMpi.Pg

open PsMpi.Lib

/-- `MPIDI_Gpid` (`mpidpre.h:92`). -/
structure Gpid where
  pgId : Int
  rank : Nat
deriving DecidableEq

/-- A rank of a process group: the local id of its virtual connection, and its entry in the array
of local ids. `pg->vcr` and `pg->lpids` of `MPIDI_PG_t` (`mpidimpl.h:93`). -/
structure Slot where
  vcr : Option Nat
  lpid : Option Nat

def Slot.unknown : Slot := ⟨none, none⟩

/-- `MPIDI_PG_t` (:93). -/
structure Group where
  idNum : Int
  refcnt : Nat
  slots : List Slot

/-- The process groups, from the own one on, and the counter of the local ids, which is zero until
it is used; `worldSize` is the size of the own group at the start, and `lazy` the setting of
`PSP_LAZY_DISCONNECT`. `MPIDI_Process` (`mpidimpl.h`). -/
structure Process where
  worldSize : Nat
  lazy : Bool
  nextLpid : Nat
  pgs : List Group

/-- `MPIDI_PG_Create` (`mpid_pg.c:1068`). -/
def Group.create (size : Nat) (idNum : Int) : Group :=
  ⟨idNum, 0, List.replicate size .unknown⟩

def Group.setSlot (pg : Group) (k : Nat) (slot : Slot) : Group :=
  { pg with slots := pg.slots.set k slot }

/-- `MPIDI_GPID_ToLpidArray` (:98). -/
def Group.resize (pg : Group) (rank : Nat) : Group :=
  { pg with slots := pg.slots ++ List.replicate (rank + 1 - pg.slots.length) .unknown }

/-- Take the virtual connection of a rank away; its local id stays if disconnects are lazy.
`MPIDI_VCR_DeleteFromPG` (`mpid_vc.c:165`). -/
def Group.dropVcr (pg : Group) (lazy : Bool) (k : Nat) : Group :=
  let slot := pg.slots.getD k .unknown
  { pg.setSlot k ⟨none, if lazy then slot.lpid else none⟩ with refcnt := pg.refcnt - 1 }

/-- `MPIDI_GPID_ToLpidArray` (`mpid_pg.c:63`). -/
def pgOf (pgs : List Group) (id : Int) : Option Group := pgs.find? fun pg => pg.idNum = id

def slotAt (pgs : List Group) (g : Gpid) : Option Slot :=
  (pgOf pgs g.pgId).bind fun pg => pg.slots[g.rank]?

def vcAt (pgs : List Group) (g : Gpid) : Option Nat := (slotAt pgs g).bind Slot.vcr

def lpidAt (pgs : List Group) (g : Gpid) : Option Nat := (slotAt pgs g).bind Slot.lpid

def modifyPg (id : Int) (f : Group → Group) : List Group → List Group
  | [] => []
  | pg :: pgs => if pg.idNum = id then f pg :: pgs else pg :: modifyPg id f pgs

namespace Process

/-- `:77`, `:121`, `:840`. -/
def next (p : Process) : Nat := if p.nextLpid = 0 then p.worldSize else p.nextLpid

/-- `MPIDI_PG_Create` (:1068). -/
def pgCreate (p : Process) (size : Nat) (id : Int) : Process :=
  { p with pgs := p.pgs ++ [Group.create size id] }

def assign (p : Process) (g : Gpid) : Process :=
  { p with
    nextLpid := p.next + 1
    pgs := modifyPg g.pgId
      (fun pg => pg.setSlot g.rank ⟨none, some p.next⟩) p.pgs }

/-- The local id of a global id; without a result the assertion fails that a rank without a
connection has no local id. See the loop of `MPIDI_GPID_ToLpidArray` (:59). -/
def gpidToLpid (p : Process) (g : Gpid) : Option (Process × Nat) :=
  match pgOf p.pgs g.pgId with
  | none => some ((p.pgCreate (g.rank + 1) g.pgId).assign g, p.next)
  | some pg =>
    let q := { p with pgs := modifyPg g.pgId (fun pg => pg.resize g.rank) p.pgs }
    match ((pg.resize g.rank).slots.getD g.rank .unknown) with
    | ⟨some lpid, _⟩ => some (q, lpid)
    | ⟨none, some _⟩ => none
    | ⟨none, none⟩ => some (q.assign g, q.next)

/-- Line 53. -/
def gpidToLpidArray (p : Process) : List Gpid → Option (Process × List Nat)
  | [] => some (p, [])
  | g :: gpids => do
    let (p, lpid) ← p.gpidToLpid g
    let (p, lpids) ← gpidToLpidArray p gpids
    return (p, lpid :: lpids)

/-- `new_VCR` (`mpid_vc.c:18`). -/
def newVcr (p : Process) (g : Gpid) (lpid : Nat) : Process :=
  { p with pgs := modifyPg g.pgId (fun pg =>
      { pg.setSlot g.rank ⟨some lpid, some lpid⟩ with refcnt := pg.refcnt + 1 }) p.pgs }

/-- Connect a rank that is not connected, with the local id it has or else the next one. See
the second run of `MPID_PG_ForwardPGInfo` (`mpid_pg.c:805`). -/
def connect (p : Process) (g : Gpid) : Process :=
  match slotAt p.pgs g with
  | some ⟨none, some lpid⟩ => p.newVcr g lpid
  | some ⟨none, none⟩ => { p.newVcr g p.next with nextLpid := p.next + 1 }
  | _ => p

/-- `MPIDI_PG_Destroy` (:1141). -/
def pgDestroy (p : Process) (id : Int) : Process :=
  { p with pgs := p.pgs.eraseP fun pg => pg.idNum = id }

/-- `MPIDI_VCR_DeleteFromPG` (`mpid_vc.c:158`). -/
def deleteFromPg (p : Process) (g : Gpid) : Process :=
  let q := { p with pgs := modifyPg g.pgId (fun pg => pg.dropVcr p.lazy g.rank) p.pgs }
  match pgOf q.pgs g.pgId with
  | some pg => if pg.refcnt = 0 then q.pgDestroy g.pgId else q
  | none => q

/-- `MPIDI_PSP_PG_init` (`mpid_pg.c:1223`). -/
def init (worldSize : Nat) (myId : Int) (lazy : Bool) : Process where
  worldSize := worldSize
  lazy := lazy
  nextLpid := 0
  pgs := [⟨myId, worldSize, (List.range worldSize).map fun k => ⟨some k, some k⟩⟩]

end Process

/-! ## The system -/

/-- The process, and what the calls did so far: the processes that are connected, the ones that wait
for a connection with a local id (because they were translated before they were connected, or
because they were disconnected lazily), and the answers of the translation about processes that are
still known. -/
structure St where
  proc : Process
  connected : List Gpid
  waiting : List Gpid
  answers : List (Gpid × Nat)
  failed : Bool
  ownFreed : Bool

inductive Act where
  | create (size : Nat) (id : Int)
  | translate (gpids : List Gpid)
  | connect (gpids : List Gpid)
  | disconnect (g : Gpid)
  | destroy (id : Int)

def translate (s : St) (gpids : List Gpid) : St :=
  match s.proc.gpidToLpidArray gpids with
  | none => { s with failed := true }
  | some (p, lpids) =>
    { s with
      proc := p
      waiting := gpids.filter (· ∉ s.connected) ++ s.waiting
      answers := gpids.zip lpids ++ s.answers }

def connect (s : St) (gpids : List Gpid) : St :=
  let new := gpids.filter fun g => (slotAt s.proc.pgs g).isSome
  { s with
    proc := gpids.foldl Process.connect s.proc
    connected := new ++ s.connected
    waiting := s.waiting.filter (· ∉ new) }

def forget (s : St) (id : Int) : St :=
  { s with
    connected := s.connected.filter fun g => g.pgId ≠ id
    waiting := s.waiting.filter fun g => g.pgId ≠ id
    answers := s.answers.filter fun a => a.1.pgId ≠ id }

def IsLast (s : St) (g : Gpid) : Prop := ∀ g' ∈ s.connected, g'.pgId = g.pgId → g' = g

instance (s : St) (g : Gpid) : Decidable (IsLast s g) := by unfold IsLast; infer_instance

def disconnect (myId : Int) (s : St) (g : Gpid) : St :=
  let t := { s with proc := s.proc.deleteFromPg g }
  if IsLast s g then { forget t g.pgId with ownFreed := g.pgId = myId }
  else if s.proc.lazy then
    { t with connected := s.connected.filter (· ≠ g), waiting := g :: s.waiting }
  else
    { t with
      connected := s.connected.filter (· ≠ g)
      answers := s.answers.filter fun a => a.1 ≠ g }

def lpidStep (myId : Int) (s : St) (a : Act) : Option St :=
  if s.failed ∨ s.ownFreed then none
  else
    match a with
    | .create size id =>
      if (pgOf s.proc.pgs id).isSome then none else some { s with proc := s.proc.pgCreate size id }
    | .translate gpids => some (translate s gpids)
    | .connect gpids => some (connect s gpids)
    | .disconnect g => if (vcAt s.proc.pgs g).isSome then some (disconnect myId s g) else none
    | .destroy id =>
      if id = myId then none else some (forget { s with proc := s.proc.pgDestroy id } id)

def lpidSys (worldSize : Nat) (myId : Int) (lazy : Bool) : Sys St Act where
  init :=
    { proc := Process.init worldSize myId lazy
      connected := (List.range worldSize).map fun k => ⟨myId, k⟩
      waiting := []
      answers := []
      failed := false
      ownFreed := false }
  step := lpidStep myId

end PsMpi.Pg
