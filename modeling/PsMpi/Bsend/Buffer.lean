import PsMpi.Bsend.Arena
import PsMpi.Lib.Trans

/-!
# Buffered sends

See `mpich2/src/mpi/pt2pt/bsendutil.c`.
-/

namespace PsMpi.Bsend

open PsMpi.Lib

/-- The requests of the buffered sends: how many were issued, which are complete, and the ones
whose pack buffers were released, the latest first. -/
structure Requests where
  issued : Nat
  complete : List Nat
  released : List Nat

/-- `MPID_Progress_test`, as called in line 398, line 767. -/
def Requests.progressTest (q : Requests) (prog : List Nat) : Requests :=
  { q with complete := prog.filter (· < q.issued) ++ q.complete }

/-- `MPID_Wait`, as called in line 331, line 493. -/
def Requests.wait (q : Requests) (req : Nat) (prog : List Nat) : Requests :=
  { q.progressTest prog with complete := req :: (q.progressTest prog).complete }

def Requests.release (q : Requests) (freed : List Nat) : Requests :=
  { q with released := freed ++ q.released }

/-- A message: packed data, or elements of a datatype of `size` bytes for which `packSize` bytes
are reserved. -/
inductive Msg where
  | packed (count : Nat)
  | typed (packSize size : Nat)

/-- `MPIR_Bsend_isend` (:149). -/
def Msg.packsize : Msg → Nat
  | .packed count => count
  | .typed packSize _ => packSize

/-- `bsend_isend_user` (:576). -/
def Msg.data : Msg → Nat
  | .packed count => count
  | .typed _ size => size

/-! ## The automatic buffer -/

/-- `bsend_auto_elem` (:289). -/
structure AutoElem where
  packsize : Nat
  req : Nat
deriving DecidableEq

/-- `MPII_BsendBuffer_auto` (`mpir_bsend.h:102`). -/
structure Auto where
  userSize : Nat
  activeList : List AutoElem

/-- `bsend_auto_reap` (:381). -/
def autoReap (q : Requests) (automatic : Auto) : Requests × Auto :=
  automatic.activeList.foldl
    (fun qa elt =>
      let q := if elt.req ∈ qa.1.complete then qa.1.release [elt.req] else qa.1
      (q, { qa.2 with activeList := qa.2.activeList.erase elt }))
    (q, automatic)

/-- `bsend_flush_auto` (:323). -/
def flushAutoFrom (prog : Nat → List Nat) : Nat → Requests → Auto → Requests × Auto
  | 0, q, automatic => (q, automatic)
  | fuel + 1, q, automatic =>
    match automatic.activeList with
    | [] => (q, automatic)
    | elt :: _ =>
      let (q, automatic) := autoReap (q.wait elt.req (prog elt.req)) automatic
      flushAutoFrom prog fuel q automatic

/-- Flush the automatic buffer; every round of the loop takes at least one send out of the list.
Line 323. -/
def flushAuto (prog : Nat → List Nat) (q : Requests) (automatic : Auto) : Requests × Auto :=
  flushAutoFrom prog automatic.activeList.length q automatic

/-- `bsend_isend_auto` (:343). -/
def isendAuto (q : Requests) (automatic : Auto) (m : Msg) (sent : Bool) : Requests × Auto :=
  let (q, automatic) := autoReap q automatic
  if sent then
    ({ q with issued := q.issued + 1 },
      { automatic with activeList := automatic.activeList ++ [⟨m.packsize, q.issued⟩] })
  else (q, automatic)

/-- `bsend_poll_auto` (:396). -/
def pollAuto (prog : List Nat) (q : Requests) (automatic : Auto) : Requests × Auto × Bool :=
  let (q, automatic) := autoReap (q.progressTest prog) automatic
  (q, automatic, automatic.activeList.isEmpty)

/-! ## The user buffer -/

/-- `MPIR_Bsend_check_active` (:763). -/
def checkActive (prog : List Nat) (q : Requests) (u : User) : Requests × User :=
  if u.active.isSome then
    let q := q.progressTest prog
    let (u, freed) := u.progress q.complete
    (q.release freed, u)
  else (q, u)

/-- `bsend_isend_user` (:566). -/
def sendUser (q : Requests) (u : User) (p : Nat) (m : Msg) (sent : Bool) : Requests × User :=
  if sent then
    ({ q with issued := q.issued + 1 }, u.sendFrom p m.packsize m.data (some q.issued))
  else (q, u.sendFrom p m.packsize m.data none)

/-- Send a message through the user buffer, in at most two passes; without room the result is an
error. Line 534. -/
def isendUser (prog₁ prog₂ : List Nat) (q : Requests) (u : User) (m : Msg) (sent : Bool) :
    Requests × User :=
  let (q, u) := checkActive prog₁ q u
  match u.findBuffer m.packsize with
  | some p => sendUser q u p m sent
  | none =>
    let (q, u) := checkActive prog₂ q u
    match u.findBuffer m.packsize with
    | some p => sendUser q u p m sent
    | none => (q, u)

/-- Detach the user buffer, after waiting for each active send; the structure is left empty, and
the memory goes back to the program. `bsend_detach_user` (:482). -/
def detachUser (prog : Nat → List Nat) (q : Requests) (u : User) : Requests × User :=
  let reqs := u.requests
  let q := reqs.foldl (fun q req => q.wait req (prog req)) q
  (q.release reqs,
    { u with
      origbuffer := 0, origbufferSize := 0, buffer := 0, bufferSize := 0
      avail := none, active := none, packs := [] })

/-- `bsend_flush_user` (:516). -/
def flushUser (prog : Nat → List Nat) (q : Requests) (u : User) : Requests × User :=
  let (q, v) := detachUser prog q u
  (q, (v.attachUser u.origbuffer u.origbufferSize).1)

/-- `bsend_poll_user` (:634). -/
def pollUser (prog : List Nat) (q : Requests) (u : User) : Requests × User × Bool :=
  let (q, u) := checkActive prog q u
  (q, u, u.active.isNone)

/-! ## The system -/

/-- `MPII_BsendBuffer` (:107). -/
inductive Buffer where
  | user (u : User)
  | automatic (a : Auto)

/-- What the last call reports: that a flush or a detach returned, or the result of a poll. -/
inductive Report where
  | none
  | flushed
  | polled (empty : Bool)

/-- The state: the attached buffer, the requests, and what the last call reports. -/
structure St where
  buffer : Option Buffer
  reqs : Requests
  last : Report

/-- The calls of the program, with what the device does in them, and the progress of the device
between them. -/
inductive Act where
  | attach (buffer : Option Nat) (size : Nat)
  | isend (m : Msg) (prog₁ prog₂ : List Nat) (sent : Bool)
  | progress (prog : List Nat)
  | poll (prog : List Nat)
  | flush (prog : Nat → List Nat)
  | detach (prog : Nat → List Nat)

/-- Attach a buffer, if there is none. `MPIR_Bsend_attach` (:53). -/
def attach (s : St) (buffer : Option Nat) (size : Nat) : St :=
  match s.buffer, buffer with
  | some _, _ => { s with last := .none }
  | none, none => { s with buffer := some (.automatic ⟨size, []⟩), last := .none }
  | none, some addr =>
    { s with buffer := some (.user (User.zero.attachUser addr size).1), last := .none }

/-- `MPIR_Bsend_isend` (:142). -/
def isend (s : St) (m : Msg) (prog₁ prog₂ : List Nat) (sent : Bool) : St :=
  match s.buffer with
  | none => { s with last := .none }
  | some (.automatic a) =>
    let (q, a) := isendAuto s.reqs a m sent
    ⟨some (.automatic a), q, .none⟩
  | some (.user u) =>
    let (q, u) := isendUser prog₁ prog₂ s.reqs u m sent
    ⟨some (.user u), q, .none⟩

/-- `MPIR_Bsend_poll` (:184). -/
def poll (s : St) (prog : List Nat) : St :=
  match s.buffer with
  | none => { s with last := .polled true }
  | some (.automatic a) =>
    let (q, a, empty) := pollAuto prog s.reqs a
    ⟨some (.automatic a), q, .polled empty⟩
  | some (.user u) =>
    let (q, u, empty) := pollUser prog s.reqs u
    ⟨some (.user u), q, .polled empty⟩

/-- `MPIR_Bsend_flush` (:116). -/
def flush (s : St) (prog : Nat → List Nat) : St :=
  match s.buffer with
  | none => { s with last := .flushed }
  | some (.automatic a) =>
    let (q, a) := flushAuto prog s.reqs a
    ⟨some (.automatic a), q, .flushed⟩
  | some (.user u) =>
    let (q, u) := flushUser prog s.reqs u
    ⟨some (.user u), q, .flushed⟩

/-- `MPIR_Bsend_detach` (:86). -/
def detach (s : St) (prog : Nat → List Nat) : St :=
  match s.buffer with
  | none => { s with last := .flushed }
  | some (.automatic a) => ⟨none, (flushAuto prog s.reqs a).1, .flushed⟩
  | some (.user u) => ⟨none, (detachUser prog s.reqs u).1, .flushed⟩

def bsendStep (s : St) : Act → Option St
  | .attach buffer size => some (attach s buffer size)
  | .isend m prog₁ prog₂ sent => some (isend s m prog₁ prog₂ sent)
  | .progress prog => some { s with reqs := s.reqs.progressTest prog, last := .none }
  | .poll prog => some (poll s prog)
  | .flush prog => some (flush s prog)
  | .detach prog => some (detach s prog)

def bsendSys : Sys St Act := ⟨⟨none, ⟨0, [], []⟩, .none⟩, bsendStep⟩

end PsMpi.Bsend
