import PsMpi.Lib.Pairing

/-!
# Receive queues
-/

open PsMpi.Lib List

namespace PsMpi.Pt2pt

/-- `MPID_PSP_MSGTYPE` (`mpidpre.h:399`). -/
inductive MsgType
  | data
  | dataRequestAck
  | dataAck
  | cancelDataAck
  | cancelDataRequestAck
  | dataCancelled
  | mprobeReservedRequest
  | mprobeReservedRequestAck
  deriving DecidableEq

def MsgType.code : MsgType → Nat
  | .data => 0
  | .dataRequestAck => 1
  | .dataAck => 2
  | .cancelDataAck => 3
  | .cancelDataRequestAck => 4
  | .dataCancelled => 15
  | .mprobeReservedRequest => 16
  | .mprobeReservedRequestAck => 17

structure Msg where
  id : Nat
  sync : Bool
  con : Nat
  ptr : Nat
  tag : Int
  contextId : Nat
  type : MsgType
  dataLen : Nat

/-- `MPIDI_PSP_Isend`, `MPIDI_PSP_Issend` (`mpid_isend.c:254-300`). -/
def sentType (sync : Bool) : MsgType := if sync then .dataRequestAck else .data

/-- `cb_accept_data_mprobe` (`mpid_mprobe.c:42-46`). -/
def MsgType.reserved : MsgType → MsgType
  | .data => .mprobeReservedRequest
  | _ => .mprobeReservedRequestAck

/-- `mreceive_done` (:88-92). -/
def MsgType.restored : MsgType → MsgType
  | .mprobeReservedRequest => .data
  | _ => .dataRequestAck

/-! ## Accept callbacks -/

/-- `cb_accept_data` (`mpid_irecv.c:20`). -/
def cbAcceptData (tag : Option Int) (contextId : Nat) (m : Msg) : Bool :=
  decide (m.type.code ≤ MsgType.dataRequestAck.code) &&
    (tag == some m.tag || tag == none) && m.contextId == contextId

/-- `cb_accept_data_mrecv` (`mpid_mprobe.c:59`). -/
def cbAcceptDataMrecv (mprobeTag : Option Nat) (m : Msg) : Bool :=
  (m.type == .mprobeReservedRequest || m.type == .mprobeReservedRequestAck) &&
    mprobeTag == some m.ptr

/-- `cb_accept_data_mprobe` (:28). -/
def cbAcceptDataMprobe (tag : Option Int) (contextId : Nat) (mprobeTag : Option Nat) (m : Msg) :
    Bool :=
  cbAcceptData tag contextId m || cbAcceptDataMrecv mprobeTag m

/-- `cb_accept_cancel_data` (`mpid_irecv.c:171`). -/
def cbAcceptCancelData (tag : Int) (contextId : Nat) (m : Msg) : Bool :=
  (m.type == .dataRequestAck || m.type == .dataCancelled) && m.tag == tag &&
    m.contextId == contextId

def Msg.reserve (m : Msg) : Msg := { m with type := m.type.reserved }

def fromSource (con : Option Nat) (m : Msg) : Bool := con == none || con == some m.con

inductive Accept
  | data (tag : Option Int) (contextId : Nat)
  | mrecv (mprobeTag : Nat)

structure Recv where
  id : Nat
  con : Option Nat
  accept : Accept
  dataLen : Nat

def Recv.takes (r : Recv) (m : Msg) : Bool :=
  fromSource r.con m &&
    match r.accept with
    | .data tag contextId => cbAcceptData tag contextId m
    | .mrecv mprobeTag => cbAcceptDataMrecv (some mprobeTag) m

/-- The message of a matched probe, which is the request that `MPID_Imrecv` posts later. -/
structure Handle where
  id : Nat
  con : Option Nat
  mprobeTag : Nat
  deriving DecidableEq

/-- An acknowledgement: `DATA_ACK` of a message that was received or `CANCEL_DATA_ACK` of one that
was removed. -/
structure Ack where
  id : Nat
  tag : Int
  contextId : Nat
  cancelled : Bool

structure RecvSt where
  queue : List Msg
  posted : List Recv
  active : List (Msg × Recv)
  handles : List Handle
  nextRecv : Nat
  done : List (Msg × Recv)
  probed : List (Nat × Nat)
  removed : List Msg
  acks : List Ack

namespace RecvSt

def init : RecvSt := ⟨[], [], [], [], 0, [], [], [], []⟩

/-- A message arrives: it goes to the first posted receive that takes it or into the queue. -/
def arrive (s : RecvSt) (m : Msg) : RecvSt :=
  match pick? (·.takes m) s.posted with
  | some (r, rest) => { s with posted := rest, active := s.active ++ [(m, r)] }
  | none => { s with queue := s.queue ++ [m] }

/-- A receive is posted: it takes the first message of the queue that it accepts or waits.
`pscom_post_recv`. -/
def postRecv (s : RecvSt) (r : Recv) : RecvSt :=
  match pick? r.takes s.queue with
  | some (m, rest) => { s with queue := rest, active := s.active ++ [(m, r)] }
  | none => { s with posted := s.posted ++ [r] }

/-- `MPIDI_PSP_Irecv` (:389). -/
def irecv (s : RecvSt) (con : Option Nat) (tag : Option Int) (contextId dataLen : Nat) : RecvSt :=
  { s with nextRecv := s.nextRecv + 1 }.postRecv ⟨s.nextRecv, con, .data tag contextId, dataLen⟩

/-- `MPID_Iprobe` (:549). -/
def iprobe (s : RecvSt) (con : Option Nat) (tag : Option Int) (contextId : Nat) : Option Msg :=
  s.queue.find? fun m => fromSource con m && cbAcceptData tag contextId m

def reserveFirst (p : Msg → Bool) : List Msg → List Msg
  | [] => []
  | m :: ms => if p m then m.reserve :: ms else m :: reserveFirst p ms

/-- The callback of a matched probe whose request is new, so that its `mprobe_tag` is `NULL`. -/
def mprobeTakes (con : Option Nat) (tag : Option Int) (contextId : Nat) (m : Msg) : Bool :=
  fromSource con m && cbAcceptDataMprobe tag contextId none m

/-- `MPID_Improbe` (`mpid_mprobe.c:237`). -/
def improbe (s : RecvSt) (con : Option Nat) (tag : Option Int) (contextId : Nat) : RecvSt :=
  match s.queue.find? (mprobeTakes con tag contextId) with
  | some m =>
    { s with
      queue := reserveFirst (mprobeTakes con tag contextId) s.queue
      handles := s.handles ++ [⟨s.nextRecv, con, m.ptr⟩]
      nextRecv := s.nextRecv + 1
      probed := s.probed ++ [(m.id, s.nextRecv)] }
  | none => s

/-- `MPIDI_PSP_Imrecv` (:132). -/
def imrecv (s : RecvSt) (h : Handle) (dataLen : Nat) : RecvSt :=
  { s with handles := s.handles.erase h }.postRecv ⟨h.id, h.con, .mrecv h.mprobeTag, dataLen⟩

/-- The type of a received message when its receive completes: the receive of a matched probe
restores it. `mreceive_done`, `receive_done` (`:83`, `mpid_irecv.c:67`). -/
def doneType (m : Msg) (r : Recv) : MsgType :=
  match r.accept with
  | .data _ _ => m.type
  | .mrecv _ => m.type.restored

/-- The acknowledgement that a completed receive sends: a receive that has been truncated is not
successful and sends none. `receive_done` (:78-85). -/
def ackOf (m : Msg) (r : Recv) : List Ack :=
  if m.dataLen ≤ r.dataLen then
    if doneType m r = .dataRequestAck then [⟨m.id, m.tag, m.contextId, false⟩] else []
  else
    []

def recvDone (s : RecvSt) (k : Nat) : Option RecvSt :=
  match s.active[k]? with
  | some (m, r) =>
    some { s with
      active := s.active.eraseIdx k
      done := s.done ++ [(m, r)]
      acks := s.acks ++ ackOf m r }
  | none => none

/-- A cancel request arrives: the first synchronous message of the queue with its key is removed and
the cancel is acknowledged; without one nothing happens.
`MPID_do_recv_cancel_data_request_ack` (:186). -/
def cancelData (s : RecvSt) (con : Nat) (tag : Int) (contextId : Nat) : RecvSt :=
  match pick? (fun m => fromSource (some con) m && cbAcceptCancelData tag contextId m) s.queue with
  | some (m, rest) =>
    { s with
      queue := rest
      removed := s.removed ++ [m]
      acks := s.acks ++ [⟨m.id, tag, contextId, true⟩] }
  | none => s

/-- `MPID_Cancel_recv` (`mpid_cancel.c:14`). -/
def cancelRecv (s : RecvSt) (k : Nat) : RecvSt := { s with posted := s.posted.eraseIdx k }

/-! ## Where the messages are -/

section
variable {β : Type*}

/-- The messages that have arrived, as far as `f` tells them: in the queue, taken by a receive, or
removed. -/
def placed (f : Msg → β) (s : RecvSt) : List β :=
  s.queue.map f ++ s.active.map (fun x => f x.1) ++ s.done.map (fun x => f x.1) ++ s.removed.map f

variable {s s' : RecvSt} (f : Msg → β)

theorem arrive_placed (s : RecvSt) (m : Msg) :
    ((s.arrive m).placed f).Perm (f m :: s.placed f) := by
  unfold arrive
  cases h : pick? (·.takes m) s.posted with
  | none =>
    simp only [placed, map_append, map_cons, map_nil, append_assoc,
      singleton_append]
    exact perm_middle
  | some r =>
    obtain ⟨r, rest⟩ := r
    simp only [placed, map_append, map_cons, map_nil, append_assoc,
      singleton_append]
    rw [← append_assoc]
    exact perm_middle.trans (by simp)

theorem postRecv_placed (s : RecvSt) (r : Recv) : ((s.postRecv r).placed f).Perm (s.placed f) := by
  unfold postRecv
  cases h : pick? r.takes s.queue with
  | none => exact .refl _
  | some x =>
    obtain ⟨m, rest⟩ := x
    have hq : (s.queue.map f).Perm (f m :: rest.map f) := (pick?_perm h).map _
    simp only [placed, map_append, map_cons, map_nil, append_assoc,
      singleton_append]
    refine List.Perm.trans ?_ (hq.append_right _).symm
    rw [← append_assoc]
    exact perm_middle.trans (by simp)

variable {f} in
theorem reserveFirst_map (hf : ∀ m : Msg, f m.reserve = f m) (p : Msg → Bool) (l : List Msg) :
    (reserveFirst p l).map f = l.map f := by
  induction l with
  | nil => rfl
  | cons m l ih =>
    unfold reserveFirst
    split
    · simp [hf]
    · simp [ih]

variable {f} in
theorem improbe_placed (hf : ∀ m : Msg, f m.reserve = f m) (s : RecvSt) (con : Option Nat)
    (tag : Option Int) (ctx : Nat) : (s.improbe con tag ctx).placed f = s.placed f := by
  unfold improbe
  split
  · simp only [placed, reserveFirst_map hf]
  · rfl

theorem recvDone_placed {k : Nat} (h : s.recvDone k = some s') :
    (s'.placed f).Perm (s.placed f) := by
  unfold recvDone at h
  split at h
  · rename_i m r hk
    cases h
    obtain ⟨hlt, hget⟩ := List.getElem?_eq_some_iff.1 hk
    have ha : (s.active.map (fun x => f x.1)).Perm
        (f m :: (s.active.eraseIdx k).map (fun x => f x.1)) := by
      have := (getElem_cons_eraseIdx_perm hlt).symm.map (fun x : Msg × Recv => f x.1)
      rwa [hget] at this
    simp only [placed, map_append, map_cons, map_nil, append_assoc,
      singleton_append]
    refine List.Perm.append_left _ ?_
    refine List.Perm.trans ?_ (ha.append_right _).symm
    rw [← append_assoc]
    exact perm_middle.trans (by simp)
  · cases h

theorem cancelData_placed (s : RecvSt) (con : Nat) (tag : Int) (ctx : Nat) :
    ((s.cancelData con tag ctx).placed f).Perm (s.placed f) := by
  unfold cancelData
  split
  · rename_i m rest h
    have hq : (s.queue.map f).Perm (f m :: rest.map f) := (pick?_perm h).map _
    simp only [placed, map_append, map_cons, map_nil, append_assoc]
    refine List.Perm.trans ?_ (hq.append_right _).symm
    have := @perm_append_comm _ (rest.map f ++ (s.active.map (fun x => f x.1) ++
      (s.done.map (fun x => f x.1) ++ s.removed.map f))) [f m]
    simpa [append_assoc] using this
  · exact .refl _

end

def msgIds (s : RecvSt) : List Nat := s.placed (·.id)

end RecvSt

end PsMpi.Pt2pt
