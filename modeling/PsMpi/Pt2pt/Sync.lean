import PsMpi.Lib.Trans
import PsMpi.Pt2pt.Match

/-!
# Synchronous sends

Two processes, one of which sends to the other.
-/

open PsMpi.Lib

namespace PsMpi.Pt2pt

structure Send where
  id : Nat
  sync : Bool
  tag : Int
  contextId : Nat
  dataLen : Nat
  deriving DecidableEq

/-- The message of a send, with the address at which the receiver keeps its header. -/
def Send.msg (x : Send) (ptr : Nat) : Msg :=
  ⟨x.id, x.sync, 0, ptr, x.tag, x.contextId, sentType x.sync, x.dataLen⟩

def Msg.send (m : Msg) : Send := ⟨m.id, m.sync, m.tag, m.contextId, m.dataLen⟩

def Msg.ack (cancelled : Bool) (m : Msg) : Ack := ⟨m.id, m.tag, m.contextId, cancelled⟩

/-- `cb_accept_ack` (`mpid_irecv.c:34`). -/
def Send.key (x : Send) : Int × Nat := (x.tag, x.contextId)

def Ack.key (a : Ack) : Int × Nat := (a.tag, a.contextId)

/-- What is sent to the receiver: the message of a send, or the cancel request
`CANCEL_DATA_REQUEST_ACK` with the tag and the context of a send. -/
inductive Packet
  | data (x : Send)
  | cancel (x : Send)
  deriving DecidableEq

def Packet.data? : Packet → Option Send
  | .data x => some x
  | .cancel _ => none

@[simp] theorem Packet.data?_data (x : Send) : (Packet.data x).data? = some x := rfl

@[simp] theorem Packet.data?_cancel (x : Send) : (Packet.cancel x).data? = none := rfl

def Packet.removes (r : RecvSt) : Packet → Option Msg
  | .data _ => none
  | .cancel x =>
    (pick? (fun m => fromSource (some 0) m && cbAcceptCancelData x.tag x.contextId m) r.queue).map
      (·.1)

structure SyncSt where
  sends : List Send
  sendq : List Packet
  withdrawn : List Send
  wire : List Packet
  sent : List Send
  ioDone : List Send
  recv : RecvSt
  removals : List (Nat × Nat)
  ackPos : Nat
  acks : Pairing Send Ack

inductive SyncAct
  | send (sync : Bool) (tag : Int) (contextId dataLen : Nat)
  | cancelSend (k : Nat)
  | transmit
  | sendDone (k : Nat)
  | deliver (ptr : Nat)
  | irecv (con : Option Nat) (tag : Option Int) (contextId dataLen : Nat)
  | cancelRecv (k : Nat)
  | improbe (con : Option Nat) (tag : Option Int) (contextId : Nat)
  | imrecv (k dataLen : Nat)
  | recvDone (k : Nat)
  | deliverAck

def SyncAct.isEvent : SyncAct → Bool
  | .transmit | .sendDone _ | .deliver _ | .recvDone _ | .deliverAck => true
  | _ => false

namespace SyncSt

def init : SyncSt := ⟨[], [], [], [], [], [], .init, [], 0, .init⟩

/-- `MPIDI_PSP_Isend`, `MPIDI_PSP_Issend` (`mpid_isend.c:254`, `:290`). -/
def send (s : SyncSt) (sync : Bool) (tag : Int) (contextId dataLen : Nat) : SyncSt :=
  let x : Send := ⟨s.sends.length, sync, tag, contextId, dataLen⟩
  { s with sends := s.sends ++ [x], sendq := s.sendq ++ [Packet.data x] }

/-- A send that is still in the send queue is taken out of it and completes. `MPID_Cancel_send`
(`mpid_cancel.c:26`). -/
def cancelSend (s : SyncSt) (x : Send) : SyncSt :=
  if .data x ∈ s.sendq then
    { s with sendq := s.sendq.erase (.data x), withdrawn := s.withdrawn ++ [x] }
  else if x.sync then
    { s with sendq := s.sendq ++ [Packet.cancel x] }
  else
    s

def transmit (s : SyncSt) : Option SyncSt :=
  match s.sendq with
  | [] => none
  | p :: ps =>
    some { s with sendq := ps, wire := s.wire ++ [p], sent := s.sent ++ p.data?.toList }

/-- The transfer of a send is done: a synchronous send waits for its acknowledgement, another one
completes. `sendrequest_common_done`, `MPID_PSP_RecvAck` (`mpid_isend.c:25`,
`mpid_irecv.c:450`). -/
def sendDone (s : SyncSt) (k : Nat) : Option SyncSt :=
  match s.sent[k]? with
  | none => none
  | some x =>
    some { s with
      sent := s.sent.eraseIdx k
      ioDone := s.ioDone ++ [x]
      acks := if x.sync then s.acks.request Send.key Ack.key x else s.acks }

/-- The next packet arrives. The header of a message is not kept at the address of one that is
still in the queue. -/
def deliver (s : SyncSt) (ptr : Nat) : Option SyncSt :=
  match s.wire with
  | [] => none
  | .data x :: ps =>
    if ptr ∈ s.recv.queue.map (·.ptr) then none
    else some { s with wire := ps, recv := s.recv.arrive (x.msg ptr) }
  | .cancel x :: ps =>
    some { s with
      wire := ps
      recv := s.recv.cancelData 0 x.tag x.contextId
      removals := s.removals ++
        ((Packet.cancel x).removes s.recv).toList.map fun m => (x.id, m.id) }

/-- The next acknowledgement arrives: it goes to the first receive with its key or waits in the
queue. `cb_accept_ack`, `cb_io_done_ack` (:34, :48). -/
def deliverAck (s : SyncSt) : Option SyncSt :=
  (s.recv.acks[s.ackPos]?).map fun a =>
    { s with ackPos := s.ackPos + 1, acks := s.acks.answer Send.key Ack.key a }

def step (s : SyncSt) : SyncAct → Option SyncSt
  | .send sync tag ctx len => some (s.send sync tag ctx len)
  | .cancelSend k => (s.sends[k]?).map s.cancelSend
  | .transmit => s.transmit
  | .sendDone k => s.sendDone k
  | .deliver ptr => s.deliver ptr
  | .irecv con tag ctx len => some { s with recv := s.recv.irecv con tag ctx len }
  | .cancelRecv k => some { s with recv := s.recv.cancelRecv k }
  | .improbe con tag ctx => some { s with recv := s.recv.improbe con tag ctx }
  | .imrecv k len => (s.recv.handles[k]?).map fun h => { s with recv := s.recv.imrecv h len }
  | .recvDone k => (s.recv.recvDone k).map fun r => { s with recv := r }
  | .deliverAck => s.deliverAck

/-! ## What synchronous sends promise -/

def taken (s : SyncSt) : List Nat := (s.recv.active ++ s.recv.done).map (·.1.id)

def deliverable (s : SyncSt) : List Nat :=
  (s.sendq.filterMap Packet.data?).map (·.id) ++ (s.wire.filterMap Packet.data?).map (·.id) ++
    s.recv.queue.map (·.id) ++ s.taken

/-- A synchronous send has completed: it was cancelled in the send queue or has got its
acknowledgement. -/
def Completed (s : SyncSt) (x : Send) : Prop := x ∈ s.withdrawn ∨ x ∈ s.acks.pairs.map (·.1)

def Cancelled (s : SyncSt) (x : Send) : Prop :=
  x ∈ s.withdrawn ∨ ∃ p ∈ s.acks.pairs, p.1 = x ∧ p.2.cancelled = true

/-- Nothing is queued or in flight, and every transfer that has begun is done. -/
def Settled (s : SyncSt) : Prop :=
  s.sendq = [] ∧ s.wire = [] ∧ s.sent = [] ∧ s.recv.active = [] ∧ s.ackPos = s.recv.acks.length

def work (s : SyncSt) : Nat :=
  5 * s.sendq.length + 3 * s.wire.length + s.sent.length + 2 * s.recv.active.length +
    (s.recv.acks.length - s.ackPos)

structure SyncOk (s : SyncSt) : Prop where
  once : (s.recv.acks.map (·.id)).Nodup
  received : ∀ x ∈ s.recv.done, x.1.sync = true → x.1.ack false ∈ s.recv.acks
  removed : ∀ m ∈ s.recv.removed, m.ack true ∈ s.recv.acks
  own : ∀ p ∈ s.acks.pairs, p.1.id = p.2.id
  notEarly : ∀ x ∈ s.sends, x.sync = true → s.Completed x →
    x.id ∈ s.taken ∨ x ∈ s.withdrawn ∨ (x.id, x.id) ∈ s.removals
  notDelivered : ∀ x ∈ s.sends, s.Cancelled x → x.id ∉ s.deliverable
  settles : ¬ s.Settled → ∃ a s', a.isEvent = true ∧ s.step a = some s'
  works : ∀ a s', a.isEvent = true → s.step a = some s' → s'.work < s.work
  complete : s.Settled → ∀ x ∈ s.sends, x.sync = true → x.id ∈ s.taken →
    s.Completed x ∧ ¬ s.Cancelled x
  cancelled : s.Settled → ∀ x ∈ s.sends, x.sync = true → x.id ∉ s.deliverable → s.Cancelled x
  noneLeft : s.Settled → s.acks.kept = []

/-! ## When they keep it -/

def InTurn (s : SyncSt) : SyncAct → Prop
  | .sendDone k => ∀ x ∈ s.sent[k]?, x.sync = true →
      Pairing.ReqInTurn Send.key Ack.key Send.id Ack.id s.acks.reqs s.recv.acks x
  | .recvDone k => ∀ x ∈ s.recv.active[k]?, x.1.sync = true → x.1.dataLen ≤ x.2.dataLen ∧
      Pairing.AnsInTurn Send.key Ack.key Send.id Ack.id s.acks.reqs s.recv.acks (x.1.ack false)
  | .deliver _ => ∀ p ∈ s.wire.head?, ∀ m ∈ p.removes s.recv, p = .cancel m.send ∧
      Pairing.AnsInTurn Send.key Ack.key Send.id Ack.id s.acks.reqs s.recv.acks (m.ack true)
  | _ => True

instance (s : SyncSt) (a : SyncAct) : Decidable (s.InTurn a) :=
  match a with
  | .send .. | .cancelSend _ | .transmit | .irecv .. | .cancelRecv _ | .improbe .. | .imrecv ..
  | .deliverAck => inferInstanceAs (Decidable True)
  | .sendDone k => inferInstanceAs (Decidable (∀ x ∈ s.sent[k]?, x.sync = true →
      Pairing.ReqInTurn Send.key Ack.key Send.id Ack.id s.acks.reqs s.recv.acks x))
  | .recvDone k => inferInstanceAs (Decidable (∀ x ∈ s.recv.active[k]?, x.1.sync = true →
      x.1.dataLen ≤ x.2.dataLen ∧ Pairing.AnsInTurn Send.key Ack.key Send.id Ack.id s.acks.reqs
        s.recv.acks (x.1.ack false)))
  | .deliver _ => inferInstanceAs (Decidable (∀ p ∈ s.wire.head?, ∀ m ∈ p.removes s.recv,
      p = .cancel m.send ∧ Pairing.AnsInTurn Send.key Ack.key Send.id Ack.id s.acks.reqs
        s.recv.acks (m.ack true)))

end SyncSt

def syncSys : Sys SyncSt SyncAct := ⟨.init, SyncSt.step⟩

end PsMpi.Pt2pt
