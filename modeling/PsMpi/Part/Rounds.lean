import PsMpi.Lib.Trans
import PsMpi.Part.Basic

/-!
# Rounds of a pair of partitioned requests
-/

open PsMpi.Lib

namespace PsMpi.Part

/-- `MPID_part_send_if_ready` (`mpid_part.c:360-365`). -/
def PartReq.partsOf (req : PartReq) (reqIdx : Nat) : List Nat :=
  ((List.range req.partPerReq).map (reqIdx * req.partPerReq + ·)).filter (· < req.partitions)

inductive PartMsg
  | sendInit (requests : Nat)
  | data (reqIdx : Nat)

structure SendSide where
  req : PartReq
  inited : Bool
  active : Bool
  partReady : Option (List Bool)
  peerRequest : Bool
  sendCtr : Nat
  cc : Nat
  pending : Nat
  out : List PartMsg
  round : Nat
  cts : Nat
  readied : Nat → List Nat
  issued : Nat → List Nat
  dataSent : Nat
  fault : Bool

namespace SendSide

/-- `MPID_part_issue_data_send` (:284-327). -/
def issueDataSend (s : SendSide) (reqIdx : Nat) : SendSide :=
  let s := { s with
    out := s.out ++ [PartMsg.data reqIdx]
    pending := s.pending + 1
    sendCtr := s.sendCtr + 1
    issued := Function.update s.issued s.round (s.issued s.round ++ [reqIdx])
    dataSent := s.dataSent + 1 }
  if s.sendCtr = s.req.requests then
    { s with partReady := none, peerRequest := false, sendCtr := 0 }
  else
    s

/-- `MPID_part_send_if_ready` (:348). -/
def sendIfReady (s : SendSide) (reqIdx : Nat) : Option SendSide :=
  if s.peerRequest = false then
    some s
  else
    match s.partReady, s.req.partsOf reqIdx with
    | some ready, parts =>
      if parts.all (ready.getD · false) then some (s.issueDataSend reqIdx) else some s
    | none, [] => some (s.issueDataSend reqIdx)
    | none, _ :: _ => none

/-- `MPID_part_check_data_transmission` with `part = -1` (:405-409). -/
def checkAll (s : SendSide) : Option SendSide :=
  (List.range s.req.requests).foldlM sendIfReady s

/-- `MPID_part_check_data_transmission` (:398-404). -/
def checkPart (s : SendSide) (part : Nat) : Option SendSide :=
  s.sendIfReady (part / s.req.partPerReq)

def orFault (s : SendSide) (r : Option SendSide) : SendSide := r.getD { s with fault := true }

/-- `MPID_Psend_init` (:949). -/
def psendInit (s : SendSide) : SendSide :=
  { s with inited := true, out := s.out ++ [PartMsg.sendInit s.req.requests] }

/-- `MPID_PSP_psend_start` (:837). -/
def psendStart (s : SendSide) : SendSide :=
  let s := { s with
    partReady := some (List.replicate s.req.partitions false)
    sendCtr := 0
    active := true
    cc := s.req.requests
    round := s.round + 1 }
  if s.peerRequest then s.orFault s.checkAll else s

/-- Mark a partition as ready, which fails without the array or on a partition that is ready.
`MPID_part_set_ready` (:577). -/
def setReady (s : SendSide) (part : Nat) : Option SendSide :=
  match s.partReady with
  | none => none
  | some ready =>
    if ready.getD part false then none
    else some { s with
      partReady := some (ready.set part true)
      readied := Function.update s.readied s.round (part :: s.readied s.round) }

/-- One turn of the loops of `MPID_Pready_range` and `MPID_Pready_list` (`:1073,1108`). A
failed call changes nothing. -/
def pready (s : SendSide) (part : Nat) : SendSide :=
  match s.setReady part with
  | none => s
  | some s => s.orFault (s.checkPart part)

/-- `MPID_do_recv_part_cts` (:530). -/
def recvCts (s : SendSide) (requests : Nat) : SendSide :=
  let s := { s with
    peerRequest := true
    req := s.req.checkNumRequests requests
    cts := s.cts + 1 }
  if s.active then
    let s := { s with cc := s.req.requests }
    s.orFault s.checkAll
  else
    s

/-- `sendrequest_common_done` (`mpid_isend.c:25`). -/
def sendDone (s : SendSide) : SendSide := { s with pending := s.pending - 1, cc := s.cc - 1 }

/-- `MPIR_Request_completion_processing` (`mpir_request.c:195-201`). -/
def wait (s : SendSide) : SendSide := { s with active := false }

end SendSide

/-- The receive request and the CTS messages that are on their way to the sender. -/
structure RecvSide where
  req : PartReq
  inited : Bool
  active : Bool
  peerRequest : Bool
  cc : Nat
  posted : List Nat
  unexp : List Nat
  pending : Nat
  unexpInit : Option Nat
  out : List Nat
  round : Nat

namespace RecvSide

/-- `MPID_Irecv` as called in `MPID_part_issue_data_recv` (`mpid_part.c:166`). -/
def irecv (r : RecvSide) (i : Nat) : RecvSide :=
  if i ∈ r.unexp then { r with unexp := r.unexp.erase i, pending := r.pending + 1 }
  else { r with posted := r.posted ++ [i] }

/-- `:478-489,911-925`. -/
def sendCts (r : RecvSide) : RecvSide :=
  (List.range r.req.requests).foldl irecv { r with out := r.out ++ [r.req.requests] }

def matched (r : RecvSide) (requests : Nat) : RecvSide :=
  { r with peerRequest := true, req := r.req.checkNumRequests requests }

/-- `MPID_Precv_init` (:1009). -/
def precvInit (r : RecvSide) : RecvSide :=
  let r := { r with inited := true }
  match r.unexpInit with
  | some requests => { r.matched requests with unexpInit := none }
  | none => r

/-- `MPID_PSP_precv_start` (:891). -/
def precvStart (r : RecvSide) : RecvSide :=
  let r := { r with active := true, cc := r.req.requests, round := r.round + 1 }
  if r.peerRequest then r.sendCts else r

/-- `MPID_do_recv_part_send_init` (:453). -/
def recvSendInit (r : RecvSide) (requests : Nat) : RecvSide :=
  if r.inited then
    let r := r.matched requests
    if r.active then { r with cc := r.req.requests }.sendCts else r
  else
    { r with unexpInit := some requests }

/-- A sub-message is delivered to the sub-receive that waits for it, or kept. -/
def recvData (r : RecvSide) (i : Nat) : RecvSide :=
  if i ∈ r.posted then { r with posted := r.posted.erase i, pending := r.pending + 1 }
  else { r with unexp := r.unexp ++ [i] }

/-- `receive_done` (`mpid_irecv.c:67`). -/
def recvDone (r : RecvSide) : RecvSide := { r with pending := r.pending - 1, cc := r.cc - 1 }

def wait (r : RecvSide) : RecvSide := { r with active := false }

end RecvSide

structure PartParams where
  sendPartitions : Nat
  sendCount : Nat
  recvPartitions : Nat
  recvCount : Nat
  send_pos : 0 < sendPartitions
  recv_pos : 0 < recvPartitions

structure PartSt where
  snd : SendSide
  rcv : RecvSide

/-- The steps of the pair: the calls of the two sides and the deliveries and completions that pscom
reports. -/
inductive PartAct
  | psendInit
  | precvInit
  | psendStart
  | precvStart
  | pready (part : Nat)
  | sendDone
  | recvDone
  | sendWait
  | recvWait
  | deliver
  | deliverCts

namespace PartSt

def init (P : PartParams) : PartSt where
  snd := {
    req := .init P.sendPartitions P.sendCount
    inited := false, active := false, partReady := none, peerRequest := false, sendCtr := 0
    cc := 0, pending := 0, out := [], round := 0, cts := 0
    readied := fun _ => [], issued := fun _ => [], dataSent := 0, fault := false }
  rcv := {
    req := .init P.recvPartitions P.recvCount
    inited := false, active := false, peerRequest := false, cc := 0, posted := [], unexp := []
    pending := 0, unexpInit := none, out := [], round := 0 }

def step (p : PartSt) (a : PartAct) : Option PartSt :=
  if p.snd.fault then none
  else
    match a with
    | .psendInit => if p.snd.inited then none else some { p with snd := p.snd.psendInit }
    | .precvInit => if p.rcv.inited then none else some { p with rcv := p.rcv.precvInit }
    | .psendStart =>
      if p.snd.inited ∧ p.snd.active = false then some { p with snd := p.snd.psendStart } else none
    | .precvStart =>
      if p.rcv.inited ∧ p.rcv.active = false then some { p with rcv := p.rcv.precvStart } else none
    | .pready part =>
      if p.snd.active ∧ part < p.snd.req.partitions then some { p with snd := p.snd.pready part }
      else none
    | .sendDone => if 0 < p.snd.pending then some { p with snd := p.snd.sendDone } else none
    | .recvDone => if 0 < p.rcv.pending then some { p with rcv := p.rcv.recvDone } else none
    | .sendWait =>
      if p.snd.active ∧ p.snd.cc = 0 then some { p with snd := p.snd.wait } else none
    | .recvWait =>
      if p.rcv.active ∧ p.rcv.cc = 0 then some { p with rcv := p.rcv.wait } else none
    | .deliver =>
      match p.snd.out with
      | [] => none
      | .sendInit requests :: rest =>
        some { snd := { p.snd with out := rest }, rcv := p.rcv.recvSendInit requests }
      | .data i :: rest =>
        some { snd := { p.snd with out := rest }, rcv := p.rcv.recvData i }
    | .deliverCts =>
      match p.rcv.out with
      | [] => none
      | requests :: rest =>
        some { snd := p.snd.recvCts requests, rcv := { p.rcv with out := rest } }

end PartSt

def partSys (P : PartParams) : Sys PartSt PartAct := ⟨.init P, PartSt.step⟩

/-- The data of the sender's round is complete and no Wait has ended the round. -/
def SendSide.DataComplete (s : SendSide) : Prop := s.active = true ∧ s.partReady = none

/-- What the rounds of the sender promise: no freed array is read; in every round no sub-message is
issued twice, and each one only after its partitions have been marked ready in this round and the
CTS message of the round has arrived; and in every round that has ended all have been issued. -/
structure SendSide.RoundOk (s : SendSide) : Prop where
  fault : s.fault = false
  once : ∀ k, (s.issued k).Nodup
  issued : ∀ k, ∀ i ∈ s.issued k, i < s.req.requests ∧ k ≤ s.cts ∧
    ∀ part < s.req.partitions, part / s.req.partPerReq = i → part ∈ s.readied k
  ended : ∀ k, 0 < k → (k < s.round ∨ (k = s.round ∧ s.active = false)) →
    ∀ i < s.req.requests, i ∈ s.issued k

/-- A CTS message that arrives when the data of the sender's round is complete leaves the completion
counter, the issued sub-messages and the freed array alone. -/
def CtsHarmless (p : PartSt) (a : PartAct) : Prop :=
  a = .deliverCts → p.snd.DataComplete → ∀ p', p.step a = some p' →
    p'.snd.cc = p.snd.cc ∧ p'.snd.fault = false ∧ p'.snd.issued = p.snd.issued

/-- No CTS message arrives between the last sub-message of a round and the sender's Wait. -/
def CtsAfterWait (p : PartSt) (a : PartAct) : Prop := a = .deliverCts → ¬ p.snd.DataComplete

end PsMpi.Part
