import PsMpi.Lib.Pairing
import PsMpi.Lib.Trans

/-!
# The handshake of partitioned requests
-/

open PsMpi.Lib List

namespace PsMpi.Part

/-- `MPIR_Comm` (`mpir_comm.h`). -/
structure CommIds where
  contextId : Nat → Nat
  recvcontextId : Nat → Nat
  recv_inj : Function.Injective recvcontextId

/-- A partitioned request in one of the lists. `MPID_DEV_Request_partitioned` (`mpidpre.h`). -/
structure PartEntry where
  rank : Nat
  tag : Int
  contextId : Nat
  comm : Nat
  id : Nat
  deriving DecidableEq

def PartEntry.key (e : PartEntry) : Nat × Int × Nat := (e.rank, e.tag, e.contextId)

def PartEntry.userKey (e : PartEntry) : Nat × Int × Nat := (e.rank, e.tag, e.comm)

/-- `partitioned_requests_do_match` (`mpid_part.c:34`). -/
def partitionedRequestsDoMatch (rank : Nat) (tag : Int) (contextId : Nat) (req : PartEntry) :
    Bool :=
  decide (req.rank = rank ∧ req.tag = tag ∧ req.contextId = contextId)

/-- `match_and_deq_request` (:56). -/
def matchAndDeqRequest (rank : Nat) (tag : Int) (contextId : Nat) (queue : List PartEntry) :
    Option (PartEntry × List PartEntry) :=
  pick? (partitionedRequestsDoMatch rank tag contextId) queue

/-- `part_posted_list`, `part_unexp_list` (`mpidimpl.h`). -/
structure PartLists where
  posted : List PartEntry
  unexp : List PartEntry
  recvs : List PartEntry
  sends : List PartEntry
  pairs : List (PartEntry × PartEntry)
  deriving DecidableEq

namespace PartLists

def init : PartLists := ⟨[], [], [], [], []⟩

/-- `MPID_do_recv_part_send_init` (:452), the call in `MPID_Psend_init` (:981). -/
def recvPartSendInit (ids : CommIds) (s : PartLists) (rank : Nat) (tag : Int) (comm id : Nat) :
    PartLists :=
  let e : PartEntry := ⟨rank, tag, ids.recvcontextId comm, comm, id⟩
  match matchAndDeqRequest e.rank e.tag e.contextId s.posted with
  | some (r, rest) => { s with sends := s.sends ++ [e], posted := rest, pairs := s.pairs ++ [(r, e)] }
  | none => { s with sends := s.sends ++ [e], unexp := s.unexp ++ [e] }

/-- `MPID_Precv_init` (:1009), `MPID_PSP_part_init_common`
(:799). -/
def precvInit (ids : CommIds) (s : PartLists) (rank : Nat) (tag : Int) (comm id : Nat) :
    PartLists :=
  let r : PartEntry := ⟨rank, tag, ids.contextId comm, comm, id⟩
  match matchAndDeqRequest r.rank r.tag r.contextId s.unexp with
  | some (e, rest) => { s with recvs := s.recvs ++ [r], unexp := rest, pairs := s.pairs ++ [(r, e)] }
  | none => { s with recvs := s.recvs ++ [r], posted := s.posted ++ [r] }

end PartLists

inductive PartListAct
  | sendInit (rank : Nat) (tag : Int) (comm id : Nat)
  | precvInit (rank : Nat) (tag : Int) (comm id : Nat)

def partListSys (ids : CommIds) : Sys PartLists PartListAct where
  init := .init
  step s
    | .sendInit rank tag comm id => some (s.recvPartSendInit ids rank tag comm id)
    | .precvInit rank tag comm id => some (s.precvInit ids rank tag comm id)

/-- For each source, tag and communicator, the `n`-th receive request is paired with the `n`-th
SEND_INIT message and with nothing else, and what is left over is on one list only. -/
structure PartLists.Matched (s : PartLists) : Prop where
  keys : ∀ p ∈ s.pairs, p.1.userKey = p.2.userKey
  nth : ∀ k, s.pairs.filter (fun p => decide (p.1.userKey = k)) =
    (s.recvs.filter fun r => decide (r.userKey = k)).zip
      (s.sends.filter fun e => decide (e.userKey = k))
  left : ∀ r ∈ s.posted, ∀ e ∈ s.unexp, r.userKey ≠ e.userKey

/-! ## The lists as a pairing -/

section
variable {ids : CommIds} {s : PartLists}

def PartLists.toPairing (s : PartLists) : Pairing PartEntry PartEntry :=
  ⟨s.recvs, s.sends, s.posted, s.unexp, s.pairs⟩

theorem matchAndDeqRequest_eq (e : PartEntry) (l : List PartEntry) :
    matchAndDeqRequest e.rank e.tag e.contextId l = pick? (fun r => decide (r.key = e.key)) l := by
  unfold matchAndDeqRequest
  congr 1
  funext r
  simp [partitionedRequestsDoMatch, PartEntry.key]

theorem PartLists.recvPartSendInit_toPairing (s : PartLists) (ids : CommIds) (rank : Nat) (tag : Int)
    (comm id : Nat) :
    (s.recvPartSendInit ids rank tag comm id).toPairing =
      s.toPairing.answer PartEntry.key PartEntry.key
        ⟨rank, tag, ids.recvcontextId comm, comm, id⟩ := by
  have hm := matchAndDeqRequest_eq ⟨rank, tag, ids.recvcontextId comm, comm, id⟩ s.posted
  cases hp : pick? (fun r => decide (r.key = PartEntry.key
      ⟨rank, tag, ids.recvcontextId comm, comm, id⟩)) s.posted with
  | none =>
    rw [hp] at hm
    simp [PartLists.recvPartSendInit, Pairing.answer, PartLists.toPairing, hm, hp]
  | some x =>
    rw [hp] at hm
    simp [PartLists.recvPartSendInit, Pairing.answer, PartLists.toPairing, hm, hp]

theorem PartLists.precvInit_toPairing (s : PartLists) (ids : CommIds) (rank : Nat) (tag : Int)
    (comm id : Nat) :
    (s.precvInit ids rank tag comm id).toPairing =
      s.toPairing.request PartEntry.key PartEntry.key ⟨rank, tag, ids.contextId comm, comm, id⟩ := by
  have hm := matchAndDeqRequest_eq ⟨rank, tag, ids.contextId comm, comm, id⟩ s.unexp
  cases hp : pick? (fun e => decide (e.key = PartEntry.key
      ⟨rank, tag, ids.contextId comm, comm, id⟩)) s.unexp with
  | none =>
    rw [hp] at hm
    simp [PartLists.precvInit, Pairing.request, PartLists.toPairing, hm, hp]
  | some x =>
    rw [hp] at hm
    simp [PartLists.precvInit, Pairing.request, PartLists.toPairing, hm, hp]

/-- The invariant of the lists: the requests and the messages with one key are paired in their
orders, and each is entered with the id of its side. -/
structure PartLists.Ok (ids : CommIds) (s : PartLists) : Prop where
  fifo : Pairing.Fifo PartEntry.key PartEntry.key s.toPairing
  recvs : ∀ r ∈ s.recvs, r.contextId = ids.contextId r.comm
  sends : ∀ e ∈ s.sends, e.contextId = ids.recvcontextId e.comm

theorem PartLists.Ok.init : PartLists.Ok ids .init := ⟨Pairing.init_fifo, nofun, nofun⟩

theorem PartLists.Ok.recvPartSendInit (h : s.Ok ids) (rank : Nat) (tag : Int) (comm id : Nat) :
    (s.recvPartSendInit ids rank tag comm id).Ok ids := by
  have heq := s.recvPartSendInit_toPairing ids rank tag comm id
  have hrecvs := congrArg Pairing.reqs heq
  have hsends := congrArg Pairing.anss heq
  simp only [Pairing.answer_reqs, Pairing.answer_anss, PartLists.toPairing] at hrecvs hsends
  refine ⟨by rw [heq]; exact Pairing.answer_fifo h.fifo _, ?_, ?_⟩
  · rw [hrecvs]
    exact h.recvs
  · rw [hsends]
    intro e he
    rcases mem_append.1 he with he | he
    · exact h.sends e he
    · rw [mem_singleton.1 he]

theorem PartLists.Ok.precvInit (h : s.Ok ids) (rank : Nat) (tag : Int) (comm id : Nat) :
    (s.precvInit ids rank tag comm id).Ok ids := by
  have heq := s.precvInit_toPairing ids rank tag comm id
  have hrecvs := congrArg Pairing.reqs heq
  have hsends := congrArg Pairing.anss heq
  simp only [Pairing.request_reqs, Pairing.request_anss, PartLists.toPairing] at hrecvs hsends
  refine ⟨by rw [heq]; exact Pairing.request_fifo h.fifo _, ?_, ?_⟩
  · rw [hrecvs]
    intro r hr
    rcases mem_append.1 hr with hr | hr
    · exact h.recvs r hr
    · rw [mem_singleton.1 hr]
  · rw [hsends]
    exact h.sends

theorem partListSys_ok (h : (partListSys ids).Reach s) : s.Ok ids := by
  refine h.inv PartLists.Ok.init fun {s a s'} hi hs => ?_
  cases a with
  | sendInit rank tag comm id => cases hs; exact hi.recvPartSendInit rank tag comm id
  | precvInit rank tag comm id => cases hs; exact hi.precvInit rank tag comm id

/-! ## The keys of the user -/

theorem key_eq_iff {r : PartEntry} {rank : Nat} {tag : Int} {comm : Nat}
    (hr : r.contextId = ids.recvcontextId r.comm) :
    r.key = (rank, tag, ids.recvcontextId comm) ↔ r.userKey = (rank, tag, comm) := by
  simp only [PartEntry.key, PartEntry.userKey, Prod.mk.injEq, hr, ids.recv_inj.eq_iff]

theorem PartLists.Ok.matched (h : s.Ok ids) (hids : ∀ c, ids.contextId c = ids.recvcontextId c) :
    s.Matched := by
  have hrecvs : ∀ r ∈ s.recvs, r.contextId = ids.recvcontextId r.comm := fun r hr =>
    (h.recvs r hr).trans (hids r.comm)
  have hkey : ∀ r ∈ s.recvs, ∀ e ∈ s.sends, r.key = e.key ↔ r.userKey = e.userKey := by
    intro r hr e he
    have hek : e.key = (e.rank, e.tag, ids.recvcontextId e.comm) := by
      rw [PartEntry.key, h.sends e he]
    rw [hek]
    exact key_eq_iff (hrecvs r hr)
  have hposted : ∀ r ∈ s.posted, r ∈ s.recvs := fun r hr => h.fifo.waiting_subset hr
  have hunexp : ∀ e ∈ s.unexp, e ∈ s.sends := fun e he => h.fifo.kept_subset he
  refine ⟨fun p hp => ?_, fun k => ?_, fun r hr e he heq => ?_⟩
  · obtain ⟨h1, h2⟩ := h.fifo.pairs_mem hp
    exact (hkey p.1 h1 p.2 h2).1 (h.fifo.keys p hp)
  · obtain ⟨rank, tag, comm⟩ := k
    have hfilter : ∀ l : List PartEntry, (∀ r ∈ l, r.contextId = ids.recvcontextId r.comm) →
        l.filter (fun r => decide (r.userKey = (rank, tag, comm))) =
          l.filter fun r => decide (r.key = (rank, tag, ids.recvcontextId comm)) := by
      intro l hl
      refine filter_congr fun r hr => ?_
      rw [decide_eq_decide]
      exact (key_eq_iff (hl r hr)).symm
    have hpairs : s.pairs.filter (fun p => decide (p.1.userKey = (rank, tag, comm))) =
        s.pairs.filter fun p => decide (p.1.key = (rank, tag, ids.recvcontextId comm)) := by
      refine filter_congr fun p hp => ?_
      rw [decide_eq_decide]
      exact (key_eq_iff (hrecvs p.1 (h.fifo.pairs_mem hp).1)).symm
    rw [hfilter _ hrecvs, hfilter _ h.sends, hpairs]
    exact h.fifo.ofPair_eq_zip _
  · have hk := (hkey r (hposted r hr) e (hunexp e he)).2 heq
    rcases h.fifo.left e.key with hl | hl
    · exact not_mem_nil (hl ▸ Pairing.mem_ofReq.2 ⟨hr, hk⟩)
    · exact not_mem_nil (hl ▸ Pairing.mem_ofAns.2 ⟨he, rfl⟩)

theorem not_matched_of_ne {c : Nat} (hc : ids.contextId c ≠ ids.recvcontextId c) :
    ∃ s, (partListSys ids).Reach s ∧ ¬ s.Matched := by
  have hr : (partListSys ids).Reach
      ((PartLists.init.precvInit ids 0 0 c 0).recvPartSendInit ids 0 0 c 0) :=
    .step (a := .sendInit 0 0 c 0) (.step (a := .precvInit 0 0 c 0) .init trivial rfl) trivial rfl
  have hstate : (PartLists.init.precvInit ids 0 0 c 0).recvPartSendInit ids 0 0 c 0 =
      ⟨[⟨0, 0, ids.contextId c, c, 0⟩], [⟨0, 0, ids.recvcontextId c, c, 0⟩],
        [⟨0, 0, ids.contextId c, c, 0⟩], [⟨0, 0, ids.recvcontextId c, c, 0⟩], []⟩ := by
    simp [PartLists.precvInit, PartLists.recvPartSendInit, PartLists.init, matchAndDeqRequest, pick?,
      partitionedRequestsDoMatch, hc]
  rw [hstate] at hr
  exact ⟨_, hr, fun hm => hm.left _ (mem_singleton_self _) _ (mem_singleton_self _) rfl⟩

end

/-- **The handshake.** For all orders of messages and calls, the `n`-th SEND_INIT message of a
source with a tag on a communicator is paired with the `n`-th receive request for them, and nothing
else is paired, if and only if every communicator has one id for both directions. -/
theorem part_handshake_exact (ids : CommIds) :
    (∀ s, (partListSys ids).Reach s → s.Matched) ↔
      ∀ c, ids.contextId c = ids.recvcontextId c := by
  constructor
  · intro h c
    by_contra hc
    obtain ⟨s, hr, hn⟩ := not_matched_of_ne hc
    exact hn (h s hr)
  · exact fun hids s hr => (partListSys_ok hr).matched hids

def interIds : CommIds where
  contextId c := if c = 1 then 7 else c
  recvcontextId c := c
  recv_inj := Function.injective_id

/-- On the intercommunicator a receive request and a SEND_INIT message with the same source and tag
stay on their lists. -/
theorem part_handshake_intercomm :
    ∃ s, (partListSys interIds).Reach s ∧ s.pairs = [] ∧
      s.posted = [⟨0, 5, 7, 1, 0⟩] ∧ s.unexp = [⟨0, 5, 1, 1, 0⟩] ∧ ¬ s.Matched := by
  have hrun : (partListSys interIds).exec .init [.precvInit 0 5 1 0, .sendInit 0 5 1 0] =
      some ⟨[⟨0, 5, 7, 1, 0⟩], [⟨0, 5, 1, 1, 0⟩], [⟨0, 5, 7, 1, 0⟩], [⟨0, 5, 1, 1, 0⟩], []⟩ := by
    decide
  refine ⟨_, Sys.exec_reach .init hrun, rfl, rfl, rfl, fun hm => ?_⟩
  exact hm.left _ (mem_singleton_self _) _ (mem_singleton_self _) rfl

end PsMpi.Part
