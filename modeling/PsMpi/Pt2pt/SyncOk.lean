import PsMpi.Pt2pt.Probe
import PsMpi.Pt2pt.Sync
import Mathlib.Data.Fintype.EquivFin

/-!
# Acknowledgements and cancel requests meet their sends
-/

open PsMpi.Lib List Option Function

namespace PsMpi.Pt2pt

/-! ## The receive queues -/

namespace RecvSt

variable {s s' : RecvSt}

/-- What the receive queues have done: the completed receives, the removed messages and the
acknowledgements. -/
def hist (s : RecvSt) : List (Msg × Recv) × List Msg × List Ack := (s.done, s.removed, s.acks)

@[simp] theorem arrive_hist (s : RecvSt) (m : Msg) : (s.arrive m).hist = s.hist := by
  unfold arrive
  split <;> rfl

@[simp] theorem irecv_hist (s : RecvSt) (con : Option Nat) (tag : Option Int) (ctx len : Nat) :
    (s.irecv con tag ctx len).hist = s.hist := by
  unfold irecv postRecv
  split <;> rfl

@[simp] theorem improbe_hist (s : RecvSt) (con : Option Nat) (tag : Option Int) (ctx : Nat) :
    (s.improbe con tag ctx).hist = s.hist := by
  unfold improbe
  split <;> rfl

@[simp] theorem imrecv_hist (s : RecvSt) (h : Handle) (len : Nat) :
    (s.imrecv h len).hist = s.hist := by
  unfold imrecv postRecv
  split <;> rfl

theorem Free.of_cancel (h : s.Ok) {m : Msg} (hm : m ∈ s.queue) {tag : Int} {ctx : Nat}
    (hc : cbAcceptCancelData tag ctx m = true) :
    s.Free m ∧ m.sync = true ∧ m.tag = tag ∧ m.contextId = ctx := by
  simp only [cbAcceptCancelData, Bool.and_eq_true, Bool.or_eq_true, beq_iff_eq] at hc
  obtain ⟨⟨htype, htag⟩, hctx⟩ := hc
  rcases h.queued m hm with hf | ⟨hd, -, -, hr⟩
  · refine ⟨hf, ?_, htag, hctx⟩
    cases hs : m.sync with
    | true => rfl
    | false => rw [hf.1, hs] at htype; simp [sentType] at htype
  · rw [hr.1] at htype
    cases hs : m.sync <;> simp [hs, sentType, MsgType.reserved] at htype

theorem cancelData_ok (h : s.Ok) (con : Nat) (tag : Int) (ctx : Nat) :
    (s.cancelData con tag ctx).Ok := by
  have hids : (s.cancelData con tag ctx).msgIds.Perm s.msgIds := cancelData_placed _ s con tag ctx
  unfold cancelData at hids ⊢
  split
  · rename_i m rest hpk
    simp only [hpk] at hids
    obtain ⟨hm, hacc⟩ := pick?_mem hpk
    simp only [Bool.and_eq_true] at hacc
    obtain ⟨hfree, -⟩ := Free.of_cancel h hm hacc.2
    have hsub := pick?_sublist hpk
    refine ⟨hids.nodup_iff.2 h.ids, (hsub.map _).nodup h.ptrs, h.recvs, h.recv_lt, h.probed,
      fun p hp => hids.mem_iff.2 (h.probed_mem p hp), fun x hx => h.queued x (hsub.subset hx),
      fun hd hhd => ?_, h.posted, h.taken⟩
    obtain ⟨x, hx, hptr, hsrc, hres⟩ := h.handles hd hhd
    refine ⟨x, ?_, hptr, hsrc, hres⟩
    -- the reserved message is not the one that was removed
    rcases mem_cons.1 ((pick?_perm hpk).mem_iff.1 hx) with rfl | hx
    · exact absurd (mem_map_of_mem hres.2) hfree.2
    · exact hx
  · exact h

theorem cancelRecv_ok (h : s.Ok) (k : Nat) : (s.cancelRecv k).Ok := by
  have hsub : (s.posted.eraseIdx k).Sublist s.posted := eraseIdx_sublist _ _
  have hids : (s.cancelRecv k).recvIds.Sublist s.recvIds :=
    (((hsub.map _).append (.refl _)).append (.refl _)).append (.refl _)
  exact ⟨h.ids, h.ptrs, hids.nodup h.recvs, fun i hi => h.recv_lt i (hids.subset hi), h.probed,
    h.probed_mem, h.queued, h.handles, fun r hr => h.posted r (hsub.subset hr), h.taken⟩

end RecvSt

namespace SyncSt

/-! ## Where the sends are -/

/-- Every send is in the send queue, transmitted or withdrawn, and every transmitted one is on the
wire or has arrived. -/
structure NetOk (s : SyncSt) : Prop where
  recv : s.recv.Ok
  ids : s.sends.map (·.id) = List.range s.sends.length
  sender : (s.sendq.filterMap Packet.data? ++ s.sent ++ s.ioDone ++ s.withdrawn).Perm s.sends
  net : (s.wire.filterMap Packet.data? ++ s.recv.placed Msg.send).Perm (s.sent ++ s.ioDone)

variable {s s' : SyncSt} {a : SyncAct}

theorem init_netOk : init.NetOk := ⟨RecvSt.init_ok, rfl, .refl _, .refl _⟩

theorem NetOk.send_inj (h : s.NetOk) {x y : Send} (hx : x ∈ s.sends) (hy : y ∈ s.sends)
    (he : x.id = y.id) : x = y := by
  have hnd : (s.sends.map (·.id)).Nodup := h.ids ▸ nodup_range
  exact inj_on_of_nodup_map hnd hx hy he

theorem NetOk.of_recv (h : s.NetOk) {r : RecvSt} (hr : r.Ok)
    (hp : (r.placed Msg.send).Perm (s.recv.placed Msg.send)) : { s with recv := r }.NetOk :=
  ⟨hr, h.ids, h.sender, (hp.append_left _).trans h.net⟩

theorem send_netOk (h : s.NetOk) (sync : Bool) (tag : Int) (ctx len : Nat) :
    (s.send sync tag ctx len).NetOk := by
  refine ⟨h.recv, ?_, ?_, h.net⟩
  · simp [send, h.ids, range_succ]
  · simp only [send, filterMap_append, append_assoc]
    have hs := h.sender
    simp only [append_assoc] at hs
    refine List.Perm.trans ?_ (hs.append_right [_])
    simp only [append_assoc]
    refine List.Perm.append_left _ ?_
    have := @perm_append_comm _ [(⟨s.sends.length, sync, tag, ctx, len⟩ : Send)]
      (s.sent ++ (s.ioDone ++ s.withdrawn))
    simpa using this

theorem cancelSend_netOk (h : s.NetOk) (x : Send) : (s.cancelSend x).NetOk := by
  unfold cancelSend
  split
  · rename_i hx
    refine ⟨h.recv, h.ids, List.Perm.trans ?_ h.sender, h.net⟩
    have hp := (perm_cons_erase hx).filterMap Packet.data?
    simp only [filterMap_cons, Packet.data?_data] at hp
    simp only [append_assoc]
    refine List.Perm.trans ?_ (hp.append_right _).symm
    have := @perm_append_comm _ ((s.sendq.erase (.data x)).filterMap Packet.data? ++
      (s.sent ++ (s.ioDone ++ s.withdrawn))) [x]
    simpa [append_assoc] using this
  · split
    · refine ⟨h.recv, h.ids, ?_, h.net⟩
      simpa [filterMap_cons] using h.sender
    · exact h

theorem transmit_netOk (h : s.NetOk) (hst : s.transmit = some s') : s'.NetOk := by
  unfold transmit at hst
  split at hst
  · cases hst
  · rename_i p ps hq
    cases hst
    refine ⟨h.recv, h.ids, ?_, ?_⟩
    · refine List.Perm.trans ?_ h.sender
      rw [hq]
      cases p with
      | cancel x => simp [filterMap_cons]
      | data x =>
        simp only [Packet.data?_data, toList_some, filterMap_cons, append_assoc]
        rw [← append_assoc]
        exact perm_middle.trans (by simp)
    · have hn := h.net
      cases p with
      | cancel x => simpa [filterMap_cons] using hn
      | data x =>
        simp only [filterMap_append, Packet.data?_data, toList_some, filterMap_cons,
          filterMap_nil, append_assoc, singleton_append]
        exact perm_middle.trans ((hn.cons x).trans perm_middle.symm)

theorem sendDone_netOk (h : s.NetOk) {k : Nat} (hst : s.sendDone k = some s') : s'.NetOk := by
  unfold sendDone at hst
  split at hst
  · cases hst
  · rename_i x hk
    cases hst
    obtain ⟨hlt, hget⟩ := List.getElem?_eq_some_iff.1 hk
    have hp : (s.sent.eraseIdx k ++ (s.ioDone ++ [x])).Perm (s.sent ++ s.ioDone) := by
      have := (getElem_cons_eraseIdx_perm hlt).append_right s.ioDone
      rw [hget] at this
      refine List.Perm.trans ?_ this
      rw [← append_assoc]
      exact perm_append_comm
    refine ⟨h.recv, h.ids, ?_, h.net.trans hp.symm⟩
    refine List.Perm.trans ?_ h.sender
    simp only [append_assoc] at hp ⊢
    refine List.Perm.append_left _ ?_
    simpa [append_assoc] using hp.append_right s.withdrawn

theorem NetOk.arrives (h : s.NetOk) {x : Send} {ps : List Packet} (hw : s.wire = .data x :: ps) :
    x.id ∉ s.recv.msgIds := by
  intro hx
  obtain ⟨y, hy, he⟩ : ∃ y ∈ s.recv.placed Msg.send, y.id = x.id := by
    have : s.recv.msgIds = (s.recv.placed Msg.send).map (·.id) := by
      simp [RecvSt.msgIds, RecvSt.placed, Msg.send, comp_def]
    rw [this] at hx
    exact List.mem_map.1 hx
  have hnet := h.net
  rw [hw] at hnet
  simp only [filterMap_cons, Packet.data?_data, cons_append] at hnet
  have hsends : ∀ z ∈ s.sent ++ s.ioDone, z ∈ s.sends := by
    intro z hz
    refine h.sender.subset ?_
    simp only [mem_append] at hz ⊢
    tauto
  have hyx : y = x := by
    refine h.send_inj (hsends y (hnet.subset ?_)) (hsends x (hnet.subset (by simp))) he
    exact mem_cons_of_mem _ (mem_append_right _ hy)
  have hnd : (s.sent ++ s.ioDone).Nodup := by
    have hs : s.sends.Nodup := List.Nodup.of_map _ (h.ids ▸ nodup_range)
    have := h.sender.nodup_iff.2 hs
    rw [append_assoc, append_assoc] at this
    have := (nodup_append.1 this).2.1
    rw [← append_assoc] at this
    exact (nodup_append.1 this).1
  have := (nodup_cons.1 (hnet.nodup_iff.2 hnd)).1
  exact this (mem_append_right _ (hyx ▸ hy))

theorem deliver_netOk (h : s.NetOk) {ptr : Nat} (hst : s.deliver ptr = some s') : s'.NetOk := by
  unfold deliver at hst
  split at hst
  · cases hst
  · rename_i x ps hw
    obtain ⟨hptr, hst⟩ := ite_none_left_eq_some.1 hst
    cases hst
    refine ⟨RecvSt.arrive_ok h.recv (h.arrives hw) hptr rfl, h.ids, h.sender, ?_⟩
    have hnet := h.net
    rw [hw] at hnet
    simp only [filterMap_cons, Packet.data?_data, cons_append] at hnet
    refine List.Perm.trans ?_ hnet
    refine ((RecvSt.arrive_placed Msg.send s.recv (x.msg ptr)).append_left _).trans ?_
    exact perm_middle
  · rename_i x ps hw
    cases hst
    refine ⟨RecvSt.cancelData_ok h.recv 0 x.tag x.contextId, h.ids, h.sender, ?_⟩
    have hnet := h.net
    rw [hw] at hnet
    simp only [filterMap_cons, Packet.data?_cancel] at hnet
    exact ((RecvSt.cancelData_placed _ _ _ _ _).append_left _).trans hnet

theorem step_netOk (h : s.NetOk) (hst : s.step a = some s') : s'.NetOk := by
  cases a with
  | send sync tag ctx len => obtain rfl := Option.some.inj hst; exact send_netOk h sync tag ctx len
  | cancelSend k =>
    obtain ⟨x, -, rfl⟩ := map_eq_some_iff.1 hst
    exact cancelSend_netOk h x
  | transmit => exact transmit_netOk h hst
  | sendDone k => exact sendDone_netOk h hst
  | deliver ptr => exact deliver_netOk h hst
  | irecv con tag ctx len =>
    cases hst
    exact h.of_recv (RecvSt.irecv_ok h.recv con tag ctx len) (RecvSt.postRecv_placed _ _ _)
  | cancelRecv k =>
    cases hst
    exact h.of_recv (RecvSt.cancelRecv_ok h.recv k) (.refl _)
  | improbe con tag ctx =>
    cases hst
    refine h.of_recv (RecvSt.improbe_ok h.recv con tag ctx) ?_
    rw [RecvSt.improbe_placed fun _ => rfl]
  | imrecv k len =>
    obtain ⟨hd, hk, rfl⟩ := map_eq_some_iff.1 hst
    exact h.of_recv (RecvSt.imrecv_ok h.recv (mem_of_getElem? hk) len)
      (RecvSt.postRecv_placed _ _ _)
  | recvDone k =>
    obtain ⟨r, hr, rfl⟩ := map_eq_some_iff.1 hst
    exact h.of_recv (RecvSt.recvDone_ok h.recv hr) (RecvSt.recvDone_placed _ hr)
  | deliverAck =>
    obtain ⟨b, -, rfl⟩ := map_eq_some_iff.1 hst
    exact ⟨h.recv, h.ids, h.sender, h.net⟩

theorem NetOk.parts (h : s.NetOk) : (s.deliverable ++ s.recv.removed.map (·.id) ++
    s.withdrawn.map (·.id)).Perm (List.range s.sends.length) := by
  have hnet := h.net.map (·.id)
  have hsender := h.sender.map (·.id)
  rw [h.ids] at hsender
  simp only [List.map_append, append_assoc] at hnet hsender
  refine List.Perm.trans ?_ hsender
  simp only [deliverable, taken, append_assoc]
  refine List.Perm.append_left _ ?_
  rw [← append_assoc (s.sent.map _)]
  refine List.Perm.trans ?_ (hnet.append_right _)
  simp [RecvSt.placed, Msg.send, comp_def]

theorem NetOk.of_placed (h : s.NetOk) {m : Msg} (hm : m.send ∈ s.recv.placed Msg.send) :
    m.send ∈ s.sent ++ s.ioDone :=
  h.net.subset (mem_append_right _ hm)

theorem NetOk.sent_mem (h : s.NetOk) {x : Send} (hx : x ∈ s.sent ++ s.ioDone) : x ∈ s.sends := by
  refine h.sender.subset ?_
  simp only [mem_append] at hx ⊢
  tauto

theorem done_placed {x : Msg × Recv} (hx : x ∈ s.recv.done) :
    x.1.send ∈ s.recv.placed Msg.send :=
  mem_append_left _ (mem_append_right _ (mem_map_of_mem hx))

theorem removed_placed {m : Msg} (hm : m ∈ s.recv.removed) : m.send ∈ s.recv.placed Msg.send :=
  mem_append_right _ (mem_map_of_mem hm)

/-! ## Acknowledgements -/

def due (s : SyncSt) : List Ack :=
  (s.recv.done.filter (·.1.sync)).map (fun x => x.1.ack false) ++ s.recv.removed.map (·.ack true)

structure AckOk (s : SyncSt) : Prop where
  due : s.recv.acks.Perm s.due
  removed : ∀ m ∈ s.recv.removed, m.sync = true ∧ (m.id, m.id) ∈ s.removals
  reqs : s.acks.reqs = s.ioDone.filter (·.sync)
  pos : s.ackPos ≤ s.recv.acks.length
  anss : s.acks.anss = s.recv.acks.take s.ackPos
  fifo : Pairing.Fifo Send.key Ack.key s.acks
  agree : Pairing.Agree Send.key Ack.key Send.id Ack.id s.acks.reqs s.recv.acks

theorem init_ackOk : init.AckOk :=
  ⟨.refl _, fun _ h => absurd h not_mem_nil, rfl, Nat.le_refl _, rfl, Pairing.init_fifo,
    Pairing.Agree.nil⟩

theorem AckOk.of_hist (h : s.AckOk) (hh : s'.recv.hist = s.recv.hist) (hr : s'.removals = s.removals)
    (hi : s'.ioDone = s.ioDone) (hp : s'.ackPos = s.ackPos) (ha : s'.acks = s.acks) :
    s'.AckOk := by
  obtain ⟨h1, h23⟩ := Prod.mk.inj hh
  obtain ⟨h2, h3⟩ := Prod.mk.inj h23
  refine ⟨?_, ?_, ?_, ?_, ?_, ?_, ?_⟩
  · rw [SyncSt.due, h1, h2, h3]; exact h.due
  · rw [h2, hr]; exact h.removed
  · rw [ha, hi]; exact h.reqs
  · rw [hp, h3]; exact h.pos
  · rw [ha, hp, h3]; exact h.anss
  · rw [ha]; exact h.fifo
  · rw [ha, h3]; exact h.agree

theorem recvDone_ackOk (hn : s.NetOk) (h : s.AckOk) {k : Nat} {r : RecvSt}
    (hst : s.recv.recvDone k = some r) (hc : s.InTurn (.recvDone k)) :
    { s with recv := r }.AckOk := by
  unfold RecvSt.recvDone at hst
  split at hst
  · rename_i m q hk
    cases hst
    have htype : RecvSt.doneType m q = sentType m.sync :=
      hn.recv.doneType_eq (mem_of_getElem? hk)
    cases hs : m.sync with
    | false =>
      have hack : RecvSt.ackOf m q = [] := by simp [RecvSt.ackOf, htype, hs, sentType]
      refine ⟨?_, h.removed, h.reqs, ?_, ?_, h.fifo, ?_⟩
      · simpa [SyncSt.due, hack, hs] using h.due
      · simpa [hack] using h.pos
      · simpa [hack] using h.anss
      · simpa [hack] using h.agree
    | true =>
      obtain ⟨hlen, hturn⟩ := hc (m, q) hk hs
      have hack : RecvSt.ackOf m q = [m.ack false] := by
        simp only [RecvSt.ackOf, if_pos hlen, htype, hs, sentType]
        rfl
      refine ⟨?_, h.removed, h.reqs, ?_, ?_, h.fifo, ?_⟩
      · simp only [SyncSt.due, hack, filter_append, List.map_append, append_assoc]
        refine (h.due.append_right _).trans ?_
        simp only [SyncSt.due, append_assoc, hs, filter_cons, filter_nil, if_pos,
          map_cons, map_nil]
        exact List.Perm.append_left _ perm_append_comm
      · simp only [length_append]
        exact Nat.le_add_right_of_le h.pos
      · rw [h.anss, take_append_of_le_length h.pos]
      · rw [hack]
        exact h.agree.answer hturn
  · cases hst

theorem deliver_ackOk (hn : s.NetOk) (h : s.AckOk) {ptr : Nat} (hst : s.deliver ptr = some s')
    (hc : s.InTurn (.deliver ptr)) : s'.AckOk := by
  unfold deliver at hst
  split at hst
  · cases hst
  · rename_i x ps hw
    obtain ⟨-, hst⟩ := ite_none_left_eq_some.1 hst
    cases hst
    exact h.of_hist (RecvSt.arrive_hist _ _) rfl rfl rfl rfl
  · rename_i x ps hw
    cases hst
    have hturn := hc (.cancel x) (by rw [hw]; rfl)
    unfold RecvSt.cancelData
    cases hpk : pick? (fun m => fromSource (some 0) m && cbAcceptCancelData x.tag x.contextId m)
        s.recv.queue with
    | none =>
      refine h.of_hist rfl ?_ rfl rfl rfl
      simp [Packet.removes, hpk]
    | some y =>
      obtain ⟨m, rest⟩ := y
      have hrem : (Packet.cancel x).removes s.recv = some m := by simp [Packet.removes, hpk]
      obtain ⟨hm, hacc⟩ := pick?_mem hpk
      simp only [Bool.and_eq_true] at hacc
      obtain ⟨-, hsync, htag, hctx⟩ := RecvSt.Free.of_cancel hn.recv hm hacc.2
      obtain ⟨hown, hans⟩ := hturn m hrem
      obtain rfl : x = m.send := Packet.cancel.inj hown
      rw [hrem]
      refine ⟨?_, fun y hy => ?_, h.reqs, ?_, ?_, h.fifo, h.agree.answer hans⟩
      · simp only [SyncSt.due, List.map_append]
        rw [← append_assoc]
        exact h.due.append_right _
      · rcases mem_append.1 hy with hy | hy
        · exact ⟨(h.removed y hy).1, mem_append_left _ (h.removed y hy).2⟩
        · obtain rfl := List.mem_singleton.1 hy
          exact ⟨hsync, mem_append_right _ (List.mem_singleton.2 rfl)⟩
      · simp only [length_append]
        exact Nat.le_add_right_of_le h.pos
      · rw [h.anss, take_append_of_le_length h.pos]

theorem sendDone_ackOk (h : s.AckOk) {k : Nat} (hst : s.sendDone k = some s')
    (hc : s.InTurn (.sendDone k)) : s'.AckOk := by
  unfold sendDone at hst
  split at hst
  · cases hst
  · rename_i x hk
    cases hst
    cases hs : x.sync with
    | false =>
      refine ⟨h.due, h.removed, ?_, h.pos, h.anss, h.fifo, h.agree⟩
      simpa [hs] using h.reqs
    | true =>
      refine ⟨h.due, h.removed, ?_, h.pos, ?_, Pairing.request_fifo h.fifo x, ?_⟩
      · simp [h.reqs, hs]
      · simpa using h.anss
      · simpa using h.agree.request (hc x hk hs)

theorem deliverAck_ackOk (h : s.AckOk) (hst : s.deliverAck = some s') : s'.AckOk := by
  obtain ⟨b, hb, rfl⟩ := map_eq_some_iff.1 hst
  obtain ⟨hlt, hget⟩ := List.getElem?_eq_some_iff.1 hb
  refine ⟨h.due, h.removed, ?_, hlt, ?_, Pairing.answer_fifo h.fifo b, ?_⟩
  · simpa using h.reqs
  · simp only [Pairing.answer_anss, h.anss]
    rw [take_add_one, hb, toList_some]
  · simpa using h.agree

theorem step_ackOk (hn : s.NetOk) (h : s.AckOk) (hc : s.InTurn a) (hst : s.step a = some s') :
    s'.AckOk := by
  cases a with
  | send sync tag ctx len =>
    cases hst
    exact h.of_hist rfl rfl rfl rfl rfl
  | cancelSend k =>
    obtain ⟨x, -, rfl⟩ := map_eq_some_iff.1 hst
    unfold cancelSend
    split
    · exact h.of_hist rfl rfl rfl rfl rfl
    · split
      · exact h.of_hist rfl rfl rfl rfl rfl
      · exact h
  | transmit =>
    have hst : s.transmit = some s' := hst
    unfold transmit at hst
    split at hst
    · cases hst
    · cases hst
      exact h.of_hist rfl rfl rfl rfl rfl
  | sendDone k => exact sendDone_ackOk h hst hc
  | deliver ptr => exact deliver_ackOk hn h hst hc
  | irecv con tag ctx len =>
    cases hst
    exact h.of_hist (RecvSt.irecv_hist _ _ _ _ _) rfl rfl rfl rfl
  | cancelRecv k =>
    cases hst
    exact h.of_hist rfl rfl rfl rfl rfl
  | improbe con tag ctx =>
    cases hst
    exact h.of_hist (RecvSt.improbe_hist _ _ _ _) rfl rfl rfl rfl
  | imrecv k len =>
    obtain ⟨hd, -, rfl⟩ := map_eq_some_iff.1 hst
    exact h.of_hist (RecvSt.imrecv_hist _ _ _) rfl rfl rfl rfl
  | recvDone k =>
    obtain ⟨r, hr, rfl⟩ := map_eq_some_iff.1 hst
    exact recvDone_ackOk hn h hr hc
  | deliverAck => exact deliverAck_ackOk h hst

/-! ## What follows -/

theorem AckOk.cases (h : s.AckOk) {b : Ack} (hb : b ∈ s.recv.acks) :
    (∃ x ∈ s.recv.done, x.1.sync = true ∧ b = x.1.ack false) ∨
      ∃ m ∈ s.recv.removed, b = m.ack true := by
  rcases mem_append.1 (h.due.subset hb) with hb | hb
  · obtain ⟨x, hx, rfl⟩ := List.mem_map.1 hb
    obtain ⟨hx, hs⟩ := mem_filter.1 hx
    exact .inl ⟨x, hx, hs, rfl⟩
  · obtain ⟨m, hm, rfl⟩ := List.mem_map.1 hb
    exact .inr ⟨m, hm, rfl⟩

theorem AckOk.pair_ack (h : s.AckOk) {p : Send × Ack} (hp : p ∈ s.acks.pairs) :
    p.2 ∈ s.recv.acks := by
  have := (h.fifo.pairs_mem hp).2
  rw [h.anss] at this
  exact mem_of_mem_take this

theorem AckOk.own (h : s.AckOk) {p : Send × Ack} (hp : p ∈ s.acks.pairs) : p.1.id = p.2.id := by
  refine h.fifo.agree (h.agree.of_prefix ?_) hp
  rw [h.anss]
  exact take_prefix _ _

theorem AckOk.once (hn : s.NetOk) (h : s.AckOk) : (s.recv.acks.map (·.id)).Nodup := by
  refine (h.due.map _).nodup_iff.2 ?_
  have hnd := hn.recv.ids
  simp only [RecvSt.msgIds, RecvSt.placed, append_assoc] at hnd
  have hnd := (nodup_append.1 (nodup_append.1 hnd).2.1).2.1
  refine List.Sublist.nodup ?_ hnd
  simp only [SyncSt.due, List.map_append, List.map_map]
  exact (List.filter_sublist.map _).append (.refl _)

theorem NetOk.not_deliverable (h : s.NetOk) {i : Nat}
    (hi : i ∈ s.recv.removed.map (·.id) ∨ i ∈ s.withdrawn.map (·.id)) : i ∉ s.deliverable := by
  have hnd := h.parts.nodup_iff.2 nodup_range
  rw [append_assoc] at hnd
  exact fun hd => (nodup_append.1 hnd).2.2 i hd i (mem_append.2 hi) rfl

theorem notEarly (h : s.AckOk) {x : Send} (hx : s.Completed x) :
    x.id ∈ s.taken ∨ x ∈ s.withdrawn ∨ (x.id, x.id) ∈ s.removals := by
  rcases hx with hx | hx
  · exact .inr (.inl hx)
  · obtain ⟨p, hp, rfl⟩ := List.mem_map.1 hx
    have hid := h.own hp
    rcases h.cases (h.pair_ack hp) with ⟨y, hy, -, he⟩ | ⟨m, hm, he⟩
    · refine .inl (List.mem_map.2 ⟨y, mem_append_right _ hy, ?_⟩)
      rw [hid, he]; rfl
    · refine .inr (.inr ?_)
      rw [hid, he]
      exact (h.removed m hm).2

theorem notDelivered (hn : s.NetOk) (h : s.AckOk) {x : Send} (hx : s.Cancelled x) :
    x.id ∉ s.deliverable := by
  refine hn.not_deliverable ?_
  rcases hx with hx | ⟨p, hp, rfl, hcan⟩
  · exact .inr (mem_map_of_mem hx)
  · rcases h.cases (h.pair_ack hp) with ⟨y, -, -, he⟩ | ⟨m, hm, he⟩
    · rw [he] at hcan; cases hcan
    · refine .inl (List.mem_map.2 ⟨m, hm, ?_⟩)
      rw [h.own hp, he]; rfl

theorem AckOk.requested (hn : s.NetOk) (h : s.AckOk) (hs : s.sent = []) {b : Ack}
    (hb : b ∈ s.recv.acks) : ∃ x ∈ s.acks.reqs, x.key = b.key ∧ x.id = b.id := by
  have hreq : ∀ m : Msg, m.sync = true → m.send ∈ s.recv.placed Msg.send →
      m.send ∈ s.acks.reqs := by
    intro m hsync hm
    have := hn.of_placed hm
    rw [hs, nil_append] at this
    rw [h.reqs]
    exact mem_filter.2 ⟨this, hsync⟩
  rcases h.cases hb with ⟨x, hx, hsync, rfl⟩ | ⟨m, hm, rfl⟩
  · exact ⟨x.1.send, hreq x.1 hsync (done_placed hx), rfl, rfl⟩
  · exact ⟨m.send, hreq m (h.removed m hm).1 (removed_placed hm), rfl, rfl⟩

theorem AckOk.all_anss (h : s.AckOk) (hs : s.Settled) : s.acks.anss = s.recv.acks := by
  rw [h.anss, hs.2.2.2.2, take_length]

theorem noneLeft (hn : s.NetOk) (h : s.AckOk) (hs : s.Settled) : s.acks.kept = [] := by
  have hall := h.all_anss hs
  refine h.fifo.kept_nil (hall ▸ h.agree) (hall ▸ h.once hn) fun b hb => ?_
  exact h.requested hn hs.2.2.1 (hall ▸ hb)

theorem AckOk.settled (hn : s.NetOk) (h : s.AckOk) (hs : s.Settled) {x : Send} {b : Ack}
    (hx : x ∈ s.sends) (hb : b ∈ s.recv.acks) (he : b.id = x.id) : (x, b) ∈ s.acks.pairs := by
  obtain ⟨y, hy⟩ := h.fifo.answered (noneLeft hn h hs) (h.all_anss hs ▸ hb)
  have hreq := (h.fifo.pairs_mem hy).1
  rw [h.reqs] at hreq
  have hys := hn.sent_mem (mem_append_right _ (mem_of_mem_filter hreq))
  obtain rfl := hn.send_inj hx hys (he.symm.trans (h.own hy).symm)
  exact hy

theorem complete (hn : s.NetOk) (h : s.AckOk) (hs : s.Settled) {x : Send} (hx : x ∈ s.sends)
    (hsync : x.sync = true) (ht : x.id ∈ s.taken) : s.Completed x ∧ ¬ s.Cancelled x := by
  refine ⟨.inr ?_, fun hc => notDelivered hn h hc (mem_append_right _ ht)⟩
  unfold taken at ht
  rw [hs.2.2.2.1, nil_append] at ht
  obtain ⟨y, hy, he⟩ := List.mem_map.1 ht
  have hys := hn.sent_mem (hn.of_placed (done_placed hy))
  have hyx : y.1.send = x := hn.send_inj hys hx he
  have hysync : y.1.sync = true := by rw [← hsync, ← hyx]; rfl
  have hack : y.1.ack false ∈ s.recv.acks := h.due.mem_iff.2 <|
    mem_append_left _ (List.mem_map.2 ⟨y, mem_filter.2 ⟨hy, hysync⟩, rfl⟩)
  exact List.mem_map.2 ⟨_, h.settled hn hs hx hack he, rfl⟩

theorem cancelled_of_gone (hn : s.NetOk) (h : s.AckOk) (hs : s.Settled) {x : Send}
    (hx : x ∈ s.sends) (hd : x.id ∉ s.deliverable) : s.Cancelled x := by
  have hmem : x.id ∈ List.range s.sends.length := hn.ids ▸ mem_map_of_mem hx
  rcases mem_append.1 (hn.parts.mem_iff.2 hmem) with hi | hi
  · rcases mem_append.1 hi with hi | hi
    · exact absurd hi hd
    · obtain ⟨m, hm, he⟩ := List.mem_map.1 hi
      have hack : m.ack true ∈ s.recv.acks :=
        h.due.mem_iff.2 (mem_append_right _ (mem_map_of_mem hm))
      exact .inr ⟨_, h.settled hn hs hx hack he, rfl, rfl⟩
  · obtain ⟨y, hy, he⟩ := List.mem_map.1 hi
    have hys : y ∈ s.sends := hn.sender.subset (mem_append_right _ hy)
    exact .inl (hn.send_inj hys hx he ▸ hy)

/-! ## The processes settle -/

theorem settles (h : s.AckOk) (hs : ¬ s.Settled) : ∃ a s', a.isEvent = true ∧ s.step a = some s' := by
  have henabled : ∀ a : SyncAct, a.isEvent = true → (s.step a).isSome = true →
      ∃ a s', a.isEvent = true ∧ s.step a = some s' :=
    fun a ha hst => ⟨a, _, ha, eq_some_of_isSome hst⟩
  by_cases hq : s.sendq = []
  · by_cases hw : s.wire = []
    · by_cases ht : s.sent = []
      · by_cases hact : s.recv.active = []
        · have hlt : s.ackPos < s.recv.acks.length :=
            Nat.lt_of_le_of_ne h.pos fun he => hs ⟨hq, hw, ht, hact, he⟩
          exact henabled .deliverAck rfl (by simp [step, deliverAck, hlt])
        · obtain ⟨x, l, hx⟩ := exists_cons_of_ne_nil hact
          exact henabled (.recvDone 0) rfl (by simp [step, RecvSt.recvDone, hx])
      · obtain ⟨x, l, hx⟩ := exists_cons_of_ne_nil ht
        exact henabled (.sendDone 0) rfl (by simp [step, sendDone, hx])
    · obtain ⟨p, l, hp⟩ := exists_cons_of_ne_nil hw
      cases p with
      | data x =>
        -- the header is kept at some address that is free
        obtain ⟨ptr, hptr⟩ := Infinite.exists_notMem_finset (s.recv.queue.map (·.ptr)).toFinset
        rw [List.mem_toFinset] at hptr
        exact henabled (.deliver ptr) rfl (by simp only [step, deliver, hp, if_neg hptr]; rfl)
      | cancel x => exact henabled (.deliver 0) rfl (by simp [step, deliver, hp])
  · obtain ⟨p, l, hp⟩ := exists_cons_of_ne_nil hq
    exact henabled .transmit rfl (by simp [step, transmit, hp])

theorem arrive_active_le (r : RecvSt) (m : Msg) :
    (r.arrive m).active.length ≤ r.active.length + 1 := by
  unfold RecvSt.arrive
  split <;> simp

theorem cancelData_acks_le (r : RecvSt) (con : Nat) (tag : Int) (ctx : Nat) :
    (r.cancelData con tag ctx).active = r.active ∧
      (r.cancelData con tag ctx).acks.length ≤ r.acks.length + 1 := by
  unfold RecvSt.cancelData
  split <;> simp

theorem ackOf_length_le (m : Msg) (r : Recv) : (RecvSt.ackOf m r).length ≤ 1 := by
  unfold RecvSt.ackOf
  split
  · split <;> simp
  · simp

theorem event_work (ha : a.isEvent = true) (hst : s.step a = some s') : s'.work < s.work := by
  cases a with
  | send sync tag ctx len => cases ha
  | cancelSend k => cases ha
  | irecv con tag ctx len => cases ha
  | cancelRecv k => cases ha
  | improbe con tag ctx => cases ha
  | imrecv k len => cases ha
  | transmit =>
    have hst : s.transmit = some s' := hst
    unfold transmit at hst
    split at hst
    · cases hst
    · rename_i p ps hq
      cases hst
      have : p.data?.toList.length ≤ 1 := by cases p <;> simp
      simp only [work, hq, length_append, length_cons, length_nil]
      omega
  | sendDone k =>
    have hst : s.sendDone k = some s' := hst
    unfold sendDone at hst
    split at hst
    · cases hst
    · rename_i x hk
      cases hst
      obtain ⟨hlt, -⟩ := List.getElem?_eq_some_iff.1 hk
      simp only [work, length_eraseIdx_of_lt hlt]
      omega
  | deliver ptr =>
    have hst : s.deliver ptr = some s' := hst
    unfold deliver at hst
    split at hst
    · cases hst
    · rename_i x ps hw
      obtain ⟨-, hst⟩ := ite_none_left_eq_some.1 hst
      cases hst
      have hact := arrive_active_le s.recv (x.msg ptr)
      have hacks : (s.recv.arrive (x.msg ptr)).acks = s.recv.acks :=
        congrArg (·.2.2) (RecvSt.arrive_hist s.recv (x.msg ptr))
      simp only [work, hw, length_cons, hacks]
      omega
    · rename_i x ps hw
      cases hst
      obtain ⟨hact, hacks⟩ := cancelData_acks_le s.recv 0 x.tag x.contextId
      simp only [work, hw, length_cons, hact]
      omega
  | recvDone k =>
    obtain ⟨r, hr, rfl⟩ := map_eq_some_iff.1 hst
    unfold RecvSt.recvDone at hr
    split at hr
    · rename_i m q hk
      cases hr
      obtain ⟨hlt, -⟩ := List.getElem?_eq_some_iff.1 hk
      have := ackOf_length_le m q
      simp only [work, length_eraseIdx_of_lt hlt, length_append]
      omega
    · cases hr
  | deliverAck =>
    obtain ⟨b, hb, rfl⟩ := map_eq_some_iff.1 hst
    obtain ⟨hlt, -⟩ := List.getElem?_eq_some_iff.1 hb
    simp only [work]
    omega

end SyncSt

open SyncSt

theorem syncSys_netOk {C : SyncSt → SyncAct → Prop} {s : SyncSt} (h : syncSys.ReachWhen C s) :
    s.NetOk :=
  h.inv init_netOk fun _ hi _ hst => step_netOk hi hst

theorem syncSys_ackOk {s : SyncSt} (h : syncSys.ReachWhen InTurn s) : s.AckOk :=
  h.inv init_ackOk fun hr hi hc hst => step_ackOk (syncSys_netOk hr) hi hc hst

theorem syncSys_syncOk {s : SyncSt} (h : syncSys.ReachWhen InTurn s) : s.SyncOk where
  once := (syncSys_ackOk h).once (syncSys_netOk h)
  received := fun x hx hs => (syncSys_ackOk h).due.mem_iff.2 <|
    mem_append_left _ (List.mem_map.2 ⟨x, mem_filter.2 ⟨hx, hs⟩, rfl⟩)
  removed := fun _ hm =>
    (syncSys_ackOk h).due.mem_iff.2 (mem_append_right _ (mem_map_of_mem hm))
  own := fun _ hp => (syncSys_ackOk h).own hp
  notEarly := fun _ _ _ hc => SyncSt.notEarly (syncSys_ackOk h) hc
  notDelivered := fun _ _ hc => SyncSt.notDelivered (syncSys_netOk h) (syncSys_ackOk h) hc
  settles := fun hs => SyncSt.settles (syncSys_ackOk h) hs
  works := fun _ _ ha hst => event_work ha hst
  complete := fun hs _ hx hsync ht =>
    SyncSt.complete (syncSys_netOk h) (syncSys_ackOk h) hs hx hsync ht
  cancelled := fun hs _ hx _ hd => cancelled_of_gone (syncSys_netOk h) (syncSys_ackOk h) hs hx hd
  noneLeft := fun hs => SyncSt.noneLeft (syncSys_netOk h) (syncSys_ackOk h) hs

/-- In every run whose steps are in turn, synchronous sends and their cancellation keep all their
promises in every state. -/
theorem sync_sends_ok (as : List SyncAct) (h : syncSys.Along InTurn as) :
    syncSys.AlongStates SyncOk as :=
  Sys.alongStates_of_reachWhen syncSys_syncOk h

/-- Three sends with one tag: the first is received, the second is removed by its cancel request
while it waits in the queue, and the third is cancelled in the send queue. -/
theorem sync_sends_ok_cancels : ∃ s,
    syncSys.exec .init [.send true 7 0 4, .send true 7 0 4, .send true 7 0 4, .transmit, .transmit,
      .cancelSend 2, .cancelSend 1, .irecv none (some 7) 0 4, .deliver 100, .deliver 100,
      .recvDone 0, .transmit, .deliver 0, .sendDone 0, .sendDone 0, .deliverAck, .deliverAck] =
        some s ∧
    s.acks.pairs.map (fun p => (p.1.id, p.2.cancelled)) = [(0, false), (1, true)] ∧
    syncSys.AlongStates SyncOk [.send true 7 0 4, .send true 7 0 4, .send true 7 0 4, .transmit,
      .transmit, .cancelSend 2, .cancelSend 1, .irecv none (some 7) 0 4, .deliver 100,
      .deliver 100, .recvDone 0, .transmit, .deliver 0, .sendDone 0, .sendDone 0, .deliverAck,
      .deliverAck] := by
  have hrun : ((syncSys.checked InTurn).exec .init [.send true 7 0 4, .send true 7 0 4,
      .send true 7 0 4, .transmit, .transmit, .cancelSend 2, .cancelSend 1,
      .irecv none (some 7) 0 4, .deliver 100, .deliver 100, .recvDone 0, .transmit, .deliver 0,
      .sendDone 0, .sendDone 0, .deliverAck, .deliverAck]).map
        (fun s => s.acks.pairs.map fun p => (p.1.id, p.2.cancelled)) =
      some [(0, false), (1, true)] := by decide
  obtain ⟨s, hs, hp⟩ := map_eq_some_iff.1 hrun
  obtain ⟨he, hc⟩ := Sys.checked_along hs
  exact ⟨s, he, hp, sync_sends_ok _ hc⟩

theorem sync_sends_swapped :
    ¬ ∀ (as : List SyncAct) (s : SyncSt), syncSys.exec .init as = some s →
      syncSys.AlongStates SyncOk as := by
  intro hall
  have hrun : (syncSys.exec .init [.send true 7 0 4, .send true 7 0 4, .transmit, .transmit,
      .deliver 100, .deliver 101, .sendDone 0, .sendDone 0, .improbe none (some 7) 0,
      .irecv none (some 7) 0 4, .recvDone 0, .deliverAck]).map
        (fun s => s.acks.pairs.map fun p => (p.1.id, p.2.id)) = some [(0, 1)] := by decide
  obtain ⟨s, hs, heq⟩ := map_eq_some_iff.1 hrun
  obtain ⟨p, hp, he⟩ := List.mem_map.1 (heq ▸ List.mem_singleton.2 rfl : (0, 1) ∈ _)
  have hown := (hall _ s hs _ s prefix_rfl hs).own p hp
  obtain ⟨h1, h2⟩ := Prod.mk.inj he
  rw [h1, h2] at hown
  cases hown

end PsMpi.Pt2pt
