import PsMpi.Lib.Trans
import PsMpi.Pt2pt.Match
import Mathlib.Data.List.Nodup

/-!
# Matched probes
-/

open PsMpi.Lib

namespace PsMpi.Pt2pt

/-! ## Types -/

theorem reserved_sentType_code (sync : Bool) :
    ¬ (sentType sync).reserved.code ≤ MsgType.dataRequestAck.code := by
  cases sync <;> decide

theorem restored_reserved (sync : Bool) : (sentType sync).reserved.restored = sentType sync := by
  cases sync <;> rfl

theorem cbAcceptData_reserved {tag : Option Int} {ctx : Nat} {m : Msg}
    (h : m.type = (sentType m.sync).reserved) : cbAcceptData tag ctx m = false := by
  simp [cbAcceptData, h, reserved_sentType_code]

namespace RecvSt

/-! ## The invariant of the queues -/

def Free (s : RecvSt) (m : Msg) : Prop :=
  m.type = sentType m.sync ∧ m.id ∉ s.probed.map (·.1)

def ReservedBy (s : RecvSt) (id : Nat) (m : Msg) : Prop :=
  m.type = (sentType m.sync).reserved ∧ (m.id, id) ∈ s.probed

def TakenOk (s : RecvSt) (x : Msg × Recv) : Prop :=
  match x.2.accept with
  | .data _ _ => s.Free x.1
  | .mrecv _ => s.ReservedBy x.2.id x.1

def recvIds (s : RecvSt) : List Nat :=
  s.posted.map (·.id) ++ s.active.map (·.2.id) ++ s.done.map (·.2.id) ++ s.handles.map (·.id)

structure Ok (s : RecvSt) : Prop where
  ids : s.msgIds.Nodup
  ptrs : (s.queue.map (·.ptr)).Nodup
  recvs : s.recvIds.Nodup
  recv_lt : ∀ i ∈ s.recvIds, i < s.nextRecv
  probed : (s.probed.map (·.1)).Nodup
  probed_mem : ∀ p ∈ s.probed, p.1 ∈ s.msgIds
  queued : ∀ m ∈ s.queue, s.Free m ∨
    ∃ h ∈ s.handles, h.mprobeTag = m.ptr ∧ s.ReservedBy h.id m
  handles : ∀ h ∈ s.handles, ∃ m ∈ s.queue, m.ptr = h.mprobeTag ∧ fromSource h.con m = true ∧
    s.ReservedBy h.id m
  posted : ∀ r ∈ s.posted, ∃ tag ctx, r.accept = .data tag ctx
  taken : ∀ x ∈ s.active ++ s.done, s.TakenOk x

variable {s s' : RecvSt} {m : Msg} {r : Recv}

theorem init_ok : init.Ok := by
  refine ⟨List.nodup_nil, List.nodup_nil, List.nodup_nil, ?_, List.nodup_nil, ?_, ?_, ?_, ?_, ?_⟩
  all_goals exact fun _ h => absurd h List.not_mem_nil

theorem Ok.queue_ne_taken (h : s.Ok) (hm : m ∈ s.queue) {x : Msg × Recv}
    (hx : x ∈ s.active ++ s.done) : m.id ≠ x.1.id := by
  have hnd := h.ids
  rw [msgIds, placed, List.append_assoc, List.append_assoc] at hnd
  refine (List.nodup_append.1 hnd).2.2 _ (List.mem_map_of_mem hm) _ ?_
  rw [← List.append_assoc, ← List.map_append]
  exact List.mem_append_left _ (List.mem_map_of_mem (f := fun x : Msg × Recv => x.1.id) hx)

theorem Ok.queue_inj (h : s.Ok) {m' : Msg} (hm : m ∈ s.queue) (hm' : m' ∈ s.queue)
    (he : m.id = m'.id) : m = m' := by
  have hnd := h.ids
  rw [msgIds, placed, List.append_assoc, List.append_assoc] at hnd
  exact List.inj_on_of_nodup_map (List.nodup_append.1 hnd).1 hm hm' he

theorem Ok.probed_inj (h : s.Ok) {i j k : Nat} (hi : (i, j) ∈ s.probed) (hk : (i, k) ∈ s.probed) :
    j = k :=
  congrArg Prod.snd (List.inj_on_of_nodup_map h.probed hi hk rfl)

theorem Free.of_takes_data {tag : Option Int} {ctx : Nat} (h : s.Ok) (hm : m ∈ s.queue)
    (ht : cbAcceptData tag ctx m = true) : s.Free m := by
  rcases h.queued m hm with hf | ⟨hd, -, -, hr⟩
  · exact hf
  · rw [cbAcceptData_reserved hr.1] at ht; cases ht

/-! ## Steps -/

theorem arrive_ok (h : s.Ok) (hid : m.id ∉ s.msgIds) (hptr : m.ptr ∉ s.queue.map (·.ptr))
    (ht : m.type = sentType m.sync) : (s.arrive m).Ok := by
  have hperm := arrive_placed (·.id) s m
  have hids : (s.arrive m).msgIds.Nodup :=
    hperm.nodup_iff.2 (List.nodup_cons.2 ⟨hid, h.ids⟩)
  have hprobed : (s.arrive m).probed = s.probed := by
    unfold arrive; split <;> rfl
  have hmem : ∀ p ∈ (s.arrive m).probed, p.1 ∈ (s.arrive m).msgIds := by
    rw [hprobed]
    exact fun p hp => hperm.mem_iff.2 (List.mem_cons_of_mem _ (h.probed_mem p hp))
  have hfree : s.Free m := by
    refine ⟨ht, fun hp => ?_⟩
    obtain ⟨p, hp, he⟩ := List.mem_map.1 hp
    exact hid (he ▸ h.probed_mem p hp)
  unfold arrive at hids hmem ⊢
  cases hpk : pick? (·.takes m) s.posted with
  | none =>
    simp only [hpk] at hids hmem ⊢
    refine ⟨hids, ?_, h.recvs, h.recv_lt, h.probed, hmem, fun x hx => ?_, fun hd hhd => ?_,
      h.posted, h.taken⟩
    · rw [List.map_append]
      refine List.nodup_append.2 ⟨h.ptrs, by simp, fun a ha b hb => ?_⟩
      obtain rfl : b = m.ptr := by simpa using hb
      exact fun hab => hptr (hab ▸ ha)
    · rcases List.mem_append.1 hx with hx | hx
      · exact h.queued x hx
      · rw [List.mem_singleton.1 hx]; exact .inl hfree
    · obtain ⟨x, hx, hrest⟩ := h.handles hd hhd
      exact ⟨x, List.mem_append_left _ hx, hrest⟩
  | some x =>
    obtain ⟨r, rest⟩ := x
    simp only [hpk] at hids hmem ⊢
    obtain ⟨hrp, -⟩ := pick?_mem hpk
    have hrecvs : (rest.map (·.id) ++ (s.active ++ [(m, r)]).map (·.2.id) ++ s.done.map (·.2.id) ++
        s.handles.map (·.id)).Perm s.recvIds := by
      have hp : (s.posted.map (·.id)).Perm (r.id :: rest.map (·.id)) := (pick?_perm hpk).map _
      simp only [recvIds, List.map_append, List.map_cons, List.map_nil, List.append_assoc,
        List.singleton_append]
      refine List.Perm.trans ?_ (hp.append_right _).symm
      rw [← List.append_assoc]
      exact List.perm_middle.trans (by simp)
    refine ⟨hids, h.ptrs, hrecvs.nodup_iff.2 h.recvs, fun i hi => h.recv_lt i (hrecvs.mem_iff.1 hi),
      h.probed, hmem, h.queued, h.handles, fun r' hr' => ?_, fun x hx => ?_⟩
    · exact h.posted r' ((pick?_sublist hpk).subset hr')
    · have hcases : x ∈ s.active ++ s.done ∨ x = (m, r) := by
        simp only [List.mem_append, List.mem_singleton] at hx ⊢
        exact or_right_comm.1 hx
      rcases hcases with hx | rfl
      · exact h.taken x hx
      · obtain ⟨tag, ctx, ha⟩ := h.posted r hrp
        simp only [TakenOk, ha]
        exact hfree

theorem postRecv_recvIds (s : RecvSt) (r : Recv) :
    (s.postRecv r).recvIds.Perm (r.id :: s.recvIds) := by
  unfold postRecv
  split
  · simp only [recvIds, List.map_append, List.map_cons, List.map_nil, List.append_assoc,
      List.singleton_append]
    rw [← List.append_assoc]
    exact List.perm_middle.trans (by simp)
  · simp only [recvIds, List.map_append, List.map_cons, List.map_nil, List.append_assoc,
      List.singleton_append]
    exact List.perm_middle

theorem irecv_ok (h : s.Ok) (con : Option Nat) (tag : Option Int) (ctx len : Nat) :
    (s.irecv con tag ctx len).Ok := by
  have hids := (postRecv_placed (·.id) { s with nextRecv := s.nextRecv + 1 }
    ⟨s.nextRecv, con, .data tag ctx, len⟩)
  have hrecvs := postRecv_recvIds { s with nextRecv := s.nextRecv + 1 }
    ⟨s.nextRecv, con, .data tag ctx, len⟩
  have hnew : s.nextRecv ∉ s.recvIds := fun hi => absurd (h.recv_lt _ hi) (Nat.lt_irrefl _)
  have hrecvs_nd : (s.irecv con tag ctx len).recvIds.Nodup :=
    hrecvs.nodup_iff.2 (List.nodup_cons.2 ⟨hnew, h.recvs⟩)
  have hrecv_lt : ∀ i ∈ (s.irecv con tag ctx len).recvIds, i < s.nextRecv + 1 := by
    intro i hi
    rcases List.mem_cons.1 (hrecvs.mem_iff.1 hi) with rfl | hi
    · exact Nat.lt_succ_self _
    · exact Nat.lt_succ_of_lt (h.recv_lt i hi)
  have hids_nd : (s.irecv con tag ctx len).msgIds.Nodup := hids.nodup_iff.2 h.ids
  have hmem : ∀ p ∈ s.probed, p.1 ∈ (s.irecv con tag ctx len).msgIds :=
    fun p hp => hids.mem_iff.2 (h.probed_mem p hp)
  unfold irecv postRecv at hids_nd hrecvs_nd hrecv_lt hmem ⊢
  cases hpk : pick? (Recv.takes ⟨s.nextRecv, con, .data tag ctx, len⟩) s.queue with
  | none =>
    simp only [hpk] at hids_nd hrecvs_nd hrecv_lt hmem ⊢
    refine ⟨hids_nd, h.ptrs, hrecvs_nd, hrecv_lt, h.probed, hmem, h.queued, h.handles,
      fun r hr => ?_, h.taken⟩
    rcases List.mem_append.1 hr with hr | hr
    · exact h.posted r hr
    · rw [List.mem_singleton.1 hr]; exact ⟨tag, ctx, rfl⟩
  | some x =>
    obtain ⟨m, rest⟩ := x
    simp only [hpk] at hids_nd hrecvs_nd hrecv_lt hmem ⊢
    obtain ⟨hmq, htk⟩ := pick?_mem hpk
    have hacc : cbAcceptData tag ctx m = true := by
      simp only [Recv.takes, Bool.and_eq_true] at htk
      exact htk.2
    have hfree := Free.of_takes_data h hmq hacc
    have hsub := pick?_sublist hpk
    refine ⟨hids_nd, (hsub.map _).nodup h.ptrs, hrecvs_nd, hrecv_lt, h.probed, hmem,
      fun x hx => h.queued x (hsub.subset hx), fun hd hhd => ?_, h.posted, fun x hx => ?_⟩
    · obtain ⟨x, hx, hptr, hsrc, hres⟩ := h.handles hd hhd
      refine ⟨x, ?_, hptr, hsrc, hres⟩
      -- the reserved message is not the one that was taken
      rcases List.mem_cons.1 ((pick?_perm hpk).mem_iff.1 hx) with rfl | hx
      · exact absurd (List.mem_map_of_mem (f := (·.1)) hres.2) hfree.2
      · exact hx
    · have hcases : x ∈ s.active ++ s.done ∨ x.1 = m ∧ x.2.accept = .data tag ctx := by
        simp only [List.mem_append, List.mem_singleton] at hx ⊢
        rcases hx with (hx | rfl) | hx
        · exact .inl (.inl hx)
        · exact .inr ⟨rfl, rfl⟩
        · exact .inl (.inr hx)
      rcases hcases with hx | ⟨h1, h2⟩
      · exact h.taken x hx
      · simp only [TakenOk, h1, h2]
        exact hfree

theorem imrecv_takes (h : s.Ok) {hd : Handle} (hhd : hd ∈ s.handles) (len : Nat) :
    ∃ m rest, pick? (Recv.takes ⟨hd.id, hd.con, .mrecv hd.mprobeTag, len⟩) s.queue =
      some (m, rest) ∧ m.ptr = hd.mprobeTag ∧ s.ReservedBy hd.id m := by
  obtain ⟨m, hm, hptr, hsrc, hres⟩ := h.handles hd hhd
  have htk : Recv.takes ⟨hd.id, hd.con, .mrecv hd.mprobeTag, len⟩ m = true := by
    have htype : (m.type == .mprobeReservedRequest || m.type == .mprobeReservedRequestAck) =
        true := by
      rw [hres.1]; cases m.sync <;> rfl
    simp [Recv.takes, hsrc, cbAcceptDataMrecv, htype, hptr]
  cases hpk : pick? (Recv.takes ⟨hd.id, hd.con, .mrecv hd.mprobeTag, len⟩) s.queue with
  | none => rw [pick?_none hpk m hm] at htk; cases htk
  | some x =>
    obtain ⟨m', rest⟩ := x
    obtain ⟨hm', htk'⟩ := pick?_mem hpk
    have hptr' : m'.ptr = hd.mprobeTag := by
      simp only [Recv.takes, cbAcceptDataMrecv, Bool.and_eq_true, beq_iff_eq,
        Option.some.injEq] at htk'
      exact htk'.2.2.symm
    obtain rfl : m' = m := List.inj_on_of_nodup_map h.ptrs hm' hm (hptr'.trans hptr.symm)
    exact ⟨m', rest, rfl, hptr', hres⟩

theorem imrecv_ok (h : s.Ok) {hd : Handle} (hhd : hd ∈ s.handles) (len : Nat) :
    (s.imrecv hd len).Ok := by
  obtain ⟨m, rest, hpk, hptr, hres⟩ := imrecv_takes h hhd len
  have hids := postRecv_placed (·.id) { s with handles := s.handles.erase hd }
    ⟨hd.id, hd.con, .mrecv hd.mprobeTag, len⟩
  have hrecvs : (s.imrecv hd len).recvIds.Perm s.recvIds := by
    refine (postRecv_recvIds _ _).trans ?_
    have hp : (s.handles.map (·.id)).Perm (hd.id :: (s.handles.erase hd).map (·.id)) :=
      (List.perm_cons_erase hhd).map _
    simp only [recvIds]
    refine List.Perm.trans ?_ (hp.append_left _).symm
    exact List.perm_middle.symm
  have hrecvs_nd := hrecvs.nodup_iff.2 h.recvs
  have hrecv_lt : ∀ i ∈ (s.imrecv hd len).recvIds, i < s.nextRecv :=
    fun i hi => h.recv_lt i (hrecvs.mem_iff.1 hi)
  have hids_nd : (s.imrecv hd len).msgIds.Nodup := hids.nodup_iff.2 h.ids
  have hmem : ∀ p ∈ s.probed, p.1 ∈ (s.imrecv hd len).msgIds :=
    fun p hp => hids.mem_iff.2 (h.probed_mem p hp)
  have hsub := pick?_sublist hpk
  have hperm := pick?_perm hpk
  have hmq := (pick?_mem hpk).1
  have hnotrest : ∀ x ∈ rest, x.id ≠ m.id := by
    intro x hx he
    have hxm := h.queue_inj (hsub.subset hx) hmq he
    have hnd : (rest.map (·.ptr)).Nodup ∧ m.ptr ∉ rest.map (·.ptr) := by
      have := (hperm.map (·.ptr)).nodup_iff.1 h.ptrs
      simp only [List.map_cons, List.nodup_cons] at this
      exact ⟨this.2, this.1⟩
    exact hnd.2 (hxm ▸ List.mem_map_of_mem hx)
  have hother : ∀ hd' ∈ s.handles, hd'.id = hd.id → hd' = hd := by
    intro hd' hhd' he
    have hnd := h.recvs
    rw [recvIds] at hnd
    exact List.inj_on_of_nodup_map (List.nodup_append.1 hnd).2.1 hhd' hhd he
  unfold imrecv postRecv at hids_nd hrecvs_nd hrecv_lt hmem ⊢
  simp only [hpk] at hids_nd hrecvs_nd hrecv_lt hmem ⊢
  refine ⟨hids_nd, (hsub.map _).nodup h.ptrs, hrecvs_nd, hrecv_lt, h.probed, hmem, fun x hx => ?_,
    fun hd' hhd' => ?_, h.posted, fun x hx => ?_⟩
  · rcases h.queued x (hsub.subset hx) with hf | ⟨hd', hhd', hp', hr'⟩
    · exact .inl hf
    · refine .inr ⟨hd', ?_, hp', hr'⟩
      refine (List.mem_erase_of_ne ?_).2 hhd'
      rintro rfl
      have hxm := List.inj_on_of_nodup_map h.ptrs (hsub.subset hx) hmq (hp'.symm.trans hptr.symm)
      exact hnotrest x hx (congrArg Msg.id hxm)
  · have hin := List.mem_of_mem_erase hhd'
    obtain ⟨x, hx, hp', hs', hr'⟩ := h.handles hd' hin
    refine ⟨x, ?_, hp', hs', hr'⟩
    rcases List.mem_cons.1 (hperm.mem_iff.1 hx) with rfl | hx
    · -- two handles of one message are the same
      have heq := hother hd' hin (h.probed_inj hr'.2 hres.2)
      subst heq
      have hnd : s.handles.Nodup := by
        have := h.recvs
        rw [recvIds] at this
        exact List.Nodup.of_map _ (List.nodup_append.1 this).2.1
      exact absurd hhd' (List.Nodup.not_mem_erase hnd)
    · exact hx
  · have hcases : x ∈ s.active ++ s.done ∨
        x = (m, ⟨hd.id, hd.con, .mrecv hd.mprobeTag, len⟩) := by
      simp only [List.mem_append, List.mem_singleton] at hx ⊢
      exact or_right_comm.1 hx
    rcases hcases with hx | rfl
    · exact h.taken x hx
    · exact hres

theorem reserveFirst_eq {p : Msg → Bool} {l : List Msg} (h : l.find? p = some m) :
    ∃ l₁ l₂, l = l₁ ++ m :: l₂ ∧ reserveFirst p l = l₁ ++ m.reserve :: l₂ ∧ p m = true := by
  induction l with
  | nil => cases h
  | cons x l ih =>
    unfold reserveFirst
    by_cases hx : p x = true
    · rw [List.find?_cons_of_pos hx] at h
      cases h
      exact ⟨[], l, rfl, by simp [hx], hx⟩
    · rw [List.find?_cons_of_neg hx] at h
      obtain ⟨l₁, l₂, h1, h2, h3⟩ := ih h
      exact ⟨x :: l₁, l₂, by rw [h1]; rfl, by rw [if_neg hx, h2]; rfl, h3⟩

theorem improbe_ok (h : s.Ok) (con : Option Nat) (tag : Option Int) (ctx : Nat) :
    (s.improbe con tag ctx).Ok := by
  have hids : (s.improbe con tag ctx).msgIds = s.msgIds :=
    improbe_placed (fun _ => rfl) s con tag ctx
  unfold improbe at hids ⊢
  cases hf : s.queue.find? (mprobeTakes con tag ctx) with
  | none => exact h
  | some m =>
    simp only [hf] at hids ⊢
    obtain ⟨l₁, l₂, hq, hres, htk⟩ := reserveFirst_eq hf
    have hmq : m ∈ s.queue := by rw [hq]; simp
    obtain ⟨hsrc, hacc⟩ : fromSource con m = true ∧ cbAcceptData tag ctx m = true := by
      simpa [mprobeTakes, cbAcceptDataMprobe, cbAcceptDataMrecv] using htk
    have hfree := Free.of_takes_data h hmq hacc
    -- the other messages of the queue are other messages
    have hothers : ∀ x ∈ l₁ ++ l₂, x ∈ s.queue ∧ x.id ≠ m.id := by
      intro x hx
      have hxq : x ∈ s.queue := by
        rw [hq]; exact List.perm_middle.mem_iff.2 (List.mem_cons_of_mem _ hx)
      refine ⟨hxq, fun he => ?_⟩
      have hxm := h.queue_inj hxq hmq he
      have hnd := List.Nodup.of_map _ h.ptrs
      rw [hq] at hnd
      have := (List.nodup_cons.1 (List.perm_middle.nodup_iff.1 hnd)).1
      exact this (hxm ▸ hx)
    have hmem' : ∀ x, x ∈ l₁ ++ m.reserve :: l₂ ↔ x ∈ l₁ ++ l₂ ∨ x = m.reserve := fun x =>
      (List.perm_middle.mem_iff.trans List.mem_cons).trans or_comm
    have hkeep : ∀ x : Msg, x.id ≠ m.id → s.Free x →
        x.type = sentType x.sync ∧ x.id ∉ (s.probed ++ [(m.id, s.nextRecv)]).map (·.1) := by
      intro x hne hx
      refine ⟨hx.1, ?_⟩
      simp only [List.map_append, List.map_cons, List.map_nil, List.mem_append, List.mem_singleton]
      rintro (hp | he)
      · exact hx.2 hp
      · exact hne he
    refine ⟨?_, ?_, ?_, ?_, ?_, ?_, fun x hx => ?_, fun hd hhd => ?_, h.posted, fun x hx => ?_⟩
    · rw [hids]; exact h.ids
    · rw [hres]
      have := h.ptrs
      rw [hq] at this
      simpa [Msg.reserve] using this
    · have hnew : s.nextRecv ∉ s.recvIds := fun hi => absurd (h.recv_lt _ hi) (Nat.lt_irrefl _)
      have := List.nodup_append.2 ⟨h.recvs, List.nodup_singleton s.nextRecv, fun a ha b hb => by
        rw [List.mem_singleton.1 hb]; exact fun he => hnew (he ▸ ha)⟩
      simpa [recvIds] using this
    · intro i hi
      have hi' : i ∈ s.recvIds ++ [s.nextRecv] := by
        simpa only [recvIds, List.map_append, List.append_assoc, List.map_cons, List.map_nil] using hi
      rcases List.mem_append.1 hi' with hi | hi
      · exact Nat.lt_succ_of_lt (h.recv_lt i hi)
      · rw [List.mem_singleton.1 hi]; exact Nat.lt_succ_self _
    · rw [List.map_append]
      refine List.nodup_append.2 ⟨h.probed, by simp, fun a ha b hb => ?_⟩
      obtain rfl : b = m.id := by simpa using hb
      exact fun he => hfree.2 (he ▸ ha)
    · rw [hids]
      intro p hp
      rcases List.mem_append.1 hp with hp | hp
      · exact h.probed_mem p hp
      · rw [List.mem_singleton.1 hp, msgIds, placed]
        simp only [List.append_assoc]
        exact List.mem_append_left _ (List.mem_map_of_mem hmq)
    · rw [hres] at hx
      rcases (hmem' x).1 hx with hx | rfl
      · obtain ⟨hxq, hne⟩ := hothers x hx
        rcases h.queued x hxq with hfx | ⟨hd, hhd, hp', hr'⟩
        · exact .inl (hkeep x hne hfx)
        · exact .inr ⟨hd, List.mem_append_left _ hhd, hp', hr'.1, List.mem_append_left _ hr'.2⟩
      · refine .inr ⟨⟨s.nextRecv, con, m.ptr⟩, by simp, rfl, ?_, by simp [Msg.reserve]⟩
        simp only [Msg.reserve, hfree.1]
    · rw [hres]
      rcases List.mem_append.1 hhd with hhd | hhd
      · obtain ⟨x, hx, hp', hs', hr'⟩ := h.handles hd hhd
        refine ⟨x, (hmem' x).2 (.inl ?_), hp', hs', hr'.1, List.mem_append_left _ hr'.2⟩
        rw [hq] at hx
        simp only [List.mem_append, List.mem_cons] at hx ⊢
        rcases hx with hx | rfl | hx
        · exact .inl hx
        · exact absurd (List.mem_map_of_mem (f := (·.1)) hr'.2) hfree.2
        · exact .inr hx
      · rw [List.mem_singleton.1 hhd]
        refine ⟨m.reserve, by simp, rfl, hsrc, ?_, by simp [Msg.reserve]⟩
        simp only [Msg.reserve, hfree.1]
    · have hne := h.queue_ne_taken hmq hx
      have hx' := h.taken x hx
      unfold TakenOk at hx' ⊢
      cases hacc : x.2.accept with
      | data tag ctx =>
        simp only [hacc] at hx'
        exact hkeep x.1 (Ne.symm hne) hx'
      | mrecv ptr =>
        simp only [hacc] at hx'
        exact ⟨hx'.1, List.mem_append_left _ hx'.2⟩

theorem recvDone_ok (h : s.Ok) {k : Nat} (hd : s.recvDone k = some s') : s'.Ok := by
  have hids := recvDone_placed (·.id) hd
  unfold recvDone at hd
  split at hd
  · rename_i m r hk
    cases hd
    obtain ⟨hlt, hget⟩ := List.getElem?_eq_some_iff.1 hk
    have hperm : s.active.Perm ((m, r) :: s.active.eraseIdx k) := by
      have := (List.getElem_cons_eraseIdx_perm hlt).symm
      rwa [hget] at this
    have hrecvs : (s.posted.map (·.id) ++ (s.active.eraseIdx k).map (·.2.id) ++
        (s.done ++ [(m, r)]).map (·.2.id) ++ s.handles.map (·.id)).Perm s.recvIds := by
      have hp : (s.active.map (·.2.id)).Perm (r.id :: (s.active.eraseIdx k).map (·.2.id)) :=
        hperm.map _
      simp only [recvIds, List.map_append, List.map_cons, List.map_nil, List.append_assoc,
        List.singleton_append]
      refine List.Perm.append_left _ ?_
      refine List.Perm.trans ?_ (hp.append_right _).symm
      rw [← List.append_assoc]
      exact List.perm_middle.trans (by simp)
    refine ⟨hids.nodup_iff.2 h.ids, h.ptrs, hrecvs.nodup_iff.2 h.recvs,
      fun i hi => h.recv_lt i (hrecvs.mem_iff.1 hi), h.probed,
      fun p hp => hids.mem_iff.2 (h.probed_mem p hp), h.queued, h.handles, h.posted,
      fun x hx => h.taken x ?_⟩
    have hmr : (m, r) ∈ s.active := hget ▸ List.getElem_mem hlt
    simp only [List.mem_append, List.mem_singleton] at hx ⊢
    rcases hx with hx | hx | rfl
    · exact .inl (List.eraseIdx_sublist _ _ |>.subset hx)
    · exact .inr hx
    · exact .inl hmr
  · cases hd

theorem Ok.doneType_eq (h : s.Ok) {x : Msg × Recv} (hx : x ∈ s.active) :
    doneType x.1 x.2 = sentType x.1.sync := by
  have ht := h.taken x (List.mem_append_left _ hx)
  unfold TakenOk at ht
  unfold doneType
  cases hacc : x.2.accept with
  | data tag ctx =>
    simp only [hacc] at ht
    exact ht.1
  | mrecv ptr =>
    simp only [hacc] at ht
    simp only [ht.1]
    exact restored_reserved _

end RecvSt

/-! ## Runs -/

/-- The receive queues and the number of messages that have been sent to the process. -/
structure ProbeSt where
  recv : RecvSt
  nextMsg : Nat

inductive ProbeAct
  | arrive (sync : Bool) (con ptr : Nat) (tag : Int) (contextId dataLen : Nat)
  | irecv (con : Option Nat) (tag : Option Int) (contextId dataLen : Nat)
  | iprobe (con : Option Nat) (tag : Option Int) (contextId : Nat)
  | improbe (con : Option Nat) (tag : Option Int) (contextId : Nat)
  | imrecv (k dataLen : Nat)
  | done (k : Nat)

namespace ProbeSt

def init : ProbeSt := ⟨.init, 0⟩

/-- One step. The header of an arriving message is not kept at the address of a message that is
still in the queue. -/
def step (s : ProbeSt) : ProbeAct → Option ProbeSt
  | .arrive sync con ptr tag ctx len =>
    if ptr ∈ s.recv.queue.map (·.ptr) then none
    else some ⟨s.recv.arrive ⟨s.nextMsg, sync, con, ptr, tag, ctx, sentType sync, len⟩,
      s.nextMsg + 1⟩
  | .irecv con tag ctx len => some { s with recv := s.recv.irecv con tag ctx len }
  | .iprobe _ _ _ => some s
  | .improbe con tag ctx => some { s with recv := s.recv.improbe con tag ctx }
  | .imrecv k len => (s.recv.handles[k]?).map fun h => { s with recv := s.recv.imrecv h len }
  | .done k => (s.recv.recvDone k).map fun r => { s with recv := r }

/-- What matched probes promise: a message that has arrived is in the queue or with one receive; a
receive has at most one message; a message is returned by at most one matched probe, is taken by no
receive but the one of that probe, and is found by no other probe; the receive of a matched probe
gets its message at once; and the synchronous messages that have been received, and no others, have
been acknowledged. -/
structure ProbeOk (s : ProbeSt) : Prop where
  placed : s.recv.msgIds.Perm (List.range s.nextMsg)
  one : ((s.recv.active ++ s.recv.done).map (·.2.id)).Nodup
  probed : (s.recv.probed.map (·.1)).Nodup
  own : ∀ p ∈ s.recv.probed, ∀ x ∈ s.recv.active ++ s.recv.done, x.1.id = p.1 → x.2.id = p.2
  hidden : ∀ con tag ctx m, s.recv.iprobe con tag ctx = some m → m.id ∉ s.recv.probed.map (·.1)
  atOnce : ∀ r ∈ s.recv.posted, ∃ tag ctx, r.accept = .data tag ctx
  acks : s.recv.acks.map (·.id) = (s.recv.done.filter (·.1.sync)).map (·.1.id)

def NotTruncated (s : ProbeSt) (a : ProbeAct) : Prop :=
  ∀ k m r, a = .done k → s.recv.active[k]? = some (m, r) → m.sync = true → m.dataLen ≤ r.dataLen

/-- The invariant of the queues with the numbers of the messages. -/
structure Ok (s : ProbeSt) : Prop where
  recv : s.recv.Ok
  placed : s.recv.msgIds.Perm (List.range s.nextMsg)

variable {s s' : ProbeSt} {a : ProbeAct}

theorem init_ok : init.Ok := ⟨RecvSt.init_ok, .refl _⟩

theorem step_ok (h : s.Ok) (hst : s.step a = some s') : s'.Ok := by
  cases a with
  | arrive sync con ptr tag ctx len =>
    simp only [step, Option.ite_none_left_eq_some, Option.some.injEq] at hst
    obtain ⟨hptr, rfl⟩ := hst
    have hnew : s.nextMsg ∉ s.recv.msgIds := fun hm => by
      have := h.placed.mem_iff.1 hm
      simp at this
    refine ⟨RecvSt.arrive_ok h.recv hnew hptr rfl, (RecvSt.arrive_placed (·.id) _ _).trans ?_⟩
    rw [List.range_succ]
    exact (h.placed.cons _).trans (@List.perm_append_comm _ [s.nextMsg] _)
  | irecv con tag ctx len =>
    cases hst
    exact ⟨RecvSt.irecv_ok h.recv con tag ctx len, (RecvSt.postRecv_placed (·.id) _ _).trans h.placed⟩
  | iprobe con tag ctx =>
    cases hst
    exact h
  | improbe con tag ctx =>
    cases hst
    exact ⟨RecvSt.improbe_ok h.recv con tag ctx, by
      rw [RecvSt.msgIds, RecvSt.improbe_placed fun _ => rfl]; exact h.placed⟩
  | imrecv k len =>
    obtain ⟨hd, hk, rfl⟩ := Option.map_eq_some_iff.1 hst
    exact ⟨RecvSt.imrecv_ok h.recv (List.mem_of_getElem? hk) len,
      (RecvSt.postRecv_placed (·.id) _ _).trans h.placed⟩
  | done k =>
    obtain ⟨r, hr, rfl⟩ := Option.map_eq_some_iff.1 hst
    exact ⟨RecvSt.recvDone_ok h.recv hr, (RecvSt.recvDone_placed (·.id) hr).trans h.placed⟩

theorem Ok.hidden (h : s.Ok) {con : Option Nat} {tag : Option Int} {ctx : Nat} {m : Msg}
    (hp : s.recv.iprobe con tag ctx = some m) : m.id ∉ s.recv.probed.map (·.1) := by
  have hmem := List.mem_of_find?_eq_some hp
  have hacc := List.find?_some hp
  simp only [Bool.and_eq_true] at hacc
  exact (RecvSt.Free.of_takes_data h.recv hmem hacc.2).2

theorem Ok.own (h : s.Ok) {p : Nat × Nat} (hp : p ∈ s.recv.probed) {x : Msg × Recv}
    (hx : x ∈ s.recv.active ++ s.recv.done) (he : x.1.id = p.1) : x.2.id = p.2 := by
  have ht := h.recv.taken x hx
  unfold RecvSt.TakenOk at ht
  cases hacc : x.2.accept with
  | data tag ctx =>
    simp only [hacc] at ht
    exact absurd (he ▸ List.mem_map_of_mem (f := (·.1)) hp) ht.2
  | mrecv ptr =>
    simp only [hacc] at ht
    exact h.recv.probed_inj ht.2 (he ▸ hp)

theorem Ok.probeOk (h : s.Ok)
    (hacks : s.recv.acks.map (·.id) = (s.recv.done.filter (·.1.sync)).map (·.1.id)) :
    s.ProbeOk := by
  refine ⟨h.placed, ?_, h.recv.probed, fun p hp x hx => h.own hp hx,
    fun con tag ctx m hm => h.hidden hm, h.recv.posted, hacks⟩
  have hnd := h.recv.recvs
  simp only [RecvSt.recvIds, List.append_assoc] at hnd
  have := (List.nodup_append.1 hnd).2.1
  rw [← List.append_assoc, ← List.map_append] at this
  exact (List.nodup_append.1 this).1

theorem step_acks (h : s.Ok) (hst : s.step a = some s') :
    (s'.recv.done = s.recv.done ∧ s'.recv.acks = s.recv.acks) ∨
    ∃ k m r, a = .done k ∧ s.recv.active[k]? = some (m, r) ∧
      s'.recv.done = s.recv.done ++ [(m, r)] ∧
      s'.recv.acks.map (·.id) = s.recv.acks.map (·.id) ++
        if m.sync = true ∧ m.dataLen ≤ r.dataLen then [m.id] else [] := by
  cases a with
  | arrive sync con ptr tag ctx len =>
    simp only [step, Option.ite_none_left_eq_some, Option.some.injEq] at hst
    obtain ⟨-, rfl⟩ := hst
    refine .inl ?_
    simp only [RecvSt.arrive]
    split <;> exact ⟨rfl, rfl⟩
  | irecv con tag ctx len =>
    cases hst
    refine .inl ?_
    simp only [RecvSt.irecv, RecvSt.postRecv]
    split <;> exact ⟨rfl, rfl⟩
  | iprobe con tag ctx =>
    cases hst
    exact .inl ⟨rfl, rfl⟩
  | improbe con tag ctx =>
    cases hst
    refine .inl ?_
    simp only [RecvSt.improbe]
    split <;> exact ⟨rfl, rfl⟩
  | imrecv k len =>
    obtain ⟨hd, -, rfl⟩ := Option.map_eq_some_iff.1 hst
    refine .inl ?_
    simp only [RecvSt.imrecv, RecvSt.postRecv]
    split <;> exact ⟨rfl, rfl⟩
  | done k =>
    obtain ⟨r', hr, rfl⟩ := Option.map_eq_some_iff.1 hst
    unfold RecvSt.recvDone at hr
    split at hr
    · rename_i m r hk
      cases hr
      refine .inr ⟨k, m, r, rfl, hk, rfl, ?_⟩
      have htype := h.recv.doneType_eq (List.mem_of_getElem? hk)
      simp only at htype
      simp only [List.map_append, RecvSt.ackOf, htype]
      cases m.sync <;> by_cases hlen : m.dataLen ≤ r.dataLen <;> simp [sentType, hlen]
    · cases hr

end ProbeSt

def probeSys : Sys ProbeSt ProbeAct := ⟨.init, ProbeSt.step⟩

open ProbeSt

theorem probeSys_ok {s : ProbeSt} {C : ProbeSt → ProbeAct → Prop} (h : probeSys.ReachWhen C s) :
    s.Ok :=
  h.inv init_ok fun _ hi _ hst => step_ok hi hst

theorem probeSys_probeOk {s : ProbeSt} (h : probeSys.ReachWhen NotTruncated s) : s.ProbeOk := by
  refine (probeSys_ok h).probeOk ?_
  refine h.inv (I := fun s => s.recv.acks.map (·.id) =
    (s.recv.done.filter (·.1.sync)).map (·.1.id)) rfl fun hr hi hc hst => ?_
  rcases step_acks (probeSys_ok hr) hst with ⟨hd, ha⟩ | ⟨k, m, r, rfl, hk, hd, ha⟩
  · simp only [hd, ha, hi]
  · simp only [hd, ha, hi, List.filter_append, List.map_append]
    cases hs : m.sync with
    | false => simp [hs]
    | true => simp [hs, hc k m r rfl hk hs]

/-- Over every run, matched probes keep all their promises exactly if no receive completes that is
too short for the synchronous message it has taken. -/
theorem matched_probe_exact (as : List ProbeAct) (s : ProbeSt)
    (h : probeSys.exec .init as = some s) :
    probeSys.AlongStates ProbeOk as ↔ probeSys.Along NotTruncated as := by
  constructor
  · intro hall
    have hnext : probeSys.Along (fun s a => s.ProbeOk ∧ ∀ s', probeSys.step s a = some s' →
        s'.ProbeOk) as := by
      intro pre a t hpre ht
      refine ⟨hall pre t ((List.prefix_append pre [a]).trans hpre) ht, fun s' hs' => ?_⟩
      exact hall (pre ++ [a]) s' hpre (Sys.exec_append.2 ⟨t, ht, hs'⟩)
    refine Sys.along_of_along h hnext fun hr ⟨hok, hnx⟩ hst => ?_
    rintro k m r rfl hk hs
    by_contra hlen
    have hst' : ProbeSt.step _ (.done k) = some _ := hst
    rcases step_acks (probeSys_ok hr) hst' with ⟨hd, -⟩ | ⟨k', m', r', heq, hk', hd, ha⟩
    · -- the completion of a receive is always recorded
      obtain ⟨r', hr', rfl⟩ := Option.map_eq_some_iff.1 hst'
      unfold RecvSt.recvDone at hr'
      rw [hk] at hr'
      cases hr'
      exact absurd (congrArg List.length hd) (by simp)
    · obtain rfl : k = k' := ProbeAct.done.inj heq
      obtain ⟨rfl, rfl⟩ := Prod.mk.inj (Option.some.inj (hk.symm.trans hk'))
      have hacks := (hnx _ hst).acks
      rw [ha, hok.acks, hd, if_neg fun hc => hlen hc.2] at hacks
      simp [hs] at hacks
  · exact Sys.alongStates_of_reachWhen probeSys_probeOk

/-- A run with a matched probe between two receives of the same tag, all of them long enough. -/
theorem matched_probe_exact_run : ∃ s,
    probeSys.exec .init [.arrive true 0 100 7 0 4, .arrive true 0 101 7 0 4, .improbe none none 0,
      .irecv none (some 7) 0 4, .imrecv 0 8, .done 1, .done 0] = some s ∧
    s.recv.acks.map (·.id) = [0, 1] ∧
    (probeSys.AlongStates ProbeOk [.arrive true 0 100 7 0 4, .arrive true 0 101 7 0 4,
        .improbe none none 0, .irecv none (some 7) 0 4, .imrecv 0 8, .done 1, .done 0] ↔
      probeSys.Along NotTruncated [.arrive true 0 100 7 0 4, .arrive true 0 101 7 0 4,
        .improbe none none 0, .irecv none (some 7) 0 4, .imrecv 0 8, .done 1, .done 0]) := by
  have hrun : (probeSys.exec .init [.arrive true 0 100 7 0 4, .arrive true 0 101 7 0 4,
      .improbe none none 0, .irecv none (some 7) 0 4, .imrecv 0 8, .done 1, .done 0]).map
        (fun s => s.recv.acks.map (·.id)) = some [0, 1] := by decide
  obtain ⟨s, hs, ha⟩ := Option.map_eq_some_iff.1 hrun
  exact ⟨s, hs, ha, matched_probe_exact _ s hs⟩

/-- A matched probe of a synchronous message of two bytes that is received into one byte: the
message is taken and the sender gets no acknowledgement. -/
theorem matched_probe_truncated :
    ¬ ∀ (as : List ProbeAct) (s : ProbeSt), probeSys.exec .init as = some s →
      probeSys.AlongStates ProbeOk as := by
  intro hall
  have hrun : (probeSys.exec .init [.arrive true 0 100 7 0 2, .improbe none none 0, .imrecv 0 1,
      .done 0]).map (fun s => (s.recv.acks.map (·.id), (s.recv.done.filter (·.1.sync)).map
        (·.1.id))) = some ([], [0]) := by decide
  obtain ⟨s, hs, heq⟩ := Option.map_eq_some_iff.1 hrun
  have hacks := (hall _ s hs _ s List.prefix_rfl hs).acks
  obtain ⟨h1, h2⟩ := Prod.mk.inj heq
  rw [h1, h2] at hacks
  cases hacks

end PsMpi.Pt2pt
