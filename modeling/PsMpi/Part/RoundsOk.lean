import PsMpi.Part.Rounds
import Mathlib.Data.List.Range
import Mathlib.Data.Finset.Card

/-!
# The rounds of a partitioned pair are safe until a CTS comes too early
-/

open PsMpi.Lib List Option Function

namespace PsMpi.Part

/-! ## The shape of a request -/

structure PartReq.Shape (req : PartReq) : Prop where
  requests : 0 < req.requests
  partPerReq : 0 < req.partPerReq
  room : req.partitions ≤ req.requests * req.partPerReq

namespace PartReq

variable {p c q : Nat} {req : PartReq}

theorem init_shape (hp : 0 < p) : (init p c).Shape :=
  ⟨hp, by simp [init, Nat.div_self hp], by simp [init, Nat.div_self hp]⟩

theorem checkNumRequests_init_requests : ((init p c).checkNumRequests q).requests = min p q := by
  unfold checkNumRequests
  split
  · rfl
  · rename_i h
    have : p = q := not_not.1 h
    simp [init, this]

theorem checkNumRequests_partitions : (req.checkNumRequests q).partitions = req.partitions := by
  unfold checkNumRequests
  split <;> rfl

theorem checkNumRequests_init_shape (hp : 0 < p) (hq : 0 < q) :
    ((init p c).checkNumRequests q).Shape := by
  rcases Nat.lt_or_ge q p with hlt | hle
  · rw [checkNumRequests_init_of_lt hlt]
    have hdm := Nat.div_add_mod p q
    have hmod := Nat.mod_lt p hq
    have hpos : 0 < p / q := Nat.div_pos hlt.le hq
    refine ⟨hq, ?_, ?_⟩
    · simp only; split <;> omega
    · simp only; split
      · rw [Nat.mul_add]; omega
      · omega
  · rw [checkNumRequests_init_of_le hp hle]
    exact ⟨hp, one_pos, by simp⟩

theorem checkNumRequests_self : req.checkNumRequests req.requests = req := by
  simp [checkNumRequests]

theorem mem_partsOf (hs : req.Shape) {part i : Nat} :
    part ∈ req.partsOf i ↔ part < req.partitions ∧ part / req.partPerReq = i := by
  have hpos := hs.partPerReq
  simp only [partsOf, List.mem_filter, List.mem_map, List.mem_range, decide_eq_true_eq]
  constructor
  · rintro ⟨⟨j, hj, rfl⟩, hlt⟩
    refine ⟨hlt, ?_⟩
    rw [Nat.mul_comm, Nat.mul_add_div hpos, Nat.div_eq_of_lt hj, Nat.add_zero]
  · rintro ⟨hlt, rfl⟩
    refine ⟨⟨part % req.partPerReq, Nat.mod_lt _ hpos, ?_⟩, hlt⟩
    rw [Nat.mul_comm]
    exact Nat.div_add_mod _ _

theorem div_lt_requests (hs : req.Shape) {part : Nat} (h : part < req.partitions) :
    part / req.partPerReq < req.requests :=
  (Nat.div_lt_iff_lt_mul hs.partPerReq).2 (lt_of_lt_of_le h hs.room)

end PartReq

/-! ## The invariant of the sender -/

namespace SendSide

def done (s : SendSide) : Nat := if s.partReady.isSome then s.round - 1 else s.round

structure Open (s : SendSide) (ready : List Bool) : Prop where
  active : s.active = true
  round : 0 < s.round
  length : ready.length = s.req.partitions
  readied : ∀ part, ready.getD part false = true → part ∈ s.readied s.round
  issued : ∀ i ∈ s.issued s.round, ∀ part ∈ s.req.partsOf i, ready.getD part false = true
  ctr : (s.issued s.round).length = s.sendCtr
  ctr_lt : s.sendCtr < s.req.requests
  waiting : s.peerRequest = false → s.sendCtr = 0
  pending : s.pending ≤ s.sendCtr

structure Ok (s : SendSide) : Prop where
  shape : s.req.Shape
  fault : s.fault = false
  future : ∀ k, s.round < k → s.issued k = []
  zero : s.issued 0 = []
  once : ∀ k, (s.issued k).Nodup
  mem : ∀ k, ∀ i ∈ s.issued k, i < s.req.requests ∧ k ≤ s.cts ∧
    ∀ part ∈ s.req.partsOf i, part ∈ s.readied k
  full : ∀ k, 0 < k → k ≤ s.done → (s.issued k).length = s.req.requests
  ctsEq : s.cts + (if s.partReady.isSome then 1 else 0) = s.round + if s.peerRequest then 1 else 0
  isOpen : ∀ ready, s.partReady = some ready → s.Open ready
  closed : s.partReady = none → s.sendCtr = 0 ∧ (s.active = true → s.peerRequest = false)
  cc : s.active = true → s.cc + (s.issued s.round).length = s.req.requests + s.pending
  idle : s.active = false → s.pending = 0
  sent : s.dataSent = s.done * s.req.requests + s.sendCtr

variable {s s' : SendSide} {i k : Nat} {ready : List Bool}

theorem Ok.issued_nil (h : s.Ok) (hc : s.cts = 0) (k : Nat) : s.issued k = [] := by
  rw [eq_nil_iff_forall_not_mem]
  intro i hi
  have hk := (h.mem k i hi).2.1
  obtain rfl : k = 0 := by omega
  rw [h.zero] at hi
  exact absurd hi not_mem_nil

theorem Ok.done_le_cts (h : s.Ok) : s.done ≤ s.cts := by
  have := h.ctsEq
  unfold done
  split_ifs at * <;> omega

theorem Ok.dataSent_zero (h : s.Ok) (hc : s.cts = 0) : s.dataSent = 0 := by
  have hd := h.done_le_cts
  have h0 : s.sendCtr = 0 := by
    cases hp : s.partReady with
    | none => exact (h.closed hp).1
    | some ready =>
      have ho := h.isOpen ready hp
      rw [← ho.ctr, h.issued_nil hc]
      rfl
  rw [h.sent, h0, show s.done = 0 by omega]
  simp

theorem Ok.issued_length_le (h : s.Ok) (k : Nat) : (s.issued k).length ≤ s.req.requests := by
  have hsub : (s.issued k).toFinset ⊆ Finset.range s.req.requests := by
    intro i hi
    exact Finset.mem_range.2 (h.mem k i (mem_toFinset.1 hi)).1
  have hcard := Finset.card_le_card hsub
  rwa [toFinset_card_of_nodup (h.once k), Finset.card_range] at hcard

theorem Ok.issued_all (h : s.Ok) (hk : (s.issued k).length = s.req.requests)
    (hi : i < s.req.requests) : i ∈ s.issued k := by
  have hsub : (s.issued k).toFinset ⊆ Finset.range s.req.requests := by
    intro i hi
    exact Finset.mem_range.2 (h.mem k i (mem_toFinset.1 hi)).1
  have hcard : (Finset.range s.req.requests).card ≤ (s.issued k).toFinset.card := by
    rw [toFinset_card_of_nodup (h.once k), hk, Finset.card_range]
  have heq := Finset.eq_of_subset_of_card_le hsub hcard
  exact mem_toFinset.1 (heq ▸ Finset.mem_range.2 hi)

theorem Ok.roundOk (h : s.Ok) : s.RoundOk := by
  refine ⟨h.fault, h.once, fun k i hi => ?_, fun k hk hend i hi => ?_⟩
  · obtain ⟨h1, h2, h3⟩ := h.mem k i hi
    exact ⟨h1, h2, fun part hp hpi => h3 part ((PartReq.mem_partsOf h.shape).2 ⟨hp, hpi⟩)⟩
  · refine h.issued_all (h.full k hk ?_) hi
    unfold done
    cases hp : s.partReady with
    | none =>
      simp only [isSome_none, Bool.false_eq_true, if_false]
      omega
    | some ready =>
      have hact := (h.isOpen ready hp).active
      simp only [isSome_some, if_true]
      rcases hend with hlt | ⟨rfl, hf⟩
      · omega
      · rw [hact] at hf; cases hf

/-! ## Issuing sub-messages -/

/-- What the issuing of sub-messages does outside of the current round: it appends data messages to
the channel and counts them. -/
structure Issues (s s' : SendSide) : Prop where
  out : ∃ ds : List Nat, s'.out = s.out ++ ds.map .data ∧ s'.dataSent = s.dataSent + ds.length
  req : s'.req = s.req
  cts : s'.cts = s.cts
  inited : s'.inited = s.inited
  done : s.done ≤ s'.done

theorem Issues.refl (s : SendSide) : Issues s s :=
  ⟨⟨[], by simp⟩, rfl, rfl, rfl, le_rfl⟩

theorem Issues.trans {s'' : SendSide} (h1 : Issues s s') (h2 : Issues s' s'') : Issues s s'' := by
  obtain ⟨ds, ho, hd⟩ := h1.out
  obtain ⟨es, ho', hd'⟩ := h2.out
  refine ⟨⟨ds ++ es, ?_, ?_⟩, h2.req.trans h1.req, h2.cts.trans h1.cts,
    h2.inited.trans h1.inited, h1.done.trans h2.done⟩
  · rw [ho', ho, map_append, append_assoc]
  · rw [hd', hd, length_append, Nat.add_assoc]

theorem issueDataSend_ok (h : s.Ok) (hr : s.partReady = some ready) (hp : s.peerRequest = true)
    (hi : i < s.req.requests) (hnew : i ∉ s.issued s.round)
    (hparts : ∀ part ∈ s.req.partsOf i, ready.getD part false = true) :
    (s.issueDataSend i).Ok ∧ Issues s (s.issueDataSend i) := by
  have ho := h.isOpen ready hr
  have hcts : s.cts = s.round := by have := h.ctsEq; simp [hr, hp] at this; omega
  have hdone : s.done = s.round - 1 := by simp [done, hr]
  obtain ⟨r, hrd⟩ : ∃ r, s.round = r + 1 := ⟨s.round - 1, by have := ho.round; omega⟩
  have hissued : ∀ k, Function.update s.issued s.round (s.issued s.round ++ [i]) k =
      if k = s.round then s.issued s.round ++ [i] else s.issued k := by
    intro k; simp [update_apply]
  have honce : ∀ k, (Function.update s.issued s.round (s.issued s.round ++ [i]) k).Nodup := by
    intro k
    rw [hissued]
    split
    · exact nodup_append.2 ⟨h.once _, nodup_singleton i, fun a ha b hb => by
        rw [mem_singleton.1 hb]; exact fun hab => hnew (hab ▸ ha)⟩
    · exact h.once k
  have hmem : ∀ k, ∀ j ∈ Function.update s.issued s.round (s.issued s.round ++ [i]) k,
      j < s.req.requests ∧ k ≤ s.cts ∧ ∀ part ∈ s.req.partsOf j, part ∈ s.readied k := by
    intro k j hj
    rw [hissued] at hj
    split at hj
    · rename_i hk
      rcases mem_append.1 hj with hj | hj
      · exact hk ▸ h.mem s.round j hj
      · rw [mem_singleton.1 hj, hk]
        exact ⟨hi, hcts.ge, fun part hpart => ho.readied part (hparts part hpart)⟩
    · exact h.mem k j hj
  have hout : ∃ ds : List Nat, s.out ++ [PartMsg.data i] = s.out ++ ds.map .data ∧
      s.dataSent + 1 = s.dataSent + ds.length := ⟨[i], by simp⟩
  have hsent := h.sent
  rw [hdone, hrd, Nat.add_sub_cancel] at hsent
  simp only [issueDataSend]
  split
  · -- the last sub-message of the round
    rename_i hlast
    constructor
    · refine ⟨h.shape, h.fault, ?_, ?_, honce, hmem, ?_, ?_, ?_, ?_, ?_, ?_, ?_⟩
      · intro k (hk : s.round < k)
        simp only [hissued, if_neg (show k ≠ s.round by omega)]
        exact h.future k hk
      · simp only [hissued, if_neg (show (0 : Nat) ≠ s.round by omega)]
        exact h.zero
      · intro k hk hkd
        simp only [hissued]
        simp only [done] at hkd
        split
        · rw [length_append, ho.ctr]; exact hlast
        · exact h.full k hk (by rw [hdone]; simp at hkd; omega)
      · simp only [hcts]; simp
      · simp
      · exact fun _ => ⟨rfl, fun _ => rfl⟩
      · intro ha
        have := h.cc ha
        simp only [hissued, if_true, length_append, length_singleton]
        omega
      · intro ha
        rw [ho.active] at ha; cases ha
      · have hmul : (r + 1) * s.req.requests = r * s.req.requests + s.req.requests :=
          Nat.succ_mul r _
        simp only [done, hsent, hrd, isSome_none, Bool.false_eq_true, if_false, hmul]
        omega
    · exact ⟨hout, rfl, rfl, rfl, by rw [hdone]; simp [done]⟩
  · rename_i hmore
    constructor
    · refine ⟨h.shape, h.fault, ?_, ?_, honce, hmem, ?_, h.ctsEq, ?_, ?_, ?_, ?_, ?_⟩
      · intro k (hk : s.round < k)
        simp only [hissued, if_neg (show k ≠ s.round by omega)]
        exact h.future k hk
      · simp only [hissued, if_neg (show (0 : Nat) ≠ s.round by omega)]
        exact h.zero
      · intro k hk hkd
        have hkd' : k ≤ s.done := hkd
        simp only [hissued, if_neg (show k ≠ s.round by omega)]
        exact h.full k hk hkd'
      · intro ready' hr'
        obtain rfl : ready = ready' := Option.some.inj (hr.symm.trans hr')
        refine ⟨ho.active, ho.round, ho.length, ho.readied, ?_, ?_, ?_, ?_, ?_⟩
        · intro j hj
          simp only [hissued, if_true] at hj
          rcases mem_append.1 hj with hj | hj
          · exact ho.issued j hj
          · rw [mem_singleton.1 hj]; exact hparts
        · simp only [hissued, if_true, length_append, length_singleton, ho.ctr]
        · have := ho.ctr_lt
          simp only at hmore ⊢
          omega
        · intro hf; simp only at hf; rw [hp] at hf; cases hf
        · have := ho.pending; simp only; omega
      · intro hn; simp only at hn; rw [hr] at hn; cases hn
      · intro ha
        have := h.cc ha
        simp only [hissued, if_true, length_append, length_singleton]
        omega
      · intro ha; simp only at ha; rw [ho.active] at ha; cases ha
      · have : (s.done : Nat) = r := by rw [hdone, hrd]; simp
        simp only [done] at this ⊢
        rw [this, hsent]; omega
    · exact ⟨hout, rfl, rfl, rfl, le_rfl⟩

theorem issueDataSend_peer (hp : s.peerRequest = true → s.partReady.isSome) (i : Nat) :
    (s.issueDataSend i).peerRequest = true → (s.issueDataSend i).partReady.isSome := by
  simp only [issueDataSend]
  split
  · intro hf; cases hf
  · exact hp

theorem issueDataSend_issued {j : Nat} (i : Nat)
    (hj : j ∈ (s.issueDataSend i).issued (s.issueDataSend i).round) :
    j ∈ s.issued s.round ∨ j = i := by
  have hcur : (s.issueDataSend i).issued (s.issueDataSend i).round = s.issued s.round ++ [i] := by
    simp only [issueDataSend]
    split <;> simp
  rw [hcur] at hj
  exact (mem_append.1 hj).imp_right mem_singleton.1

theorem sendIfReady_ok (h : s.Ok) (hp : s.peerRequest = true → s.partReady.isSome)
    (hi : i < s.req.requests)
    (hnew : ∀ ready, s.partReady = some ready →
      (∀ part ∈ s.req.partsOf i, ready.getD part false = true) → i ∉ s.issued s.round) :
    ∃ s', s.sendIfReady i = some s' ∧ s'.Ok ∧ Issues s s' ∧
      (s'.peerRequest = true → s'.partReady.isSome) ∧
      ∀ j ∈ s'.issued s'.round, j ∈ s.issued s.round ∨ j = i := by
  unfold sendIfReady
  split
  · exact ⟨s, rfl, h, .refl s, hp, fun j hj => .inl hj⟩
  · rename_i hpeer
    have hpeer : s.peerRequest = true := by simpa using hpeer
    obtain ⟨ready, hr⟩ := isSome_iff_exists.1 (hp hpeer)
    simp only [hr]
    split
    · rename_i hall
      simp only [List.all_eq_true] at hall
      obtain ⟨h1, h2⟩ := issueDataSend_ok h hr hpeer hi (hnew ready hr hall) hall
      exact ⟨_, rfl, h1, h2, issueDataSend_peer hp i, fun j hj => issueDataSend_issued i hj⟩
    · exact ⟨s, rfl, h, .refl s, hp, fun j hj => .inl hj⟩

theorem foldlM_sendIfReady_ok (is : List Nat) (h : s.Ok)
    (hp : s.peerRequest = true → s.partReady.isSome) (hnd : is.Nodup)
    (his : ∀ i ∈ is, i < s.req.requests ∧ i ∉ s.issued s.round) :
    ∃ s', is.foldlM sendIfReady s = some s' ∧ s'.Ok ∧ Issues s s' := by
  induction is generalizing s with
  | nil => exact ⟨s, rfl, h, .refl s⟩
  | cons i is ih =>
    rw [nodup_cons] at hnd
    obtain ⟨hi, hni⟩ := his i mem_cons_self
    obtain ⟨s₁, he, h1, hx, hp1, hsub⟩ := sendIfReady_ok h hp hi fun _ _ _ => hni
    obtain ⟨s', he', h', hx'⟩ := ih h1 hp1 hnd.2 fun j hj => by
      obtain ⟨hj1, hj2⟩ := his j (mem_cons_of_mem i hj)
      refine ⟨hx.req ▸ hj1, fun hmem => ?_⟩
      rcases hsub j hmem with hmem | rfl
      · exact hj2 hmem
      · exact hnd.1 hj
    exact ⟨s', by rw [foldlM_cons, he]; exact he', h', hx.trans hx'⟩

theorem checkAll_ok (h : s.Ok) (hp : s.peerRequest = true → s.partReady.isSome)
    (hnil : s.issued s.round = []) :
    (s.orFault s.checkAll).Ok ∧ Issues s (s.orFault s.checkAll) := by
  obtain ⟨s', he, h', hx⟩ := foldlM_sendIfReady_ok (List.range s.req.requests) h hp
    nodup_range fun i hi => ⟨List.mem_range.1 hi, by rw [hnil]; exact not_mem_nil⟩
  rw [orFault, checkAll, he]
  exact ⟨h', hx⟩

/-! ## The steps of the sender -/

theorem psendStart_ok (h : s.Ok) (ha : s.active = false) :
    s.psendStart.Ok ∧ Issues s s.psendStart := by
  have hclosed : s.partReady = none := by
    cases hp : s.partReady with
    | none => rfl
    | some ready => rw [(h.isOpen ready hp).active] at ha; cases ha
  have hctr := (h.closed hclosed).1
  have hdone : s.done = s.round := by simp [done, hclosed]
  have hnil : s.issued (s.round + 1) = [] := h.future _ (Nat.lt_succ_self _)
  have hcts := h.ctsEq
  have hpos := h.shape.requests
  -- the state before the check of the sub-messages
  let s₁ : SendSide := { s with
    partReady := some (List.replicate s.req.partitions false)
    sendCtr := 0
    active := true
    cc := s.req.requests
    round := s.round + 1 }
  have hdone₁ : s₁.done = s.done := by rw [hdone]; simp [s₁, done]
  have h₁ : s₁.Ok := by
    refine ⟨h.shape, h.fault, fun k hk => ?_, h.zero, h.once, h.mem, fun k hk hkd => ?_, ?_,
      fun ready hr => ?_, fun hn => ?_, fun _ => ?_, fun hf => ?_, ?_⟩
    · exact h.future k (by simp only [s₁] at hk; omega)
    · exact h.full k hk (hdone₁ ▸ hkd)
    · simp only [s₁, hclosed] at hcts ⊢
      simp only [isSome_some, isSome_none, Bool.false_eq_true, if_true, if_false]
        at hcts ⊢
      omega
    · obtain rfl : List.replicate s.req.partitions false = ready := Option.some.inj hr
      refine ⟨rfl, Nat.succ_pos _, by simp [s₁], fun part hpart => ?_, fun i hi => ?_, ?_, hpos,
        fun _ => rfl, ?_⟩
      · have hfalse : (List.replicate s.req.partitions false).getD part false = false := by
          simp only [getD_eq_getElem?_getD, List.getElem?_replicate]
          split <;> rfl
        rw [hfalse] at hpart; cases hpart
      · simp only [s₁, hnil] at hi; exact absurd hi not_mem_nil
      · simp only [s₁, hnil, length_nil]
      · simp only [s₁, h.idle ha, le_refl]
    · simp only [s₁] at hn; cases hn
    · simp only [s₁, hnil, h.idle ha, length_nil]
    · cases hf
    · have := h.sent
      rw [hdone₁]
      simp only [s₁]
      rw [hctr] at this
      exact this
  have hx₁ : Issues s s₁ := ⟨⟨[], by simp [s₁]⟩, rfl, rfl, rfl, hdone₁.ge⟩
  change (if s₁.peerRequest then s₁.orFault s₁.checkAll else s₁).Ok ∧
    Issues s (if s₁.peerRequest then s₁.orFault s₁.checkAll else s₁)
  split
  · obtain ⟨h2, hx2⟩ := checkAll_ok h₁ (fun _ => rfl) hnil
    exact ⟨h2, hx₁.trans hx2⟩
  · exact ⟨h₁, hx₁⟩

theorem pready_ok (h : s.Ok) {part : Nat} (hpart : part < s.req.partitions) :
    (s.pready part).Ok ∧ Issues s (s.pready part) := by
  unfold pready setReady
  cases hr : s.partReady with
  | none => exact ⟨h, .refl s⟩
  | some ready =>
    simp only
    by_cases hset : ready.getD part false = true
    · rw [if_pos hset]; exact ⟨h, .refl s⟩
    rw [if_neg hset]
    simp only
    have ho := h.isOpen ready hr
    have hget : ∀ p, (ready.set part true).getD p false = true ↔
        p = part ∨ ready.getD p false = true := by
      intro p
      simp only [getD_eq_getElem?_getD, List.getElem?_set]
      by_cases hp : part = p
      · subst hp; simp [ho.length, hpart]
      · simp [hp, Ne.symm hp]
    -- the state before the check of the sub-message
    let s₁ : SendSide := { s with
      partReady := some (ready.set part true)
      readied := Function.update s.readied s.round (part :: s.readied s.round) }
    have hreadied : ∀ k p, p ∈ s.readied k → p ∈ s₁.readied k := by
      intro k p hp
      simp only [s₁, update_apply]
      split
      · rename_i hk; subst hk; exact mem_cons_of_mem _ hp
      · exact hp
    have hdone₁ : s₁.done = s.done := by simp [s₁, done, hr]
    have h₁ : s₁.Ok := by
      refine ⟨h.shape, h.fault, h.future, h.zero, h.once, fun k i hi => ?_, fun k hk hkd => ?_, ?_,
        fun ready' hr' => ?_, fun hn => ?_, h.cc, h.idle, ?_⟩
      · obtain ⟨h1, h2, h3⟩ := h.mem k i hi
        exact ⟨h1, h2, fun p hp => hreadied k p (h3 p hp)⟩
      · exact h.full k hk (hdone₁ ▸ hkd)
      · have := h.ctsEq
        simpa [s₁, hr] using this
      · obtain rfl : ready.set part true = ready' := Option.some.inj hr'
        refine ⟨ho.active, ho.round, by simp [s₁, ho.length], fun p hp => ?_, fun i hi p hp => ?_,
          ho.ctr, ho.ctr_lt, ho.waiting, ho.pending⟩
        · rcases (hget p).1 hp with rfl | hp
          · simp [s₁]
          · exact hreadied _ p (ho.readied p hp)
        · exact (hget p).2 (.inr (ho.issued i hi p hp))
      · simp only [s₁] at hn; cases hn
      · rw [hdone₁]; exact h.sent
    have hx₁ : Issues s s₁ := ⟨⟨[], by simp [s₁]⟩, rfl, rfl, rfl, hdone₁.ge⟩
    -- a sub-message that contains the new partition has not been issued
    have hnew : part / s.req.partPerReq ∉ s.issued s.round := by
      intro hi
      exact hset (ho.issued _ hi part ((PartReq.mem_partsOf h.shape).2 ⟨hpart, rfl⟩))
    obtain ⟨s', he, h', hx', -⟩ := sendIfReady_ok h₁ (fun _ => rfl)
      (PartReq.div_lt_requests h.shape hpart) fun _ _ _ => hnew
    change (s₁.orFault (s₁.sendIfReady (part / s.req.partPerReq))).Ok ∧
      Issues s (s₁.orFault (s₁.sendIfReady (part / s.req.partPerReq)))
    rw [orFault, he]
    exact ⟨h', hx₁.trans hx'⟩

def noteCts (s : SendSide) (requests : Nat) : SendSide :=
  { s with
    peerRequest := true
    req := s.req.checkNumRequests requests
    cts := s.cts + 1
    cc := if s.active then (s.req.checkNumRequests requests).requests else s.cc }

theorem recvCts_eq (s : SendSide) (q : Nat) :
    s.recvCts q =
      if s.active then (s.noteCts q).orFault (s.noteCts q).checkAll else s.noteCts q := by
  unfold recvCts noteCts
  cases s.active <;> rfl

theorem recvCts_ok {q : Nat} (h : s.Ok) (hp : s.peerRequest = false) (hc : ¬ s.DataComplete)
    (hshape : (s.req.checkNumRequests q).Shape)
    (hreq : s.cts = 0 ∨ s.req.checkNumRequests q = s.req) :
    (s.recvCts q).Ok ∧ Issues (s.noteCts q) (s.recvCts q) := by
  have hcts := h.ctsEq
  rw [hp] at hcts
  have hctr : s.sendCtr = 0 := by
    cases hr : s.partReady with
    | none => exact (h.closed hr).1
    | some ready => exact (h.isOpen ready hr).waiting hp
  have hnil : s.active = true → s.issued s.round = [] := by
    intro ha
    cases hr : s.partReady with
    | none => exact absurd ⟨ha, hr⟩ hc
    | some ready =>
      exact eq_nil_of_length_eq_zero (((h.isOpen ready hr).ctr).trans hctr)
  have hpend : s.pending = 0 := by
    cases ha : s.active with
    | false => exact h.idle ha
    | true =>
      cases hr : s.partReady with
      | none => exact absurd ⟨ha, hr⟩ hc
      | some ready => have := (h.isOpen ready hr).pending; omega
  have hsent : s.dataSent = s.done * (s.req.checkNumRequests q).requests := by
    rcases hreq with h0 | heq
    · have := h.done_le_cts
      rw [h.dataSent_zero h0, show s.done = 0 by omega, Nat.zero_mul]
    · rw [heq, h.sent, hctr, Nat.add_zero]
  have h₁ : (s.noteCts q).Ok := by
    refine ⟨hshape, h.fault, h.future, h.zero, h.once, fun k i hi => ?_, fun k hk hkd => ?_, ?_,
      fun ready hr => ?_, fun hn => ⟨hctr, fun ha => ?_⟩, fun ha => ?_, h.idle, ?_⟩
    · rcases hreq with h0 | heq
      · have hi' : i ∈ s.issued k := hi
        rw [h.issued_nil h0] at hi'
        exact absurd hi' not_mem_nil
      · obtain ⟨h1, h2, h3⟩ := h.mem k i hi
        simp only [noteCts, heq]
        exact ⟨h1, by omega, h3⟩
    · rcases hreq with h0 | heq
      · have : k ≤ s.done := hkd
        have := h.done_le_cts
        omega
      · simp only [noteCts, heq]
        exact h.full k hk hkd
    · cases hr : s.partReady <;> simp [noteCts, hr] at hcts ⊢ <;> omega
    · have ho := h.isOpen ready hr
      have hparts : (s.req.checkNumRequests q).partitions = s.req.partitions :=
        PartReq.checkNumRequests_partitions
      refine ⟨ho.active, ho.round, ho.length.trans hparts.symm, ho.readied, fun i hi => ?_, ho.ctr,
        ?_, fun _ => hctr, ho.pending⟩
      · simp only [noteCts, hnil ho.active] at hi
        exact absurd hi not_mem_nil
      · simp only [noteCts, hctr]; exact hshape.requests
    · exact absurd ⟨ha, hn⟩ hc
    · have ha' : s.active = true := ha
      simp only [noteCts, ha', if_true, hnil ha', hpend, length_nil]
    · exact hsent.trans (by simp only [noteCts, hctr, Nat.add_zero]; rfl)
  rw [recvCts_eq]
  split
  · rename_i ha
    have hopen : (s.noteCts q).partReady.isSome := by
      cases hr : s.partReady with
      | none => exact absurd ⟨ha, hr⟩ hc
      | some ready => simp [noteCts, hr]
    exact checkAll_ok h₁ (fun _ => hopen) (hnil ha)
  · exact ⟨h₁, .refl _⟩

theorem recvCts_fault {q : Nat} (hc : s.DataComplete) (hshape : (s.req.checkNumRequests q).Shape)
    (hparts : 0 < s.req.partitions) : (s.recvCts q).fault = true := by
  obtain ⟨ha, hr⟩ := hc
  have hmem : 0 ∈ (s.noteCts q).req.partsOf 0 := by
    refine (PartReq.mem_partsOf hshape).2 ⟨?_, Nat.zero_div _⟩
    rw [PartReq.checkNumRequests_partitions]
    exact hparts
  have hnone : (s.noteCts q).sendIfReady 0 = none := by
    obtain ⟨part, parts, hp⟩ := exists_cons_of_ne_nil (ne_nil_of_mem hmem)
    have hr' : (s.noteCts q).partReady = none := hr
    simp only [sendIfReady, hr', hp]
    rfl
  have hall : (s.noteCts q).checkAll = none := by
    obtain ⟨m, hm⟩ : ∃ m, (s.noteCts q).req.requests = m + 1 :=
      ⟨(s.noteCts q).req.requests - 1, by have := hshape.requests; simp only [noteCts]; omega⟩
    rw [checkAll, hm, range_succ_eq_map, foldlM_cons, hnone]
    rfl
  rw [recvCts_eq, if_pos ha, hall]
  rfl

theorem sendDone_ok (h : s.Ok) (hp : 0 < s.pending) : s.sendDone.Ok := by
  have hcc : s.active = true := by
    cases ha : s.active with
    | true => rfl
    | false => have := h.idle ha; omega
  have hlen := h.issued_length_le s.round
  have heq := h.cc hcc
  refine ⟨h.shape, h.fault, h.future, h.zero, h.once, h.mem, h.full, h.ctsEq, fun ready hr => ?_,
    h.closed, fun _ => ?_, fun hf => ?_, h.sent⟩
  · have ho := h.isOpen ready hr
    exact ⟨ho.active, ho.round, ho.length, ho.readied, ho.issued, ho.ctr, ho.ctr_lt, ho.waiting,
      by have := ho.pending; simp only [sendDone]; omega⟩
  · simp only [sendDone]; omega
  · simp only [sendDone, hcc] at hf; cases hf

theorem wait_ok (h : s.Ok) (ha : s.active = true) (hcc : s.cc = 0) : s.wait.Ok := by
  have hlen := h.issued_length_le s.round
  have heq := h.cc ha
  have hclosed : s.partReady = none := by
    cases hr : s.partReady with
    | none => rfl
    | some ready =>
      have ho := h.isOpen ready hr
      have := ho.ctr
      have := ho.ctr_lt
      omega
  refine ⟨h.shape, h.fault, h.future, h.zero, h.once, h.mem, h.full, h.ctsEq, fun ready hr => ?_,
    fun _ => ⟨(h.closed hclosed).1, fun hf => ?_⟩, fun hf => ?_, fun _ => ?_, h.sent⟩
  · have : s.partReady = some ready := hr
    rw [hclosed] at this; cases this
  · cases hf
  · cases hf
  · simp only [wait]; omega

theorem Ok.setOut (h : s.Ok) (out : List PartMsg) (b : Bool) :
    ({ s with out := out, inited := b } : SendSide).Ok := by
  refine ⟨h.shape, h.fault, h.future, h.zero, h.once, h.mem, h.full, h.ctsEq, fun ready hr => ?_,
    h.closed, h.cc, h.idle, h.sent⟩
  have ho := h.isOpen ready hr
  exact ⟨ho.active, ho.round, ho.length, ho.readied, ho.issued, ho.ctr, ho.ctr_lt, ho.waiting,
    ho.pending⟩

end SendSide

/-! ## The receiver -/

namespace RecvSide

/-- What the posting of `n` sub-receives does: each of them waits for its sub-message or takes one
of the kept ones. -/
structure Posts (n : Nat) (r r' : RecvSide) : Prop where
  taken : r'.posted.length + r'.pending = r.posted.length + r.pending + n
  kept : r'.unexp.length + r'.pending = r.unexp.length + r.pending
  req : r'.req = r.req
  inited : r'.inited = r.inited
  active : r'.active = r.active
  peer : r'.peerRequest = r.peerRequest
  cc : r'.cc = r.cc
  out : r'.out = r.out
  round : r'.round = r.round

theorem irecv_posts (r : RecvSide) (i : Nat) : Posts 1 r (r.irecv i) := by
  unfold irecv
  split
  · rename_i hi
    have h1 := length_erase_of_mem hi
    have h2 := length_pos_of_mem hi
    exact ⟨by simp only; omega, by simp only; omega, rfl, rfl, rfl, rfl, rfl, rfl, rfl⟩
  · refine ⟨?_, rfl, rfl, rfl, rfl, rfl, rfl, rfl, rfl⟩
    simp only [length_append, length_singleton]
    omega

theorem foldl_irecv_posts (is : List Nat) (r : RecvSide) :
    Posts is.length r (is.foldl irecv r) := by
  induction is generalizing r with
  | nil => exact ⟨rfl, rfl, rfl, rfl, rfl, rfl, rfl, rfl, rfl⟩
  | cons i is ih =>
    have h1 := irecv_posts r i
    have h2 := ih (r.irecv i)
    have ht := h1.taken
    have ht' := h2.taken
    rw [foldl_cons, length_cons]
    exact ⟨by omega, h2.kept.trans h1.kept, h2.req.trans h1.req, h2.inited.trans h1.inited,
      h2.active.trans h1.active, h2.peer.trans h1.peer, h2.cc.trans h1.cc, h2.out.trans h1.out,
      h2.round.trans h1.round⟩

theorem sendCts_posts (r : RecvSide) :
    Posts r.req.requests { r with out := r.out ++ [r.req.requests] } r.sendCts := by
  have h := foldl_irecv_posts (List.range r.req.requests)
    { r with out := r.out ++ [r.req.requests] }
  rwa [length_range] at h

end RecvSide

/-! ## The pair -/

def PartParams.requests (P : PartParams) : Nat := min P.sendPartitions P.recvPartitions

theorem PartParams.requests_pos (P : PartParams) : 0 < P.requests :=
  lt_min P.send_pos P.recv_pos

namespace PartSt

structure Unmatched (P : PartParams) (p : PartSt) : Prop where
  peer : p.rcv.peerRequest = false
  req : p.rcv.req = .init P.recvPartitions P.recvCount
  out : p.rcv.out = []
  cts : p.snd.cts = 0
  posted : p.rcv.posted = []
  unexp : p.rcv.unexp = []
  pending : p.rcv.pending = 0
  uninit : p.rcv.inited = false → p.rcv.active = false
  round : p.rcv.round = if p.rcv.active then 1 else 0
  busy : p.rcv.active = true → 0 < p.rcv.cc
  idle : p.rcv.active = false → p.rcv.cc = 0
  stage : (p.snd.inited = false ∧ p.snd.out = [] ∧ p.rcv.unexpInit = none) ∨
    (p.snd.inited = true ∧ p.snd.out = [.sendInit P.sendPartitions] ∧ p.rcv.unexpInit = none) ∨
    (p.snd.inited = true ∧ p.snd.out = [] ∧ p.rcv.unexpInit = some P.sendPartitions ∧
      p.rcv.inited = false)

/-- After the receive request has met the SEND_INIT message: only data is on its way to the
receiver, one CTS message has been sent for each round of the receiver, every data message is on
its way, kept, or taken by a sub-receive, and the receiver is at most one round ahead of the data. -/
structure Matched (P : PartParams) (p : PartSt) : Prop where
  peer : p.rcv.peerRequest = true
  inited : p.rcv.inited = true ∧ p.snd.inited = true
  requests : p.rcv.req.requests = P.requests
  data : ∃ ds : List Nat, p.snd.out = ds.map .data
  sent : p.snd.cts + p.rcv.out.length = p.rcv.round
  out : ∀ k ∈ p.rcv.out, k = P.requests
  cc : p.rcv.cc = p.rcv.posted.length + p.rcv.pending
  flow : p.snd.dataSent + p.rcv.cc =
    p.snd.out.length + p.rcv.unexp.length + p.rcv.pending + p.rcv.round * P.requests
  idle : p.rcv.active = false → p.rcv.cc = 0
  ahead : p.rcv.round ≤ p.snd.done + 1

structure Ok (P : PartParams) (p : PartSt) : Prop where
  snd : p.snd.Ok
  partitions : p.snd.req.partitions = P.sendPartitions
  req : (p.snd.cts = 0 ∧ p.snd.req = .init P.sendPartitions P.sendCount) ∨
    (0 < p.snd.cts ∧ p.snd.req.requests = P.requests)
  link : Unmatched P p ∨ Matched P p

variable {P : PartParams} {p p' : PartSt}

theorem init_ok (P : PartParams) : Ok P (init P) := by
  refine ⟨?_, rfl, .inl ⟨rfl, rfl⟩, .inl ?_⟩
  · refine ⟨PartReq.init_shape P.send_pos, rfl, fun _ _ => rfl, rfl, fun _ => nodup_nil,
      fun k i hi => absurd hi not_mem_nil, fun k hk hkd => ?_, rfl, fun ready hr => ?_,
      fun _ => ⟨rfl, fun _ => rfl⟩, fun ha => ?_, fun _ => rfl, ?_⟩
    · simp only [init, SendSide.done, isSome_none, Bool.false_eq_true, if_false] at hkd
      omega
    · cases hr
    · cases ha
    · simp [init, SendSide.done]
  · exact ⟨rfl, rfl, rfl, rfl, rfl, rfl, rfl, fun _ => rfl, rfl,
      (fun ha => by cases ha), fun _ => rfl, .inl ⟨rfl, rfl, rfl⟩⟩

theorem Ok.cts_req (h : Ok P p) :
    (p.snd.req.checkNumRequests P.requests).Shape ∧
    (p.snd.req.checkNumRequests P.requests).requests = P.requests ∧
    (p.snd.cts = 0 ∨ p.snd.req.checkNumRequests P.requests = p.snd.req) := by
  rcases h.req with ⟨h0, heq⟩ | ⟨-, heq⟩
  · rw [heq]
    refine ⟨PartReq.checkNumRequests_init_shape P.send_pos P.requests_pos, ?_, .inl h0⟩
    rw [PartReq.checkNumRequests_init_requests, PartParams.requests]
    omega
  · rw [← heq, PartReq.checkNumRequests_self]
    exact ⟨h.snd.shape, rfl, .inr rfl⟩

theorem Ok.setSnd {s : SendSide} (h : Ok P p) (hs : s.Ok) (hx : p.snd.Issues s) :
    Ok P { p with snd := s } := by
  refine ⟨hs, hx.req ▸ h.partitions, hx.req ▸ hx.cts ▸ h.req, h.link.imp (fun hu => ?_)
    fun hm => ?_⟩
  · obtain ⟨ds, hout, hsent⟩ := hx.out
    have hnil : ds = [] := by
      have h0 := hs.dataSent_zero (hx.cts.trans hu.cts)
      exact eq_nil_of_length_eq_zero (by omega)
    subst hnil
    rw [map_nil, append_nil] at hout
    exact ⟨hu.peer, hu.req, hu.out, hx.cts.trans hu.cts, hu.posted, hu.unexp, hu.pending, hu.uninit,
      hu.round, hu.busy, hu.idle, by simp only [hx.inited, hout]; exact hu.stage⟩
  · obtain ⟨ds, hout, hsent⟩ := hx.out
    obtain ⟨es, hes⟩ := hm.data
    have hflow := hm.flow
    have hahead := hm.ahead
    have hdone := hx.done
    refine ⟨hm.peer, ⟨hm.inited.1, hx.inited.trans hm.inited.2⟩, hm.requests, ⟨es ++ ds, ?_⟩, ?_,
      hm.out, hm.cc, ?_, hm.idle, ?_⟩
    · simp only [hout, hes, map_append]
    · simp only [hx.cts]; exact hm.sent
    · simp only [hout, hsent, length_append, length_map]; omega
    · simp only; omega

theorem Unmatched.requests (h : Unmatched P p) :
    (p.rcv.req.checkNumRequests P.sendPartitions).requests = P.requests := by
  rw [h.req, PartReq.checkNumRequests_init_requests, PartParams.requests, Nat.min_comm]

theorem Ok.match_idle {s : SendSide} {r : RecvSide} (h : Ok P p) (hu : Unmatched P p)
    (ha : p.rcv.active = false) (hs : s = { p.snd with out := [] }) (hsi : p.snd.inited = true)
    (hr : r = { p.rcv.matched P.sendPartitions with inited := true, unexpInit := none }) :
    Ok P ⟨s, r⟩ := by
  subst hs hr
  have hround := hu.round
  have hcc := hu.idle ha
  have hd := h.snd.dataSent_zero hu.cts
  rw [ha] at hround
  simp only [Bool.false_eq_true, if_false] at hround
  refine ⟨h.snd.setOut [] _, h.partitions, h.req, .inr ?_⟩
  refine ⟨rfl, ⟨rfl, hsi⟩, hu.requests, ⟨[], rfl⟩, ?_, ?_, ?_, ?_, fun _ => hcc, ?_⟩
  · simp only [RecvSide.matched, hu.cts, hu.out, hround, length_nil]
  · simp only [RecvSide.matched, hu.out]
    exact fun k hk => absurd hk not_mem_nil
  · simp only [RecvSide.matched, hcc, hu.posted, hu.pending, length_nil]
  · simp only [RecvSide.matched, hd, hcc, hu.unexp, hu.pending, hround, length_nil,
      Nat.zero_mul]
  · simp only [RecvSide.matched, hround]
    omega

theorem Matched.of_posts {s : SendSide} {r₀ r : RecvSide}
    (hx : RecvSide.Posts r₀.req.requests { r₀ with out := r₀.out ++ [r₀.req.requests] } r)
    (hreq : r₀.req.requests = P.requests) (hpeer : r₀.peerRequest = true)
    (hinit : r₀.inited = true ∧ s.inited = true) (hact : r₀.active = true)
    (hdata : ∃ ds : List Nat, s.out = ds.map .data) (hsent : s.cts + r₀.out.length + 1 = r₀.round)
    (hout : ∀ k ∈ r₀.out, k = P.requests) (hposted : r₀.posted.length + r₀.pending = 0)
    (hcc : r₀.cc = P.requests)
    (hflow : s.dataSent + P.requests =
      s.out.length + r₀.unexp.length + r₀.pending + r₀.round * P.requests)
    (hahead : r₀.round ≤ s.done + 1) : Matched P ⟨s, r⟩ := by
  have hkept := hx.kept
  have htaken := hx.taken
  have hcc' := hx.cc
  have hround := hx.round
  simp only [hreq, hcc] at hkept htaken hcc'
  refine ⟨hx.peer.trans hpeer, ⟨hx.inited.trans hinit.1, hinit.2⟩, ?_, hdata, ?_, ?_, ?_, ?_,
    fun hf => ?_, ?_⟩
  · rw [hx.req]; exact hreq
  · simp only [hx.out, hround, length_append, length_singleton]
    omega
  · simp only [hx.out, hreq, mem_append, mem_singleton]
    exact fun k hk => hk.elim (hout k) id
  · simp only [hcc']
    omega
  · simp only [hcc', hround]
    omega
  · have hf' : r.active = false := hf
    rw [hx.active, hact] at hf'
    cases hf'
  · simp only [hround]
    exact hahead

theorem Ok.match_active {r₀ : RecvSide} (h : Ok P p) (hu : Unmatched P p)
    (ha : p.rcv.active = true) (hsi : p.snd.inited = true) (hri : p.rcv.inited = true)
    (hr : r₀ = { p.rcv.matched P.sendPartitions with
      cc := (p.rcv.matched P.sendPartitions).req.requests }) :
    Ok P ⟨{ p.snd with out := [] }, r₀.sendCts⟩ := by
  have hround := hu.round
  rw [ha] at hround
  simp only [if_true] at hround
  have hd := h.snd.dataSent_zero hu.cts
  refine ⟨h.snd.setOut [] _, h.partitions, h.req, .inr (.of_posts (RecvSide.sendCts_posts r₀)
    ?_ ?_ ?_ ?_ ⟨[], rfl⟩ ?_ ?_ ?_ ?_ ?_ ?_)⟩
  all_goals subst hr; simp only [RecvSide.matched]
  · exact hu.requests
  · exact ⟨hri, hsi⟩
  · exact ha
  · rw [hu.cts, hu.out, hround]; rfl
  · rw [hu.out]; exact fun k hk => absurd hk not_mem_nil
  · rw [hu.posted, hu.pending]; rfl
  · exact hu.requests
  · rw [hd, hu.unexp, hu.pending, hround]; simp
  · omega

theorem precvInit_ok (h : Ok P p) (hi : p.rcv.inited = false) :
    Ok P { p with rcv := p.rcv.precvInit } := by
  rcases h.link with hu | hm
  · unfold RecvSide.precvInit
    have ha := hu.uninit hi
    rcases hu.stage with ⟨h1, h2, h3⟩ | ⟨h1, h2, h3⟩ | ⟨h1, h2, h3, -⟩
    · simp only [h3]
      exact ⟨h.snd, h.partitions, h.req, .inl ⟨hu.peer, hu.req, hu.out, hu.cts, hu.posted, hu.unexp,
        hu.pending, (fun hf => by cases hf), hu.round, hu.busy, hu.idle, .inl ⟨h1, h2, rfl⟩⟩⟩
    · simp only [h3]
      exact ⟨h.snd, h.partitions, h.req, .inl ⟨hu.peer, hu.req, hu.out, hu.cts, hu.posted, hu.unexp,
        hu.pending, (fun hf => by cases hf), hu.round, hu.busy, hu.idle, .inr (.inl ⟨h1, h2, rfl⟩)⟩⟩
    · simp only [h3]
      exact h.match_idle hu ha (by rw [← h2]) h1 rfl
  · rw [hm.inited.1] at hi; cases hi

theorem precvStart_ok (h : Ok P p) (hi : p.rcv.inited = true) (ha : p.rcv.active = false) :
    Ok P { p with rcv := p.rcv.precvStart } := by
  unfold RecvSide.precvStart
  rcases h.link with hu | hm
  · have hround := hu.round
    rw [ha] at hround
    simp only [Bool.false_eq_true, if_false] at hround
    rw [if_neg (show ¬ p.rcv.peerRequest = true by simp [hu.peer])]
    refine ⟨h.snd, h.partitions, h.req, .inl ⟨hu.peer, hu.req, hu.out, hu.cts, hu.posted, hu.unexp,
      hu.pending, fun hf => ?_, ?_, fun _ => ?_, fun hf => ?_, hu.stage⟩⟩
    · simp only [hi] at hf; cases hf
    · simp only [hround, if_true]
    · simp only [hu.req]; exact P.recv_pos
    · cases hf
  · have hcc := hm.idle ha
    have hcc' := hm.cc
    have hflow := hm.flow
    -- all rounds of the receiver so far have got their data, so the sender has issued it
    have hround : p.rcv.round ≤ p.snd.done := by
      by_contra hlt
      have hsent := h.snd.sent
      have hmul : (p.snd.done + 1) * P.requests ≤ p.rcv.round * P.requests :=
        Nat.mul_le_mul_right _ (by omega)
      rw [Nat.succ_mul] at hmul
      have hpos := P.requests_pos
      rcases h.req with ⟨h0, -⟩ | ⟨-, hreq⟩
      · have := h.snd.dataSent_zero h0
        omega
      · rw [hreq] at hsent
        have hlt : p.snd.sendCtr < P.requests := by
          cases hr : p.snd.partReady with
          | none => rw [(h.snd.closed hr).1]; exact hpos
          | some ready => rw [← hreq]; exact (h.snd.isOpen ready hr).ctr_lt
        omega
    rw [if_pos (show p.rcv.peerRequest = true from hm.peer)]
    refine ⟨h.snd, h.partitions, h.req, .inr (.of_posts (RecvSide.sendCts_posts _) hm.requests
      hm.peer hm.inited rfl hm.data ?_ hm.out ?_ hm.requests ?_ ?_)⟩
    · have := hm.sent
      simp only; omega
    · simp only; omega
    · simp only [Nat.succ_mul]; omega
    · simp only; omega

theorem recvDone_ok (h : Ok P p) (hp : 0 < p.rcv.pending) :
    Ok P { p with rcv := p.rcv.recvDone } := by
  rcases h.link with hu | hm
  · have := hu.pending; omega
  · have hcc := hm.cc
    have hflow := hm.flow
    refine ⟨h.snd, h.partitions, h.req, .inr ⟨hm.peer, hm.inited, hm.requests, hm.data, hm.sent,
      hm.out, ?_, ?_, fun hf => ?_, hm.ahead⟩⟩
    · simp only [RecvSide.recvDone]; omega
    · simp only [RecvSide.recvDone]; omega
    · have := hm.idle hf
      simp only [RecvSide.recvDone]; omega

theorem recvWait_ok (h : Ok P p) (ha : p.rcv.active = true) (hcc : p.rcv.cc = 0) :
    Ok P { p with rcv := p.rcv.wait } := by
  rcases h.link with hu | hm
  · have := hu.busy ha; omega
  · exact ⟨h.snd, h.partitions, h.req, .inr ⟨hm.peer, hm.inited, hm.requests, hm.data, hm.sent,
      hm.out, hm.cc, hm.flow, fun _ => hcc, hm.ahead⟩⟩

theorem recvData_ok (h : Ok P p) {i : Nat} {rest : List PartMsg}
    (hout : p.snd.out = .data i :: rest) :
    Ok P ⟨{ p.snd with out := rest }, p.rcv.recvData i⟩ := by
  rcases h.link with hu | hm
  · rcases hu.stage with ⟨-, h2, -⟩ | ⟨-, h2, -⟩ | ⟨-, h2, -⟩ <;> rw [h2] at hout <;> cases hout
  · have hcc := hm.cc
    have hflow := hm.flow
    obtain ⟨ds, hds⟩ := hm.data
    have hrest : ∃ es : List Nat, rest = es.map .data := by
      rw [hout] at hds
      cases ds with
      | nil => cases hds
      | cons d ds => exact ⟨ds, (List.cons.inj hds).2⟩
    rw [hout, length_cons] at hflow
    unfold RecvSide.recvData
    split
    · rename_i hi
      have hlen := length_erase_of_mem hi
      have hpos := length_pos_of_mem hi
      refine ⟨h.snd.setOut rest _, h.partitions, h.req, .inr ⟨hm.peer, hm.inited, hm.requests, hrest,
        hm.sent, hm.out, ?_, ?_, hm.idle, hm.ahead⟩⟩
      · simp only; omega
      · simp only; omega
    · refine ⟨h.snd.setOut rest _, h.partitions, h.req, .inr ⟨hm.peer, hm.inited, hm.requests, hrest,
        hm.sent, hm.out, hm.cc, ?_, hm.idle, hm.ahead⟩⟩
      simp only [length_append, length_singleton]; omega

theorem recvSendInit_ok (h : Ok P p) {q : Nat} {rest : List PartMsg}
    (hout : p.snd.out = .sendInit q :: rest) :
    Ok P ⟨{ p.snd with out := rest }, p.rcv.recvSendInit q⟩ := by
  rcases h.link with hu | hm
  · rcases hu.stage with ⟨-, h2, -⟩ | ⟨h1, h2, h3⟩ | ⟨-, h2, -⟩
    · rw [h2] at hout; cases hout
    · rw [h2] at hout
      obtain ⟨hq, hrest⟩ := List.cons.inj hout
      obtain rfl : P.sendPartitions = q := PartMsg.sendInit.inj hq
      unfold RecvSide.recvSendInit
      split
      · rename_i hi
        simp only
        split
        · rename_i ha
          rw [← hrest]
          exact h.match_active hu ha h1 hi rfl
        · rename_i ha
          have ha' : p.rcv.active = false := Bool.eq_false_iff.2 ha
          refine h.match_idle hu ha' (by rw [← hrest]) h1 ?_
          simp only [RecvSide.matched, hi, h3]
      · rename_i hi
        refine ⟨h.snd.setOut rest _, h.partitions, h.req, .inl ⟨hu.peer, hu.req, hu.out, hu.cts,
          hu.posted, hu.unexp, hu.pending, hu.uninit, hu.round, hu.busy, hu.idle,
          .inr (.inr ⟨h1, hrest.symm, rfl, by simpa using hi⟩)⟩⟩
    · rw [h2] at hout; cases hout
  · obtain ⟨ds, hds⟩ := hm.data
    rw [hout] at hds
    cases ds <;> cases hds

theorem psendInit_ok (h : Ok P p) (hi : p.snd.inited = false) :
    Ok P { p with snd := p.snd.psendInit } := by
  rcases h.link with hu | hm
  · rcases hu.stage with ⟨-, h2, h3⟩ | ⟨h1, -⟩ | ⟨h1, -⟩
    · have hreq : p.snd.req.requests = P.sendPartitions := by
        rcases h.req with ⟨-, heq⟩ | ⟨hpos, -⟩
        · rw [heq]; rfl
        · have := hu.cts; omega
      refine ⟨h.snd.setOut _ _, h.partitions, h.req, .inl ⟨hu.peer, hu.req, hu.out, hu.cts,
        hu.posted, hu.unexp, hu.pending, hu.uninit, hu.round, hu.busy, hu.idle,
        .inr (.inl ⟨rfl, ?_, h3⟩)⟩⟩
      simp only [SendSide.psendInit, h2, hreq, nil_append]
    · rw [h1] at hi; cases hi
    · rw [h1] at hi; cases hi
  · rw [hm.inited.2] at hi; cases hi

theorem Ok.cts_next (h : Ok P p) {q : Nat} {rest : List Nat} (hout : p.rcv.out = q :: rest) :
    Matched P p ∧ q = P.requests ∧ p.snd.peerRequest = false := by
  rcases h.link with hu | hm
  · rw [hu.out] at hout; cases hout
  · have hsent := hm.sent
    have hahead := hm.ahead
    have hcts := h.snd.ctsEq
    rw [hout, length_cons] at hsent
    refine ⟨hm, hm.out q (by rw [hout]; exact mem_cons_self), ?_⟩
    cases hp : p.snd.peerRequest with
    | false => rfl
    | true =>
      cases hr : p.snd.partReady with
      | none =>
        simp only [SendSide.done, hr, hp, isSome_none, Bool.false_eq_true, if_true,
          if_false] at hahead hcts
        omega
      | some ready =>
        have hpos := (h.snd.isOpen ready hr).round
        simp only [SendSide.done, hr, hp, isSome_some, if_true] at hahead hcts
        omega

theorem recvCts_ok (h : Ok P p) {q : Nat} {rest : List Nat} (hout : p.rcv.out = q :: rest)
    (hc : ¬ p.snd.DataComplete) :
    Ok P ⟨p.snd.recvCts q, { p.rcv with out := rest }⟩ := by
  obtain ⟨hm, rfl, hp⟩ := h.cts_next hout
  obtain ⟨hshape, hreq, hsame⟩ := h.cts_req
  obtain ⟨hs, hx⟩ := SendSide.recvCts_ok h.snd hp hc hshape hsame
  obtain ⟨ds, hso, hsd⟩ := hx.out
  obtain ⟨es, hes⟩ := hm.data
  have hsent := hm.sent
  have hflow := hm.flow
  have hahead := hm.ahead
  have hdone : p.snd.done ≤ (p.snd.recvCts P.requests).done := hx.done
  have hso' : (p.snd.recvCts P.requests).out = p.snd.out ++ ds.map .data := hso
  have hsd' : (p.snd.recvCts P.requests).dataSent = p.snd.dataSent + ds.length := hsd
  have hcts' : (p.snd.recvCts P.requests).cts = p.snd.cts + 1 := hx.cts
  rw [hout, length_cons] at hsent
  refine ⟨hs, ?_, .inr ⟨?_, ?_⟩, .inr ⟨hm.peer, ⟨hm.inited.1, hx.inited.trans hm.inited.2⟩,
    hm.requests, ⟨es ++ ds, ?_⟩, ?_, fun k hk => ?_, hm.cc, ?_, hm.idle, ?_⟩⟩
  · rw [hx.req]
    exact PartReq.checkNumRequests_partitions.trans h.partitions
  · rw [hcts']; exact Nat.succ_pos _
  · rw [hx.req]; exact hreq
  · simp only [hso', hes, map_append]
  · simp only [hcts']; omega
  · exact hm.out k (by rw [hout]; exact mem_cons_of_mem _ hk)
  · simp only [hso', hsd', length_append, length_map]; omega
  · simp only; omega

theorem step_ok {a : PartAct} (h : Ok P p) (hc : CtsAfterWait p a) (hst : p.step a = some p') :
    Ok P p' := by
  unfold step at hst
  rw [if_neg (by simp [h.snd.fault])] at hst
  cases a with
  | psendInit =>
    simp only [ite_none_left_eq_some, Option.some.injEq] at hst
    obtain ⟨hi, rfl⟩ := hst
    exact psendInit_ok h (Bool.eq_false_iff.2 hi)
  | precvInit =>
    simp only [ite_none_left_eq_some, Option.some.injEq] at hst
    obtain ⟨hi, rfl⟩ := hst
    exact precvInit_ok h (Bool.eq_false_iff.2 hi)
  | psendStart =>
    simp only [ite_none_right_eq_some, Option.some.injEq] at hst
    obtain ⟨⟨-, ha⟩, rfl⟩ := hst
    obtain ⟨hs, hx⟩ := SendSide.psendStart_ok h.snd ha
    exact h.setSnd hs hx
  | precvStart =>
    simp only [ite_none_right_eq_some, Option.some.injEq] at hst
    obtain ⟨⟨hi, ha⟩, rfl⟩ := hst
    exact precvStart_ok h hi ha
  | pready part =>
    simp only [ite_none_right_eq_some, Option.some.injEq] at hst
    obtain ⟨⟨-, hp⟩, rfl⟩ := hst
    obtain ⟨hs, hx⟩ := SendSide.pready_ok h.snd hp
    exact h.setSnd hs hx
  | sendDone =>
    simp only [ite_none_right_eq_some, Option.some.injEq] at hst
    obtain ⟨hp, rfl⟩ := hst
    exact h.setSnd (SendSide.sendDone_ok h.snd hp) ⟨⟨[], by simp [SendSide.sendDone]⟩, rfl, rfl, rfl,
      le_rfl⟩
  | recvDone =>
    simp only [ite_none_right_eq_some, Option.some.injEq] at hst
    obtain ⟨hp, rfl⟩ := hst
    exact recvDone_ok h hp
  | sendWait =>
    simp only [ite_none_right_eq_some, Option.some.injEq] at hst
    obtain ⟨⟨ha, hcc⟩, rfl⟩ := hst
    exact h.setSnd (SendSide.wait_ok h.snd ha hcc) ⟨⟨[], by simp [SendSide.wait]⟩, rfl, rfl, rfl,
      le_rfl⟩
  | recvWait =>
    simp only [ite_none_right_eq_some, Option.some.injEq] at hst
    obtain ⟨⟨ha, hcc⟩, rfl⟩ := hst
    exact recvWait_ok h ha hcc
  | deliver =>
    cases hout : p.snd.out with
    | nil => simp only [hout] at hst; cases hst
    | cons m rest =>
      cases m with
      | sendInit q =>
        simp only [hout, Option.some.injEq] at hst
        subst hst
        exact recvSendInit_ok h hout
      | data i =>
        simp only [hout, Option.some.injEq] at hst
        subst hst
        exact recvData_ok h hout
  | deliverCts =>
    cases hout : p.rcv.out with
    | nil => simp only [hout] at hst; cases hst
    | cons q rest =>
      simp only [hout, Option.some.injEq] at hst
      subst hst
      exact recvCts_ok h hout (hc rfl)

theorem not_ctsHarmless {a : PartAct} (h : Ok P p) (hc : ¬ CtsAfterWait p a) (hst : p.step a = some p') :
    ¬ CtsHarmless p a := by
  intro hharm
  unfold CtsAfterWait at hc
  simp only [Classical.not_imp, not_not] at hc
  obtain ⟨rfl, hdc⟩ := hc
  obtain ⟨-, hf, -⟩ := hharm rfl hdc p' hst
  unfold step at hst
  rw [if_neg (by simp [h.snd.fault])] at hst
  cases hout : p.rcv.out with
  | nil => simp only [hout] at hst; cases hst
  | cons q rest =>
    simp only [hout, Option.some.injEq] at hst
    subst hst
    obtain ⟨-, rfl, -⟩ := h.cts_next hout
    rw [SendSide.recvCts_fault hdc h.cts_req.1 (h.partitions ▸ P.send_pos)] at hf
    cases hf

end PartSt

variable {P : PartParams} {p : PartSt}

theorem partSys_ok (h : (partSys P).ReachWhen CtsAfterWait p) : PartSt.Ok P p :=
  h.inv (PartSt.init_ok P) fun _ hi hc hst => PartSt.step_ok hi hc hst

/-- In every run of the pair, the rounds of the sender are safe in all states and every CTS message
that finds the data of the sender's round complete is harmless, exactly if no CTS message arrives
between the last sub-message of a round and the sender's Wait. -/
theorem part_rounds_exact (P : PartParams) (as : List PartAct) (p : PartSt)
    (h : (partSys P).exec (.init P) as = some p) :
    ((partSys P).AlongStates (fun p => p.snd.RoundOk) as ∧ (partSys P).Along CtsHarmless as) ↔
      (partSys P).Along CtsAfterWait as := by
  constructor
  · rintro ⟨-, hharm⟩
    refine Sys.along_of_along h hharm fun hr hh hst => ?_
    by_contra hc
    exact PartSt.not_ctsHarmless (partSys_ok hr) hc hst hh
  · intro hc
    refine ⟨Sys.alongStates_of_reachWhen (fun hr => (partSys_ok hr).snd.roundOk) hc, ?_⟩
    intro pre a s hpre hs ha hdc
    exact absurd hdc (hc pre a s hpre hs ha)

def exampleParams : PartParams := ⟨2, 1, 1, 2, Nat.two_pos, Nat.one_pos⟩

def exampleRun : List PartAct :=
  [.psendInit, .precvInit, .deliver, .precvStart, .psendStart, .deliverCts, .pready 1, .pready 0,
    .deliver, .recvDone, .recvWait, .precvStart]

theorem part_rounds_exact_waits : ∃ p,
    (partSys exampleParams).exec (.init exampleParams)
      (exampleRun ++ [PartAct.sendDone, .sendWait, .deliverCts]) = some p ∧
    p.snd.issued 1 = [0] ∧ p.snd.cts = 2 ∧
    (((partSys exampleParams).AlongStates (fun p => p.snd.RoundOk)
        (exampleRun ++ [PartAct.sendDone, .sendWait, .deliverCts]) ∧
      (partSys exampleParams).Along CtsHarmless
        (exampleRun ++ [PartAct.sendDone, .sendWait, .deliverCts])) ↔
      (partSys exampleParams).Along CtsAfterWait
        (exampleRun ++ [PartAct.sendDone, .sendWait, .deliverCts])) := by
  have hrun : ((partSys exampleParams).exec (.init exampleParams)
      (exampleRun ++ [PartAct.sendDone, .sendWait, .deliverCts])).map
        (fun p => (p.snd.issued 1, p.snd.cts)) = some ([0], 2) := by decide
  obtain ⟨p, hp, heq⟩ := map_eq_some_iff.1 hrun
  obtain ⟨h1, h2⟩ := Prod.mk.inj heq
  exact ⟨p, hp, h1, h2, part_rounds_exact _ _ p hp⟩

/-- The run in which the next CTS message arrives before the sender waits: the handler sets the
completion counter back to one and reads the freed array. -/
theorem part_rounds_early_cts :
    ¬ ∀ (P : PartParams) (as : List PartAct) (p : PartSt),
      (partSys P).exec (.init P) as = some p →
      (partSys P).AlongStates (fun p => p.snd.RoundOk) as ∧ (partSys P).Along CtsHarmless as := by
  intro hall
  have hrun : ((partSys exampleParams).exec (.init exampleParams)
      (exampleRun ++ [PartAct.sendDone, .deliverCts])).map (fun p => p.snd.fault) = some true := by decide
  obtain ⟨p, hp, hf⟩ := map_eq_some_iff.1 hrun
  have hok := (hall _ _ p hp).1 _ p prefix_rfl hp
  rw [hok.fault] at hf
  cases hf

end PsMpi.Part
