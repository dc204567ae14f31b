import PsMpi.Rma.AccountOk

/-!
# Exposure and access epochs and the operation counters
-/

open PsMpi.Lib List Function

namespace PsMpi.Rma

namespace AcctSt

variable {n : Nat} {s s' : AcctSt n} {o p t : Fin n}

/-! ## Exposure and access epochs -/

theorem Ok.epochEvent (h : s.Ok) (hf : (s.call p).free = true)
    (hfr : s'.fences = s.fences ∧ s'.resets = s.resets ∧ s'.contrib = s.contrib ∧
      s'.call = s.call)
    (hep : ∀ q, q ≠ p → s'.epoch q = s.epoch q) (hw : (s'.epoch p).Ok)
    (haccs : ∀ q, q ≠ p → (s'.cnt q).rmaPutsAccs = (s.cnt q).rmaPutsAccs)
    (hrec : ∀ q, (s'.cnt q).rmaPutsAccsReceived = (s.cnt q).rmaPutsAccsReceived)
    (hnn : ∀ t, 0 ≤ (s'.cnt p).rmaPutsAccs t)
    (hops : ∀ o t, (s'.pair o t).issued = (s.pair o t).issued ∧
      (s'.pair o t).flight = (s.pair o t).flight ∧
      (s'.pair o t).accounted = (s.pair o t).accounted)
    (hctrl : ∀ o t, (s'.pair o t).ctrl = (s.pair o t).ctrl)
    (hpairs : ∀ o t, s'.PairOk o t) : s'.Ok := by
  obtain ⟨hfe, hre, hco, hcall⟩ := hfr
  refine ⟨fun q => ?_, fun o t => ?_, ?_, fun q => ?_, hpairs, fun q => ?_, fun q => ?_⟩
  · by_cases hq : q = p
    · rw [hq]; exact hw
    · rw [hep q hq]; exact h.epoch q
  · by_cases hq : o = p
    · rw [hq]; exact hnn t
    · rw [haccs o hq]; exact h.nonneg o t
  · refine h.rounds.frame hfe hre hco fun q => ?_
    by_cases hq : q = p
    · rw [hq, hcall]; exact .inr ⟨Call.plain_of_free hf, Call.plain_of_free hf⟩
    · exact .inl ⟨by rw [hcall], hep q hq, haccs q hq⟩
  · by_cases hq : q = p
    · subst hq
      refine reqsOk_of_free (by rw [hcall]; exact hf) fun t => ?_
      rw [hctrl]
      exact (h.reqs q).idle (.inl hf) t
    · exact (h.reqs q).congr (by rw [hcall]) (hctrl q) (haccs q hq)
  · by_cases hq : q = p
    · rw [hq]; exact waitOk_of_not (by rw [hcall]; exact Call.waits_of_free hf)
    · refine (h.waiting q).congr (by rw [hcall]) (hep q hq)
        (fun o => by rw [(hops o q).1]) fun o k hk => .inl ?_
      rw [(hops o q).2.1] at hk
      exact hk
  · rw [hrec, h.received q]
    refine Finset.sum_congr rfl fun o _ => ?_
    simp only [Pair.applied, hops o q]

theorem Ok.post (h : s.Ok) {ranks : List (Fin n)} (hf : (s.call t).free = true)
    (hs : (EpochWin.winPost (storeRanks ranks) (s.epoch t)).1 = .success) (hnd : ranks.Nodup)
    (e : s' = (s.setEpoch t (EpochWin.winPost (storeRanks ranks) (s.epoch t)).2).mapTarget t
      fun o p => if o ∈ ranks then { p with posts := p.posts + 1 } else p) : s'.Ok := by
  obtain ⟨hstate, hpost, hstart⟩ := EpochWin.winPost_success hs
  have hnil : s.posted t = [] := h.posted_eq_nil (by aesop) (by aesop)
  have hcall : s'.call = s.call := by rw [e]; rfl
  have hcnt : s'.cnt = s.cnt := by rw [e]; rfl
  have hrounds : s'.fences = s.fences ∧ s'.resets = s.resets ∧ s'.contrib = s.contrib := by
    rw [e]; exact ⟨rfl, rfl, rfl⟩
  have hep : ∀ q, s'.epoch q =
      if q = t then (EpochWin.winPost (storeRanks ranks) (s.epoch t)).2 else s.epoch q := by
    intro q
    rw [e]
    simp [AcctSt.setEpoch, mapTarget, update_apply]
  have hpair : ∀ o' t', s'.pair o' t' =
      if t' = t ∧ o' ∈ ranks then { s.pair o' t' with posts := (s.pair o' t').posts + 1 }
      else s.pair o' t' := by
    intro o' t'
    rw [e, mapTarget_pair]
    by_cases ht : t' = t <;> by_cases ho : o' ∈ ranks <;> simp [ht, ho, AcctSt.setEpoch]
  have hctrl : ∀ o' t', (s'.pair o' t').ctrl = (s.pair o' t').ctrl := by
    intro o' t'
    rw [hpair]; split <;> rfl
  have howed : ∀ o' t', s'.owed o' t' = s.owed o' t' := fun o' t' =>
    owed_congr hrounds.2.1 hrounds.2.2 (hctrl o' t') (by rw [hcnt])
  have hstart' := started_congr hep hstart
  refine h.epochEvent hf ⟨hrounds.1, hrounds.2.1, hrounds.2.2, hcall⟩
    (fun q hq => by rw [hep, if_neg hq])
    (by rw [hep, if_pos rfl]; exact EpochWin.winPost_ok (h.epoch t) _) (fun _ _ => by rw [hcnt])
    (fun _ => by rw [hcnt]) (by rw [hcnt]; exact h.nonneg t) (fun o' t' => ?_) hctrl
    fun o' t' => ?_
  · rw [hpair]; split <;> exact ⟨rfl, rfl, rfl⟩
  · by_cases ht : t' = t
    · subst ht
      have hw : (s.call t').waits = false := Call.waits_of_free hf
      have hw' : (s'.call t').waits = false := by rw [hcall]; exact hw
      have hold := h.pairs o' t'
      unfold PairOk at hold ⊢
      rw [exposed_of_not hw, hnil, count_nil, waitsOn_of_not hw] at hold
      have hposted : s'.posted t' = ranks := by
        rw [posted, hep, if_pos rfl, hpost, loadRanks_storeRanks]
      rw [exposed_of_not hw', waitsOn_of_not hw', hstart', hposted, howed, hpair, hcnt]
      by_cases ho : o' ∈ ranks
      · rw [if_pos ⟨rfl, ho⟩, count_eq_one_of_mem hnd ho]
        exact hold.post
      · rw [if_neg fun hc => ho hc.2, count_eq_zero_of_not_mem ho]
        exact hold
    · refine (h.pairs o' t').congr (by rw [hpair, if_neg fun hc => ht hc.1]) (howed o' t')
        (by rw [hcnt]) (by rw [hstart']) ?_ (by simp only [waitsOn, hcall])
      simp only [exposed, posted, hep, if_neg ht, hcall]

theorem Ok.start (h : s.Ok) {ranks : List (Fin n)} (hf : (s.call o).free = true)
    (hs : (EpochWin.winStart (storeRanks ranks) (s.epoch o)).1 = .success) (hnd : ranks.Nodup)
    (hposts : ∀ t ∈ ranks, 0 < (s.pair o t).posts)
    (e : s' = (s.setEpoch o (EpochWin.winStart (storeRanks ranks) (s.epoch o)).2).mapOrigin o
      fun t p => if t ∈ ranks then { p with posts := p.posts - 1 } else p) : s'.Ok := by
  obtain ⟨hstate, hstart, hpost⟩ := EpochWin.winStart_success hs
  have hnil : s.started o = [] := h.started_eq_nil (by aesop) (by aesop)
  have hcall : s'.call = s.call := by rw [e]; rfl
  have hcnt : s'.cnt = s.cnt := by rw [e]; rfl
  have hrounds : s'.fences = s.fences ∧ s'.resets = s.resets ∧ s'.contrib = s.contrib := by
    rw [e]; exact ⟨rfl, rfl, rfl⟩
  have hep : ∀ q, s'.epoch q =
      if q = o then (EpochWin.winStart (storeRanks ranks) (s.epoch o)).2 else s.epoch q := by
    intro q
    rw [e]
    simp [AcctSt.setEpoch, mapOrigin, update_apply]
  have hpair : ∀ o' t', s'.pair o' t' =
      if o' = o ∧ t' ∈ ranks then { s.pair o' t' with posts := (s.pair o' t').posts - 1 }
      else s.pair o' t' := by
    intro o' t'
    rw [e, mapOrigin_pair]
    by_cases ho : o' = o <;> by_cases ht : t' ∈ ranks <;> simp [ht, ho, AcctSt.setEpoch]
  have hctrl : ∀ o' t', (s'.pair o' t').ctrl = (s.pair o' t').ctrl := by
    intro o' t'
    rw [hpair]; split <;> rfl
  have howed : ∀ o' t', s'.owed o' t' = s.owed o' t' := fun o' t' =>
    owed_congr hrounds.2.1 hrounds.2.2 (hctrl o' t') (by rw [hcnt])
  have hexp : ∀ q, s'.exposed q = s.exposed q := fun q => by
    simp only [exposed, hcall, posted_congr hep hpost]
  refine h.epochEvent hf ⟨hrounds.1, hrounds.2.1, hrounds.2.2, hcall⟩
    (fun q hq => by rw [hep, if_neg hq])
    (by rw [hep, if_pos rfl]; exact EpochWin.winStart_ok (h.epoch o) _) (fun _ _ => by rw [hcnt])
    (fun _ => by rw [hcnt]) (by rw [hcnt]; exact h.nonneg o) (fun o' t' => ?_) hctrl
    fun o' t' => ?_
  · rw [hpair]; split <;> exact ⟨rfl, rfl, rfl⟩
  · have hwaits : s'.waitsOn o' t' = s.waitsOn o' t' := by simp only [waitsOn, hcall]
    by_cases ho : o' = o
    · subst ho
      have hold := h.pairs o' t'
      unfold PairOk at hold ⊢
      rw [hnil, count_nil] at hold
      have hstarted : s'.started o' = ranks := by
        rw [started, hep, if_pos rfl, hstart, loadRanks_storeRanks]
      rw [hexp, hwaits, hstarted, howed, hpair, hcnt]
      by_cases ht : t' ∈ ranks
      · rw [if_pos ⟨rfl, ht⟩, count_eq_one_of_mem hnd ht]
        exact hold.start (hposts t' ht)
      · rw [if_neg fun hc => ht hc.2, count_eq_zero_of_not_mem ht]
        exact hold
    · refine (h.pairs o' t').congr (by rw [hpair, if_neg fun hc => ho hc.1]) (howed o' t')
        (by rw [hcnt]) ?_ (by rw [hexp]) hwaits
      simp only [started, hep, if_neg ho]

theorem foldl_resetTarget (ranks : List (Fin n)) (c : OpCount (Fin n)) :
    (ranks.foldl OpCount.resetTarget c).rmaSourceRankReceived = c.rmaSourceRankReceived ∧
    (ranks.foldl OpCount.resetTarget c).rmaPutsAccsReceived = c.rmaPutsAccsReceived ∧
    ∀ t, (ranks.foldl OpCount.resetTarget c).rmaPutsAccs t =
      if t ∈ ranks then 0 else c.rmaPutsAccs t := by
  induction ranks generalizing c with
  | nil => simp
  | cons r ranks ih =>
    obtain ⟨h1, h2, h3⟩ := ih (c.resetTarget r)
    refine ⟨h1, h2, fun t => ?_⟩
    rw [foldl_cons, h3]
    by_cases ht : t ∈ ranks
    · simp [ht]
    · by_cases hr : t = r
      · simp [hr, OpCount.resetTarget]
      · simp [ht, hr, OpCount.resetTarget]

theorem Ok.complete (h : s.Ok) (hf : (s.call o).free = true)
    (hs : (EpochWin.winComplete (s.epoch o)).1 = .success)
    (e : s' = (s.setEpoch o (EpochWin.winComplete (s.epoch o)).2).sendCompletes o
      (s.started o)) : s'.Ok := by
  obtain ⟨hstart, hpost⟩ := EpochWin.winComplete_success hs
  obtain ⟨hsrc, hrec, haccs⟩ := foldl_resetTarget (s.started o) (s.cnt o)
  have hcall : s'.call = s.call := by rw [e]; rfl
  have hcnt : ∀ q, s'.cnt q =
      if q = o then (s.started o).foldl OpCount.resetTarget (s.cnt o) else s.cnt q := by
    intro q
    rw [e]
    simp [AcctSt.setEpoch, sendCompletes, mapOrigin, setCnt, update_apply]
  have hrounds : s'.fences = s.fences ∧ s'.resets = s.resets ∧ s'.contrib = s.contrib := by
    rw [e]; exact ⟨rfl, rfl, rfl⟩
  have hep : ∀ q, s'.epoch q =
      if q = o then (EpochWin.winComplete (s.epoch o)).2 else s.epoch q := by
    intro q
    rw [e]
    simp [AcctSt.setEpoch, sendCompletes, mapOrigin, setCnt, update_apply]
  have hpair : ∀ o' t', s'.pair o' t' =
      if o' = o ∧ t' ∈ s.started o then
        { s.pair o' t' with completes := (s.pair o' t').completes ++
          [⟨(s.cnt o).rmaPutsAccs t', (s.pair o' t').issued⟩] }
      else s.pair o' t' := by
    intro o' t'
    rw [e, sendCompletes, setCnt_pair, mapOrigin_pair]
    by_cases ho : o' = o <;> by_cases ht : t' ∈ s.started o <;> simp [ht, ho, AcctSt.setEpoch]
  have hctrl : ∀ o' t', (s'.pair o' t').ctrl = (s.pair o' t').ctrl := by
    intro o' t'
    rw [hpair]; split <;> rfl
  have hsrc' : ∀ q, (s'.cnt q).rmaSourceRankReceived = (s.cnt q).rmaSourceRankReceived := by
    intro q
    rw [hcnt]
    split
    · next hq => rw [hq]; exact hsrc
    · rfl
  have hexp : ∀ q, s'.exposed q = s.exposed q := fun q => by
    simp only [exposed, hcall, posted_congr hep hpost]
  refine h.epochEvent hf ⟨hrounds.1, hrounds.2.1, hrounds.2.2, hcall⟩
    (fun q hq => by rw [hep, if_neg hq])
    (by rw [hep, if_pos rfl]; exact EpochWin.winComplete_ok (h.epoch o))
    (fun q hq => by rw [hcnt, if_neg hq]) (fun q => ?_) (fun t => ?_) (fun o' t' => ?_) hctrl
    fun o' t' => ?_
  · rw [hcnt]
    split
    · next hq => rw [hq]; exact hrec
    · rfl
  · rw [hcnt, if_pos rfl, haccs]
    split
    · exact Int.le_refl 0
    · exact h.nonneg o t
  · rw [hpair]; split <;> exact ⟨rfl, rfl, rfl⟩
  · have hwaits : s'.waitsOn o' t' = s.waitsOn o' t' := by simp only [waitsOn, hcall]
    by_cases ho : o' = o
    · subst ho
      have hold := h.pairs o' t'
      have hidle := (h.reqs o').idle (.inl hf) t'
      have hr := h.rounds.resets_eq (Call.plain_of_free hf) t'
      have hstarted : s'.started o' = [] := by
        rw [started, hep, if_pos rfl, hstart]
        rfl
      have howed : s'.owed o' t' = if t' ∈ s.started o' then 0 else s.owed o' t' := by
        rw [h.owed_of_free hf, ← haccs t']
        simp only [owed, hrounds.2.1, hr, Nat.lt_irrefl, if_false, hctrl, hidle, hcnt, if_true]
      unfold PairOk at hold ⊢
      rw [hexp, hwaits, hstarted, count_nil, howed, hpair, hsrc']
      by_cases ht : t' ∈ s.started o'
      · rw [if_pos ht, if_pos ⟨rfl, ht⟩, ← h.owed_of_free hf]
        exact hold.complete (count_pos_iff.2 ht) hidle
      · rw [if_neg ht, if_neg fun hc => ht hc.2]
        rw [count_eq_zero_of_not_mem ht] at hold
        exact hold
    · refine (h.pairs o' t').congr (by rw [hpair, if_neg fun hc => ho hc.1]) ?_
        (congrFun (hsrc' t') o') ?_ (by rw [hexp]) hwaits
      · exact owed_congr hrounds.2.1 hrounds.2.2 (hctrl o' t') (by rw [hcnt, if_neg ho])
      · simp only [started, hep, if_neg ho]

/-! ## Waiting for an exposure epoch -/

theorem RoundsOk.setCall (h : s.RoundsOk) {k : Call n} (hold : (s.call p).plain) (hk : k.plain) :
    (s.setCall p k).RoundsOk := by
  refine h.frame rfl rfl rfl fun q => ?_
  by_cases hq : q = p
  · subst hq; exact .inr ⟨hold, by simpa [AcctSt.setCall] using hk⟩
  · exact .inl ⟨by simp [AcctSt.setCall, hq], rfl, rfl⟩

theorem Ok.callEvent (h : s.Ok) {k : Call n} (hrounds : (s.setCall p k).RoundsOk)
    (hreqs : (s.setCall p k).ReqsOk p) (hwait : (s.setCall p k).WaitOk p)
    (hpairs : ∀ o, (s.setCall p k).PairOk o p) : (s.setCall p k).Ok := by
  have hcall : ∀ q, q ≠ p → (s.setCall p k).call q = s.call q := fun q hq => by
    simp [AcctSt.setCall, hq]
  refine ⟨h.epoch, h.nonneg, hrounds, fun q => ?_, fun o t => ?_, fun q => ?_, h.received⟩
  · by_cases hq : q = p
    · rw [hq]; exact hreqs
    · exact (h.reqs q).congr (hcall q hq) (fun _ => rfl) rfl
  · by_cases hq : t = p
    · rw [hq]; exact hpairs o
    · refine (h.pairs o t).congr rfl rfl rfl rfl ?_ ?_
      · unfold exposed; rw [hcall t hq]; rfl
      · unfold waitsOn; rw [hcall t hq]
  · by_cases hq : q = p
    · rw [hq]; exact hwait
    · exact (h.waiting q).congr (hcall q hq) rfl (fun _ => Nat.le_refl _) fun _ _ hk => .inl hk

theorem Ok.wait (h : s.Ok) (hf : (s.call t).free = true)
    (hs : (EpochWin.winWait (s.epoch t)).1 = .success) :
    (s.setCall t (.wait (s.posted t) [])).Ok := by
  have hcall : (s.setCall t (.wait (s.posted t) [])).call t = .wait (s.posted t) [] := by
    simp [AcctSt.setCall]
  refine h.callEvent (h.rounds.setCall (Call.plain_of_free hf) ⟨rfl, fun h => by cases h⟩) ?_ ?_ fun o => ?_
  · unfold ReqsOk
    rw [hcall]
    exact (h.reqs t).idle (.inl hf)
  · unfold WaitOk
    rw [hcall]
    exact ⟨hs, rfl, fun _ h => by cases h⟩
  · refine (h.pairs o t).congr rfl rfl rfl rfl ?_ ?_
    · rw [exposed_of_not (Call.waits_of_free hf), exposed, hcall]
    · rw [waitsOn_of_not (Call.waits_of_free hf), waitsOn, hcall]

theorem Ok.recvComplete (h : s.Ok) {rest : List (Fin n)} {passed : List (Fin n × Complete)}
    {c : Complete} {cs : List Complete} (hcall : s.call t = .wait (o :: rest) passed)
    (hc : (s.pair o t).completes = c :: cs)
    (e : s' = ((s.setCnt t ((s.cnt t).recvComplete o c.rmaOpCounter)).setPair o t
      { s.pair o t with
        completes := cs
        accounted := (s.pair o t).accounted + c.rmaOpCounter }).setCall t
          (.waitOps o c rest passed)) : s'.Ok := by
  have hcnt : ∀ q, s'.cnt q =
      if q = t then (s.cnt t).recvComplete o c.rmaOpCounter else s.cnt q := by
    intro q
    rw [e]
    exact setCnt_cnt s t q _
  have haccs : ∀ q, (s'.cnt q).rmaPutsAccs = (s.cnt q).rmaPutsAccs := by
    intro q
    rw [hcnt]
    split
    · next hq => rw [hq]; rfl
    · rfl
  have hpair : ∀ o' t', s'.pair o' t' = if o' = o ∧ t' = t then
      { s.pair o t with
        completes := cs
        accounted := (s.pair o t).accounted + c.rmaOpCounter } else s.pair o' t' := by
    intro o' t'
    rw [e, setCall_pair, setPair_pair]
    rfl
  have hpt : s'.pair o t = { s.pair o t with
      completes := cs
      accounted := (s.pair o t).accounted + c.rmaOpCounter } := by rw [hpair]; simp
  have hctrl : ∀ o' t', (s'.pair o' t').ctrl = (s.pair o' t').ctrl := by
    intro o' t'
    rw [hpair]
    split
    · next hq => rw [hq.1, hq.2]
    · rfl
  have hcall' : ∀ q, s'.call q = if q = t then .waitOps o c rest passed else s.call q := by
    intro q
    rw [e]
    simp [AcctSt.setCall, setPair, setCnt, update_apply]
  have hep : s'.epoch = s.epoch := by rw [e]; rfl
  have hres : s'.resets = s.resets ∧ s'.contrib = s.contrib ∧ s'.fences = s.fences := by
    rw [e]; exact ⟨rfl, rfl, rfl⟩
  have htouch : Touches o t s s' := by
    refine ⟨hres.2.2, hres.1, hres.2.1, hep, fun o' t' hq => ?_, fun o' t' _ => by rw [haccs],
      ?_, fun o' t' hq => ?_, fun t' => ?_⟩
    · rw [hpair, if_neg hq]
    · rw [haccs]; exact h.nonneg o t
    · rw [hcnt]
      split
      · next ht => rw [ht]; exact update_of_ne (fun ho => hq ⟨ho, ht⟩) _ _
      · rfl
    · rw [hcnt, hpt]
      split
      · next ht =>
        rw [ht]
        simp only [OpCount.recvComplete, Pair.applied]
        omega
      · simp
  refine h.touch htouch ?_ (fun q => ?_) ?_ (fun q => ?_) fun o' t' hq => ?_
  · refine h.rounds.frame hres.2.2 hres.1 hres.2.1 fun q => ?_
    by_cases hq : q = t
    · rw [hq, hcall', if_pos rfl, hcall]
      exact .inr ⟨⟨rfl, fun h => by cases h⟩, ⟨rfl, fun h => by cases h⟩⟩
    · exact .inl ⟨by rw [hcall', if_neg hq], by rw [hep], haccs q⟩
  · by_cases hq : q = t
    · subst hq
      have hreq := h.reqs q
      unfold ReqsOk at hreq ⊢
      rw [hcall', if_pos rfl]
      rw [hcall] at hreq
      intro t'
      rw [hctrl]
      exact hreq t'
    · exact (h.reqs q).congr (by rw [hcall', if_neg hq]) (hctrl q) (haccs q)
  · have hold := (h.pairs o t).recvComplete hc
    have howed : s'.owed o t = s.owed o t :=
      owed_congr hres.1 hres.2.1 (hctrl o t) (by rw [haccs])
    have hstart : s'.started o = s.started o := by simp only [started, hep]
    have hsrc : (s'.cnt t).rmaSourceRankReceived o =
        (s.cnt t).rmaSourceRankReceived o + c.rmaOpCounter := by
      rw [hcnt, if_pos rfl]
      simp [OpCount.recvComplete]
    have hexp : s.exposed t = o :: rest := by rw [exposed, hcall]
    have hexp' : s'.exposed t = rest := by rw [exposed, hcall', if_pos rfl]
    have hw : s'.waitsOn o t = some c := by
      rw [waitsOn, hcall', if_pos rfl]
      exact if_pos rfl
    rw [hexp, count_cons_self, Nat.add_sub_cancel] at hold
    unfold PairOk
    rw [howed, hpt, hsrc, hstart, hexp', hw]
    exact hold
  · by_cases hq : q = t
    · subst hq
      have hw := h.waiting q
      unfold WaitOk at hw ⊢
      rw [hcall', if_pos rfl]
      rw [hcall] at hw
      refine hw.mono (by rw [hep]) (fun o' => ?_) fun o' k hk => .inl ?_
      · rw [hpair]; split
        · next ho => rw [ho.1]
        · exact Nat.le_refl _
      · rw [hpair] at hk
        split at hk
        · next ho => rw [ho.1]; exact hk
        · exact hk
    · refine (h.waiting q).congr (by rw [hcall', if_neg hq]) (by rw [hep]) (fun o' => ?_)
        fun o' k hk => .inl ?_
      · rw [htouch.pair o' q fun ho => hq ho.2]
      · rwa [htouch.pair o' q fun ho => hq ho.2] at hk
  · by_cases ht : t' = t
    · subst ht
      have ho : o' ≠ o := fun ho => hq ⟨ho, rfl⟩
      simp only [exposed, waitsOn, hcall', if_true, hcall, count_cons_of_ne (Ne.symm ho),
        if_neg (Ne.symm ho), and_self]
    · simp only [exposed, waitsOn, posted, hcall', if_neg ht, hep, and_self]

theorem Ok.passed (h : s.Ok) {c : Complete} {rest : List (Fin n)}
    {passed : List (Fin n × Complete)} (hcall : s.call t = .waitOps o c rest passed)
    (ha : (s.cnt t).allArrived o) :
    (s.pair o t).Ok (s.owed o t) 0 ((s.started o).count t) (rest.count o) Option.none ∧
      s.Passed t (o, c) := by
  have hpair := h.pairs o t
  have hw : s.waitsOn o t = some c := by rw [waitsOn, hcall]; exact if_pos rfl
  have hexp : s.exposed t = rest := by rw [exposed, hcall]
  unfold PairOk at hpair
  rw [show (s.cnt t).rmaSourceRankReceived o = 0 from ha, hexp] at hpair
  obtain ⟨hnew, hmark⟩ := hpair.waitNext hw
  have hle := (hpair.waits c hw).2.2.1
  have hb := hpair.balance
  have h1 := hpair.owed_nonneg
  have h2 := hpair.announced_nonneg
  refine ⟨hnew, ?_, hmark⟩
  show c.mark ≤ (s.pair o t).issued
  omega

theorem Ok.waitNext (h : s.Ok) {c : Complete} {rest : List (Fin n)}
    {passed : List (Fin n × Complete)} (hcall : s.call t = .waitOps o c rest passed)
    (ha : (s.cnt t).allArrived o) : (s.setCall t (.wait rest (passed ++ [(o, c)]))).Ok := by
  obtain ⟨hnew, hpassed⟩ := h.passed hcall ha
  have hcall' : (s.setCall t (.wait rest (passed ++ [(o, c)]))).call t =
      .wait rest (passed ++ [(o, c)]) := by simp [AcctSt.setCall]
  have hexp : s.exposed t = rest := by rw [exposed, hcall]
  have hexp' : (s.setCall t (.wait rest (passed ++ [(o, c)]))).exposed t = rest := by
    rw [exposed, hcall']
  have hold : (s.call t).plain := by rw [hcall]; exact ⟨rfl, fun h => by cases h⟩
  refine h.callEvent (h.rounds.setCall hold ⟨rfl, fun h => by cases h⟩) ?_ ?_ fun o' => ?_
  · have hreq := h.reqs t
    unfold ReqsOk at hreq ⊢
    rw [hcall']
    rw [hcall] at hreq
    exact hreq
  · have hw := h.waiting t
    unfold WaitOk at hw ⊢
    rw [hcall']
    rw [hcall] at hw
    refine ⟨hw.epoch, ?_, fun x hx => ?_⟩
    · rw [map_append, append_assoc]
      exact hw.ranks
    · rcases mem_append.1 hx with hx | hx
      · exact hw.done x hx
      · rw [mem_singleton.1 hx]; exact hpassed
  · by_cases ho : o' = o
    · subst ho
      unfold PairOk
      rw [hexp', waitsOn, hcall']
      rw [← show (s.cnt t).rmaSourceRankReceived o' = 0 from ha] at hnew
      exact hnew
    · refine (h.pairs o' t).congr rfl rfl rfl rfl (by rw [hexp, hexp']) ?_
      rw [waitsOn, waitsOn, hcall', hcall]
      exact (if_neg (Ne.symm ho)).symm

theorem Ok.waitDone (h : s.Ok) {passed : List (Fin n × Complete)}
    (hcall : s.call t = .wait [] passed)
    (e : s' = (s.setEpoch t (EpochWin.winWait (s.epoch t)).2).setCall t .none) : s'.Ok := by
  have hw : s.WaitsFor t [] passed := by
    have := h.waiting t
    unfold WaitOk at this
    rwa [hcall] at this
  have hranks : (EpochWin.winWait (s.epoch t)).2.ranksPost = Option.none ∧
      (EpochWin.winWait (s.epoch t)).2.ranksStart = (s.epoch t).ranksStart := by
    have := hw.epoch
    unfold EpochWin.winWait at this ⊢
    split at this
    · cases this
    · next hs => rw [if_neg hs]; exact ⟨rfl, rfl⟩
  have hep : ∀ q, s'.epoch q =
      if q = t then (EpochWin.winWait (s.epoch t)).2 else s.epoch q := by
    intro q
    rw [e]
    simp [AcctSt.setEpoch, AcctSt.setCall, update_apply]
  have hcall' : ∀ q, s'.call q = if q = t then .none else s.call q := by
    intro q
    rw [e]
    simp [AcctSt.setEpoch, AcctSt.setCall, update_apply]
  have hsame : s'.cnt = s.cnt ∧ s'.pair = s.pair ∧ s'.fences = s.fences ∧ s'.resets = s.resets ∧
      s'.contrib = s.contrib := by rw [e]; exact ⟨rfl, rfl, rfl, rfl, rfl⟩
  obtain ⟨hcnt, hpair, hfe, hre, hco⟩ := hsame
  have hfree : (s'.call t).free = true := by rw [hcall', if_pos rfl]; rfl
  have hstart := started_congr hep hranks.2
  have hexp : ∀ q, s'.exposed q = s.exposed q := by
    intro q
    by_cases hq : q = t
    · rw [hq, exposed_of_not (Call.waits_of_free hfree), posted, hep, if_pos rfl, hranks.1, exposed,
        hcall]
      rfl
    · simp only [exposed, posted, hep, hcall', if_neg hq]
  refine ⟨fun q => ?_, by rw [hcnt]; exact h.nonneg, ?_, fun q => ?_, fun o' q => ?_, fun q => ?_,
    by rw [hcnt, hpair]; exact h.received⟩
  · rw [hep]
    split
    · exact EpochWin.winWait_ok (h.epoch t)
    · exact h.epoch q
  · refine h.rounds.frame hfe hre hco fun q => ?_
    by_cases hq : q = t
    · rw [hq, hcall]; exact .inr ⟨⟨rfl, fun h => by cases h⟩, Call.plain_of_free hfree⟩
    · exact .inl ⟨by rw [hcall', if_neg hq], by rw [hep, if_neg hq], by rw [hcnt]⟩
  · by_cases hq : q = t
    · subst hq
      have hreq := h.reqs q
      unfold ReqsOk at hreq
      rw [hcall] at hreq
      exact reqsOk_of_free hfree fun t' => by rw [hpair]; exact hreq t'
    · exact (h.reqs q).congr (by rw [hcall', if_neg hq]) (fun _ => by rw [hpair]) (by rw [hcnt])
  · refine (h.pairs o' q).congr (by rw [hpair]) ?_ (by rw [hcnt]) (by rw [hstart]) (by rw [hexp]) ?_
    · exact owed_congr hre hco (by rw [hpair]) (by rw [hcnt])
    · by_cases hq : q = t
      · rw [hq, waitsOn_of_not (Call.waits_of_free hfree), waitsOn, hcall]
      · simp only [waitsOn, hcall', if_neg hq]
  · by_cases hq : q = t
    · rw [hq]; exact waitOk_of_not (Call.waits_of_free hfree)
    · exact (h.waiting q).congr (by rw [hcall', if_neg hq]) (by rw [hep, if_neg hq])
        (fun _ => by rw [hpair]) fun _ _ hk => .inl (by rwa [hpair] at hk)

end AcctSt

end PsMpi.Rma
