import PsMpi.Rma.AccountPscw

/-!
# Fences and the operation counters

The steps of a fence, and with them the invariant over all runs (`acctSys_ok`).
-/

open PsMpi.Lib List Option Function

namespace PsMpi.Rma

namespace AcctSt

variable {n : Nat} {s s' : AcctSt n} {o p t : Fin n}

/-! ## The steps of a fence -/

theorem Ok.fence (h : s.Ok) (hf : (s.call p).free = true)
    (hs : (EpochWin.winFence true true (s.epoch p)).1 = .success)
    (e : s' = (s.enterFence p).setCall p .fence) : s'.Ok := by
  have hstate := EpochWin.winFence_success hs
  have hpost : s.posted p = [] := h.posted_eq_nil (by aesop) (by aesop)
  have hstart : s.started p = [] := h.started_eq_nil (by aesop) (by aesop)
  have hrs : s.fences p = s.resets p := by
    rw [h.rounds.fences p, (Call.plain_of_free hf).1]
    rfl
  have hcall : ∀ q, s'.call q = if q = p then .fence else s.call q := by
    intro q
    rw [e]
    simp [AcctSt.setCall, enterFence, update_apply]
  have hfe : ∀ q, s'.fences q = if q = p then s.fences p + 1 else s.fences q := by
    intro q
    rw [e]
    simp [AcctSt.setCall, enterFence, update_apply]
  have hco : ∀ q r, (q ≠ p ∨ r ≠ s.fences p + 1) → s'.contrib q r = s.contrib q r := by
    intro q r hqr
    rw [e]
    by_cases hq : q = p
    · subst hq
      have hr : r ≠ s.fences q + 1 := hqr.resolve_left fun hq => hq rfl
      simp [AcctSt.setCall, enterFence, hr]
    · simp [AcctSt.setCall, enterFence, hq]
  have hgiven : s'.contrib p (s.fences p + 1) = (s.cnt p).rmaPutsAccs := by
    rw [e]
    simp [AcctSt.setCall, enterFence]
  obtain ⟨hcnt, hpair, hep, hre⟩ : s'.cnt = s.cnt ∧ s'.pair = s.pair ∧ s'.epoch = s.epoch ∧
      s'.resets = s.resets := by rw [e]; exact ⟨rfl, rfl, rfl, rfl⟩
  have hle : ∀ q, s.fences q ≤ s'.fences q := by
    intro q
    rw [hfe]
    split
    · next hq => rw [hq]; exact Nat.le_succ _
    · exact Nat.le_refl _
  have hwaits : (s'.call p).waits = false := by rw [hcall, if_pos rfl]; rfl
  have hexp := waits_congr (Call.waits_of_free hf) hwaits (fun q hq => by rw [hcall, if_neg hq])
    fun q => by rw [posted, posted, hep]
  have hrounds : s'.RoundsOk := by
    refine ⟨fun q => ?_, fun q hb r => ?_, fun q hb r => ?_, fun q total hq => ?_, fun q hb => ?_,
      fun q hb t => ?_, fun q => ?_⟩
    · rw [hfe, hcall, hre]
      split
      · next hq => rw [hq, hrs]; rfl
      · exact h.rounds.fences q
    · rw [hre]
      refine h.rounds.left q (fun hc => ?_) r
      by_cases hq : q = p
      · rw [hq] at hc
        rw [hc] at hf
        cases hf
      · rw [hcall, if_neg hq] at hb
        exact hb hc
    · rw [hre]
      rw [hcall] at hb
      split at hb
      · cases hb
      · exact Nat.le_trans (h.rounds.joined q hb r) (hle r)
    · rw [hcall] at hq
      split at hq
      · cases hq
      · next hne =>
        obtain ⟨h1, h2⟩ := h.rounds.reduced q total hq
        rw [show s'.fences q = s.fences q by rw [hfe, if_neg hne]]
        refine ⟨fun r => Nat.le_trans (h1 r) (hle r), h2.trans ?_⟩
        refine Finset.sum_congr rfl fun r _ => ?_
        rw [hco r _ ?_]
        by_cases hr : r = p
        · exact .inr fun hc => by have := h1 p; omega
        · exact .inl hr
    · rw [hcnt]
      rw [hcall] at hb
      by_cases hq : q = p
      · rw [hq, hfe, if_pos rfl]
        exact hgiven
      · rw [if_neg hq] at hb
        rw [hfe, if_neg hq, hco q _ (.inl hq)]
        exact h.rounds.given q hb
    · rw [hcnt]
      rw [hcall] at hb
      split at hb
      · cases hb
      · exact h.rounds.reset q hb t
    · simp only [posted, started, hep]
      by_cases hq : q = p
      · rw [hq]; exact .inr ⟨hpost, hstart⟩
      · rw [hcall, if_neg hq]; exact h.rounds.closed q
  have howed : ∀ o t, s'.owed o t = s.owed o t := by
    intro o t
    unfold owed
    rw [hre, hpair, hcnt, hco o _ ?_]
    by_cases ho : o = p
    · exact .inr (by rw [ho]; omega)
    · exact .inl ho
  refine ⟨by rw [hep]; exact h.epoch, by rw [hcnt]; exact h.nonneg, hrounds, fun q => ?_,
    fun o t => ?_, fun q => ?_, by rw [hcnt, hpair]; exact h.received⟩
  · by_cases hq : q = p
    · subst hq
      unfold ReqsOk
      rw [hcall, if_pos rfl, hpair]
      exact (h.reqs q).idle (.inl hf)
    · exact (h.reqs q).congr (by rw [hcall, if_neg hq]) (fun _ => by rw [hpair]) (by rw [hcnt])
  · exact (h.pairs o t).congr (by rw [hpair]) (howed o t) (by rw [hcnt])
      (by simp only [started, hep]) (by rw [(hexp t).1]) ((hexp t).2 o)
  · by_cases hq : q = p
    · rw [hq]; exact waitOk_of_not hwaits
    · exact (h.waiting q).congr (by rw [hcall, if_neg hq]) (by rw [hep])
        (fun _ => by rw [hpair]) fun _ _ hk => .inl (by rwa [hpair] at hk)

theorem RoundsOk.moveCall (h : s.RoundsOk) {c : Call n} (hin : c.inFence = (s.call p).inFence)
    (hbarrier : c ≠ .barrier) (hleft : ∀ q, s.resets p ≤ s.resets q)
    (hreduced : ∀ total, c = .fenceWait total → (∀ q, s.fences p ≤ s.fences q) ∧
      total = ∑ q, s.contrib q (s.fences p) p)
    (hclosed : c.plain ∨ s.posted p = [] ∧ s.started p = []) : (s.setCall p c).RoundsOk := by
  have hnew : ∀ q, (s.setCall p c).call q = if q = p then c else s.call q := by
    intro q
    simp [AcctSt.setCall, update_apply]
  refine ⟨fun q => ?_, fun q hb r => ?_, fun q hb r => ?_, fun q total hq => ?_, fun q hb => ?_,
    fun q hb t => ?_, fun q => ?_⟩
  · rw [hnew]
    split
    · next hq => rw [hq, hin]; exact h.fences p
    · exact h.fences q
  · by_cases hq : q = p
    · rw [hq]; exact hleft r
    · rw [hnew, if_neg hq] at hb; exact h.left q hb r
  · rw [hnew] at hb
    split at hb
    · exact absurd hb hbarrier
    · exact h.joined q hb r
  · rw [hnew] at hq
    split at hq
    · next hqp => rw [hqp]; exact hreduced total hq
    · exact h.reduced q total hq
  · rw [hnew] at hb
    split at hb
    · next hq => rw [hq]; exact h.given p (hin ▸ hb)
    · exact h.given q hb
  · rw [hnew] at hb
    split at hb
    · exact absurd hb hbarrier
    · exact h.reset q hb t
  · by_cases hq : q = p
    · rw [hnew, if_pos hq, hq]; exact hclosed
    · rw [hnew, if_neg hq]; exact h.closed q

theorem Ok.reduceScatter (h : s.Ok) (hcall : s.call p = .fence)
    (hall : ∀ q, s.fences p ≤ s.fences q) :
    (s.setCall p (.fenceWait (∑ q, s.contrib q (s.fences p) p))).Ok := by
  have hnew : (s.setCall p (.fenceWait (∑ q, s.contrib q (s.fences p) p))).call p =
      .fenceWait (∑ q, s.contrib q (s.fences p) p) := by
    simp [AcctSt.setCall]
  refine h.callEvent ?_ ?_ ?_ fun o => ?_
  · refine h.rounds.moveCall (by rw [hcall]; rfl) (by simp) (h.rounds.left p (by simp [hcall]))
      (fun total ht => by cases ht; exact ⟨hall, rfl⟩) (.inr ?_)
    refine (h.rounds.closed p).resolve_left fun hc => ?_
    rw [hcall] at hc
    cases hc.1
  · have hreq := h.reqs p
    unfold ReqsOk at hreq ⊢
    rw [hnew]
    rw [hcall] at hreq
    exact hreq
  · exact waitOk_of_not (by rw [hnew]; rfl)
  · have hw : (s.call p).waits = false := by rw [hcall]; rfl
    have hw' : ((s.setCall p (.fenceWait (∑ q, s.contrib q (s.fences p) p))).call p).waits =
        false := by rw [hnew]; rfl
    refine (h.pairs o p).congr rfl rfl rfl rfl ?_ ?_
    · rw [exposed_of_not hw, exposed_of_not hw']; rfl
    · rw [waitsOn_of_not hw, waitsOn_of_not hw']

theorem Ok.barrierLeave (h : s.Ok) (hcall : s.call p = .barrier)
    (hall : ∀ q, s.resets p ≤ s.resets q) : (s.setCall p .none).Ok := by
  have hfree : ((s.setCall p .none).call p).free = true := by
    simp [AcctSt.setCall, Call.free]
  refine h.callEvent ?_ ?_ ?_ fun o => ?_
  · exact h.rounds.moveCall (by rw [hcall]; rfl) (by simp) hall (by simp) (.inl (Call.plain_of_free rfl))
  · refine reqsOk_of_free hfree fun t => (h.reqs p).idle (.inr ?_) t
    rw [hcall]
    exact fun hc => hc.2 rfl
  · exact waitOk_of_not (Call.waits_of_free hfree)
  · have hw : (s.call p).waits = false := by rw [hcall]; rfl
    refine (h.pairs o p).congr rfl rfl rfl rfl ?_ ?_
    · rw [exposed_of_not hw, exposed_of_not (Call.waits_of_free hfree)]; rfl
    · rw [waitsOn_of_not hw, waitsOn_of_not (Call.waits_of_free hfree)]

theorem Ok.fence_peer (h : s.Ok) {total : Int} (hcall : s.call p = .fenceWait total) (q : Fin n) :
    ((s.call q).inFence = true ∧ s.resets q = s.resets p ∨
      s.call q = .barrier ∧ s.resets q = s.resets p + 1) ∧
    (∀ t, (s.pair q t).ctrl = .idle) ∧ s.contrib q (s.fences p) p = s.owed q p := by
  have hfp : s.fences p = s.resets p + 1 := by
    have := h.rounds.fences p
    rw [hcall] at this
    exact this
  have hall := (h.rounds.reduced p total hcall).1 q
  have hfq := h.rounds.fences q
  have hplain : ¬ (s.call q).plain := by
    intro hc
    have := h.rounds.resets_eq hc p
    rw [hc.1] at hfq
    simp only [Bool.false_eq_true, if_false] at hfq
    omega
  have hidle := (h.reqs q).idle (.inr hplain)
  by_cases hb : s.call q = .barrier
  · have hj := h.rounds.joined q hb p
    rw [hb] at hfq
    simp only [Call.inFence, Bool.false_eq_true, if_false] at hfq
    have hr : s.resets q = s.resets p + 1 := by omega
    refine ⟨.inr ⟨hb, hr⟩, hidle, ?_⟩
    rw [owed, if_neg (by omega), if_pos (by omega), hfp, hr]
  · have hin : (s.call q).inFence = true := by
      by_contra hc
      exact hplain ⟨Bool.eq_false_iff.2 hc, hb⟩
    have hl := h.rounds.left q hb p
    rw [hin] at hfq
    simp only [if_true] at hfq
    have hr : s.resets q = s.resets p := by omega
    refine ⟨.inl ⟨hin, hr⟩, hidle, ?_⟩
    rw [owed, if_neg (by omega), if_neg (by omega), hidle, hfp, ← hr, ← hfq,
      h.rounds.given q hin]

theorem Ok.fence_pair (h : s.Ok) {total : Int} (hcall : s.call p = .fenceWait total) (q : Fin n) :
    (s.pair q p).Ok (s.owed q p) ((s.cnt p).rmaSourceRankReceived q) ((s.started q).count p) 0
      Option.none := by
  have hw : (s.call p).waits = false := by rw [hcall]; rfl
  have hpost : s.posted p = [] := by
    rcases h.rounds.closed p with hc | hc
    · rw [hcall] at hc; exact absurd hc.1 (by simp [Call.inFence])
    · exact hc.1
  have hpair := h.pairs q p
  unfold PairOk at hpair
  rwa [exposed_of_not hw, hpost, count_nil, waitsOn_of_not hw] at hpair

theorem Ok.fenceWait (h : s.Ok) {total : Int} (hcall : s.call p = .fenceWait total) :
    total = (s.cnt p).rmaPutsAccsReceived + ∑ q, ((s.pair q p).flight.length : Int) := by
  rw [(h.rounds.reduced p total hcall).2, h.received p, ← Finset.sum_add_distrib]
  refine Finset.sum_congr rfl fun q _ => ?_
  have hpair := h.fence_pair hcall q
  have hb := hpair.balance
  have ha : (s.pair q p).announced = 0 := by simp [Pair.announced, hpair.completes_eq_nil]
  rw [(h.fence_peer hcall q).2.2]
  simp only [Pair.applied]
  omega

theorem Ok.fence_flight (h : s.Ok) (hcall : s.call p = .fenceWait (s.cnt p).rmaPutsAccsReceived)
    (q : Fin n) : (s.pair q p).flight = [] := by
  have hsum : ∑ q, ((s.pair q p).flight.length : Int) = 0 := by
    have := h.fenceWait hcall
    omega
  rw [Finset.sum_eq_zero_iff_of_nonneg fun q _ => Int.natCast_nonneg _] at hsum
  have := hsum q (Finset.mem_univ q)
  exact length_eq_zero_iff.1 (by omega)

theorem Ok.fenceReset (h : s.Ok) (hcall : s.call p = .fenceWait (s.cnt p).rmaPutsAccsReceived)
    (e : s' = (s.resetWin p).setCall p .barrier) : s'.Ok := by
  have hpeer := fun q => h.fence_peer hcall q
  have hflight := fun q => h.fence_flight hcall q
  obtain ⟨hall, -⟩ := h.rounds.reduced p _ hcall
  have hin : (s.call p).inFence = true := by rw [hcall]; rfl
  have hfp : s.fences p = s.resets p + 1 := by
    have := h.rounds.fences p
    rwa [hin] at this
  have hcall' : ∀ q, s'.call q = if q = p then .barrier else s.call q := by
    intro q
    rw [e]
    simp [AcctSt.setCall, resetWin, AcctSt.setEpoch, mapTarget, setCnt, update_apply]
  have hre : ∀ q, s'.resets q = if q = p then s.resets p + 1 else s.resets q := by
    intro q
    rw [e]
    simp [AcctSt.setCall, resetWin, AcctSt.setEpoch, mapTarget, setCnt, update_apply]
  have hcnt : ∀ q, s'.cnt q = if q = p then .init else s.cnt q := by
    intro q
    rw [e]
    simp [AcctSt.setCall, resetWin, AcctSt.setEpoch, mapTarget, setCnt, update_apply,
      OpCount.fenceReset]
  have hep : ∀ q, s'.epoch q =
      if q = p then (EpochWin.winFence true true (s.epoch p)).2 else s.epoch q := by
    intro q
    rw [e]
    simp [AcctSt.setCall, resetWin, AcctSt.setEpoch, mapTarget, setCnt, update_apply]
  have hpair : ∀ q t, s'.pair q t = if t = p then
      { s.pair q p with accounted := (s.pair q p).accounted + s.owed q p } else s.pair q t := by
    intro q t
    rw [e, setCall_pair, resetWin, setCnt_pair, mapTarget_pair, (hpeer q).2.2]
    split
    · next ht => rw [ht]; rfl
    · rfl
  obtain ⟨hfe, hco⟩ : s'.fences = s.fences ∧ s'.contrib = s.contrib := by
    rw [e]; exact ⟨rfl, rfl⟩
  have hctrl : ∀ q t, (s'.pair q t).ctrl = .idle := by
    intro q t
    rw [hpair]
    split
    · exact (hpeer q).2.1 p
    · exact (hpeer q).2.1 t
  have hranks : ∀ q, s'.posted q = s.posted q ∧ s'.started q = s.started q := by
    obtain ⟨h1, h2⟩ := EpochWin.winFence_ranks (w := s.epoch p) true true
    exact fun q => ⟨posted_congr hep h1 q, started_congr hep h2 q⟩
  have hwaits : (s.call p).waits = false := by rw [hcall]; rfl
  have hwaits' : (s'.call p).waits = false := by rw [hcall', if_pos rfl]; rfl
  have hexp := waits_congr hwaits hwaits' (fun q hq => by rw [hcall', if_neg hq])
    fun q => (hranks q).1
  -- what the processes owe to `p` is accounted for, and what `p` owes is now its contribution
  have howedTo : ∀ q, s'.owed q p = 0 := by
    intro q
    unfold owed
    rw [hre, hre, if_pos rfl, hctrl, hcnt, hco]
    by_cases hq : q = p
    · simp [hq, OpCount.init]
    · rcases (hpeer q).1 with ⟨-, hr⟩ | ⟨hb, hr⟩
      · rw [if_neg hq, if_pos (by omega)]
      · rw [if_neg hq, if_neg (by omega), if_neg (by omega), if_neg hq]
        exact h.rounds.reset q hb p
  have howedBy : ∀ t, t ≠ p → s'.owed p t = s.owed p t := by
    intro t ht
    unfold owed
    rw [hre, hre, if_pos rfl, if_neg ht, hctrl, (hpeer p).2.1, hcnt, if_pos rfl, hco]
    rcases (hpeer t).1 with ⟨-, hr⟩ | ⟨-, hr⟩
    · rw [if_neg (by omega), if_pos (by omega), if_neg (by omega), if_neg (by omega), ← hfp,
        h.rounds.given p hin]
    · rw [if_neg (by omega), if_neg (by omega), if_pos (by omega)]
      rfl
  have hrounds : s'.RoundsOk := by
    refine ⟨fun q => ?_, fun q hb r => ?_, fun q hb r => ?_, fun q total hq => ?_, fun q hb => ?_,
      fun q hb t => ?_, fun q => ?_⟩
    · rw [hfe, hre, hcall']
      split
      · next hq => rw [hq, hfp]; rfl
      · exact h.rounds.fences q
    · rw [hcall'] at hb
      by_cases hq : q = p
      · rw [if_pos hq] at hb; exact absurd rfl hb
      · rw [if_neg hq] at hb
        have := h.rounds.left q hb r
        rw [hre, if_neg hq, hre]
        split
        · next hr => rw [hr] at this; omega
        · exact this
    · rw [hfe, hre]
      rw [hcall'] at hb
      split
      · rw [← hfp]; exact hall r
      · next hq => rw [if_neg hq] at hb; exact h.rounds.joined q hb r
    · rw [hfe, hco]
      rw [hcall'] at hq
      split at hq
      · cases hq
      · exact h.rounds.reduced q total hq
    · rw [hfe, hco, hcnt]
      rw [hcall'] at hb
      split
      · next hq => rw [if_pos hq] at hb; cases hb
      · next hq => rw [if_neg hq] at hb; exact h.rounds.given q hb
    · rw [hcnt]
      rw [hcall'] at hb
      split
      · rfl
      · next hq => rw [if_neg hq] at hb; exact h.rounds.reset q hb t
    · rw [(hranks q).1, (hranks q).2, hcall']
      split
      · next hq =>
        rw [hq]
        rcases h.rounds.closed p with hc | hc
        · rw [hcall] at hc; exact absurd hc.1 (by simp [Call.inFence])
        · exact .inr hc
      · exact h.rounds.closed q
  refine ⟨fun q => ?_, fun q t => ?_, hrounds, fun q => ?_, fun q t => ?_, fun q => ?_,
    fun q => ?_⟩
  · rw [hep]
    split
    · exact EpochWin.winFence_ok (h.epoch p) true true
    · exact h.epoch q
  · rw [hcnt]
    split
    · exact Int.le_refl 0
    · exact h.nonneg q t
  · by_cases hq : q = p
    · unfold ReqsOk
      rw [hcall', if_pos hq]
      exact hctrl q
    · refine (h.reqs q).congr (by rw [hcall', if_neg hq]) (fun t => ?_) (by rw [hcnt, if_neg hq])
      rw [hctrl, (hpeer q).2.1]
  · by_cases ht : t = p
    · subst ht
      have hold := (h.fence_pair hcall q).fenceReset ((hpeer q).2.1 t) (hflight q)
      have hexp0 : (s.exposed t).count q = 0 := by
        have hpost : s.posted t = [] := by
          rcases h.rounds.closed t with hc | hc
          · rw [hcall] at hc; exact absurd hc.1 (by simp [Call.inFence])
          · exact hc.1
        rw [exposed_of_not hwaits, hpost, count_nil]
      unfold PairOk
      rw [howedTo, hpair, if_pos rfl, hcnt, if_pos rfl, (hranks q).2, (hexp t).1, hexp0,
        waitsOn_of_not hwaits']
      exact hold
    · refine (h.pairs q t).congr (by rw [hpair, if_neg ht]) ?_ (by rw [hcnt, if_neg ht])
        (by rw [(hranks q).2]) (by rw [(hexp t).1]) ((hexp t).2 q)
      by_cases hq : q = p
      · rw [hq]; exact howedBy t ht
      · unfold owed
        rw [hre, hre, if_neg hq, if_neg ht, hctrl, (hpeer q).2.1, hcnt, if_neg hq, hco]
  · by_cases hq : q = p
    · rw [hq]; exact waitOk_of_not hwaits'
    · refine (h.waiting q).congr (by rw [hcall', if_neg hq]) (by rw [hep, if_neg hq])
        (fun o => ?_) fun o k hk => .inl ?_
      · rw [hpair, if_neg hq]
      · rwa [hpair, if_neg hq] at hk
  · rw [hcnt]
    split
    · next hq =>
      subst hq
      refine (Finset.sum_eq_zero fun o _ => ?_).symm
      have hpo := h.fence_pair hcall o
      have hb := hpo.balance
      have ha : (s.pair o q).announced = 0 := by simp [Pair.announced, hpo.completes_eq_nil]
      rw [hpair, if_pos rfl]
      simp only [Pair.applied, hflight o, length_nil]
      omega
    · next hq =>
      rw [h.received q]
      exact Finset.sum_congr rfl fun o _ => by rw [hpair, if_neg hq]

/-! ## All steps -/

theorem Ok.sendUnlock (h : s.Ok) {rest : List (Fin n)} (hf : (s.call o).free = true)
    (hs : s.sendUnlock o t rest = some s') : s'.Ok := by
  unfold AcctSt.sendUnlock at hs
  split at hs
  · cases hs
    exact h.setCall hf rfl
  · split at hs
    · cases hs
      exact (h.setEpoch hf (EpochWin.winUnlock_ok (h.epoch o) _)
        (EpochWin.winUnlock_ranks (some t))).setCall hf rfl
    · split at hs <;> cases hs
      exact h.request hf (.inr ⟨rest, rfl⟩)

theorem Ok.setLocalPending (h : s.Ok) (k : Nat) : (s.setLocalPending o t k).Ok :=
  ⟨h.epoch, h.nonneg, ⟨h.rounds.fences, h.rounds.left, h.rounds.joined, h.rounds.reduced,
    h.rounds.given, h.rounds.reset, h.rounds.closed⟩, h.reqs, h.pairs,
    fun q => (h.waiting q).congr rfl rfl (fun _ => Nat.le_refl _) fun _ _ hk => .inl hk,
    h.received⟩

theorem Ok.step {shared : Bool} {a : AcctAct n} (h : s.Ok) (hc : s.Calm a)
    (hs : AcctSt.step shared s a = some s') : s'.Ok := by
  cases a with
  | rmaOp o t request =>
    obtain ⟨hg, hs⟩ := ite_none_right_eq_some.1 hs
    have hf : (s.call o).free = true := by rw [hg.1]; rfl
    have hepoch := h.setEpoch hf (EpochWin.trackAccess_ok (h.epoch o) request .success)
      (EpochWin.trackAccess_ranks request .success)
    split at hs <;> cases hs
    · exact hepoch
    · exact hepoch.issueOp hf hc.1 hc.2
  | originDone o t =>
    obtain ⟨-, hs⟩ := ite_none_right_eq_some.1 hs
    cases hs
    exact h.setLocalPending _
  | opArrived o t op =>
    obtain ⟨hg, hs⟩ := ite_none_right_eq_some.1 hs
    cases hs
    exact h.opArrived hg
  | lock o lockType dest =>
    obtain ⟨hg, hs⟩ := ite_none_right_eq_some.1 hs
    cases hs
    exact h.setEpoch (by rw [hg]; rfl) (EpochWin.winLock_ok (h.epoch o) lockType dest)
      (EpochWin.winLock_ranks lockType dest)
  | lockAll o =>
    obtain ⟨hg, hs⟩ := ite_none_right_eq_some.1 hs
    cases hs
    exact h.setEpoch (by rw [hg]; rfl) (EpochWin.winLockAllLoop_ok (h.epoch o))
      (EpochWin.winLockAllLoop_ranks _ _)
  | unlock o dest =>
    obtain ⟨hg, hs⟩ := ite_none_right_eq_some.1 hs
    cases dest with
    | none => cases hs; exact h
    | some dest => exact h.sendUnlock (by rw [hg]; rfl) hs
  | unlockAll o =>
    obtain ⟨hg, hs⟩ := ite_none_right_eq_some.1 hs
    cases hs
    exact h.setCall (by rw [hg]; rfl) rfl
  | unlockNext o =>
    simp only [AcctSt.step] at hs
    split at hs
    · next hg => cases hs; exact h.setCall (by rw [hg]; rfl) rfl
    · next hg =>
      split at hs
      · cases hs; exact h.setCall (by rw [hg]; rfl) rfl
      · exact h.sendUnlock (by rw [hg]; rfl) hs
    · cases hs
  | flush o dest =>
    obtain ⟨hg, hs⟩ := ite_none_right_eq_some.1 hs
    split at hs <;> cases hs
    · exact h
    · exact h.request (by rw [hg.1]; rfl) (.inl rfl)
  | flushAll o =>
    obtain ⟨hg, hs⟩ := ite_none_right_eq_some.1 hs
    cases hs
    exact h.flushAll (by rw [hg.1]; rfl)
  | flushAllDone o =>
    obtain ⟨hg, hs⟩ := ite_none_right_eq_some.1 hs
    cases hs
    exact h.flushAllDone hg
  | ctrlBegin o t =>
    simp only [AcctSt.step] at hs
    split at hs <;> cases hs
    next hg => exact h.ctrlBegin hg hc
  | ctrlEnd o t =>
    simp only [AcctSt.step] at hs
    split at hs
    · next hg =>
      obtain ⟨ha, hs⟩ := ite_none_right_eq_some.1 hs
      cases hs
      exact h.ctrlEnd hg ha
    · cases hs
  | recvAnswer o t =>
    simp only [AcctSt.step] at hs
    split at hs
    · cases hs
    · next hans =>
      have hans := not_not.1 hans
      split at hs
      · next hg =>
        obtain ⟨rfl, hs⟩ := ite_none_right_eq_some.1 hs
        cases hs
        exact h.recvAnswer hans (.inl hg) rfl
      · next rest hg =>
        obtain ⟨rfl, hs⟩ := ite_none_right_eq_some.1 hs
        cases hs
        have hbase := h.recvAnswer (k := .unlockAll rest) hans (.inr ⟨rest, hg⟩) rfl
        exact hbase.setEpoch (by simp [AcctSt.setCall, Call.free])
          (EpochWin.winUnlock_ok (h.epoch o) _) (EpochWin.winUnlock_ranks _)
      · next hg => cases hs; exact h.recvAnswerAll hans hg
      · cases hs
  | post t ranks =>
    obtain ⟨hg, hs⟩ := ite_none_right_eq_some.1 hs
    cases hs
    exact h.post (by rw [hg.1]; rfl) hg.2.1 hg.2.2 rfl
  | start o ranks =>
    obtain ⟨hg, hs⟩ := ite_none_right_eq_some.1 hs
    cases hs
    exact h.start (by rw [hg.1]; rfl) hg.2.1 hg.2.2.1 hg.2.2.2 rfl
  | complete o =>
    obtain ⟨hg, hs⟩ := ite_none_right_eq_some.1 hs
    cases hs
    exact h.complete (by rw [hg.1]; rfl) hg.2.1 rfl
  | wait t =>
    obtain ⟨hg, hs⟩ := ite_none_right_eq_some.1 hs
    cases hs
    exact h.wait (by rw [hg.1]; rfl) hg.2
  | test t =>
    obtain ⟨hg, hs⟩ := ite_none_right_eq_some.1 hs
    cases hs
    exact h.wait (by rw [hg.1]; rfl) hg.2.1
  | recvComplete t =>
    simp only [AcctSt.step] at hs
    split at hs
    · next hg =>
      split at hs
      · next hcs => cases hs; exact h.recvComplete hg hcs rfl
      · cases hs
    · cases hs
  | waitNext t =>
    simp only [AcctSt.step] at hs
    split at hs
    · next hg =>
      obtain ⟨ha, hs⟩ := ite_none_right_eq_some.1 hs
      cases hs
      exact h.waitNext hg ha
    · cases hs
  | waitDone t =>
    simp only [AcctSt.step] at hs
    split at hs <;> cases hs
    next hg => exact h.waitDone hg rfl
  | fence p =>
    obtain ⟨hg, hs⟩ := ite_none_right_eq_some.1 hs
    cases hs
    exact h.fence (by rw [hg.1]; rfl) hg.2 rfl
  | reduceScatter p =>
    obtain ⟨hg, hs⟩ := ite_none_right_eq_some.1 hs
    cases hs
    exact h.reduceScatter hg.1 hg.2
  | fenceReset p =>
    simp only [AcctSt.step] at hs
    split at hs
    · next hg =>
      obtain ⟨ha, hs⟩ := ite_none_right_eq_some.1 hs
      cases hs
      rw [← ha.1] at hg
      exact h.fenceReset hg rfl
    · cases hs
  | barrierLeave p =>
    obtain ⟨hg, hs⟩ := ite_none_right_eq_some.1 hs
    cases hs
    exact h.barrierLeave hg.1 hg.2

instance (s : AcctSt n) (a : AcctAct n) : Decidable (s.Calm a) :=
  match a with
  | .rmaOp o t _ => inferInstanceAs (Decidable
      ((∀ c ∈ (s.pair o t).completes, c.rmaOpCounter = 0) ∧
        ∀ c ∈ s.waitsOn o t, c.rmaOpCounter = 0))
  | .ctrlBegin o t => inferInstanceAs (Decidable
      (∀ c ∈ (s.pair o t).completes, c.rmaOpCounter = 0))
  | .originDone .. | .opArrived .. | .lock .. | .lockAll .. | .unlock .. | .unlockAll ..
  | .unlockNext .. | .flush .. | .flushAll .. | .flushAllDone .. | .ctrlEnd .. | .recvAnswer ..
  | .post .. | .start .. | .complete .. | .wait .. | .test .. | .recvComplete .. | .waitNext ..
  | .waitDone .. | .fence .. | .reduceScatter .. | .fenceReset .. | .barrierLeave .. =>
    inferInstanceAs (Decidable True)

/-! ## What a synchronisation establishes -/

/-- What the end of a synchronisation has waited for, and the counters after it. -/
def Settles (s s' : AcctSt n) : AcctAct n → Prop
  | .ctrlEnd o t =>
    (s.pair o t).flight = [] ∧ (s'.cnt t).rmaSourceRankReceived o = 0 ∧
    (s'.pair o t).accounted = (s.pair o t).issued
  | .waitNext t => ∀ o c rest passed, s.call t = .waitOps o c rest passed →
    (∀ k ∈ (s.pair o t).flight, c.mark ≤ k) ∧ (s'.cnt t).rmaSourceRankReceived o = 0 ∧
    c.mark ≤ (s'.pair o t).accounted
  | .waitDone t => ∃ passed, s.call t = .wait [] passed ∧ passed.map Prod.fst = s.posted t ∧
    ∀ x ∈ passed, ∀ k ∈ (s.pair x.1 t).flight, x.2.mark ≤ k
  | .fenceReset t => ∀ o, (s.pair o t).flight = [] ∧ (s'.cnt t).rmaSourceRankReceived o = 0 ∧
    (s'.pair o t).accounted = (s.pair o t).issued
  | _ => True

/-- The counter of a window is the number of its arrived operations that are not accounted for, and
a fence waits for these and the ones that are still in flight. -/
structure Exact (s : AcctSt n) : Prop where
  received : ∀ t, (s.cnt t).rmaPutsAccsReceived =
    ∑ o, ((s.pair o t).applied - (s.pair o t).accounted)
  total : ∀ t total, s.call t = .fenceWait total →
    total = (s.cnt t).rmaPutsAccsReceived + ∑ o, ((s.pair o t).flight.length : Int)

theorem Ok.exact (h : s.Ok) : s.Exact := ⟨h.received, fun _ _ hcall => h.fenceWait hcall⟩

theorem Ok.settles {shared : Bool} {a : AcctAct n} (h : s.Ok)
    (hs : AcctSt.step shared s a = some s') : Settles s s' a := by
  cases a with
  | ctrlEnd o t =>
    simp only [AcctSt.step] at hs
    split at hs
    · next m hg =>
      obtain ⟨ha, hs⟩ := ite_none_right_eq_some.1 hs
      cases hs
      have hpair := h.pairs o t
      unfold PairOk at hpair
      rw [show (s.cnt t).rmaSourceRankReceived o = 0 from ha] at hpair
      have hb := (hpair.ctrlEnd hg).balance
      have hann := (hpair.handling m hg).2
      refine ⟨hpair.flight_eq_nil hg, ?_, ?_⟩
      · simp only [setPair, setCnt, update_self]
        exact ha
      · simp only [setPair_pair, and_self, if_true]
        simp only [Pair.announced] at hann hb
        omega
    · cases hs
  | waitNext t =>
    intro o c rest passed hcall
    simp only [AcctSt.step, hcall] at hs
    obtain ⟨ha, hs⟩ := ite_none_right_eq_some.1 hs
    cases hs
    have hw : s.waitsOn o t = some c := by rw [waitsOn, hcall]; exact if_pos rfl
    exact ⟨(h.passed hcall ha).2.2, ha, ((h.pairs o t).waits c hw).2.2.1⟩
  | waitDone t =>
    simp only [AcctSt.step] at hs
    split at hs <;> cases hs
    next passed hcall =>
    have hw : s.WaitsFor t [] passed := by
      have := h.waiting t
      unfold WaitOk at this
      rwa [hcall] at this
    refine ⟨passed, hcall, ?_, fun x hx => (hw.done x hx).2⟩
    rw [hw.ranks, append_nil]
  | fenceReset t =>
    simp only [AcctSt.step] at hs
    split at hs
    · next hcall =>
      obtain ⟨ha, hs⟩ := ite_none_right_eq_some.1 hs
      cases hs
      rw [← ha.1] at hcall
      intro o
      have hpair := h.fence_pair hcall o
      have hb := hpair.balance
      have hann : (s.pair o t).announced = 0 := by simp [Pair.announced, hpair.completes_eq_nil]
      refine ⟨h.fence_flight hcall o, ?_, ?_⟩
      · simp [AcctSt.setCall, resetWin, AcctSt.setEpoch, mapTarget, setCnt, OpCount.fenceReset,
          OpCount.init]
      · rw [setCall_pair, resetWin, setCnt_pair, mapTarget_pair, if_pos rfl,
          (h.fence_peer hcall o).2.2]
        show (s.pair o t).accounted + s.owed o t = (s.pair o t).issued
        omega
    · cases hs
  | _ => trivial

end AcctSt

section
variable {n : Nat} {shared : Bool}

theorem acctSys_ok {s : AcctSt n} (h : (acctSys n shared).ReachWhen AcctSt.Calm s) : s.Ok :=
  h.inv AcctSt.Ok.init fun _ hi hc hs => hi.step hc hs

/-- **The accounting of operations is exact.** In every run of the processes of a window in which
no operation is issued and no flush or unlock request is handled while a COMPLETE message of the
same origin with operations waits for `MPID_Win_wait`, every flush and unlock is answered, and every
wait and fence returns, only after the operations issued before it have been applied, the source
counter is zero then, and the window's counter is what later fences rely on. -/
theorem rma_accounting_exact (as : List (AcctAct n)) (hc : (acctSys n shared).Along AcctSt.Calm as) :
    (acctSys n shared).AlongStates AcctSt.Exact as ∧
    (acctSys n shared).Along
      (fun s a => ∀ s', AcctSt.step shared s a = some s' → AcctSt.Settles s s' a) as := by
  refine ⟨Sys.alongStates_of_reachWhen (fun hr => (acctSys_ok hr).exact) hc, ?_⟩
  intro pre a s hpre he s' hs
  have hok : (acctSys n shared).AlongStates AcctSt.Ok as :=
    Sys.alongStates_of_reachWhen acctSys_ok hc
  exact (hok pre s ((prefix_append pre [a]).trans hpre) he).settles hs

/-- Rank 1 exposes its window to rank 0, which puts and completes; after the wait rank 0 locks
rank 1, puts again and flushes, and a fence of all follows the unlock. -/
def epochsRun : List (AcctAct 2) :=
  [.post 1 [0], .start 0 [1], .rmaOp 0 1 false, .originDone 0 1, .complete 0, .wait 1,
    .recvComplete 1, .opArrived 0 1 0, .waitNext 1, .waitDone 1, .lock 0 .shared (some 1),
    .rmaOp 0 1 false, .originDone 0 1, .flush 0 1, .ctrlBegin 0 1, .opArrived 0 1 1, .ctrlEnd 0 1,
    .recvAnswer 0 1, .unlock 0 (some 1), .ctrlBegin 0 1, .ctrlEnd 0 1, .recvAnswer 0 1,
    .unlockNext 0, .fence 0, .fence 1, .reduceScatter 1, .fenceReset 1]

theorem rma_accounting_exact_epochs :
    (acctSys 2 false).Along AcctSt.Calm epochsRun ∧
    (acctSys 2 false).Along
      (fun s a => ∀ s', AcctSt.step false s a = some s' → AcctSt.Settles s s' a) epochsRun := by
  have hrun : (((acctSys 2 false).checked AcctSt.Calm).exec .init epochsRun).map (·.resets 1) =
      some 1 := by decide
  obtain ⟨s, hs, -⟩ := map_eq_some_iff.1 hrun
  have hc := (Sys.checked_along (M := acctSys 2 false) hs).2
  exact ⟨hc, (rma_accounting_exact epochsRun hc).2⟩

/-- Rank 0 has completed its access epoch at rank 1, which is not in its wait yet, locks rank 2 and
flushes all ranks: the flush request announces nothing to rank 1, which answers it at once. -/
def flushAllRun : List (AcctAct 3) :=
  [.post 1 [0], .start 0 [1], .rmaOp 0 1 false, .originDone 0 1, .complete 0,
    .lock 0 .shared (some 2), .flushAll 0, .ctrlBegin 0 1]

theorem rma_flush_all_answered_early :
    ¬ ∀ as : List (AcctAct 3), (acctSys 3 false).Along
      (fun s a => ∀ s', AcctSt.step false s a = some s' → AcctSt.Settles s s' a) as := by
  intro h
  have hrun : ((acctSys 3 false).exec .init flushAllRun).map (fun s =>
      ((s.pair 0 1).flight, (AcctSt.step false s (.ctrlEnd 0 1)).isSome)) =
        some ([0], true) := by decide
  obtain ⟨s, hs, heq⟩ := map_eq_some_iff.1 hrun
  obtain ⟨hf, hsome⟩ := Prod.mk.inj heq
  obtain ⟨s', hs'⟩ := isSome_iff_exists.1 hsome
  have hset := h (flushAllRun ++ [AcctAct.ctrlEnd 0 1]) flushAllRun _ s (prefix_refl _) hs s' hs'
  rw [hset.1] at hf
  cases hf

end

end PsMpi.Rma
