import PsMpi.Rma.AccountPair
import PsMpi.Rma.EpochOk
import Mathlib.Algebra.Order.BigOperators.Group.Finset
import Mathlib.Algebra.BigOperators.Ring.Finset

/-!
# The operation counters over all runs
-/

open PsMpi.Lib List Function

namespace PsMpi.Rma

def Call.inFence {n : Nat} : Call n → Bool
  | .fence | .fenceWait _ => true
  | _ => false

def Call.plain {n : Nat} (c : Call n) : Prop := c.inFence = false ∧ c ≠ .barrier

/-- The process is in no call, or between two ranks of `MPID_Win_unlock_all`. -/
def Call.free {n : Nat} : Call n → Bool
  | .none | .unlockAll _ => true
  | _ => false

def Call.waits {n : Nat} : Call n → Bool
  | .wait _ _ | .waitOps _ _ _ _ => true
  | _ => false

theorem Call.free_cases {n : Nat} {c : Call n} (h : c.free = true) :
    c = .none ∨ ∃ rest, c = .unlockAll rest := by
  cases c <;> simp_all [Call.free]

theorem Call.waits_of_free {n : Nat} {c : Call n} (h : c.free = true) : c.waits = false := by
  rcases Call.free_cases h with rfl | ⟨rest, rfl⟩ <;> rfl

theorem Call.plain_of_free {n : Nat} {c : Call n} (h : c.free = true) : c.plain := by
  rcases Call.free_cases h with rfl | ⟨rest, rfl⟩ <;> simp [Call.plain, Call.inFence]

theorem loadRanks_storeRanks {n : Nat} (ranks : List (Fin n)) :
    loadRanks (some (storeRanks ranks)) = ranks := by
  simp [loadRanks, storeRanks, filterMap_map]

/-! ## The rank lists of an epoch -/

namespace EpochWin

variable {n : Nat} {w : EpochWin n}

theorem winPost_success {ranks : List Int} (h : (winPost ranks w).1 = .success) :
    (w.epochState = .none ∨ w.epochState = .fenceIssued ∨ w.epochState = .start) ∧
    (winPost ranks w).2.ranksPost = some ranks ∧
    (winPost ranks w).2.ranksStart = w.ranksStart := by
  unfold winPost at h ⊢
  split at h
  · cases h
  · next hs => rw [if_neg hs]; exact ⟨by tauto, rfl, rfl⟩

theorem winStart_success {ranks : List Int} (h : (winStart ranks w).1 = .success) :
    (w.epochState = .none ∨ w.epochState = .fenceIssued ∨ w.epochState = .post) ∧
    (winStart ranks w).2.ranksStart = some ranks ∧
    (winStart ranks w).2.ranksPost = w.ranksPost := by
  unfold winStart at h ⊢
  split at h
  · cases h
  · next hs => rw [if_neg hs]; exact ⟨by tauto, rfl, rfl⟩

theorem winComplete_success (h : (winComplete w).1 = .success) :
    (winComplete w).2.ranksStart = Option.none ∧
    (winComplete w).2.ranksPost = w.ranksPost := by
  unfold winComplete at h ⊢
  split at h
  · cases h
  · next hs => rw [if_neg hs]; exact ⟨rfl, rfl⟩

theorem winFence_success (h : (winFence true true w).1 = .success) :
    (w.epochState = .none ∨ w.epochState = .fence ∨ w.epochState = .fenceIssued) := by
  unfold winFence at h
  split at h
  · cases h
  · tauto

def SameRanks (w w' : EpochWin n) : Prop :=
  w'.ranksPost = w.ranksPost ∧ w'.ranksStart = w.ranksStart

theorem winFence_ranks (r b : Bool) : SameRanks w (winFence r b w).2 := by
  unfold winFence
  split
  · exact ⟨rfl, rfl⟩
  · split <;> exact ⟨rfl, rfl⟩

theorem trackAccess_ranks (request : Bool) (rest : Errno) :
    SameRanks w (trackAccess request rest w).2 := by
  unfold trackAccess
  split
  · exact ⟨rfl, rfl⟩
  · split
    · exact ⟨rfl, rfl⟩
    · dsimp only
      split <;> exact ⟨rfl, rfl⟩

theorem winLock_ranks (lockType : LockType) (dest : Option (Fin n)) :
    SameRanks w (winLock lockType dest w).2 := by
  unfold winLock
  split
  · exact ⟨rfl, rfl⟩
  · split_ifs <;> exact ⟨rfl, rfl⟩

theorem winUnlock_ranks (dest : Option (Fin n)) : SameRanks w (winUnlock dest w).2 := by
  unfold winUnlock
  split
  · exact ⟨rfl, rfl⟩
  · split_ifs <;> exact ⟨rfl, rfl⟩

theorem winLockAllLoop_ranks (is : List (Fin n)) (w : EpochWin n) :
    SameRanks w (winLockAllLoop is w).2 := by
  induction is generalizing w with
  | nil => exact ⟨rfl, rfl⟩
  | cons i is ih =>
    unfold winLockAllLoop
    have hl := winLock_ranks (w := w) .shared (some i)
    split_ifs
    · exact ⟨rfl, rfl⟩
    · split
      · next w' heq =>
        rw [heq] at hl
        have hr := ih (w'.setLockState i .lockedAll)
        exact ⟨hr.1.trans hl.1, hr.2.trans hl.2⟩
      · next heq => rw [heq] at hl; exact hl

end EpochWin

namespace AcctSt

variable {n : Nat}

/-- The operations of `o` that are not announced by a COMPLETE message and that `t` has not
accounted for. -/
def owed (s : AcctSt n) (o t : Fin n) : Int :=
  if s.resets o < s.resets t then 0
  else if s.resets t < s.resets o then s.contrib o (s.resets o) t
  else
    match (s.pair o t).ctrl with
    | .idle => (s.cnt o).rmaPutsAccs t
    | .requested rmaOpCounter | .handling rmaOpCounter => rmaOpCounter
    | .answered | .flushed => 0

/-- The ranks whose COMPLETE message a process has not received in its exposure epoch. -/
def exposed (s : AcctSt n) (t : Fin n) : List (Fin n) :=
  match s.call t with
  | .wait rest _ | .waitOps _ _ rest _ => rest
  | _ => s.posted t

def waitsOn (s : AcctSt n) (o t : Fin n) : Option Complete :=
  match s.call t with
  | .waitOps rank c _ _ => if rank = o then some c else Option.none
  | _ => Option.none

def PairOk (s : AcctSt n) (o t : Fin n) : Prop :=
  (s.pair o t).Ok (s.owed o t) ((s.cnt t).rmaSourceRankReceived o) ((s.started o).count t)
    ((s.exposed t).count o) (s.waitsOn o t)

structure RoundsOk (s : AcctSt n) : Prop where
  fences : ∀ p, s.fences p = s.resets p + if (s.call p).inFence then 1 else 0
  left : ∀ p, s.call p ≠ .barrier → ∀ q, s.resets p ≤ s.resets q
  joined : ∀ p, s.call p = .barrier → ∀ q, s.resets p ≤ s.fences q
  reduced : ∀ p total, s.call p = .fenceWait total → (∀ q, s.fences p ≤ s.fences q) ∧
    total = ∑ q, s.contrib q (s.fences p) p
  given : ∀ p, (s.call p).inFence = true → s.contrib p (s.fences p) = (s.cnt p).rmaPutsAccs
  reset : ∀ p, s.call p = .barrier → ∀ t, (s.cnt p).rmaPutsAccs t = 0
  closed : ∀ p, (s.call p).plain ∨ (s.posted p = [] ∧ s.started p = [])

def ReqsOk (s : AcctSt n) (o : Fin n) : Prop :=
  match s.call o with
  | .unlock dest _ | .flush dest =>
    (s.pair o dest).ctrl.pending = true ∧ ∀ t, t ≠ dest → (s.pair o t).ctrl = .idle
  | .flushAll rest =>
    o ∉ rest ∧ (s.pair o o).ctrl = .idle ∧ (∀ t, t ≠ o → (s.pair o t).ctrl ≠ .idle) ∧
    (∀ t, t ≠ o → t ∉ rest → (s.cnt o).rmaPutsAccs t = 0) ∧
    (Finset.univ.filter fun t => (s.pair o t).ctrl.pending = true).card = rest.length
  | _ => ∀ t, (s.pair o t).ctrl = .idle

def Passed (s : AcctSt n) (t : Fin n) (x : Fin n × Complete) : Prop :=
  x.2.mark ≤ (s.pair x.1 t).issued ∧ ∀ k ∈ (s.pair x.1 t).flight, x.2.mark ≤ k

/-- The ranks of the exposure epoch, split into those that a wait is done with and the others, and
the operations of the former. -/
structure WaitsFor (s : AcctSt n) (t : Fin n) (rest : List (Fin n))
    (passed : List (Fin n × Complete)) : Prop where
  epoch : (EpochWin.winWait (s.epoch t)).1 = .success
  ranks : s.posted t = passed.map Prod.fst ++ rest
  done : ∀ x ∈ passed, s.Passed t x

def WaitOk (s : AcctSt n) (t : Fin n) : Prop :=
  match s.call t with
  | .wait rest passed => s.WaitsFor t rest passed
  | .waitOps rank _ rest passed => s.WaitsFor t (rank :: rest) passed
  | _ => True

structure Ok (s : AcctSt n) : Prop where
  epoch : ∀ p, (s.epoch p).Ok
  nonneg : ∀ o t, 0 ≤ (s.cnt o).rmaPutsAccs t
  rounds : s.RoundsOk
  reqs : ∀ o, s.ReqsOk o
  pairs : ∀ o t, s.PairOk o t
  waiting : ∀ t, s.WaitOk t
  received : ∀ t, (s.cnt t).rmaPutsAccsReceived =
    ∑ o, ((s.pair o t).applied - (s.pair o t).accounted)

/-- No COMPLETE message of the origin that announces operations waits for `MPID_Win_wait` when the
origin issues an operation to the target or its request is handled there. -/
def Calm (s : AcctSt n) : AcctAct n → Prop
  | .rmaOp o t _ => (∀ c ∈ (s.pair o t).completes, c.rmaOpCounter = 0) ∧
    ∀ c ∈ s.waitsOn o t, c.rmaOpCounter = 0
  | .ctrlBegin o t => ∀ c ∈ (s.pair o t).completes, c.rmaOpCounter = 0
  | _ => True

variable {s s' : AcctSt n} {o p t : Fin n}

theorem Ok.init : (init : AcctSt n).Ok where
  epoch _ := EpochWin.init_ok
  nonneg _ _ := Int.le_refl 0
  rounds := by
    constructor <;> simp [AcctSt.init, Call.inFence, Call.plain, OpCount.init]
  reqs o t := rfl
  pairs o t := Pair.Ok.init
  waiting t := trivial
  received t := by simp [AcctSt.init, OpCount.init, Pair.applied]

/-! ## What a step leaves alone -/

theorem Ok.posted_eq_nil (h : s.Ok) (hs : (s.epoch p).epochState ≠ .post)
    (hs' : (s.epoch p).epochState ≠ .pscw) : s.posted p = [] := by
  have hp := mt (h.epoch p).post.1 (not_or.2 ⟨hs, hs'⟩)
  rw [posted, Option.not_isSome_iff_eq_none.1 hp]
  rfl

theorem Ok.started_eq_nil (h : s.Ok) (hs : (s.epoch p).epochState ≠ .start)
    (hs' : (s.epoch p).epochState ≠ .pscw) : s.started p = [] := by
  have hp := mt (h.epoch p).start.1 (not_or.2 ⟨hs, hs'⟩)
  rw [started, Option.not_isSome_iff_eq_none.1 hp]
  rfl

theorem RoundsOk.frame (h : s.RoundsOk) (hf : s'.fences = s.fences) (hr : s'.resets = s.resets)
    (hc : s'.contrib = s.contrib)
    (hq : ∀ q, (s'.call q = s.call q ∧ s'.epoch q = s.epoch q ∧
      (s'.cnt q).rmaPutsAccs = (s.cnt q).rmaPutsAccs) ∨ (s.call q).plain ∧ (s'.call q).plain) :
    s'.RoundsOk where
  fences q := by
    rw [hf, hr, h.fences q]
    rcases hq q with ⟨h1, -, -⟩ | ⟨h1, h2⟩
    · rw [h1]
    · rw [h1.1, h2.1]
  left q hb r := by
    rw [hr]
    rcases hq q with ⟨h1, -, -⟩ | ⟨h1, -⟩
    · exact h.left q (h1 ▸ hb) r
    · exact h.left q h1.2 r
  joined q hb r := by
    rw [hr, hf]
    rcases hq q with ⟨h1, -, -⟩ | ⟨-, h2⟩
    · exact h.joined q (h1 ▸ hb) r
    · exact absurd hb h2.2
  reduced q total hb := by
    rw [hf, hc]
    rcases hq q with ⟨h1, -, -⟩ | ⟨-, h2⟩
    · exact h.reduced q total (h1 ▸ hb)
    · rw [hb] at h2
      exact absurd h2.1 (by simp [Call.inFence])
  given q hb := by
    rw [hf, hc]
    rcases hq q with ⟨h1, -, h3⟩ | ⟨-, h2⟩
    · rw [h3]; exact h.given q (h1 ▸ hb)
    · rw [h2.1] at hb; cases hb
  reset q hb t := by
    rcases hq q with ⟨h1, -, h3⟩ | ⟨-, h2⟩
    · rw [h3]; exact h.reset q (h1 ▸ hb) t
    · exact absurd hb h2.2
  closed q := by
    rcases hq q with ⟨h1, h2, -⟩ | ⟨-, h2⟩
    · have := h.closed q
      simp only [posted, started, h1, h2] at this ⊢
      exact this
    · exact .inl h2

theorem RoundsOk.resets_eq (h : s.RoundsOk) (hp : (s.call p).plain) (q : Fin n) :
    s.resets p = s.resets q := by
  refine Nat.le_antisymm (h.left p hp.2 q) ?_
  by_cases hb : s.call q = .barrier
  · have h1 := h.joined q hb p
    have h2 := h.fences p
    rw [hp.1] at h2
    simp only [Bool.false_eq_true, if_false] at h2
    omega
  · exact h.left q hb p

theorem owed_eq (h : s.RoundsOk) (hp : (s.call o).plain) (t : Fin n) :
    s.owed o t = match (s.pair o t).ctrl with
      | .idle => (s.cnt o).rmaPutsAccs t
      | .requested rmaOpCounter | .handling rmaOpCounter => rmaOpCounter
      | .answered | .flushed => 0 := by
  have := h.resets_eq hp t
  simp [owed, this]

theorem setCall_pair (s : AcctSt n) (p : Fin n) (c : Call n) : (s.setCall p c).pair = s.pair := rfl

theorem setCnt_pair (s : AcctSt n) (p : Fin n) (c : OpCount (Fin n)) :
    (s.setCnt p c).pair = s.pair := rfl

@[simp] theorem setPair_pair (s : AcctSt n) (o t o' t' : Fin n) (x : Pair) :
    (s.setPair o t x).pair o' t' = if o' = o ∧ t' = t then x else s.pair o' t' := by
  by_cases ho : o' = o
  · subst ho
    by_cases ht : t' = t
    · subst ht; simp [setPair]
    · simp [setPair, ht]
  · simp [setPair, ho]

@[simp] theorem mapOrigin_pair (s : AcctSt n) (o o' t' : Fin n) (f : Fin n → Pair → Pair) :
    (s.mapOrigin o f).pair o' t' = if o' = o then f t' (s.pair o' t') else s.pair o' t' := by
  by_cases ho : o' = o
  · subst ho; simp [mapOrigin]
  · simp [mapOrigin, ho]

@[simp] theorem mapTarget_pair (s : AcctSt n) (t o' t' : Fin n) (f : Fin n → Pair → Pair) :
    (s.mapTarget t f).pair o' t' = if t' = t then f o' (s.pair o' t') else s.pair o' t' := by
  by_cases ht : t' = t
  · subst ht; simp [mapTarget]
  · simp [mapTarget, ht]

theorem PairOk.congr (h : s.PairOk o t) (hp : s'.pair o t = s.pair o t)
    (ho : s'.owed o t = s.owed o t)
    (hs : (s'.cnt t).rmaSourceRankReceived o = (s.cnt t).rmaSourceRankReceived o)
    (ha : (s'.started o).count t = (s.started o).count t)
    (he : (s'.exposed t).count o = (s.exposed t).count o)
    (hw : s'.waitsOn o t = s.waitsOn o t) : s'.PairOk o t := by
  unfold PairOk
  rw [hp, ho, hs, ha, he, hw]
  exact h

theorem owed_congr (hr : s'.resets = s.resets) (hc : s'.contrib = s.contrib)
    (hp : (s'.pair o t).ctrl = (s.pair o t).ctrl)
    (ha : (s'.cnt o).rmaPutsAccs t = (s.cnt o).rmaPutsAccs t) : s'.owed o t = s.owed o t := by
  unfold owed
  rw [hr, hc, hp, ha]

theorem ReqsOk.progress (h : s.ReqsOk o) (hcall : s'.call o = s.call o)
    (hpend : ∀ t, (s'.pair o t).ctrl.pending = (s.pair o t).ctrl.pending)
    (hidle : ∀ t, (s'.pair o t).ctrl = .idle ↔ (s.pair o t).ctrl = .idle)
    (ha : (s'.cnt o).rmaPutsAccs = (s.cnt o).rmaPutsAccs) : s'.ReqsOk o := by
  unfold ReqsOk at h ⊢
  simp only [hcall, hpend, ne_eq, hidle, ha]
  exact h

theorem ReqsOk.congr (h : s.ReqsOk o) (hcall : s'.call o = s.call o)
    (hctrl : ∀ t, (s'.pair o t).ctrl = (s.pair o t).ctrl)
    (ha : (s'.cnt o).rmaPutsAccs = (s.cnt o).rmaPutsAccs) : s'.ReqsOk o :=
  h.progress hcall (fun t => by rw [hctrl]) (fun t => by rw [hctrl]) ha

theorem ReqsOk.plain (h : s.ReqsOk o) (hne : (s.pair o t).ctrl ≠ .idle) : (s.call o).plain := by
  by_contra hc
  unfold ReqsOk at h
  cases hcall : s.call o <;> simp_all [Call.plain, Call.inFence]

theorem ReqsOk.idle (h : s.ReqsOk o) (hf : (s.call o).free = true ∨ ¬ (s.call o).plain) (t : Fin n) :
    (s.pair o t).ctrl = .idle := by
  unfold ReqsOk at h
  cases hc : s.call o <;> simp_all [Call.free, Call.plain, Call.inFence]

theorem reqsOk_of_free (hf : (s.call o).free = true) (h : ∀ t, (s.pair o t).ctrl = .idle) :
    s.ReqsOk o := by
  unfold ReqsOk
  rcases Call.free_cases hf with hc | ⟨rest, hc⟩ <;> simpa only [hc] using h

theorem Passed.mono {x : Fin n × Complete} (h : s.Passed t x)
    (hi : (s.pair x.1 t).issued ≤ (s'.pair x.1 t).issued)
    (hf : ∀ k ∈ (s'.pair x.1 t).flight, k ∈ (s.pair x.1 t).flight ∨ (s.pair x.1 t).issued ≤ k) :
    s'.Passed t x := by
  refine ⟨Nat.le_trans h.1 hi, fun k hk => ?_⟩
  rcases hf k hk with hk | hk
  · exact h.2 k hk
  · exact Nat.le_trans h.1 hk

theorem WaitsFor.mono {rest : List (Fin n)} {passed : List (Fin n × Complete)}
    (h : s.WaitsFor t rest passed) (hep : s'.epoch t = s.epoch t)
    (hi : ∀ o, (s.pair o t).issued ≤ (s'.pair o t).issued)
    (hf : ∀ o, ∀ k ∈ (s'.pair o t).flight, k ∈ (s.pair o t).flight ∨ (s.pair o t).issued ≤ k) :
    s'.WaitsFor t rest passed where
  epoch := by rw [hep]; exact h.epoch
  ranks := by rw [posted, hep]; exact h.ranks
  done x hx := (h.done x hx).mono (hi _) (hf _)

theorem WaitOk.congr (h : s.WaitOk t) (hcall : s'.call t = s.call t)
    (hep : s'.epoch t = s.epoch t)
    (hi : ∀ o, (s.pair o t).issued ≤ (s'.pair o t).issued)
    (hf : ∀ o, ∀ k ∈ (s'.pair o t).flight, k ∈ (s.pair o t).flight ∨ (s.pair o t).issued ≤ k) :
    s'.WaitOk t := by
  unfold WaitOk at h ⊢
  rw [hcall]
  split at h
  · exact h.mono hep hi hf
  · exact h.mono hep hi hf
  · trivial

theorem waitOk_of_not (hf : (s.call t).waits = false) : s.WaitOk t := by
  unfold WaitOk
  cases hc : s.call t <;> simp_all [Call.waits]

theorem exposed_of_not (hf : (s.call t).waits = false) : s.exposed t = s.posted t := by
  unfold exposed
  cases hc : s.call t <;> simp_all [Call.waits]

theorem waitsOn_of_not (hf : (s.call t).waits = false) : s.waitsOn o t = Option.none := by
  unfold waitsOn
  cases hc : s.call t <;> simp_all [Call.waits]

theorem posted_congr {w : EpochWin n} (hep : ∀ q, s'.epoch q = if q = p then w else s.epoch q)
    (hw : w.ranksPost = (s.epoch p).ranksPost) (q : Fin n) : s'.posted q = s.posted q := by
  unfold posted
  rw [hep]
  split
  · next hq => rw [hq, hw]
  · rfl

theorem started_congr {w : EpochWin n} (hep : ∀ q, s'.epoch q = if q = p then w else s.epoch q)
    (hw : w.ranksStart = (s.epoch p).ranksStart) (q : Fin n) : s'.started q = s.started q := by
  unfold started
  rw [hep]
  split
  · next hq => rw [hq, hw]
  · rfl

/-- A call that waits for no process takes the place of another one. -/
theorem waits_congr (hw : (s.call p).waits = false) (hw' : (s'.call p).waits = false)
    (hcall : ∀ q, q ≠ p → s'.call q = s.call q) (hpost : ∀ q, s'.posted q = s.posted q)
    (q : Fin n) : s'.exposed q = s.exposed q ∧ ∀ o, s'.waitsOn o q = s.waitsOn o q := by
  by_cases hq : q = p
  · subst hq
    rw [exposed_of_not hw, exposed_of_not hw', hpost]
    exact ⟨rfl, fun o => by rw [waitsOn_of_not hw, waitsOn_of_not hw']⟩
  · unfold exposed waitsOn
    rw [hcall q hq, hpost]
    exact ⟨rfl, fun _ => rfl⟩

/-! ## Calls that only change the epoch -/

theorem Ok.setEpoch (h : s.Ok) {w : EpochWin n} (hp : (s.call p).free = true) (hw : w.Ok)
    (hr : EpochWin.SameRanks (s.epoch p) w) : (s.setEpoch p w).Ok := by
  obtain ⟨h1, h2⟩ := hr
  have hep : ∀ q, (s.setEpoch p w).epoch q = if q = p then w else s.epoch q := fun q => by
    simp only [AcctSt.setEpoch, update_apply]
  have hpost := posted_congr hep h1
  have hstart := started_congr hep h2
  have hexp : ∀ q, (s.setEpoch p w).exposed q = s.exposed q := by
    intro q
    unfold exposed
    rw [hpost]
    rfl
  refine ⟨fun q => ?_, h.nonneg, ?_, fun q => ?_, fun o t => ?_, fun q => ?_, h.received⟩
  · by_cases hq : q = p
    · subst hq; simpa [AcctSt.setEpoch] using hw
    · simpa [AcctSt.setEpoch, hq] using h.epoch q
  · refine h.rounds.frame rfl rfl rfl fun q => ?_
    by_cases hq : q = p
    · subst hq; exact .inr ⟨Call.plain_of_free hp, Call.plain_of_free hp⟩
    · exact .inl ⟨rfl, by simp [AcctSt.setEpoch, hq], rfl⟩
  · exact (h.reqs q).congr rfl (fun _ => rfl) rfl
  · exact (h.pairs o t).congr rfl rfl rfl (by rw [hstart]) (by rw [hexp]) rfl
  · by_cases hq : q = p
    · subst hq; exact waitOk_of_not (Call.waits_of_free hp)
    · exact (h.waiting q).congr rfl (by simp [AcctSt.setEpoch, hq]) (fun _ => Nat.le_refl _)
        fun _ _ hk => .inl hk

theorem Ok.setCall (h : s.Ok) {c : Call n} (hp : (s.call p).free = true) (hc : c.free = true) :
    (s.setCall p c).Ok := by
  have hcall : ∀ q, (s.setCall p c).call q = s.call q ∨
      ((s.call q).free = true ∧ ((s.setCall p c).call q).free = true) := by
    intro q
    by_cases hq : q = p
    · subst hq; exact .inr ⟨hp, by simpa [AcctSt.setCall] using hc⟩
    · exact .inl (by simp [AcctSt.setCall, hq])
  refine ⟨h.epoch, h.nonneg, ?_, fun q => ?_, fun o t => ?_, fun q => ?_, h.received⟩
  · refine h.rounds.frame rfl rfl rfl fun q => ?_
    rcases hcall q with hq | ⟨h1, h2⟩
    · exact .inl ⟨hq, rfl, rfl⟩
    · exact .inr ⟨Call.plain_of_free h1, Call.plain_of_free h2⟩
  · rcases hcall q with hq | ⟨h1, h2⟩
    · exact (h.reqs q).congr hq (fun _ => rfl) rfl
    · exact reqsOk_of_free h2 ((h.reqs q).idle (.inl h1))
  · rcases hcall t with hq | ⟨h1, h2⟩
    · exact (h.pairs o t).congr rfl rfl rfl rfl (by unfold exposed; rw [hq]; rfl)
        (by unfold waitsOn; rw [hq])
    · have h1 := Call.waits_of_free h1
      have h2 := Call.waits_of_free h2
      refine (h.pairs o t).congr rfl rfl rfl rfl ?_ ?_
      · rw [exposed_of_not h1, exposed_of_not h2]; rfl
      · rw [waitsOn_of_not h1, waitsOn_of_not h2]
  · rcases hcall q with hq | ⟨h1, h2⟩
    · exact (h.waiting q).congr hq rfl (fun _ => Nat.le_refl _) fun _ _ hk => .inl hk
    · exact waitOk_of_not (Call.waits_of_free h2)

/-! ## Events of one pair -/

/-- A step that changes one pair and its counters, with `received` following the pair. -/
structure Touches (o t : Fin n) (s s' : AcctSt n) : Prop where
  fences : s'.fences = s.fences
  resets : s'.resets = s.resets
  contrib : s'.contrib = s.contrib
  epoch : s'.epoch = s.epoch
  pair : ∀ o' t', ¬ (o' = o ∧ t' = t) → s'.pair o' t' = s.pair o' t'
  accs : ∀ o' t', ¬ (o' = o ∧ t' = t) → (s'.cnt o').rmaPutsAccs t' = (s.cnt o').rmaPutsAccs t'
  nonneg : 0 ≤ (s'.cnt o).rmaPutsAccs t
  source : ∀ o' t', ¬ (o' = o ∧ t' = t) →
    (s'.cnt t').rmaSourceRankReceived o' = (s.cnt t').rmaSourceRankReceived o'
  received : ∀ t', (s'.cnt t').rmaPutsAccsReceived = (s.cnt t').rmaPutsAccsReceived +
    if t' = t then ((s'.pair o t).applied - (s'.pair o t).accounted) -
      ((s.pair o t).applied - (s.pair o t).accounted) else 0

theorem Ok.touch (h : s.Ok) (hs : Touches o t s s') (hrounds : s'.RoundsOk)
    (hreqs : ∀ q, s'.ReqsOk q) (hpair : s'.PairOk o t) (hwait : ∀ q, s'.WaitOk q)
    (hexp : ∀ o' t', ¬ (o' = o ∧ t' = t) → (s'.exposed t').count o' = (s.exposed t').count o' ∧
      s'.waitsOn o' t' = s.waitsOn o' t') : s'.Ok where
  epoch q := by rw [hs.epoch]; exact h.epoch q
  nonneg o' t' := by
    by_cases hq : o' = o ∧ t' = t
    · rw [hq.1, hq.2]; exact hs.nonneg
    · rw [hs.accs o' t' hq]; exact h.nonneg o' t'
  rounds := hrounds
  reqs := hreqs
  pairs o' t' := by
    by_cases hq : o' = o ∧ t' = t
    · rw [hq.1, hq.2]; exact hpair
    · refine (h.pairs o' t').congr (hs.pair o' t' hq) ?_ (hs.source o' t' hq) ?_ (hexp o' t' hq).1
        (hexp o' t' hq).2
      · exact owed_congr hs.resets hs.contrib (by rw [hs.pair o' t' hq]) (hs.accs o' t' hq)
      · simp only [started, hs.epoch]
  waiting := hwait
  received q := by
    rw [hs.received q, h.received q]
    by_cases hq : q = t
    · subst hq
      rw [if_pos rfl, ← Finset.add_sum_erase _ _ (Finset.mem_univ o),
        ← Finset.add_sum_erase _ (fun o' => (s'.pair o' q).applied - (s'.pair o' q).accounted)
          (Finset.mem_univ o)]
      have : ∀ o' ∈ Finset.univ.erase o, (s'.pair o' q).applied - (s'.pair o' q).accounted =
          (s.pair o' q).applied - (s.pair o' q).accounted := fun o' ho' => by
        rw [hs.pair o' q fun hc => Finset.ne_of_mem_erase ho' hc.1]
      rw [Finset.sum_congr rfl this]
      omega
    · rw [if_neg hq, Int.add_zero]
      exact Finset.sum_congr rfl fun o' _ => by rw [hs.pair o' q fun hc => hq hc.2]

theorem Ok.touch_call (h : s.Ok) (hs : Touches o t s s') (hcall : s'.call = s.call)
    (hrounds : s'.RoundsOk) (hreqs : ∀ q, s'.ReqsOk q) (hpair : s'.PairOk o t)
    (hi : (s.pair o t).issued ≤ (s'.pair o t).issued)
    (hf : ∀ k ∈ (s'.pair o t).flight, k ∈ (s.pair o t).flight ∨ (s.pair o t).issued ≤ k) :
    s'.Ok := by
  have hpost : ∀ q, s'.posted q = s.posted q := fun q => by simp only [posted, hs.epoch]
  refine h.touch hs hrounds hreqs hpair (fun q => ?_) fun o' t' _ => ⟨?_, ?_⟩
  · refine (h.waiting q).congr (by rw [hcall]) (by rw [hs.epoch]) (fun o' => ?_)
      fun o' k hk => ?_
    · by_cases hq : o' = o ∧ q = t
      · rw [hq.1, hq.2]; exact hi
      · rw [hs.pair o' q hq]
    · by_cases hq : o' = o ∧ q = t
      · rw [hq.1, hq.2] at hk ⊢; exact hf k hk
      · rw [hs.pair o' q hq] at hk; exact .inl hk
  · unfold exposed; rw [hcall, hpost]
  · unfold waitsOn; rw [hcall]

theorem Ok.owed_of_free (h : s.Ok) (hf : (s.call o).free = true) (t : Fin n) :
    s.owed o t = (s.cnt o).rmaPutsAccs t := by
  rw [owed_eq h.rounds (Call.plain_of_free hf), (h.reqs o).idle (.inl hf)]

theorem setCnt_cnt (s : AcctSt n) (p q : Fin n) (c : OpCount (Fin n)) :
    (s.setCnt p c).cnt q = if q = p then c else s.cnt q := by
  simp [setCnt, update_apply]

theorem touches_issueOp (h : s.Ok) : Touches o t s (s.issueOp o t) := by
  have hcnt : ∀ q, (s.issueOp o t).cnt q = if q = o then (s.cnt o).opIssued t else s.cnt q :=
    fun q => setCnt_cnt s o q _
  refine ⟨rfl, rfl, rfl, rfl, fun o' t' hq => ?_, fun o' t' hq => ?_, ?_, fun o' t' hq => ?_,
    fun t' => ?_⟩
  · rw [AcctSt.issueOp, setPair_pair, if_neg hq]; rfl
  · rw [hcnt]
    split
    · next ho =>
      subst ho
      exact update_of_ne (fun ht => hq ⟨rfl, ht⟩) _ _
    · rfl
  · have := h.nonneg o t
    rw [hcnt, if_pos rfl]
    simp only [OpCount.opIssued, update_self]
    omega
  · rw [hcnt]
    split
    · next ho => subst ho; rfl
    · rfl
  · have hrec : ((s.issueOp o t).cnt t').rmaPutsAccsReceived =
        (s.cnt t').rmaPutsAccsReceived := by
      rw [hcnt]
      split
      · next ho => subst ho; rfl
      · rfl
    have hnet : ((s.issueOp o t).pair o t).applied - ((s.issueOp o t).pair o t).accounted =
        (s.pair o t).applied - (s.pair o t).accounted := by
      simp only [AcctSt.issueOp, setPair_pair, and_self, if_true, Pair.applied,
        length_append, length_singleton]
      omega
    rw [hrec, hnet]
    simp

theorem Ok.issueOp (h : s.Ok) (hf : (s.call o).free = true)
    (hs : ∀ c ∈ (s.pair o t).completes, c.rmaOpCounter = 0)
    (hw : ∀ c ∈ s.waitsOn o t, c.rmaOpCounter = 0) : (s.issueOp o t).Ok := by
  have hidle := (h.reqs o).idle (.inl hf)
  have htouch : Touches o t s (s.issueOp o t) := touches_issueOp h
  have hp : (s.issueOp o t).pair o t = { s.pair o t with
      issued := (s.pair o t).issued + 1
      flight := (s.pair o t).flight ++ [(s.pair o t).issued] } := by
    simp [AcctSt.issueOp]
  have hcnt : ∀ q, q ≠ o → ((s.issueOp o t).cnt q).rmaPutsAccs = (s.cnt q).rmaPutsAccs :=
    fun q hq => funext fun t' => htouch.accs q t' fun hc => hq hc.1
  have hctrl : ∀ q t', ((s.issueOp o t).pair q t').ctrl = (s.pair q t').ctrl := by
    intro q t'
    by_cases hq : q = o ∧ t' = t
    · rw [hq.1, hq.2, hp]
    · rw [htouch.pair q t' hq]
  have hrounds : (s.issueOp o t).RoundsOk := by
    refine h.rounds.frame rfl rfl rfl fun q => ?_
    by_cases hq : q = o
    · subst hq; exact .inr ⟨Call.plain_of_free hf, Call.plain_of_free hf⟩
    · exact .inl ⟨rfl, rfl, hcnt q hq⟩
  refine h.touch_call htouch rfl hrounds (fun q => ?_) ?_ ?_ ?_
  · by_cases hq : q = o
    · subst hq; exact reqsOk_of_free hf fun t' => (hctrl q t').trans (hidle t')
    · exact (h.reqs q).congr rfl (hctrl q) (hcnt q hq)
  · have howed : (s.issueOp o t).owed o t = s.owed o t + 1 := by
      rw [owed_eq hrounds (Call.plain_of_free hf), hctrl, hidle t, h.owed_of_free hf]
      simp [AcctSt.issueOp, setPair, setLocalPending, setCnt, OpCount.opIssued]
    have hsrc : ((s.issueOp o t).cnt t).rmaSourceRankReceived o =
        (s.cnt t).rmaSourceRankReceived o := by
      show ((s.setCnt o _).cnt t).rmaSourceRankReceived o = _
      rw [setCnt_cnt]
      split
      · next ht => subst ht; rfl
      · rfl
    unfold PairOk
    rw [howed, hp, hsrc]
    exact (h.pairs o t).issue (hidle t) hs hw
  · rw [hp]; exact Nat.le_succ _
  · rw [hp]
    intro k hk
    rcases mem_append.1 hk with hk | hk
    · exact .inl hk
    · exact .inr (Nat.le_of_eq (mem_singleton.1 hk).symm)

theorem Ok.targetEvent (h : s.Ok) {c : OpCount (Fin n)} {x : Pair} {v : Int}
    (hacc : c.rmaPutsAccs = (s.cnt t).rmaPutsAccs)
    (hsrc : ∀ o', o' ≠ o → c.rmaSourceRankReceived o' = (s.cnt t).rmaSourceRankReceived o')
    (hrec : c.rmaPutsAccsReceived = (s.cnt t).rmaPutsAccsReceived +
      ((x.applied - x.accounted) - ((s.pair o t).applied - (s.pair o t).accounted)))
    (hpend : x.ctrl.pending = (s.pair o t).ctrl.pending)
    (hidle : x.ctrl = .idle ↔ (s.pair o t).ctrl = .idle)
    (hi : (s.pair o t).issued ≤ x.issued) (hf : ∀ k ∈ x.flight, k ∈ (s.pair o t).flight)
    (howed : ((s.setCnt t c).setPair o t x).owed o t = v)
    (hpair : x.Ok v (c.rmaSourceRankReceived o) ((s.started o).count t) ((s.exposed t).count o)
      (s.waitsOn o t)) : ((s.setCnt t c).setPair o t x).Ok := by
  have hcnt : ∀ q, ((s.setCnt t c).setPair o t x).cnt q = if q = t then c else s.cnt q :=
    fun q => setCnt_cnt s t q c
  have haccs : ∀ q, (((s.setCnt t c).setPair o t x).cnt q).rmaPutsAccs = (s.cnt q).rmaPutsAccs := by
    intro q
    rw [hcnt]
    split
    · next hq => rw [hq]; exact hacc
    · rfl
  have hp : ∀ o' t', ((s.setCnt t c).setPair o t x).pair o' t' =
      if o' = o ∧ t' = t then x else s.pair o' t' := fun o' t' => setPair_pair _ o t o' t' x
  have hpt : ((s.setCnt t c).setPair o t x).pair o t = x := by rw [hp]; simp
  have htouch : Touches o t s ((s.setCnt t c).setPair o t x) := by
    refine ⟨rfl, rfl, rfl, rfl, fun o' t' hq => ?_, fun o' t' _ => congrFun (haccs o') t', ?_,
      fun o' t' hq => ?_, fun t' => ?_⟩
    · rw [hp, if_neg hq]
    · rw [haccs]; exact h.nonneg o t
    · rw [hcnt]
      split
      · next ht => rw [ht]; exact hsrc o' fun ho => hq ⟨ho, ht⟩
      · rfl
    · rw [hcnt, hpt]
      split
      · next ht => rw [ht]; exact hrec
      · simp
  have hrounds : ((s.setCnt t c).setPair o t x).RoundsOk :=
    h.rounds.frame rfl rfl rfl fun q => .inl ⟨rfl, rfl, haccs q⟩
  refine h.touch_call htouch rfl hrounds (fun q => ?_) ?_ ?_ ?_
  · refine (h.reqs q).progress rfl (fun t' => ?_) (fun t' => ?_) (haccs q)
    · rw [hp]
      split
      · next hq => rw [hq.1, hq.2]; exact hpend
      · rfl
    · rw [hp]
      split
      · next hq => rw [hq.1, hq.2]; exact hidle
      · rfl
  · unfold PairOk
    rw [howed, hpt, hcnt, if_pos rfl]
    exact hpair
  · rw [hpt]; exact hi
  · rw [hpt]; exact fun k hk => .inl (hf k hk)

theorem Ok.opArrived (h : s.Ok) {k : Nat} (hk : k ∈ (s.pair o t).flight) :
    ((s.setCnt t ((s.cnt t).opArrived o)).setPair o t { s.pair o t with
      flight := (s.pair o t).flight.erase k }).Ok := by
  have hlen := length_erase_of_mem hk
  have hpos := length_pos_of_mem hk
  refine h.targetEvent rfl (fun o' ho => update_of_ne ho _ _) ?_ rfl Iff.rfl
    (Nat.le_refl _) (fun j hj => mem_of_mem_erase hj) (v := s.owed o t)
    (owed_congr rfl rfl (by simp) ?_) ?_
  · simp only [OpCount.opArrived, Pair.applied]
    omega
  · show ((s.setCnt t _).cnt o).rmaPutsAccs t = _
    rw [setCnt_cnt]
    split
    · next ho => rw [ho]; rfl
    · rfl
  · simp only [OpCount.opArrived, update_self]
    exact (h.pairs o t).arrive hk

theorem Ok.ctrlBegin (h : s.Ok) {m : Int} (hctrl : (s.pair o t).ctrl = .requested m)
    (hs : ∀ c ∈ (s.pair o t).completes, c.rmaOpCounter = 0) :
    ((s.setCnt t ((s.cnt t).ctrlReqBegin o m)).setPair o t { s.pair o t with
      ctrl := .handling m }).Ok := by
  have hplain : (s.call o).plain := (h.reqs o).plain (by rw [hctrl]; nofun : _ ≠ CtrlPhase.idle)
  have howed : s.owed o t = m := by rw [owed_eq h.rounds hplain, hctrl]
  have hr := h.rounds.resets_eq hplain t
  refine h.targetEvent rfl (fun o' ho => update_of_ne ho _ _) ?_ (by rw [hctrl]; rfl)
    (by rw [hctrl]; simp) (Nat.le_refl _) (fun _ hj => hj) (v := m) ?_ ?_
  · simp [OpCount.ctrlReqBegin, Pair.applied]
  · have hr' : ((s.setCnt t ((s.cnt t).ctrlReqBegin o m)).setPair o t { s.pair o t with
        ctrl := .handling m }).resets = s.resets := rfl
    simp [owed, hr', hr]
  · have hpair := h.pairs o t
    unfold PairOk at hpair
    rw [howed] at hpair
    simp only [OpCount.ctrlReqBegin, update_self]
    exact hpair.ctrlBegin hctrl hs

theorem Ok.ctrlEnd (h : s.Ok) {m : Int} (hctrl : (s.pair o t).ctrl = .handling m)
    (ha : (s.cnt t).allArrived o) :
    ((s.setCnt t ((s.cnt t).ctrlReqEnd m)).setPair o t { s.pair o t with
      ctrl := .answered
      accounted := (s.pair o t).accounted + m }).Ok := by
  have hplain : (s.call o).plain := (h.reqs o).plain (by rw [hctrl]; nofun : _ ≠ CtrlPhase.idle)
  have hr := h.rounds.resets_eq hplain t
  have hpair := h.pairs o t
  unfold PairOk at hpair
  rw [show (s.cnt t).rmaSourceRankReceived o = 0 from ha] at hpair
  refine h.targetEvent rfl (fun o' ho => rfl) ?_ (by rw [hctrl]; rfl)
    (by rw [hctrl]; simp) (Nat.le_refl _) (fun _ hj => hj) (v := 0) ?_ ?_
  · simp only [OpCount.ctrlReqEnd, Pair.applied]
    omega
  · have hr' : ((s.setCnt t ((s.cnt t).ctrlReqEnd m)).setPair o t { s.pair o t with
        ctrl := .answered
        accounted := (s.pair o t).accounted + m }).resets = s.resets := rfl
    simp [owed, hr', hr]
  · show Pair.Ok _ 0 ((s.cnt t).rmaSourceRankReceived o) _ _ _
    rw [show (s.cnt t).rmaSourceRankReceived o = 0 from ha]
    exact hpair.ctrlEnd hctrl

/-! ## Requests -/

theorem Ok.originEvent (h : s.Ok) {f : Fin n → CtrlPhase}
    (hfr : s'.fences = s.fences ∧ s'.resets = s.resets ∧ s'.contrib = s.contrib ∧
      s'.epoch = s.epoch)
    (hcnt : ∀ q, q ≠ o → s'.cnt q = s.cnt q)
    (hsrc : (s'.cnt o).rmaSourceRankReceived = (s.cnt o).rmaSourceRankReceived)
    (hrec : (s'.cnt o).rmaPutsAccsReceived = (s.cnt o).rmaPutsAccsReceived)
    (hnn : ∀ t, 0 ≤ (s'.cnt o).rmaPutsAccs t)
    (hpair : ∀ o' t', s'.pair o' t' =
      if o' = o then { s.pair o t' with ctrl := f t' } else s.pair o' t')
    (hf : ∀ t, f t = (s.pair o t).ctrl ∨
      (s.pair o t).ctrl.handled = 0 ∧ ∀ m, f t ≠ .handling m)
    (hcall : ∀ q, q ≠ o → s'.call q = s.call q)
    (hold : (s.call o).plain ∧ (s.call o).waits = false)
    (hnew : (s'.call o).plain ∧ (s'.call o).waits = false)
    (hreqs : s'.ReqsOk o) (howed : ∀ t, s'.owed o t = s.owed o t) : s'.Ok := by
  obtain ⟨hfe, hre, hco, hep⟩ := hfr
  have hpost : ∀ q, s'.posted q = s.posted q := fun q => by simp only [posted, hep]
  have hother : ∀ o' t', o' ≠ o → s'.pair o' t' = s.pair o' t' := fun o' t' ho => by
    rw [hpair, if_neg ho]
  have hself : ∀ t', s'.pair o t' = { s.pair o t' with ctrl := f t' } := fun t' => by
    rw [hpair, if_pos rfl]
  have hsrc' : ∀ q, (s'.cnt q).rmaSourceRankReceived = (s.cnt q).rmaSourceRankReceived := by
    intro q
    by_cases hq : q = o
    · rw [hq]; exact hsrc
    · rw [hcnt q hq]
  have hexp := waits_congr hold.2 hnew.2 hcall hpost
  refine ⟨fun q => by rw [hep]; exact h.epoch q, fun o' t' => ?_, ?_, fun q => ?_,
    fun o' t' => ?_, fun q => ?_, fun q => ?_⟩
  · by_cases hq : o' = o
    · rw [hq]; exact hnn t'
    · rw [hcnt o' hq]; exact h.nonneg o' t'
  · refine h.rounds.frame hfe hre hco fun q => ?_
    by_cases hq : q = o
    · rw [hq]; exact .inr ⟨hold.1, hnew.1⟩
    · exact .inl ⟨hcall q hq, by rw [hep], by rw [hcnt q hq]⟩
  · by_cases hq : q = o
    · rw [hq]; exact hreqs
    · exact (h.reqs q).congr (hcall q hq) (fun t' => by rw [hother q t' hq]) (by rw [hcnt q hq])
  · by_cases hq : o' = o
    · subst hq
      have hstart : s'.started o' = s.started o' := by simp only [started, hep]
      unfold PairOk
      rw [howed, hself, congrFun (hsrc' t') o', hstart, (hexp t').1, (hexp t').2]
      rcases hf t' with hf | ⟨h1, h2⟩
      · rw [hf]; exact h.pairs o' t'
      · exact (h.pairs o' t').setCtrl h1 h2
    · refine (h.pairs o' t').congr (hother o' t' hq) ?_ (congrFun (hsrc' t') o')
        (by simp only [started, hep]) (by rw [(hexp t').1]) ((hexp t').2 o')
      exact owed_congr hre hco (by rw [hother o' t' hq]) (by rw [hcnt o' hq])
  · by_cases hq : q = o
    · rw [hq]; exact waitOk_of_not hnew.2
    · refine (h.waiting q).congr (hcall q hq) (by rw [hep]) (fun o' => ?_) fun o' k hk => ?_
      · rw [hpair]; split
        · next ho => rw [ho]
        · exact Nat.le_refl _
      · rw [hpair] at hk
        split at hk
        · next ho => rw [ho]; exact .inl hk
        · exact .inl hk
  · have hr : (s'.cnt q).rmaPutsAccsReceived = (s.cnt q).rmaPutsAccsReceived := by
      by_cases hq : q = o
      · rw [hq]; exact hrec
      · rw [hcnt q hq]
    rw [hr, h.received q]
    refine Finset.sum_congr rfl fun o' _ => ?_
    rw [hpair]
    split
    · next ho => rw [ho]; rfl
    · rfl

theorem Ok.request (h : s.Ok) {k : Call n} (hf : (s.call o).free = true)
    (hk : k = .flush t ∨ ∃ rest, k = .unlock t rest) :
    ((s.setPair o t { s.pair o t with
      ctrl := .requested ((s.cnt o).rmaPutsAccs t) }).setCall o k).Ok := by
  have hidle := (h.reqs o).idle (.inl hf)
  have hnew : k.plain ∧ k.waits = false := by
    rcases hk with rfl | ⟨rest, rfl⟩ <;> exact ⟨⟨rfl, nofun⟩, rfl⟩
  refine h.originEvent ⟨rfl, rfl, rfl, rfl⟩ (fun _ _ => rfl) rfl rfl (h.nonneg o)
    (f := fun t' => if t' = t then .requested ((s.cnt o).rmaPutsAccs t) else (s.pair o t').ctrl)
    (fun o' t' => ?_) (fun t' => ?_) (fun q hq => by simp [AcctSt.setCall, setPair, hq])
    ⟨Call.plain_of_free hf, Call.waits_of_free hf⟩ (by simpa [AcctSt.setCall] using hnew) ?_ fun t' => ?_
  · show (s.setPair o t _).pair o' t' = _
    rw [setPair_pair]
    by_cases ho : o' = o <;> by_cases ht : t' = t <;> simp [ho, ht]
  · by_cases ht : t' = t
    · exact .inr ⟨by rw [hidle]; rfl, by simp [ht]⟩
    · exact .inl (if_neg ht)
  · have hreq : (s.setPair o t { s.pair o t with
        ctrl := .requested ((s.cnt o).rmaPutsAccs t) }).pair o t = { s.pair o t with
          ctrl := .requested ((s.cnt o).rmaPutsAccs t) } := by simp
    have hrest : ∀ t', t' ≠ t → ((s.setPair o t { s.pair o t with
        ctrl := .requested ((s.cnt o).rmaPutsAccs t) }).pair o t').ctrl = .idle := by
      intro t' ht
      rw [setPair_pair, if_neg fun hc => ht hc.2]
      exact hidle t'
    unfold ReqsOk
    rcases hk with rfl | ⟨rest, rfl⟩ <;> simp only [AcctSt.setCall, update_self]
    · exact ⟨by rw [hreq]; rfl, hrest⟩
    · exact ⟨by rw [hreq]; rfl, hrest⟩
  · have hr := h.rounds.resets_eq (Call.plain_of_free hf) t'
    rw [h.owed_of_free hf]
    by_cases ht : t' = t
    · subst ht; simp [owed, AcctSt.setCall, setPair, hr]
    · simp [owed, AcctSt.setCall, setPair, hr, ht, hidle]

theorem Ok.recvAnswer (h : s.Ok) {k : Call n} (hans : (s.pair o t).ctrl = .answered)
    (hcall : s.call o = .flush t ∨ ∃ rest, s.call o = .unlock t rest) (hk : k.free = true) :
    (((s.setCnt o ((s.cnt o).resetTarget t)).setPair o t { s.pair o t with
      ctrl := .idle }).setCall o k).Ok := by
  have hreq : ∀ t', t' ≠ t → (s.pair o t').ctrl = .idle := by
    have := h.reqs o
    unfold ReqsOk at this
    rcases hcall with hc | ⟨rest, hc⟩ <;> simp only [hc] at this <;> exact this.2
  have hold : (s.call o).plain ∧ (s.call o).waits = false := by
    rcases hcall with hc | ⟨rest, hc⟩ <;> rw [hc] <;> exact ⟨⟨rfl, nofun⟩, rfl⟩
  have hcnt : ∀ q, (((s.setCnt o ((s.cnt o).resetTarget t)).setPair o t { s.pair o t with
      ctrl := .idle }).setCall o k).cnt q = if q = o then (s.cnt o).resetTarget t else s.cnt q :=
    fun q => setCnt_cnt s o q _
  have hidle : ∀ t', ((((s.setCnt o ((s.cnt o).resetTarget t)).setPair o t { s.pair o t with
      ctrl := .idle }).setCall o k).pair o t').ctrl = .idle := by
    intro t'
    show (((s.setCnt o _).setPair o t _).pair o t').ctrl = _
    rw [setPair_pair]
    split
    · rfl
    · next hq => exact hreq t' fun ht => hq ⟨rfl, ht⟩
  have hnew : ((((s.setCnt o ((s.cnt o).resetTarget t)).setPair o t { s.pair o t with
      ctrl := .idle }).setCall o k).call o) = k := by simp [AcctSt.setCall]
  refine h.originEvent ⟨rfl, rfl, rfl, rfl⟩ (fun q hq => by rw [hcnt, if_neg hq])
    (by rw [hcnt, if_pos rfl]; rfl) (by rw [hcnt, if_pos rfl]; rfl) (fun t' => ?_)
    (f := fun _ => .idle)
    (fun o' t' => ?_) (fun t' => ?_) (fun q hq => by simp [AcctSt.setCall, setPair, setCnt, hq])
    hold (by rw [hnew]; exact ⟨Call.plain_of_free hk, Call.waits_of_free hk⟩)
    (reqsOk_of_free (by rw [hnew]; exact hk) hidle) fun t' => ?_
  · rw [hcnt, if_pos rfl]
    by_cases ht : t' = t
    · subst ht; simp [OpCount.resetTarget]
    · simpa [OpCount.resetTarget, ht] using h.nonneg o t'
  · show ((s.setCnt o _).setPair o t _).pair o' t' = _
    rw [setPair_pair]
    by_cases ho : o' = o
    · subst ho
      by_cases ht : t' = t
      · simp [ht]
      · simp only [ht, and_false, if_false, if_true]
        show s.pair o' t' = _
        rw [← hreq t' ht]
    · simp only [ho, false_and, if_false]
      rfl
  · by_cases ht : t' = t
    · exact .inr ⟨by rw [ht, hans]; rfl, nofun⟩
    · exact .inr ⟨by rw [hreq t' ht]; rfl, nofun⟩
  · have hr := h.rounds.resets_eq hold.1 t'
    rw [owed_eq h.rounds hold.1]
    have hr' : (((s.setCnt o ((s.cnt o).resetTarget t)).setPair o t { s.pair o t with
        ctrl := .idle }).setCall o k).resets = s.resets := rfl
    simp only [owed, hr', hr, Nat.lt_irrefl, if_false, hidle, hcnt, if_true]
    by_cases ht : t' = t
    · subst ht; simp [OpCount.resetTarget, hans]
    · simp [OpCount.resetTarget, ht, hreq]

theorem Ok.flushAll (h : s.Ok) (hf : (s.call o).free = true) :
    ((s.mapOrigin o fun t p =>
      if t = o then p else { p with ctrl := .requested ((s.cnt o).rmaPutsAccs t) }).setCall o
        (.flushAll ((List.finRange n).filter (· ≠ o)))).Ok := by
  have hidle := (h.reqs o).idle (.inl hf)
  have hpair : ∀ o' t', ((s.mapOrigin o fun t p =>
      if t = o then p else { p with ctrl := .requested ((s.cnt o).rmaPutsAccs t) }).setCall o
        (.flushAll ((List.finRange n).filter (· ≠ o)))).pair o' t' =
      if o' = o then { s.pair o t' with
        ctrl := if t' = o then .idle else .requested ((s.cnt o).rmaPutsAccs t') }
      else s.pair o' t' := by
    intro o' t'
    rw [setCall_pair, mapOrigin_pair]
    by_cases ho : o' = o
    · subst ho
      by_cases ht : t' = o'
      · simp only [ht, if_true, ← hidle o']
      · simp [ht]
    · simp [ho]
  refine h.originEvent ⟨rfl, rfl, rfl, rfl⟩ (fun _ _ => rfl) rfl rfl (h.nonneg o) hpair
    (fun t' => .inr ⟨by rw [hidle]; rfl, fun m => ?_⟩)
    (fun q hq => by simp [AcctSt.setCall, mapOrigin, hq])
    ⟨Call.plain_of_free hf, Call.waits_of_free hf⟩
    (by simp [AcctSt.setCall, Call.plain, Call.inFence, Call.waits]) ?_ fun t' => ?_
  · split <;> nofun
  · unfold ReqsOk
    simp only [hpair, if_true]
    simp only [AcctSt.setCall, update_self]
    refine ⟨by simp, trivial, fun t ht => by simp [ht], fun t ht hmem => ?_, ?_⟩
    · exact absurd (mem_filter.2 ⟨mem_finRange t, by simpa using ht⟩) hmem
    · have hset : (Finset.univ.filter fun t : Fin n => (if t = o then CtrlPhase.idle
          else .requested ((s.cnt o).rmaPutsAccs t)).pending = true) =
          Finset.univ.filter fun t => t ≠ o := by
        refine Finset.filter_congr fun t _ => ?_
        by_cases ht : t = o <;> simp [ht, CtrlPhase.pending]
      rw [hset, ← toFinset_card_of_nodup ((nodup_finRange n).filter _)]
      congr 1
      ext t
      simp
  · have hr := h.rounds.resets_eq (Call.plain_of_free hf) t'
    have hr' : ((s.mapOrigin o fun t p =>
      if t = o then p else { p with ctrl := .requested ((s.cnt o).rmaPutsAccs t) }).setCall o
        (.flushAll ((List.finRange n).filter (· ≠ o)))).resets = s.resets := rfl
    rw [h.owed_of_free hf]
    simp only [owed, hr', hr, Nat.lt_irrefl, if_false, hpair, if_true]
    by_cases ht : t' = o
    · simp only [ht, if_true]; rfl
    · simp [ht]

theorem Ok.recvAnswerAll (h : s.Ok) {i : Fin n} {rest : List (Fin n)}
    (hans : (s.pair o t).ctrl = .answered) (hcall : s.call o = .flushAll (i :: rest)) :
    (((s.setCnt o ((s.cnt o).resetTarget i)).setPair o t { s.pair o t with
      ctrl := .flushed }).setCall o (.flushAll rest)).Ok := by
  obtain ⟨hrest, hself, hne, hzero, hcard⟩ : o ∉ i :: rest ∧ (s.pair o o).ctrl = .idle ∧
      (∀ t, t ≠ o → (s.pair o t).ctrl ≠ .idle) ∧
      (∀ t, t ≠ o → t ∉ i :: rest → (s.cnt o).rmaPutsAccs t = 0) ∧
      (Finset.univ.filter fun t => (s.pair o t).ctrl.pending = true).card =
        (i :: rest).length := by
    have := h.reqs o
    unfold ReqsOk at this
    simpa only [hcall] using this
  have hto : t ≠ o := fun ht => by rw [ht, hself] at hans; cases hans
  have hold : (s.call o).plain ∧ (s.call o).waits = false := by
    rw [hcall]; exact ⟨⟨rfl, nofun⟩, rfl⟩
  have hcnt : ∀ q, (((s.setCnt o ((s.cnt o).resetTarget i)).setPair o t { s.pair o t with
      ctrl := .flushed }).setCall o (.flushAll rest)).cnt q =
      if q = o then (s.cnt o).resetTarget i else s.cnt q := fun q => setCnt_cnt s o q _
  have hpair : ∀ o' t', (((s.setCnt o ((s.cnt o).resetTarget i)).setPair o t { s.pair o t with
      ctrl := .flushed }).setCall o (.flushAll rest)).pair o' t' =
      if o' = o then { s.pair o t' with ctrl := if t' = t then .flushed else (s.pair o t').ctrl }
      else s.pair o' t' := by
    intro o' t'
    show ((s.setCnt o _).setPair o t _).pair o' t' = _
    rw [setPair_pair]
    by_cases ho : o' = o
    · subst ho
      by_cases ht : t' = t
      · simp [ht]
      · simp only [ht, and_false, if_false, if_true]
        rfl
    · simp only [ho, false_and, if_false]
      rfl
  refine h.originEvent ⟨rfl, rfl, rfl, rfl⟩ (fun q hq => by rw [hcnt, if_neg hq])
    (by rw [hcnt, if_pos rfl]; rfl) (by rw [hcnt, if_pos rfl]; rfl) (fun t' => ?_) hpair
    (fun t' => ?_) (fun q hq => by simp [AcctSt.setCall, setPair, setCnt, hq]) hold
    (by simp [AcctSt.setCall, Call.plain, Call.inFence, Call.waits]) ?_ fun t' => ?_
  · rw [hcnt, if_pos rfl]
    by_cases ht : t' = i
    · subst ht; simp [OpCount.resetTarget]
    · simpa [OpCount.resetTarget, ht] using h.nonneg o t'
  · by_cases ht : t' = t
    · exact .inr ⟨by rw [ht, hans]; rfl, by simp [ht]⟩
    · exact .inl (if_neg ht)
  · unfold ReqsOk
    simp only [hpair, hcnt, if_true]
    simp only [AcctSt.setCall, update_self]
    refine ⟨fun hm => hrest (mem_cons_of_mem _ hm), by simp [Ne.symm hto, hself],
      fun t' ht => ?_, fun t' ht hmem => ?_, ?_⟩
    · split
      · nofun
      · exact hne t' ht
    · by_cases hi : t' = i
      · subst hi; simp [OpCount.resetTarget]
      · simp only [OpCount.resetTarget, update_of_ne hi]
        exact hzero t' ht (by simp [hi, hmem])
    · have hset : (Finset.univ.filter fun t' => (if t' = t then CtrlPhase.flushed
          else (s.pair o t').ctrl).pending = true) =
          (Finset.univ.filter fun t' => (s.pair o t').ctrl.pending = true).erase t := by
        ext t'
        simp only [Finset.mem_filter, Finset.mem_erase, Finset.mem_univ, true_and]
        by_cases ht : t' = t
        · simp [ht, CtrlPhase.pending]
        · simp [ht]
      have hmem : t ∈ Finset.univ.filter fun t' => (s.pair o t').ctrl.pending = true :=
        Finset.mem_filter.2 ⟨Finset.mem_univ t, by rw [hans]; rfl⟩
      rw [hset, Finset.card_erase_of_mem hmem, hcard]
      rfl
  · have hr := h.rounds.resets_eq hold.1 t'
    have hr' : (((s.setCnt o ((s.cnt o).resetTarget i)).setPair o t { s.pair o t with
        ctrl := .flushed }).setCall o (.flushAll rest)).resets = s.resets := rfl
    rw [owed_eq h.rounds hold.1]
    simp only [owed, hr', hr, Nat.lt_irrefl, if_false, hpair, hcnt, if_true]
    by_cases ht : t' = t
    · simp [ht, hans]
    · simp only [ht, if_false]
      by_cases hto' : t' = o
      · subst hto'
        have hi : t' ≠ i := fun hi => hrest (by simp [hi])
        simp [hself, OpCount.resetTarget, hi]
      · cases hc : (s.pair o t').ctrl with
        | idle => exact absurd hc (hne t' hto')
        | _ => rfl

theorem Ok.flushAllDone (h : s.Ok) (hcall : s.call o = .flushAll []) :
    ((s.mapOrigin o fun _ p => { p with ctrl := .idle }).setCall o .none).Ok := by
  obtain ⟨-, hself, hne, hzero, hcard⟩ : o ∉ [] ∧ (s.pair o o).ctrl = .idle ∧
      (∀ t, t ≠ o → (s.pair o t).ctrl ≠ .idle) ∧
      (∀ t, t ≠ o → t ∉ [] → (s.cnt o).rmaPutsAccs t = 0) ∧
      (Finset.univ.filter fun t => (s.pair o t).ctrl.pending = true).card = [].length := by
    have := h.reqs o
    unfold ReqsOk at this
    simpa only [hcall] using this
  have hflushed : ∀ t, t ≠ o → (s.pair o t).ctrl = .flushed := by
    intro t ht
    have hp : (s.pair o t).ctrl.pending = false := by
      have := Finset.card_eq_zero.1 hcard
      rw [Finset.filter_eq_empty_iff] at this
      simpa using this (Finset.mem_univ t)
    cases hc : (s.pair o t).ctrl with
    | flushed => rfl
    | idle => exact absurd hc (hne t ht)
    | _ => rw [hc] at hp; cases hp
  have hold : (s.call o).plain ∧ (s.call o).waits = false := by
    rw [hcall]; exact ⟨⟨rfl, nofun⟩, rfl⟩
  have hpair : ∀ o' t', ((s.mapOrigin o fun _ p => { p with ctrl := .idle }).setCall o
      .none).pair o' t' =
      if o' = o then { s.pair o t' with ctrl := .idle } else s.pair o' t' := by
    intro o' t'
    rw [setCall_pair, mapOrigin_pair]
    by_cases ho : o' = o
    · simp [ho]
    · simp [ho]
  refine h.originEvent ⟨rfl, rfl, rfl, rfl⟩ (fun _ _ => rfl) rfl rfl (h.nonneg o) hpair
    (fun t' => .inr ⟨?_, nofun⟩) (fun q hq => by simp [AcctSt.setCall, mapOrigin, hq]) hold
    (by simp [AcctSt.setCall, Call.plain, Call.inFence, Call.waits]) ?_ fun t' => ?_
  · by_cases ht : t' = o
    · rw [ht, hself]; rfl
    · rw [hflushed t' ht]; rfl
  · refine reqsOk_of_free (by simp [AcctSt.setCall, Call.free]) fun t' => ?_
    rw [hpair, if_pos rfl]
  · have hr := h.rounds.resets_eq hold.1 t'
    have hr' : ((s.mapOrigin o fun _ p => { p with ctrl := .idle }).setCall o .none).resets =
        s.resets := rfl
    rw [owed_eq h.rounds hold.1]
    simp only [owed, hr', hr, Nat.lt_irrefl, if_false, hpair, if_true]
    by_cases ht : t' = o
    · rw [ht, hself]; rfl
    · rw [hflushed t' ht]
      exact hzero t' ht not_mem_nil

end AcctSt

end PsMpi.Rma
