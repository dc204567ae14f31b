import PsMpi.Rma.Epoch

/-!
# The epoch fields over sequences of calls
-/

open List Function

namespace PsMpi.Rma

namespace EpochWin

variable {n : Nat}

/-! ## The invariant -/

def lockedRanks (w : EpochWin n) : Finset (Fin n) :=
  Finset.univ.filter fun i => w.remoteLockState i ≠ .unlocked

/-- What the epoch fields have in common: `epoch_lock_count` counts the ranks that are locked by
either of the lock calls, the state is `LOCK` exactly when it is positive (`LOCK_ALL` is not used),
and the two rank lists are set exactly in the states that name them. -/
structure Ok (w : EpochWin n) : Prop where
  count : w.epochLockCount = w.lockedRanks.card
  lock : w.epochState = .lock ↔ 0 < w.epochLockCount
  lockAll : w.epochState ≠ .lockAll
  post : w.ranksPost.isSome ↔ w.epochState = .post ∨ w.epochState = .pscw
  start : w.ranksStart.isSome ↔ w.epochState = .start ∨ w.epochState = .pscw

variable {w : EpochWin n} {i j : Fin n}

theorem mem_lockedRanks : i ∈ w.lockedRanks ↔ w.remoteLockState i ≠ .unlocked := by
  simp [lockedRanks]

theorem lockedRanks_update_locked {l : LockState} {w' : EpochWin n} (hl : l ≠ .unlocked)
    (hw : w'.remoteLockState = Function.update w.remoteLockState i l) :
    w'.lockedRanks = insert i w.lockedRanks := by
  ext j
  rw [mem_lockedRanks, hw, Finset.mem_insert, mem_lockedRanks]
  by_cases h : j = i
  · subst h; simpa using hl
  · simp [h]

theorem lockedRanks_update_unlocked {w' : EpochWin n}
    (hw : w'.remoteLockState = Function.update w.remoteLockState i .unlocked) :
    w'.lockedRanks = w.lockedRanks.erase i := by
  ext j
  rw [mem_lockedRanks, hw, Finset.mem_erase, mem_lockedRanks]
  by_cases h : j = i
  · subst h; simp
  · simp [h]

theorem init_ok : (init : EpochWin n).Ok := by
  have h : (init : EpochWin n).lockedRanks = ∅ := by
    ext j; simp [mem_lockedRanks, init]
  refine ⟨by rw [h]; rfl, ?_, ?_, ?_, ?_⟩ <;> simp [init]

theorem Ok.of_noLock {w' : EpochWin n} (h : w.Ok) (hne : w.epochState ≠ .lock)
    (hr : w'.remoteLockState = w.remoteLockState) (hc : w'.epochLockCount = w.epochLockCount)
    (hs : w'.epochState ≠ .lock) (ha : w'.epochState ≠ .lockAll)
    (hp : w'.ranksPost.isSome ↔ w'.epochState = .post ∨ w'.epochState = .pscw)
    (ht : w'.ranksStart.isSome ↔ w'.epochState = .start ∨ w'.epochState = .pscw) : w'.Ok := by
  have hranks : w'.lockedRanks = w.lockedRanks := by unfold lockedRanks; rw [hr]
  refine ⟨by rw [hc, h.count, hranks], ?_, ha, hp, ht⟩
  exact ⟨fun hl => absurd hl hs, fun hpos => absurd (h.lock.2 (hc ▸ hpos)) hne⟩

theorem Ok.lockedRanks_eq_empty (h : w.Ok) (hne : w.epochState ≠ .lock) : w.lockedRanks = ∅ := by
  have h0 : ¬ 0 < w.epochLockCount := fun hpos => hne (h.lock.2 hpos)
  rw [h.count] at h0
  exact Finset.card_eq_zero.1 (by omega)

theorem Ok.epochState_eq_lock (h : w.Ok) (hi : w.remoteLockState i ≠ .unlocked) :
    w.epochState = .lock := by
  by_contra hne
  have hmem := mem_lockedRanks.2 hi
  rw [h.lockedRanks_eq_empty hne] at hmem
  exact absurd hmem (Finset.notMem_empty i)

/-! ## One call keeps the invariant -/

theorem winFence_ok (h : w.Ok) (r b : Bool) : (winFence r b w).2.Ok := by
  unfold winFence
  split
  · exact h
  split
  · exact h
  · rename_i hs _
    have hp := h.post
    have ht := h.start
    have hne : w.epochState ≠ .lock := by rintro he; exact hs (by simp [he])
    refine h.of_noLock hne rfl rfl (by simp) (by simp) ?_ ?_
    all_goals cases he : w.epochState <;> simp_all

theorem winPost_ok (h : w.Ok) (ranks : List Int) : (winPost ranks w).2.Ok := by
  unfold winPost
  split
  · exact h
  · rename_i hs
    have ht := h.start
    have hne : w.epochState ≠ .lock := by rintro he; exact hs (by simp [he])
    refine h.of_noLock hne rfl rfl ?_ ?_ ?_ ?_
    all_goals cases he : w.epochState <;> simp_all

theorem winStart_ok (h : w.Ok) (ranks : List Int) : (winStart ranks w).2.Ok := by
  unfold winStart
  split
  · exact h
  · rename_i hs
    have hp := h.post
    have hne : w.epochState ≠ .lock := by rintro he; exact hs (by simp [he])
    refine h.of_noLock hne rfl rfl ?_ ?_ ?_ ?_
    all_goals cases he : w.epochState <;> simp_all

theorem winComplete_ok (h : w.Ok) : (winComplete w).2.Ok := by
  unfold winComplete
  split
  · exact h
  · rename_i hs
    have hp := h.post
    have hne : w.epochState ≠ .lock := by rintro he; exact hs (by simp [he])
    refine h.of_noLock hne rfl rfl ?_ ?_ ?_ ?_
    all_goals cases he : w.epochState <;> simp_all

theorem winWait_ok (h : w.Ok) : (winWait w).2.Ok := by
  unfold winWait
  split
  · exact h
  · rename_i hs
    have ht := h.start
    have hne : w.epochState ≠ .lock := by rintro he; exact hs (by simp [he])
    refine h.of_noLock hne rfl rfl ?_ ?_ ?_ ?_
    all_goals cases he : w.epochState <;> simp_all

theorem winTest_ok (h : w.Ok) (arrived : Int → Bool) : (winTest arrived w).2.Ok := by
  unfold winTest
  split_ifs
  · exact h
  · exact winWait_ok h
  · exact h

theorem winLock_cases (w : EpochWin n) (t : LockType) (i : Fin n) :
    (∃ e, winLock t (some i) w = (e, w) ∧ e ≠ .success) ∨
    (w.remoteLockState i = .unlocked ∧
      (w.epochState = .none ∨ w.epochState = .fenceIssued ∨ w.epochState = .lock) ∧
      winLock t (some i) w = (.success, { w with
        remoteLockState := Function.update w.remoteLockState i .locked
        epochState := .lock
        epochLockCount := w.epochLockCount + 1 })) := by
  simp only [winLock]
  split_ifs with h1 h2 h3
  · exact .inl ⟨_, rfl, by simp⟩
  · exact .inl ⟨_, rfl, by simp⟩
  · exact .inl ⟨_, rfl, by simp⟩
  · exact .inr ⟨not_not.1 h1, by by_contra hc; simp only [not_or] at hc; exact h2 hc, rfl⟩

theorem Ok.addLock (h : w.Ok) {l : LockState} (hl : l ≠ .unlocked)
    (hi : w.remoteLockState i = .unlocked)
    (hs : w.epochState = .none ∨ w.epochState = .fenceIssued ∨ w.epochState = .lock) :
    ({ w with
        remoteLockState := Function.update w.remoteLockState i l
        epochState := .lock
        epochLockCount := w.epochLockCount + 1 } : EpochWin n).Ok := by
  have hmem : i ∉ w.lockedRanks := by simp [mem_lockedRanks, hi]
  have hp := h.post
  have ht := h.start
  refine ⟨?_, ?_, by simp, ?_, ?_⟩
  · have := h.count
    rw [lockedRanks_update_locked hl rfl, Finset.card_insert_of_notMem hmem]
    simp only
    omega
  · have := h.count
    simp only [true_iff]; omega
  all_goals rcases hs with he | he | he <;> simp_all

theorem winLock_ok (h : w.Ok) (t : LockType) (dest : Option (Fin n)) :
    (winLock t dest w).2.Ok := by
  cases dest with
  | none => exact h
  | some i =>
    rcases winLock_cases w t i with ⟨e, he, -⟩ | ⟨hi, hs, he⟩ <;> rw [he]
    · exact h
    · exact h.addLock (by simp) hi hs

theorem winUnlock_cases (w : EpochWin n) (i : Fin n) :
    winUnlock (some i) w = (.errRmaSync, w) ∨
    (w.remoteLockState i ≠ .unlocked ∧ winUnlock (some i) w = (.success, { w with
        remoteLockState := Function.update w.remoteLockState i .unlocked
        epochLockCount := w.epochLockCount - 1
        epochState := if w.epochLockCount - 1 = 0 then .none else w.epochState })) := by
  simp only [winUnlock]
  split
  · exact .inl rfl
  split
  · exact .inl rfl
  · exact .inr ⟨by assumption, rfl⟩

theorem Ok.removeLock (h : w.Ok) (hi : w.remoteLockState i ≠ .unlocked) :
    ({ w with
        remoteLockState := Function.update w.remoteLockState i .unlocked
        epochLockCount := w.epochLockCount - 1
        epochState := if w.epochLockCount - 1 = 0 then .none else w.epochState } :
      EpochWin n).Ok := by
  have hmem : i ∈ w.lockedRanks := mem_lockedRanks.2 hi
  have hpos : 0 < w.lockedRanks.card := Finset.card_pos.2 ⟨i, hmem⟩
  have hs := h.epochState_eq_lock hi
  have hc := h.count
  have hp := h.post
  have ht := h.start
  refine ⟨?_, ?_, ?_, ?_, ?_⟩
  · rw [lockedRanks_update_unlocked rfl, Finset.card_erase_of_mem hmem]
    simp only
    omega
  · simp only [hs]
    split_ifs with h0 <;> simp <;> omega
  all_goals simp only [hs]; split_ifs <;> simp_all

theorem winUnlock_ok (h : w.Ok) (dest : Option (Fin n)) : (winUnlock dest w).2.Ok := by
  cases dest with
  | none => exact h
  | some i =>
    rcases winUnlock_cases w i with he | ⟨hi, he⟩ <;> rw [he]
    · exact h
    · exact h.removeLock hi

/-! ## The loops over all ranks -/

def lockTurn (w : EpochWin n) (i : Fin n) : EpochWin n :=
  { w with
    remoteLockState := Function.update w.remoteLockState i .lockedAll
    epochState := .lock
    epochLockCount := w.epochLockCount + 1 }

def unlockTurn (w : EpochWin n) (i : Fin n) : EpochWin n :=
  { w with
    remoteLockState := Function.update w.remoteLockState i .unlocked
    epochLockCount := w.epochLockCount - 1
    epochState := if w.epochLockCount - 1 = 0 then .none else w.epochState }

theorem winLockAllLoop_cons (w : EpochWin n) (i : Fin n) (is : List (Fin n)) :
    (winLockAllLoop (i :: is) w = (.errRmaSync, w) ∧ (w.remoteLockState i ≠ .unlocked ∨
      ¬ (w.epochState = .none ∨ w.epochState = .fenceIssued ∨ w.epochState = .lock))) ∨
    (w.remoteLockState i = .unlocked ∧
      (w.epochState = .none ∨ w.epochState = .fenceIssued ∨ w.epochState = .lock) ∧
      winLockAllLoop (i :: is) w = winLockAllLoop is (w.lockTurn i)) := by
  simp only [winLockAllLoop, winLock]
  split_ifs with h1 h2 h3
  · exact .inl ⟨rfl, .inl h1⟩
  · exact .inl ⟨rfl, .inr (by simp only [not_or]; exact h2)⟩
  · cases h3
  · refine .inr ⟨not_not.1 h1, ?_, ?_⟩
    · by_contra hc
      simp only [not_or] at hc
      exact h2 hc
    · simp only [setLockState, update_idem, lockTurn]

theorem winUnlockAllLoop_cons (h : w.Ok) (i : Fin n) (is : List (Fin n)) :
    (winUnlockAllLoop (i :: is) w = (.errRmaSync, w) ∧ w.remoteLockState i ≠ .lockedAll) ∨
    (w.remoteLockState i = .lockedAll ∧
      winUnlockAllLoop (i :: is) w = winUnlockAllLoop is (w.unlockTurn i)) := by
  by_cases hi : w.remoteLockState i = .lockedAll
  · have hne : w.remoteLockState i ≠ .unlocked := by simp [hi]
    have hs := h.epochState_eq_lock hne
    refine .inr ⟨hi, ?_⟩
    simp only [winUnlockAllLoop, winUnlock, hi, hs, setLockState, unlockTurn]
    simp
  · exact .inl ⟨by simp only [winUnlockAllLoop]; rw [if_pos hi], hi⟩

theorem lockTurn_ok (h : w.Ok) (hi : w.remoteLockState i = .unlocked)
    (hs : w.epochState = .none ∨ w.epochState = .fenceIssued ∨ w.epochState = .lock) :
    (w.lockTurn i).Ok := h.addLock (by simp) hi hs

theorem unlockTurn_ok (h : w.Ok) (hi : w.remoteLockState i = .lockedAll) : (w.unlockTurn i).Ok :=
  h.removeLock (by simp [hi])

theorem winLockAllLoop_ok {is : List (Fin n)} (h : w.Ok) : (winLockAllLoop is w).2.Ok := by
  induction is generalizing w with
  | nil => exact h
  | cons i is ih =>
    rcases winLockAllLoop_cons w i is with ⟨he, -⟩ | ⟨hi, hs, he⟩ <;> rw [he]
    · exact h
    · exact ih (lockTurn_ok h hi hs)

theorem winUnlockAllLoop_ok {is : List (Fin n)} (h : w.Ok) : (winUnlockAllLoop is w).2.Ok := by
  induction is generalizing w with
  | nil => exact h
  | cons i is ih =>
    rcases winUnlockAllLoop_cons h i is with ⟨he, -⟩ | ⟨hi, he⟩ <;> rw [he]
    · exact h
    · exact ih (unlockTurn_ok h hi)

/-- A loop over ranks in a window that is ready: a turn needs a rank in the state `need`, takes it
out of this state and leaves the other ranks alone. -/
structure RankLoop (loop : List (Fin n) → EpochWin n → Errno × EpochWin n)
    (turn : EpochWin n → Fin n → EpochWin n) (ready : EpochWin n → Prop) (need : LockState) :
    Prop where
  nil : ∀ w, loop [] w = (.success, w)
  stop : ∀ w i is, w.remoteLockState i ≠ need → loop (i :: is) w = (.errRmaSync, w)
  next : ∀ w i is, ready w → w.remoteLockState i = need → loop (i :: is) w = loop is (turn w i)
  ready : ∀ w i, ready w → w.remoteLockState i = need → ready (turn w i)
  self : ∀ w i, (turn w i).remoteLockState i ≠ need
  other : ∀ w i j, j ≠ i → (turn w i).remoteLockState j = w.remoteLockState j

namespace RankLoop

variable {loop : List (Fin n) → EpochWin n → Errno × EpochWin n}
  {turn : EpochWin n → Fin n → EpochWin n} {ready : EpochWin n → Prop} {need : LockState}

theorem frame (h : RankLoop loop turn ready need) {is : List (Fin n)} (hw : ready w)
    (hj : j ∉ is) : (loop is w).2.remoteLockState j = w.remoteLockState j := by
  induction is generalizing w with
  | nil => rw [h.nil]
  | cons i is ih =>
    simp only [mem_cons, not_or] at hj
    by_cases hi : w.remoteLockState i = need
    · rw [h.next w i is hw hi, ih (h.ready w i hw hi) hj.2, h.other w i j hj.1]
    · rw [h.stop w i is hi]

theorem fst (h : RankLoop loop turn ready need) {is : List (Fin n)} (hnd : is.Nodup)
    (hw : ready w) :
    (loop is w).1 = if ∀ j ∈ is, w.remoteLockState j = need then .success else .errRmaSync := by
  induction is generalizing w with
  | nil => simp [h.nil]
  | cons i is ih =>
    rw [nodup_cons] at hnd
    by_cases hi : w.remoteLockState i = need
    · rw [h.next w i is hw hi, ih hnd.2 (h.ready w i hw hi)]
      congr 1
      simp only [forall_mem_cons, hi, true_and, eq_iff_iff]
      refine forall₂_congr fun j hj => ?_
      rw [h.other w i j fun heq => hnd.1 (heq ▸ hj)]
    · rw [h.stop w i is hi, if_neg fun hall => hi (hall i mem_cons_self)]

theorem finRange_eq (n : Nat) : List.finRange n = [] ∨
    ∃ (i : Fin n) (is : List (Fin n)), i.val = 0 ∧ List.finRange n = i :: is := by
  cases n with
  | zero => exact .inl rfl
  | succ n => exact .inr ⟨0, _, rfl, finRange_succ⟩

/-- The loop over all ranks cannot stop half way: it stops at the first rank or at none. -/
def Uniform (need : LockState) (w : EpochWin n) : Prop :=
  (∃ i : Fin n, i.val = 0 ∧ w.remoteLockState i ≠ need) ∨ ∀ i, w.remoteLockState i = need

theorem uniform (h : RankLoop loop turn ready need) (hw : ready w) (hu : Uniform need w)
    (hrej : (loop (List.finRange n) w).1 ≠ .success) : (loop (List.finRange n) w).2 = w := by
  rcases hu with ⟨i, hi0, hne⟩ | hall
  · rcases finRange_eq n with h0 | ⟨i', is, hi', hr⟩
    · exact absurd (List.mem_finRange i) (h0 ▸ List.not_mem_nil)
    · obtain rfl : i = i' := Fin.ext (hi0.trans hi'.symm)
      rw [hr, h.stop w i is hne]
  · rw [h.fst (List.nodup_finRange n) hw, if_pos fun j _ => hall j] at hrej
    exact absurd rfl hrej

theorem halfway (h : RankLoop loop turn ready need) (hw : ready w) (hu : ¬ Uniform need w) :
    (loop (List.finRange n) w).1 = .errRmaSync ∧
      (loop (List.finRange n) w).2.remoteLockState ≠ w.remoteLockState := by
  have hmem := List.mem_finRange (n := n)
  have hnd := List.nodup_finRange n
  rw [Uniform, not_or] at hu
  obtain ⟨hc0, hcall⟩ := hu
  obtain ⟨j, hj⟩ := not_forall.1 hcall
  rcases finRange_eq n with h0 | ⟨i, is, hi0, hr⟩
  · exact absurd (hmem j) (h0 ▸ List.not_mem_nil)
  have hi : w.remoteLockState i = need := not_not.1 fun hne => hc0 ⟨i, hi0, hne⟩
  have hji : j ≠ i := fun hji => hj (hji ▸ hi)
  have hjl : j ∈ is := (List.mem_cons.1 (hr ▸ hmem j)).resolve_left hji
  rw [hr] at hnd ⊢
  have hready := h.ready w i hw hi
  -- the first rank is changed, and the loop stops at rank `j`
  rw [h.next w i is hw hi, h.fst (List.nodup_cons.1 hnd).2 hready, if_neg fun hall =>
    hj (h.other w i j hji ▸ hall j hjl)]
  refine ⟨rfl, fun hkeep => h.self w i ?_⟩
  rw [← h.frame hready (List.nodup_cons.1 hnd).1, hkeep, hi]

theorem keeps_iff (h : RankLoop loop turn ready need) (hw : ready w) :
    ((loop (List.finRange n) w).1 = .errRmaSync → (loop (List.finRange n) w).2 = w) ↔
      Uniform need w := by
  refine ⟨fun hk => ?_, fun hu hrej => h.uniform hw hu (by rw [hrej]; nofun)⟩
  by_contra hu
  obtain ⟨hrej, hne⟩ := h.halfway hw hu
  exact hne (congrArg remoteLockState (hk hrej))

theorem keeps_locks_iff (h : RankLoop loop turn ready need) (hw : ready w) :
    ((loop (List.finRange n) w).1 ≠ .success →
      (loop (List.finRange n) w).2.remoteLockState = w.remoteLockState ∧
      (loop (List.finRange n) w).2.epochLockCount = w.epochLockCount ∧
      (loop (List.finRange n) w).2.epochState = w.epochState) ↔ Uniform need w := by
  refine ⟨fun hk => ?_, fun hu hrej => ?_⟩
  · by_contra hu
    obtain ⟨hrej, hne⟩ := h.halfway hw hu
    exact hne (hk (by rw [hrej]; nofun)).1
  · rw [h.uniform hw hu hrej]
    exact ⟨rfl, rfl, rfl⟩

end RankLoop

theorem lockLoop : RankLoop (n := n) winLockAllLoop lockTurn
    (fun w => w.epochState = .none ∨ w.epochState = .fenceIssued ∨ w.epochState = .lock)
    .unlocked where
  nil _ := rfl
  stop w i is hi := by
    rcases winLockAllLoop_cons w i is with ⟨he, -⟩ | ⟨hu, -⟩
    · exact he
    · exact absurd hu hi
  next w i is hs hi := by
    rcases winLockAllLoop_cons w i is with ⟨-, hbad⟩ | ⟨-, -, he⟩
    · exact hbad.elim (fun hne => absurd hi hne) fun hns => absurd hs hns
    · exact he
  ready _ _ _ _ := .inr (.inr rfl)
  self w i := by simp [lockTurn]
  other w i j hji := update_of_ne hji _ _

theorem unlockLoop : RankLoop (n := n) winUnlockAllLoop unlockTurn EpochWin.Ok .lockedAll where
  nil _ := rfl
  stop w i is hi := by simp only [winUnlockAllLoop]; rw [if_pos hi]
  next w i is hw hi := by
    rcases winUnlockAllLoop_cons hw i is with ⟨-, hbad⟩ | ⟨-, he⟩
    · exact absurd hi hbad
    · exact he
  ready _ _ hw hi := unlockTurn_ok hw hi
  self w i := by simp [unlockTurn]
  other w i j hji := update_of_ne hji _ _

/-! ## RMA calls keep the invariant -/

theorem trackAccess_ok (h : w.Ok) (request : Bool) (rest : Errno) :
    (trackAccess request rest w).2.Ok := by
  unfold trackAccess
  split
  · exact h
  split
  · exact h
  simp only
  split
  · rename_i hs
    have hp := h.post
    have ht := h.start
    refine h.of_noLock (by simp [hs]) rfl rfl (by simp) (by simp) ?_ ?_ <;> simp_all
  · exact h

theorem trackAccess_reject (request : Bool) (a : RmaArgs)
    (hr : (trackAccess request a.rest w).1 = .errRmaSync) :
    (trackAccess request a.rest w).2 = w := by
  unfold trackAccess at hr ⊢
  split at hr
  · rw [if_pos (by assumption)]
  split at hr
  · rw [if_neg (by assumption), if_pos (by assumption)]
  · unfold RmaArgs.rest at hr
    split at hr <;> cases hr

theorem putGeneric_ok (h : w.Ok) (a : RmaArgs) : (putGeneric a w).2.Ok := by
  unfold putGeneric
  split
  · exact h
  · exact trackAccess_ok h _ _

theorem getGeneric_ok (h : w.Ok) (a : RmaArgs) : (getGeneric a w).2.Ok := putGeneric_ok h a

theorem accumulateGeneric_ok (h : w.Ok) (a : RmaArgs) : (accumulateGeneric a w).2.Ok := by
  unfold accumulateGeneric
  split_ifs
  · exact h
  · exact putGeneric_ok h a
  · exact h
  · exact trackAccess_ok h _ _

theorem getAccumulateGeneric_ok (h : w.Ok) (api : Bool) (a : RmaArgs) :
    (getAccumulateGeneric api a w).2.Ok := by
  unfold getAccumulateGeneric
  split_ifs
  · exact h
  · exact getGeneric_ok h a
  · exact accumulateGeneric_ok (getGeneric_ok h _) a
  · exact h
  · exact trackAccess_ok h _ _

theorem fetchAndOp_ok (h : w.Ok) (api : Bool) (a : RmaArgs) :
    (EpochWin.fetchAndOp api a w).2.Ok := by
  unfold EpochWin.fetchAndOp
  split_ifs
  · exact h
  · exact getGeneric_ok h _
  · exact trackAccess_ok h _ _
  · exact getAccumulateGeneric_ok h _ _

theorem compareAndSwap_ok (h : w.Ok) (api : Bool) (a : RmaArgs) :
    (EpochWin.compareAndSwap api a w).2.Ok := by
  unfold EpochWin.compareAndSwap
  split
  · exact h
  split
  · exact trackAccess_ok h _ _
  simp only
  split
  · exact putGeneric_ok (getGeneric_ok h _) _
  · exact getGeneric_ok h _

theorem apply_ok (h : w.Ok) (c : EpochCall n) : (w.apply c).2.Ok := by
  cases c with
  | fence r b => exact winFence_ok h r b
  | post ranks => exact winPost_ok h ranks
  | start ranks => exact winStart_ok h ranks
  | complete => exact winComplete_ok h
  | wait => exact winWait_ok h
  | test arrived => exact winTest_ok h arrived
  | lock t dest => exact winLock_ok h t dest
  | unlock dest => exact winUnlock_ok h dest
  | lockAll => exact winLockAllLoop_ok h
  | unlockAll => exact winUnlockAllLoop_ok h
  | flush => simp only [apply, winFlush]; split <;> exact h
  | put a => exact putGeneric_ok h a
  | get a => exact getGeneric_ok h a
  | accumulate a => exact accumulateGeneric_ok h a
  | getAccumulate api a => exact getAccumulateGeneric_ok h api a
  | fetchAndOp api a => exact fetchAndOp_ok h api a
  | compareAndSwap api a => exact compareAndSwap_ok h api a

theorem run_ok (cs : List (EpochCall n)) (h : w.Ok) : (w.run cs).Ok := by
  induction cs generalizing w with
  | nil => exact h
  | cons c cs ih => exact ih (apply_ok h c)

/-! ## Rejected calls -/

/-- A call that is rejected with a synchronisation error leaves the fields as they were. -/
def RejectKeeps (w : EpochWin n) (c : EpochCall n) : Prop :=
  (w.apply c).1 = .errRmaSync → (w.apply c).2 = w

/-- The loops of `MPI_Win_lock_all` and `MPI_Win_unlock_all` do not stop half way: the first rank
is already in a state that rejects the call, or no rank is. -/
def LoopUniform (w : EpochWin n) : EpochCall n → Prop
  | .lockAll =>
    (∃ i : Fin n, i.val = 0 ∧ w.remoteLockState i ≠ .unlocked) ∨
      ∀ i, w.remoteLockState i = .unlocked
  | .unlockAll =>
    (∃ i : Fin n, i.val = 0 ∧ w.remoteLockState i ≠ .lockedAll) ∨
      ∀ i, w.remoteLockState i = .lockedAll
  | _ => True

/-- In a window that cannot be locked, the first rank rejects `MPI_Win_lock_all`. -/
theorem lockAll_of_busy (h : w.Ok) (hs : ¬ (w.epochState = .none ∨ w.epochState = .fenceIssued ∨
    w.epochState = .lock)) : (winLockAll w).2 = w ∧ RankLoop.Uniform .unlocked w := by
  refine ⟨?_, .inr fun i => ?_⟩
  · rw [winLockAll]
    rcases RankLoop.finRange_eq n with h0 | ⟨i, is, -, hr⟩
    · rw [h0]
      rfl
    · rw [hr]
      rcases winLockAllLoop_cons w i is with ⟨he, -⟩ | ⟨-, hs', -⟩
      · rw [he]
      · exact absurd hs' hs
  · by_contra hne
    exact hs (.inr (.inr (h.epochState_eq_lock hne)))

theorem lockAll_keeps_iff (h : w.Ok) : w.RejectKeeps .lockAll ↔ w.LoopUniform .lockAll := by
  by_cases hs : w.epochState = .none ∨ w.epochState = .fenceIssued ∨ w.epochState = .lock
  · exact lockLoop.keeps_iff hs
  · obtain ⟨hkeep, hu⟩ := lockAll_of_busy h hs
    exact iff_of_true (fun _ => hkeep) hu

theorem unlockAll_keeps_iff (h : w.Ok) : w.RejectKeeps .unlockAll ↔ w.LoopUniform .unlockAll :=
  unlockLoop.keeps_iff h

theorem putGeneric_reject (a : RmaArgs) (hr : (putGeneric a w).1 = .errRmaSync) :
    (putGeneric a w).2 = w := by
  unfold putGeneric at hr ⊢
  split_ifs at hr ⊢
  exact trackAccess_reject _ _ hr

theorem accumulateGeneric_reject (a : RmaArgs) (hr : (accumulateGeneric a w).1 = .errRmaSync) :
    (accumulateGeneric a w).2 = w := by
  unfold accumulateGeneric at hr ⊢
  split_ifs at hr ⊢
  · exact putGeneric_reject a hr
  · exact trackAccess_reject _ _ hr

theorem getAccumulateGeneric_reject (api : Bool) (a : RmaArgs)
    (hr : (getAccumulateGeneric api a w).1 = .errRmaSync) :
    (getAccumulateGeneric api a w).2 = w := by
  unfold getAccumulateGeneric at hr ⊢
  split_ifs at hr ⊢
  · exact putGeneric_reject a hr
  · exact trackAccess_reject _ _ hr

theorem fetchAndOp_reject (api : Bool) (a : RmaArgs)
    (hr : (EpochWin.fetchAndOp api a w).1 = .errRmaSync) :
    (EpochWin.fetchAndOp api a w).2 = w := by
  unfold EpochWin.fetchAndOp at hr ⊢
  split_ifs at hr ⊢
  · exact putGeneric_reject _ hr
  · exact trackAccess_reject _ _ hr
  · exact getAccumulateGeneric_reject _ _ hr

theorem compareAndSwap_reject (api : Bool) (a : RmaArgs)
    (hr : (EpochWin.compareAndSwap api a w).1 = .errRmaSync) :
    (EpochWin.compareAndSwap api a w).2 = w := by
  unfold EpochWin.compareAndSwap at hr ⊢
  split_ifs at hr ⊢
  exact trackAccess_reject _ _ hr

theorem rejectKeeps_iff (h : w.Ok) (c : EpochCall n) : w.RejectKeeps c ↔ w.LoopUniform c := by
  cases c with
  | lockAll => exact lockAll_keeps_iff h
  | unlockAll => exact unlockAll_keeps_iff h
  | fence r b =>
    refine iff_of_true (fun hr => ?_) trivial
    simp only [apply, winFence] at hr ⊢
    split_ifs at hr ⊢
    rfl
  | post ranks =>
    refine iff_of_true (fun hr => ?_) trivial
    simp only [apply, winPost] at hr ⊢
    split_ifs at hr ⊢; rfl
  | start ranks =>
    refine iff_of_true (fun hr => ?_) trivial
    simp only [apply, winStart] at hr ⊢
    split_ifs at hr ⊢; rfl
  | complete =>
    refine iff_of_true (fun hr => ?_) trivial
    simp only [apply, winComplete] at hr ⊢
    split_ifs at hr ⊢; rfl
  | wait =>
    refine iff_of_true (fun hr => ?_) trivial
    simp only [apply, winWait] at hr ⊢
    split_ifs at hr ⊢; rfl
  | test arrived =>
    refine iff_of_true (fun hr => ?_) trivial
    simp only [apply, winTest, winWait] at hr ⊢
    split_ifs at hr ⊢
    rfl
  | lock t dest =>
    refine iff_of_true (fun hr => ?_) trivial
    cases dest with
    | none => rfl
    | some i =>
      simp only [apply] at hr ⊢
      rcases winLock_cases w t i with ⟨e, he, -⟩ | ⟨-, -, he⟩ <;> rw [he] at hr ⊢
      cases hr
  | unlock dest =>
    refine iff_of_true (fun hr => ?_) trivial
    cases dest with
    | none => rfl
    | some i =>
      simp only [apply] at hr ⊢
      rcases winUnlock_cases w i with he | ⟨-, he⟩ <;> rw [he] at hr ⊢
      cases hr
  | flush =>
    refine iff_of_true (fun hr => ?_) trivial
    simp only [apply, winFlush] at hr ⊢
    split_ifs at hr ⊢; rfl
  | put a => exact iff_of_true (putGeneric_reject a) trivial
  | get a => exact iff_of_true (putGeneric_reject a) trivial
  | accumulate a => exact iff_of_true (accumulateGeneric_reject a) trivial
  | getAccumulate api a => exact iff_of_true (getAccumulateGeneric_reject api a) trivial
  | fetchAndOp api a => exact iff_of_true (fetchAndOp_reject api a) trivial
  | compareAndSwap api a => exact iff_of_true (compareAndSwap_reject api a) trivial

def Along (P : EpochWin n → EpochCall n → Prop) (cs : List (EpochCall n)) : Prop :=
  ∀ pre c, pre ++ [c] <+: cs → P (run init pre) c

/-- Over every sequence of calls on a window the epoch fields agree with each other, and all
rejected calls of the sequence leave them as they were exactly if no `MPI_Win_lock_all` or
`MPI_Win_unlock_all` of it finds the first rank ready and a later one not. -/
theorem epoch_fields_exact (cs : List (EpochCall n)) :
    (run init cs).Ok ∧ (Along RejectKeeps cs ↔ Along LoopUniform cs) := by
  refine ⟨run_ok cs init_ok, ?_⟩
  exact forall₂_congr fun pre c =>
    imp_congr_right fun _ => rejectKeeps_iff (run_ok pre init_ok) c

/-- With rank 1 of two ranks locked, `MPI_Win_lock_all` locks rank 0, finds rank 1 locked and
returns a synchronisation error without giving rank 0 back. -/
theorem lockAll_reject_leaves_lock :
    ¬ ∀ (n : Nat) (cs : List (EpochCall n)), (run init cs).Ok ∧ Along RejectKeeps cs := by
  intro hall
  have hk := (hall 2 [.lock .exclusive (some 1), .lockAll]).2
    [.lock .exclusive (some 1)] .lockAll (prefix_rfl)
  have hrej : ((run init [.lock .exclusive (some 1)] : EpochWin 2).apply .lockAll).1 =
      .errRmaSync := by decide
  exact absurd (hk hrej) (by decide)

def ErrorKeeps (w : EpochWin n) (c : EpochCall n) : Prop :=
  (w.apply c).1 ≠ .success →
    (w.apply c).2.remoteLockState = w.remoteLockState ∧
    (w.apply c).2.epochLockCount = w.epochLockCount ∧ (w.apply c).2.epochState = w.epochState

/-- After any calls, `MPI_Win_lock_all` and `MPI_Win_unlock_all` change nothing when they return an
error, if and only if their loops cannot stop half way. -/
theorem lock_all_atomic_iff (cs : List (EpochCall n)) :
    ((run init cs).ErrorKeeps .lockAll ↔ (run init cs).LoopUniform .lockAll) ∧
    ((run init cs).ErrorKeeps .unlockAll ↔ (run init cs).LoopUniform .unlockAll) := by
  have hok := run_ok cs (init_ok (n := n))
  generalize run init cs = w at hok
  refine ⟨?_, unlockLoop.keeps_locks_iff hok⟩
  by_cases hs : w.epochState = .none ∨ w.epochState = .fenceIssued ∨ w.epochState = .lock
  · exact lockLoop.keeps_locks_iff hs
  · obtain ⟨hkeep, hu⟩ := lockAll_of_busy hok hs
    refine iff_of_true (fun _ => ?_) hu
    change (winLockAll w).2.remoteLockState = _ ∧ (winLockAll w).2.epochLockCount = _ ∧
      (winLockAll w).2.epochState = _
    rw [hkeep]
    exact ⟨rfl, rfl, rfl⟩

/-- With both of two ranks locked by `MPI_Win_lock_all` and rank 1 unlocked, `MPI_Win_unlock_all`
unlocks rank 0, finds rank 1 unlocked and returns an error. -/
theorem unlockAll_error_unlocks :
    ¬ ∀ (n : Nat) (cs : List (EpochCall n)),
      (run init cs).ErrorKeeps .lockAll ∧ (run init cs).ErrorKeeps .unlockAll := by
  intro hall
  have hkeep := ((hall 2 [.lockAll, .unlock (some 1)]).2 (by decide)).1
  exact absurd (congrFun hkeep 0) (by decide)

end EpochWin

end PsMpi.Rma
