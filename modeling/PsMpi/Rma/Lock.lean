import PsMpi.Lib.Trans

/-!
# The lock manager of a window
-/

namespace PsMpi.Rma

/-- A lock request, `MPIDI_PSP_PSCOM_Request_rma_lock_t` with the rank its answer goes to.
`mpidpre.h:306`. -/
structure LockReq where
  id : Nat
  origin : Nat
  exclusive : Bool
  deriving DecidableEq

/-- `MPID_DEV_WIN_DECL` (:645-649). -/
structure LockMgr where
  lockCnt : Nat
  lockExclusive : Bool
  lockList : List LockReq

/-- `MPID_Win_create` (`mpid_rma.c:329-331`). -/
def LockMgr.init : LockMgr := ⟨0, false, []⟩

/-- `do_trylock` (`mpid_rma_sync.c:445`). -/
def doTrylock (w : LockMgr) (exclusive : Bool) : Bool × LockMgr :=
  if w.lockCnt = 0 ∨ (w.lockExclusive = false ∧ exclusive = false) then
    (true, { w with lockCnt := w.lockCnt + 1, lockExclusive := exclusive })
  else
    (false, w)

/-- `do_lock` (:462). -/
def doLock (w : LockMgr) (req : LockReq) : Option LockReq × LockMgr :=
  match doTrylock w req.exclusive with
  | (true, w') => (some req, w')
  | (false, w') => (none, { w' with lockList := w'.lockList ++ [req] })

/-- Release one lock and try to grant the first waiting request, which goes back to the head of
the list when it cannot be granted. `do_unlock` (:475). -/
def doUnlock (w : LockMgr) : Option LockReq × LockMgr :=
  let w := { w with lockCnt := w.lockCnt - 1 }
  match w.lockList with
  | [] => (none, w)
  | lreq :: rest =>
    match doTrylock { w with lockList := rest } lreq.exclusive with
    | (true, w') => (some lreq, w')
    | (false, w') => (none, { w' with lockList := lreq :: w'.lockList })

/-! ## What one operation does -/

section
variable {w w' : LockMgr} {held : List LockReq} {r lreq : LockReq} {e : Bool}

theorem doTrylock_cases (w : LockMgr) (e : Bool) :
    ((w.lockCnt = 0 ∨ (w.lockExclusive = false ∧ e = false)) ∧
      doTrylock w e = (true, { w with lockCnt := w.lockCnt + 1, lockExclusive := e })) ∨
    (0 < w.lockCnt ∧ (w.lockExclusive = true ∨ e = true) ∧ doTrylock w e = (false, w)) := by
  unfold doTrylock
  by_cases h : w.lockCnt = 0 ∨ (w.lockExclusive = false ∧ e = false)
  · exact .inl ⟨h, if_pos h⟩
  · refine .inr ⟨by omega, ?_, if_neg h⟩
    cases hx : w.lockExclusive <;> cases e <;> simp_all

/-- The lock fields describe the locks that are `held`: `lock_cnt` counts them, they all have the
kind `lock_exclusive`, and an exclusive one is alone. -/
structure LockMgr.Describes (w : LockMgr) (held : List LockReq) : Prop where
  cnt : w.lockCnt = held.length
  kind : ∀ r ∈ held, r.exclusive = w.lockExclusive
  alone : ∀ r ∈ held, r.exclusive = true → held.length = 1

theorem LockMgr.Describes.setList (h : w.Describes held) (l : List LockReq) :
    ({ w with lockList := l } : LockMgr).Describes held := ⟨h.cnt, h.kind, h.alone⟩

theorem LockMgr.Describes.trylock (h : w.Describes held)
    (hw : w.lockCnt = 0 ∨ (w.lockExclusive = false ∧ r.exclusive = false)) :
    ({ w with lockCnt := w.lockCnt + 1, lockExclusive := r.exclusive } : LockMgr).Describes
      (r :: held) := by
  rcases hw with h0 | ⟨hs, hr⟩
  · have hnil : held = [] := List.eq_nil_of_length_eq_zero (h.cnt ▸ h0)
    subst hnil
    exact ⟨by simp [h0], by simp, by simp⟩
  · refine ⟨by simp [h.cnt], fun x hx => ?_, fun x hx hxe => ?_⟩
    all_goals
      have hfalse : x.exclusive = false := by
        rcases List.mem_cons.1 hx with rfl | hx
        · exact hr
        · rw [h.kind x hx, hs]
    · rw [hfalse]; exact hr.symm
    · rw [hfalse] at hxe; cases hxe

theorem LockMgr.Describes.release (h : w.Describes held) (hr : r ∈ held) :
    ({ w with lockCnt := w.lockCnt - 1 } : LockMgr).Describes (held.erase r) := by
  refine ⟨by simp [List.length_erase_of_mem hr, h.cnt], fun x hx => ?_, fun x hx hxe => ?_⟩
  · exact h.kind x (List.mem_of_mem_erase hx)
  · have h1 := h.alone x (List.mem_of_mem_erase hx) hxe
    have h2 := List.length_pos_of_mem hx
    rw [List.length_erase_of_mem hr] at h2 ⊢
    omega

theorem doLock_cases (h : w.Describes held) :
    (∃ w', doLock w r = (some r, w') ∧ w'.Describes (r :: held) ∧ w'.lockList = w.lockList) ∨
    (∃ w', doLock w r = (none, w') ∧ w'.Describes held ∧ w'.lockList = w.lockList ++ [r] ∧
      held ≠ []) := by
  unfold doLock
  rcases doTrylock_cases w r.exclusive with ⟨hw, he⟩ | ⟨hpos, -, he⟩ <;> rw [he]
  · exact .inl ⟨_, rfl, h.trylock hw, rfl⟩
  · refine .inr ⟨_, rfl, h.setList _, rfl, fun hnil => ?_⟩
    rw [h.cnt, hnil] at hpos
    exact absurd hpos (by simp)

theorem doUnlock_cases (h : w.Describes held) (hr : r ∈ held) :
    (∃ w', doUnlock w = (none, w') ∧ w.lockList = [] ∧ w'.lockList = [] ∧
      w'.Describes (held.erase r)) ∨
    (∃ lreq w', doUnlock w = (some lreq, w') ∧ w.lockList = lreq :: w'.lockList ∧
      w'.Describes (lreq :: held.erase r)) ∨
    (∃ w', doUnlock w = (none, w') ∧ w'.lockList = w.lockList ∧ w'.Describes (held.erase r) ∧
      held.erase r ≠ []) := by
  have hrel := h.release hr
  unfold doUnlock
  cases hl : w.lockList with
  | nil => exact .inl ⟨_, rfl, rfl, rfl, hrel.setList []⟩
  | cons lreq rest =>
    refine .inr ?_
    rcases doTrylock_cases { w with lockCnt := w.lockCnt - 1, lockList := rest } lreq.exclusive with
      ⟨hw, he⟩ | ⟨hpos, -, he⟩
    · exact .inl ⟨lreq, _, by simp only [he], rfl, (hrel.setList rest).trylock hw⟩
    · refine .inr ⟨_, by simp only [he], rfl, (hrel.setList _), fun hnil => ?_⟩
      have := hrel.cnt
      rw [hnil] at this
      simp only [List.length_nil] at this hpos
      omega

end

end PsMpi.Rma
