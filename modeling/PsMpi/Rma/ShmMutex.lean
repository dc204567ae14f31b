import PsMpi.Rma.LocalPending

/-!
# The mutex of a shared-memory window
-/

open List

namespace PsMpi.Rma

inductive MutexAct
  | lock
  | unlock
  | localcopy
  | computeAccOp
deriving DecidableEq

/-- A call at a window of flavor `SHARED`: whether the window has the attribute with the mutex, and
whether the local copies to the result and to the target succeed. -/
structure ShmCall (n : Nat) where
  win : EpochWin n
  args : RmaArgs
  attr : Bool
  copyOk : Bool
  swapOk : Bool

namespace ShmCall

variable {n : Nat} (haveRmaApi : Bool) (x : ShmCall n)

/-- `MPID_PSP_shm_rma_mutex_lock` (`mpid_rma.c:763`). -/
def mutexLock : List MutexAct := if x.attr then [.lock] else []

/-- `MPID_PSP_shm_rma_mutex_unlock` (:771). -/
def mutexUnlock : List MutexAct := if x.attr then [.unlock] else []

def noRequest : ShmCall n := { x with args := { x.args with request := false } }

def checked (rest : Errno) (l : List MutexAct) : List MutexAct :=
  if (EpochWin.trackAccess x.args.request rest x.win).1 = .success then l else []

/-- `MPIDI_PSP_Put_generic` (`mpid_rma_put.c:43`). -/
def putGeneric : List MutexAct :=
  if x.args.procNull then [] else x.checked .success [.localcopy]

/-- `MPIDI_PSP_Get_generic` (`mpid_rma_get.c:64`). -/
def getGeneric : List MutexAct :=
  if x.args.procNull then [] else x.checked .success [.localcopy]

/-- `MPIDI_PSP_Accumulate_generic` (`mpid_rma_accumulate.c:47`). -/
def accumulateGeneric : List MutexAct :=
  if x.args.empty then []
  else if x.args.asPut then x.mutexLock ++ x.putGeneric ++ x.mutexUnlock
  else if x.args.procNull then []
  else x.checked x.args.rest (x.mutexLock ++ [MutexAct.computeAccOp] ++ x.mutexUnlock)

/-- `:588-600,604-615`. -/
def fetch : List MutexAct :=
  x.mutexLock ++ MutexAct.localcopy :: if x.copyOk then .computeAccOp :: x.mutexUnlock else []

/-- `:929-941,945-958`. -/
def swap : List MutexAct :=
  x.mutexLock ++ MutexAct.localcopy ::
    if x.copyOk = false then []
    else if x.args.equal = false then x.mutexUnlock
    else .localcopy :: if x.swapOk then x.mutexUnlock else []

def afterGet : ShmCall n := { x with win := (EpochWin.getGeneric x.noRequest.args x.win).2 }

/-- `MPIDI_PSP_Get_accumulate_generic` (:453). -/
def getAccumulateGeneric : List MutexAct :=
  if x.args.procNull then []
  else if x.args.noOp then x.getGeneric
  else if haveRmaApi = false ∨ x.args.contig = false then
    x.noRequest.getGeneric ++ x.afterGet.accumulateGeneric
  else if x.args.empty then []
  else x.checked x.args.rest x.fetch

/-- `MPID_Fetch_and_op` (:739). -/
def fetchAndOp : List MutexAct :=
  if x.args.procNull then []
  else if x.args.noOp then x.noRequest.getGeneric
  else if haveRmaApi then x.noRequest.checked x.args.rest x.fetch
  else x.noRequest.getAccumulateGeneric haveRmaApi

/-- `MPID_Compare_and_swap` (:880). -/
def compareAndSwap : List MutexAct :=
  if x.args.procNull then []
  else if haveRmaApi then x.noRequest.checked x.args.rest x.swap
  else x.noRequest.getGeneric ++ if x.args.equal then x.noRequest.afterGet.putGeneric else []

def acts : PendOp → List MutexAct
  | .put => x.putGeneric
  | .get => x.getGeneric
  | .accumulate => x.accumulateGeneric
  | .getAccumulate => x.getAccumulateGeneric haveRmaApi
  | .fetchAndOp => x.fetchAndOp haveRmaApi
  | .compareAndSwap => x.compareAndSwap haveRmaApi

/-- An access that passes the checks of the epoch, and whose message can be prepared. -/
def Allowed : Prop :=
  x.args.transferOk = true ∧ x.win.epochState ≠ .none ∧
    (x.args.request = true → x.win.epochState = .lock ∨ x.win.epochState = .lockAll)

/-- With the RMA interface, the call comes to a local copy under the mutex that fails. -/
def CopyFails : PendOp → Prop
  | .getAccumulate => haveRmaApi = true ∧ x.attr = true ∧ x.args.procNull = false ∧
      x.args.noOp = false ∧ x.args.contig = true ∧ x.args.empty = false ∧ x.Allowed ∧
      x.copyOk = false
  | .fetchAndOp => haveRmaApi = true ∧ x.attr = true ∧ x.args.procNull = false ∧
      x.args.noOp = false ∧ x.noRequest.Allowed ∧ x.copyOk = false
  | .compareAndSwap => haveRmaApi = true ∧ x.attr = true ∧ x.args.procNull = false ∧
      x.noRequest.Allowed ∧ (x.copyOk = false ∨ x.args.equal = true ∧ x.swapOk = false)
  | _ => False

/-! ## Balance -/

def Balanced (l : List MutexAct) : Prop := l.count .lock = l.count .unlock

variable {haveRmaApi x} {l m : List MutexAct}

theorem Balanced.nil : Balanced [] := rfl

theorem Balanced.append (hl : Balanced l) (hm : Balanced m) : Balanced (l ++ m) := by
  unfold Balanced at *
  rw [count_append, count_append, hl, hm]

theorem Balanced.locked (h : Balanced l) : Balanced (x.mutexLock ++ l ++ x.mutexUnlock) := by
  unfold Balanced mutexLock mutexUnlock at *
  cases x.attr <;> simp [h]

theorem Balanced.checked (h : Balanced l) (rest : Errno) : Balanced (x.checked rest l) := by
  unfold ShmCall.checked
  split
  · exact h
  · exact .nil

theorem Balanced.ite {c : Prop} [Decidable c] (hl : Balanced l) (hm : Balanced m) :
    Balanced (if c then l else m) := by
  split <;> assumption

theorem balanced_single {a : MutexAct} (h : a = .localcopy ∨ a = .computeAccOp) :
    Balanced [a] := by
  rcases h with rfl | rfl <;> rfl

theorem getGeneric_balanced : Balanced x.getGeneric :=
  .ite .nil (.checked (balanced_single (.inl rfl)) _)

theorem accumulateGeneric_balanced : Balanced x.accumulateGeneric :=
  .ite .nil (.ite (.locked getGeneric_balanced)
    (.ite .nil (.checked (.locked (balanced_single (.inr rfl))) _)))

theorem fetch_balanced_iff : Balanced x.fetch ↔ ¬ (x.attr = true ∧ x.copyOk = false) := by
  unfold Balanced fetch mutexLock mutexUnlock
  cases x.attr <;> cases x.copyOk <;> decide

theorem swap_balanced_iff : Balanced x.swap ↔
    ¬ (x.attr = true ∧ (x.copyOk = false ∨ x.args.equal = true ∧ x.swapOk = false)) := by
  unfold Balanced swap mutexLock mutexUnlock
  cases x.attr <;> cases x.copyOk <;> cases x.args.equal <;> cases x.swapOk <;> decide

theorem checked_balanced_iff :
    Balanced (x.checked x.args.rest l) ↔ (x.Allowed → Balanced l) := by
  have hall : (EpochWin.trackAccess x.args.request x.args.rest x.win).1 = .success ↔
      x.Allowed := by
    unfold EpochWin.trackAccess Allowed RmaArgs.rest
    cases x.args.request <;> cases x.args.transferOk <;> cases x.win.epochState <;> simp
  unfold ShmCall.checked
  by_cases h : x.Allowed
  · simp [hall, h]
  · simp [hall, h, Balanced.nil]

theorem getAccumulateGeneric_balanced_iff :
    Balanced (x.getAccumulateGeneric haveRmaApi) ↔ ¬ x.CopyFails haveRmaApi .getAccumulate := by
  unfold getAccumulateGeneric CopyFails
  split
  · simp_all [Balanced.nil]
  · split
    · simp_all [getGeneric_balanced]
    · split
      · rename_i hapi
        refine iff_of_true (getGeneric_balanced.append accumulateGeneric_balanced) ?_
        rcases hapi with h | h <;> simp [h]
      · split
        · simp_all [Balanced.nil]
        · rw [checked_balanced_iff, fetch_balanced_iff]
          simp_all
          exact forall_comm

theorem fetchAndOp_balanced_iff :
    Balanced (x.fetchAndOp haveRmaApi) ↔ ¬ x.CopyFails haveRmaApi .fetchAndOp := by
  unfold fetchAndOp
  split
  · simp_all [Balanced.nil, CopyFails]
  · split
    · simp_all [getGeneric_balanced, CopyFails]
    · split
      · refine (checked_balanced_iff (x := x.noRequest)).trans ?_
        have hf : Balanced x.fetch ↔ _ := fetch_balanced_iff
        simp_all [CopyFails]
        exact forall_comm
      · rw [getAccumulateGeneric_balanced_iff]
        simp_all [CopyFails]

theorem compareAndSwap_balanced_iff :
    Balanced (x.compareAndSwap haveRmaApi) ↔ ¬ x.CopyFails haveRmaApi .compareAndSwap := by
  unfold compareAndSwap CopyFails
  split
  · simp_all [Balanced.nil]
  · split
    · refine (checked_balanced_iff (x := x.noRequest)).trans ?_
      have hs : Balanced x.swap ↔ _ := swap_balanced_iff
      simp_all
      exact forall_comm
    · refine iff_of_true (getGeneric_balanced.append (.ite getGeneric_balanced .nil)) ?_
      simp_all

/-- The releases of the mutex in a call are as many as its acquisitions iff the call does not come
to a failing copy under the mutex. -/
theorem mutex_balanced_iff (haveRmaApi : Bool) (op : PendOp) (x : ShmCall n) :
    (x.acts haveRmaApi op).count .lock = (x.acts haveRmaApi op).count .unlock ↔
      ¬ x.CopyFails haveRmaApi op := by
  cases op with
  | put | get => exact iff_of_true getGeneric_balanced id
  | accumulate => exact iff_of_true accumulateGeneric_balanced id
  | getAccumulate => exact getAccumulateGeneric_balanced_iff
  | fetchAndOp => exact fetchAndOp_balanced_iff
  | compareAndSwap => exact compareAndSwap_balanced_iff

/-- A get-accumulate of two elements to a result of one element: the copy is truncated. -/
theorem not_forall_mutex_balanced : ¬ ∀ (haveRmaApi : Bool) (op : PendOp) (x : ShmCall 2),
    (x.acts haveRmaApi op).count .lock = (x.acts haveRmaApi op).count .unlock := by
  intro h
  have := h true .getAccumulate ⟨{ (.init : EpochWin 2) with epochState := .lock },
    ⟨false, false, false, true, false, false, false, true⟩, true, false, true⟩
  exact absurd this (by decide)

end ShmCall

end PsMpi.Rma
