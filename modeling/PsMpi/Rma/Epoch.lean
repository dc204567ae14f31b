import Mathlib.Data.Fintype.Pi

/-!
# The epoch state of a window
-/

namespace PsMpi.Rma

/-- `MPID_PSP_Win_epoch_states` (`mpidpre.h:453`). -/
inductive EpochState
  | none
  | fence
  | fenceIssued
  | post
  | start
  | pscw
  | lock
  | lockAll
  deriving DecidableEq

/-- `MPID_PSP_Win_lock_state` (:446). -/
inductive LockState
  | unlocked
  | locked
  | lockedAll
  deriving DecidableEq

/-- The lock type of `MPI_Win_lock`; `other` is a value that is neither `MPI_LOCK_EXCLUSIVE` nor
`MPI_LOCK_SHARED`. -/
inductive LockType
  | exclusive
  | shared
  | other
  deriving DecidableEq

/-- The error codes of the calls; `other` is an error of a collective or of a data transfer. -/
inductive Errno
  | success
  | errRmaSync
  | errArg
  | other
  deriving DecidableEq

/-- What an RMA call reads besides the epoch: whether its target is `MPI_PROC_NULL`, whether it has
a request, whether one of its types is empty, whether all of its types are contiguous with a zero
lower bound, whether it is a replacing accumulate that may be done as a put, whether its operation
is `MPI_NO_OP`, whether a compare-and-swap finds the compared value, and whether the data transfer
fails. -/
structure RmaArgs where
  procNull : Bool
  request : Bool
  empty : Bool
  contig : Bool
  asPut : Bool
  noOp : Bool
  equal : Bool
  transferOk : Bool

def RmaArgs.rest (a : RmaArgs) : Errno := if a.transferOk then .success else .other

/-- `MPID_DEV_WIN_DECL` (:641-653). -/
structure EpochWin (n : Nat) where
  epochState : EpochState
  epochLockCount : Int
  remoteLockState : Fin n → LockState
  ranksPost : Option (List Int)
  ranksStart : Option (List Int)
  deriving DecidableEq

namespace EpochWin

variable {n : Nat}

/-- `MPID_Win_create` (`mpid_rma.c:325-335,380`). -/
def init : EpochWin n := ⟨.none, 0, fun _ => .unlocked, Option.none, Option.none⟩

/-! ## Active target -/

/-- `MPID_Win_fence` (`mpid_rma_sync.c:133`). -/
def winFence (reduceScatter barrier : Bool) (w : EpochWin n) : Errno × EpochWin n :=
  if w.epochState ≠ .none ∧ w.epochState ≠ .fence ∧ w.epochState ≠ .fenceIssued then
    (.errRmaSync, w)
  else if reduceScatter = false then
    (.other, w)
  else
    (if barrier then .success else .other, { w with epochState := .fenceIssued })

/-- `MPID_Win_post` (:187). -/
def winPost (ranks : List Int) (w : EpochWin n) : Errno × EpochWin n :=
  if w.epochState ≠ .none ∧ w.epochState ≠ .fenceIssued ∧ w.epochState ≠ .start then
    (.errRmaSync, w)
  else
    (.success, { w with
      epochState := if w.epochState = .start then .pscw else .post
      ranksPost := some ranks })

/-- `MPID_Win_start` (:238). -/
def winStart (ranks : List Int) (w : EpochWin n) : Errno × EpochWin n :=
  if w.epochState ≠ .none ∧ w.epochState ≠ .fenceIssued ∧ w.epochState ≠ .post then
    (.errRmaSync, w)
  else
    (.success, { w with
      epochState := if w.epochState = .post then .pscw else .start
      ranksStart := some ranks })

/-- `MPID_Win_complete` (:289). -/
def winComplete (w : EpochWin n) : Errno × EpochWin n :=
  if w.epochState ≠ .pscw ∧ w.epochState ≠ .start then
    (.errRmaSync, w)
  else
    (.success, { w with
      epochState := if w.epochState = .pscw then .post else .none
      ranksStart := Option.none })

/-- `MPID_Win_wait` (:345). -/
def winWait (w : EpochWin n) : Errno × EpochWin n :=
  if w.epochState ≠ .pscw ∧ w.epochState ≠ .post then
    (.errRmaSync, w)
  else
    (.success, { w with
      epochState := if w.epochState = .pscw then .start else .none
      ranksPost := Option.none })

/-- `MPID_Win_test` (:399). -/
def winTest (completeArrived : Int → Bool) (w : EpochWin n) : Errno × EpochWin n :=
  if w.epochState ≠ .pscw ∧ w.epochState ≠ .post then
    (.errRmaSync, w)
  else if (w.ranksPost.getD []).all completeArrived then
    winWait w
  else
    (.success, w)

/-! ## Passive target -/

/-- `MPID_Win_lock` (:567). -/
def winLock (lockType : LockType) (dest : Option (Fin n)) (w : EpochWin n) : Errno × EpochWin n :=
  match dest with
  | Option.none => (.success, w)
  | some dest =>
    if w.remoteLockState dest ≠ .unlocked then
      (.errRmaSync, w)
    else if w.epochState ≠ .none ∧ w.epochState ≠ .fenceIssued ∧ w.epochState ≠ .lock then
      (.errRmaSync, w)
    else if lockType = .other then
      (.errArg, w)
    else
      (.success, { w with
        remoteLockState := Function.update w.remoteLockState dest .locked
        epochState := .lock
        epochLockCount := w.epochLockCount + 1 })

/-- `MPID_Win_unlock` (:624). -/
def winUnlock (dest : Option (Fin n)) (w : EpochWin n) : Errno × EpochWin n :=
  match dest with
  | Option.none => (.success, w)
  | some dest =>
    if w.remoteLockState dest = .unlocked then
      (.errRmaSync, w)
    else if w.epochState ≠ .lock ∧ w.epochState ≠ .lockAll then
      (.errRmaSync, w)
    else
      (.success, { w with
        remoteLockState := Function.update w.remoteLockState dest .unlocked
        epochLockCount := w.epochLockCount - 1
        epochState := if w.epochLockCount - 1 = 0 then .none else w.epochState })

/-- `:716,743`. -/
def setLockState (w : EpochWin n) (i : Fin n) (l : LockState) : EpochWin n :=
  { w with remoteLockState := Function.update w.remoteLockState i l }

def winLockAllLoop : List (Fin n) → EpochWin n → Errno × EpochWin n
  | [], w => (.success, w)
  | i :: is, w =>
    if w.remoteLockState i ≠ .unlocked then
      (.errRmaSync, w)
    else
      match winLock .shared (some i) w with
      | (.success, w') => winLockAllLoop is (w'.setLockState i .lockedAll)
      | (mpiError, w') => (mpiError, w')

/-- `MPID_Win_lock_all` (:699). -/
def winLockAll (w : EpochWin n) : Errno × EpochWin n := winLockAllLoop (List.finRange n) w

def winUnlockAllLoop : List (Fin n) → EpochWin n → Errno × EpochWin n
  | [], w => (.success, w)
  | i :: is, w =>
    if w.remoteLockState i ≠ .lockedAll then
      (.errRmaSync, w)
    else
      match winUnlock (some i) w with
      | (.success, w') => winUnlockAllLoop is (w'.setLockState i .unlocked)
      | (mpiError, w') => (mpiError, w')

/-- `MPID_Win_unlock_all` (:726). -/
def winUnlockAll (w : EpochWin n) : Errno × EpochWin n := winUnlockAllLoop (List.finRange n) w

/-- `MPID_Win_sync`, `MPID_Win_flush`, `MPID_Win_flush_all`, `MPID_Win_flush_local`,
`MPID_Win_flush_local_all` (:683-913). -/
def winFlush (w : EpochWin n) : Errno × EpochWin n :=
  if w.epochState ≠ .lock ∧ w.epochState ≠ .lockAll then (.errRmaSync, w) else (.success, w)

/-! ## RMA calls -/

/-- The checks that every RMA operation makes on the epoch and the tracking of a fence epoch, for an
operation with or without a request. `mpid_rma_put.c:72-88`, `mpid_rma_get.c:91-107`,
`mpid_rma_accumulate.c:106-122`. -/
def trackAccess (request : Bool) (rest : Errno) (w : EpochWin n) : Errno × EpochWin n :=
  if request = true ∧ w.epochState ≠ .lock ∧ w.epochState ≠ .lockAll then
    (.errRmaSync, w)
  else if w.epochState = .none then
    (.errRmaSync, w)
  else
    (rest, if w.epochState = .fenceIssued then { w with epochState := .fence } else w)

/-- `MPIDI_PSP_Put_generic` (`mpid_rma_put.c:43`). -/
def putGeneric (a : RmaArgs) (w : EpochWin n) : Errno × EpochWin n :=
  if a.procNull then (.success, w) else trackAccess a.request a.rest w

/-- `MPIDI_PSP_Get_generic` (`mpid_rma_get.c:64`). -/
def getGeneric (a : RmaArgs) (w : EpochWin n) : Errno × EpochWin n :=
  if a.procNull then (.success, w) else trackAccess a.request a.rest w

/-- `MPIDI_PSP_Accumulate_generic` (`mpid_rma_accumulate.c:47`). -/
def accumulateGeneric (a : RmaArgs) (w : EpochWin n) : Errno × EpochWin n :=
  if a.empty then (.success, w)
  else if a.asPut then putGeneric a w
  else if a.procNull then (.success, w)
  else trackAccess a.request a.rest w

/-- `MPIDI_PSP_Get_accumulate_generic` (:453). -/
def getAccumulateGeneric (haveRmaApi : Bool) (a : RmaArgs) (w : EpochWin n) :
    Errno × EpochWin n :=
  if a.procNull then (.success, w)
  else if a.noOp then getGeneric a w
  else if haveRmaApi = false ∨ a.contig = false then
    (.success, (accumulateGeneric a (getGeneric { a with request := false } w).2).2)
  else if a.empty then (.success, w)
  else trackAccess a.request a.rest w

/-- `MPID_Fetch_and_op` (:739). -/
def fetchAndOp (haveRmaApi : Bool) (a : RmaArgs) (w : EpochWin n) : Errno × EpochWin n :=
  if a.procNull then (.success, w)
  else if a.noOp then getGeneric { a with request := false } w
  else if haveRmaApi then trackAccess false a.rest w
  else getAccumulateGeneric haveRmaApi { a with request := false } w

/-- Without the pscom RMA interface a get and, if the values are equal, a put follow each other and
their results are dropped. `MPID_Compare_and_swap` (:880). -/
def compareAndSwap (haveRmaApi : Bool) (a : RmaArgs) (w : EpochWin n) : Errno × EpochWin n :=
  if a.procNull then (.success, w)
  else if haveRmaApi then trackAccess false a.rest w
  else
    let w' := (getGeneric { a with request := false } w).2
    (.success, if a.equal then (putGeneric { a with request := false } w').2 else w')

end EpochWin

/-! ## Sequences of calls -/

inductive EpochCall (n : Nat)
  | fence (reduceScatter barrier : Bool)
  | post (ranks : List Int)
  | start (ranks : List Int)
  | complete
  | wait
  | test (completeArrived : Int → Bool)
  | lock (lockType : LockType) (dest : Option (Fin n))
  | unlock (dest : Option (Fin n))
  | lockAll
  | unlockAll
  | flush
  | put (a : RmaArgs)
  | get (a : RmaArgs)
  | accumulate (a : RmaArgs)
  | getAccumulate (haveRmaApi : Bool) (a : RmaArgs)
  | fetchAndOp (haveRmaApi : Bool) (a : RmaArgs)
  | compareAndSwap (haveRmaApi : Bool) (a : RmaArgs)

namespace EpochWin

variable {n : Nat}

def apply (w : EpochWin n) : EpochCall n → Errno × EpochWin n
  | .fence reduceScatter barrier => winFence reduceScatter barrier w
  | .post ranks => winPost ranks w
  | .start ranks => winStart ranks w
  | .complete => winComplete w
  | .wait => winWait w
  | .test completeArrived => winTest completeArrived w
  | .lock lockType dest => winLock lockType dest w
  | .unlock dest => winUnlock dest w
  | .lockAll => winLockAll w
  | .unlockAll => winUnlockAll w
  | .flush => winFlush w
  | .put a => putGeneric a w
  | .get a => getGeneric a w
  | .accumulate a => accumulateGeneric a w
  | .getAccumulate haveRmaApi a => getAccumulateGeneric haveRmaApi a w
  | .fetchAndOp haveRmaApi a => EpochWin.fetchAndOp haveRmaApi a w
  | .compareAndSwap haveRmaApi a => EpochWin.compareAndSwap haveRmaApi a w

def run (w : EpochWin n) (cs : List (EpochCall n)) : EpochWin n :=
  cs.foldl (fun w c => (w.apply c).2) w

end EpochWin

end PsMpi.Rma
