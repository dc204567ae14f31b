import PsMpi.Lib.Trans
import PsMpi.Rma.Epoch
import PsMpi.Rma.OpCount
import Mathlib.Data.Fintype.BigOperators

/-!
# The processes of one window
-/

open PsMpi.Lib

namespace PsMpi.Rma

/-- `MPID_do_recv_rma_unlock_req`, `MPID_do_recv_rma_flush_req` (`mpid_rma_sync.c:535,756`). -/
inductive CtrlPhase
  | idle
  | requested (rmaOpCounter : Int)
  | handling (rmaOpCounter : Int)
  | answered
  | flushed
  deriving DecidableEq

/-- A COMPLETE message, with the number of operations that its origin had issued before it. -/
structure Complete where
  rmaOpCounter : Int
  mark : Nat
  deriving DecidableEq

/-- What lies between an origin and a target: the operations issued and the ones that have not
arrived, the operations that the target has accounted for, the control request, the number of POST
messages for the origin and the COMPLETE messages for the target. -/
structure Pair where
  issued : Nat
  flight : List Nat
  accounted : Int
  ctrl : CtrlPhase
  posts : Nat
  completes : List Complete

/-- The call that a process is in, with the ranks that a loop over ranks has left. See the loops of
`:158,373-383,624,734,797,837`. -/
inductive Call (n : Nat)
  | none
  | unlock (dest : Fin n) (rest : List (Fin n))
  | unlockAll (rest : List (Fin n))
  | flush (dest : Fin n)
  | flushAll (rest : List (Fin n))
  | wait (rest : List (Fin n)) (passed : List (Fin n × Complete))
  | waitOps (rank : Fin n) (c : Complete) (rest : List (Fin n)) (passed : List (Fin n × Complete))
  | fence
  | fenceWait (totalRmaPutsAccs : Int)
  | barrier
  deriving DecidableEq

structure AcctSt (n : Nat) where
  epoch : Fin n → EpochWin n
  cnt : Fin n → OpCount (Fin n)
  localPending : Fin n → Fin n → Nat
  call : Fin n → Call n
  pair : Fin n → Fin n → Pair
  contrib : Fin n → Nat → Fin n → Int
  fences : Fin n → Nat
  resets : Fin n → Nat

inductive AcctAct (n : Nat)
  | rmaOp (origin target : Fin n) (request : Bool)
  | originDone (origin target : Fin n)
  | opArrived (origin target : Fin n) (op : Nat)
  | lock (origin : Fin n) (lockType : LockType) (dest : Option (Fin n))
  | lockAll (origin : Fin n)
  | unlock (origin : Fin n) (dest : Option (Fin n))
  | unlockAll (origin : Fin n)
  | unlockNext (origin : Fin n)
  | flush (origin dest : Fin n)
  | flushAll (origin : Fin n)
  | flushAllDone (origin : Fin n)
  | ctrlBegin (origin target : Fin n)
  | ctrlEnd (origin target : Fin n)
  | recvAnswer (origin target : Fin n)
  | post (target : Fin n) (ranks : List (Fin n))
  | start (origin : Fin n) (ranks : List (Fin n))
  | complete (origin : Fin n)
  | wait (target : Fin n)
  | test (target : Fin n)
  | recvComplete (target : Fin n)
  | waitNext (target : Fin n)
  | waitDone (target : Fin n)
  | fence (rank : Fin n)
  | reduceScatter (rank : Fin n)
  | fenceReset (rank : Fin n)
  | barrierLeave (rank : Fin n)

/-- `get_group_ranks` (:88). -/
def storeRanks {n : Nat} (ranks : List (Fin n)) : List Int := ranks.map fun r => (r.val : Int)

def loadRanks {n : Nat} (ranks : Option (List Int)) : List (Fin n) :=
  (ranks.getD []).filterMap fun i => if h : i.toNat < n then some ⟨i.toNat, h⟩ else Option.none

namespace AcctSt

variable {n : Nat}

def init : AcctSt n where
  epoch _ := .init
  cnt _ := .init
  localPending _ _ := 0
  call _ := .none
  pair _ _ := ⟨0, [], 0, .idle, 0, []⟩
  contrib _ _ _ := 0
  fences _ := 0
  resets _ := 0

/-- `rma_local_pending_cnt` (`mpidpre.h:637`). -/
def localPendingCnt (s : AcctSt n) (p : Fin n) : Nat := ∑ t, s.localPending p t

def setEpoch (s : AcctSt n) (p : Fin n) (w : EpochWin n) : AcctSt n :=
  { s with epoch := Function.update s.epoch p w }

def setCall (s : AcctSt n) (p : Fin n) (c : Call n) : AcctSt n :=
  { s with call := Function.update s.call p c }

def setCnt (s : AcctSt n) (p : Fin n) (c : OpCount (Fin n)) : AcctSt n :=
  { s with cnt := Function.update s.cnt p c }

def mapOrigin (s : AcctSt n) (o : Fin n) (f : Fin n → Pair → Pair) : AcctSt n :=
  { s with pair := Function.update s.pair o fun t => f t (s.pair o t) }

def mapTarget (s : AcctSt n) (t : Fin n) (f : Fin n → Pair → Pair) : AcctSt n :=
  { s with pair := fun o => Function.update (s.pair o) t (f o (s.pair o t)) }

def setPair (s : AcctSt n) (o t : Fin n) (p : Pair) : AcctSt n :=
  { s with pair := Function.update s.pair o (Function.update (s.pair o) t p) }

def started (s : AcctSt n) (o : Fin n) : List (Fin n) := loadRanks (s.epoch o).ranksStart

def posted (s : AcctSt n) (t : Fin n) : List (Fin n) := loadRanks (s.epoch t).ranksPost

def setLocalPending (s : AcctSt n) (o t : Fin n) (k : Nat) : AcctSt n :=
  { s with localPending :=
      Function.update s.localPending o (Function.update (s.localPending o) t k) }

/-- `MPIDI_PSP_Put_generic` (`mpid_rma_put.c:173-177,221-223`). -/
def issueOp (s : AcctSt n) (o t : Fin n) : AcctSt n :=
  ((s.setCnt o ((s.cnt o).opIssued t)).setLocalPending o t (s.localPending o t + 1)).setPair o t
    { s.pair o t with
      issued := (s.pair o t).issued + 1
      flight := (s.pair o t).flight ++ [(s.pair o t).issued] }

/-- `MPID_Win_complete` (`mpid_rma_sync.c:320-330`). -/
def sendCompletes (s : AcctSt n) (o : Fin n) (ranks : List (Fin n)) : AcctSt n :=
  (s.mapOrigin o fun t p =>
    if t ∈ ranks then
      { p with completes := p.completes ++ [⟨(s.cnt o).rmaPutsAccs t, p.issued⟩] }
    else p).setCnt o (ranks.foldl OpCount.resetTarget (s.cnt o))

/-- `MPID_Win_fence` (:151). -/
def enterFence (s : AcctSt n) (p : Fin n) : AcctSt n :=
  { s with
    fences := Function.update s.fences p (s.fences p + 1)
    contrib := Function.update s.contrib p
      (Function.update (s.contrib p) (s.fences p + 1) (s.cnt p).rmaPutsAccs) }

/-- The end of a fence before its barrier: the counters are reset, with which all operations that
the reduce-scatter has announced are accounted for. `MPID_Win_fence`
(:163-178). -/
def resetWin (s : AcctSt n) (p : Fin n) : AcctSt n :=
  let s' : AcctSt n := { s with resets := Function.update s.resets p (s.resets p + 1) }
  (((s'.setEpoch p (EpochWin.winFence true true (s.epoch p)).2).mapTarget p fun o x =>
    { x with accounted := x.accounted + s.contrib o (s.fences p) p }).setCnt p
      (s.cnt p).fenceReset)

/-- `MPID_Win_unlock` up to the request for a remote rank; `rest` are the ranks that
`MPID_Win_unlock_all` has left. `MPID_Win_unlock` (:624-659). -/
def sendUnlock (s : AcctSt n) (o dest : Fin n) (rest : List (Fin n)) : Option (AcctSt n) :=
  if (EpochWin.winUnlock (some dest) (s.epoch o)).1 ≠ .success then some (s.setCall o .none)
  else if dest = o then
    some ((s.setEpoch o (EpochWin.winUnlock (some dest) (s.epoch o)).2).setCall o (.unlockAll rest))
  else if s.localPendingCnt o = 0 then
    some ((s.setPair o dest { s.pair o dest with
      ctrl := .requested ((s.cnt o).rmaPutsAccs dest) }).setCall o (.unlock dest rest))
  else Option.none

def step (shared : Bool) (s : AcctSt n) : AcctAct n → Option (AcctSt n)
  | .rmaOp o t request =>
    if s.call o = .none ∧ (EpochWin.trackAccess request .success (s.epoch o)).1 = .success then
      let s' := s.setEpoch o (EpochWin.trackAccess request .success (s.epoch o)).2
      if o = t ∨ shared = true then some s' else some (s'.issueOp o t)
    else Option.none
  | .originDone o t =>
    if 0 < s.localPending o t then some (s.setLocalPending o t (s.localPending o t - 1))
    else Option.none
  | .opArrived o t op =>
    if op ∈ (s.pair o t).flight then
      some ((s.setCnt t ((s.cnt t).opArrived o)).setPair o t { s.pair o t with
        flight := (s.pair o t).flight.erase op })
    else Option.none
  | .lock o lockType dest =>
    if s.call o = .none then some (s.setEpoch o (EpochWin.winLock lockType dest (s.epoch o)).2)
    else Option.none
  | .lockAll o =>
    if s.call o = .none then some (s.setEpoch o (EpochWin.winLockAll (s.epoch o)).2)
    else Option.none
  | .unlock o dest =>
    if s.call o = .none then
      match dest with
      | Option.none => some s
      | some dest => s.sendUnlock o dest []
    else Option.none
  | .unlockAll o =>
    if s.call o = .none then some (s.setCall o (.unlockAll (List.finRange n))) else Option.none
  | .unlockNext o =>
    match s.call o with
    | .unlockAll [] => some (s.setCall o .none)
    | .unlockAll (i :: rest) =>
      if (s.epoch o).remoteLockState i ≠ .lockedAll then some (s.setCall o .none)
      else s.sendUnlock o i rest
    | _ => Option.none
  | .flush o dest =>
    if s.call o = .none ∧ (EpochWin.winFlush (s.epoch o)).1 = .success ∧
        s.localPending o dest = 0 then
      if dest = o then some s
      else
        some ((s.setPair o dest { s.pair o dest with
          ctrl := .requested ((s.cnt o).rmaPutsAccs dest) }).setCall o (.flush dest))
    else Option.none
  | .flushAll o =>
    if s.call o = .none ∧ (EpochWin.winFlush (s.epoch o)).1 = .success ∧
        s.localPendingCnt o = 0 then
      some ((s.mapOrigin o fun t p =>
        if t = o then p else { p with ctrl := .requested ((s.cnt o).rmaPutsAccs t) }).setCall o
          (.flushAll ((List.finRange n).filter (· ≠ o))))
    else Option.none
  | .flushAllDone o =>
    if s.call o = .flushAll [] then
      some ((s.mapOrigin o fun _ p => { p with ctrl := .idle }).setCall o .none)
    else Option.none
  | .ctrlBegin o t =>
    match (s.pair o t).ctrl with
    | .requested rmaOpCounter =>
      some ((s.setCnt t ((s.cnt t).ctrlReqBegin o rmaOpCounter)).setPair o t { s.pair o t with
        ctrl := .handling rmaOpCounter })
    | _ => Option.none
  | .ctrlEnd o t =>
    match (s.pair o t).ctrl with
    | .handling rmaOpCounter =>
      if (s.cnt t).allArrived o then
        some ((s.setCnt t ((s.cnt t).ctrlReqEnd rmaOpCounter)).setPair o t { s.pair o t with
          ctrl := .answered
          accounted := (s.pair o t).accounted + rmaOpCounter })
      else Option.none
    | _ => Option.none
  | .recvAnswer o t =>
    if (s.pair o t).ctrl ≠ .answered then Option.none
    else
      match s.call o with
      | .flush dest =>
        if dest = t then
          some (((s.setCnt o ((s.cnt o).resetTarget t)).setPair o t { s.pair o t with
            ctrl := .idle }).setCall o .none)
        else Option.none
      | .unlock dest rest =>
        if dest = t then
          some ((((s.setCnt o ((s.cnt o).resetTarget t)).setPair o t { s.pair o t with
            ctrl := .idle }).setEpoch o (EpochWin.winUnlock (some t) (s.epoch o)).2).setCall o
              (.unlockAll rest))
        else Option.none
      -- the answers are received from any source: the counter that is reset is the loop's
      | .flushAll (i :: rest) =>
        some (((s.setCnt o ((s.cnt o).resetTarget i)).setPair o t { s.pair o t with
          ctrl := .flushed }).setCall o (.flushAll rest))
      | _ => Option.none
  | .post t ranks =>
    if s.call t = .none ∧ (EpochWin.winPost (storeRanks ranks) (s.epoch t)).1 = .success ∧
        ranks.Nodup then
      some ((s.setEpoch t (EpochWin.winPost (storeRanks ranks) (s.epoch t)).2).mapTarget t
        fun o p => if o ∈ ranks then { p with posts := p.posts + 1 } else p)
    else Option.none
  | .start o ranks =>
    if s.call o = .none ∧ (EpochWin.winStart (storeRanks ranks) (s.epoch o)).1 = .success ∧
        ranks.Nodup ∧ ∀ t ∈ ranks, 0 < (s.pair o t).posts then
      some ((s.setEpoch o (EpochWin.winStart (storeRanks ranks) (s.epoch o)).2).mapOrigin o
        fun t p => if t ∈ ranks then { p with posts := p.posts - 1 } else p)
    else Option.none
  | .complete o =>
    if s.call o = .none ∧ (EpochWin.winComplete (s.epoch o)).1 = .success ∧
        s.localPendingCnt o = 0 then
      some ((s.setEpoch o (EpochWin.winComplete (s.epoch o)).2).sendCompletes o (s.started o))
    else Option.none
  | .wait t =>
    if s.call t = .none ∧ (EpochWin.winWait (s.epoch t)).1 = .success then
      some (s.setCall t (.wait (s.posted t) []))
    else Option.none
  | .test t =>
    if s.call t = .none ∧ (EpochWin.winWait (s.epoch t)).1 = .success ∧
        ∀ o ∈ s.posted t, (s.pair o t).completes ≠ [] then
      some (s.setCall t (.wait (s.posted t) []))
    else Option.none
  | .recvComplete t =>
    match s.call t with
    | .wait (o :: rest) passed =>
      match (s.pair o t).completes with
      | c :: cs =>
        some (((s.setCnt t ((s.cnt t).recvComplete o c.rmaOpCounter)).setPair o t { s.pair o t with
          completes := cs
          accounted := (s.pair o t).accounted + c.rmaOpCounter }).setCall t
            (.waitOps o c rest passed))
      | [] => Option.none
    | _ => Option.none
  | .waitNext t =>
    match s.call t with
    | .waitOps o c rest passed =>
      if (s.cnt t).allArrived o then some (s.setCall t (.wait rest (passed ++ [(o, c)])))
      else Option.none
    | _ => Option.none
  | .waitDone t =>
    match s.call t with
    | .wait [] _ => some ((s.setEpoch t (EpochWin.winWait (s.epoch t)).2).setCall t .none)
    | _ => Option.none
  | .fence p =>
    if s.call p = .none ∧ (EpochWin.winFence true true (s.epoch p)).1 = .success then
      some ((s.enterFence p).setCall p .fence)
    else Option.none
  | .reduceScatter p =>
    if s.call p = .fence ∧ ∀ q, s.fences p ≤ s.fences q then
      some (s.setCall p (.fenceWait (∑ q, s.contrib q (s.fences p) p)))
    else Option.none
  | .fenceReset p =>
    match s.call p with
    | .fenceWait total =>
      if (s.cnt p).rmaPutsAccsReceived = total ∧ s.localPendingCnt p = 0 then
        some ((s.resetWin p).setCall p .barrier)
      else Option.none
    | _ => Option.none
  | .barrierLeave p =>
    if s.call p = .barrier ∧ ∀ q, s.resets p ≤ s.resets q then some (s.setCall p .none)
    else Option.none

end AcctSt

def acctSys (n : Nat) (shared : Bool) : Sys (AcctSt n) (AcctAct n) := ⟨.init, AcctSt.step shared⟩

end PsMpi.Rma
