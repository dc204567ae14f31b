import Mathlib.Data.List.InsertIdx
import Mathlib.Data.List.Nodup
import PsMpi.Lib.Trans

/-!
# Pending accumulates

See `mpich2/src/mpid/psp/src/mpid_rma_accumulate.c`,
`mpich2/src/mpid/psp/src/mpid_rma_callbacks.c`.
-/

open List Option Function

namespace PsMpi.Rma

open PsMpi.Lib

inductive AccPath where
  | rmaAccumulateDone
  | rmaAccOriginCb

/-- `MPIDI_PSP_PSCOM_Request_accumulate_send_t`, `MPIDI_PSP_PSCOM_Request_rma_accumulate_t`
(`mpid_psp_request.h`). -/
structure AccReq (ι : Type*) where
  targetRank : ι
  ioDone : AccPath

/-- An accumulate: whether no data is sent, whether its operation is `MPI_REPLACE`, its target or
`none` for `MPI_PROC_NULL`, whether the window is in an epoch that permits it, whether its message
can be packed, and whether the type at the target is contiguous. -/
structure AccCall (ι : Type*) where
  empty : Bool
  replace : Bool
  targetRank : Option ι
  synced : Bool
  packed : Bool
  contig : Bool

/-- What a window is created with: the own rank, whether it is of shared memory, and whether the
library of connections has an interface for RMA. -/
structure AccConf (ι : Type*) where
  rank : ι
  shared : Bool
  haveRmaApi : Bool

/-- The fields of a window for accumulates, the requests in flight, and whether an assertion has
failed. `MPID_DEV_WIN_DECL` (`mpidpre.h:631`). -/
structure AccWin (ι : Type*) where
  enableRmaAccumulateOrdering : Bool
  rmaPendingAccumulates : ι → Int
  inFlight : List (AccReq ι)
  failed : Bool

inductive AccStep (ι : Type*) where
  | accumulate (call : AccCall ι)
  | complete (i : Nat)
  | winSetInfo (orderingNone : Bool)

namespace AccWin

variable {ι : Type*} [DecidableEq ι]

/-- `MPID_Win_create` (`mpid_rma.c:337,381`). -/
def init (ordering : Bool) : AccWin ι := ⟨ordering, fun _ => 0, [], false⟩

/-- The request that an accumulate posts: none if it has nothing to do, is a put, fails or is done
locally. `MPIDI_PSP_Accumulate_generic` (`mpid_rma_accumulate.c:71-198`). -/
def request (conf : AccConf ι) (w : AccWin ι) (call : AccCall ι) : Option (AccReq ι) :=
  if call.empty then none
  else if w.enableRmaAccumulateOrdering = false ∧ call.replace = true then none
  else
    match call.targetRank with
    | none => none
    | some target =>
      if call.synced = false ∨ call.packed = false then none
      else if target = conf.rank ∨ conf.shared = true then none
      else if conf.haveRmaApi = true ∧ call.contig = true then some ⟨target, .rmaAccOriginCb⟩
      else some ⟨target, .rmaAccumulateDone⟩

/-- The flag is set and the request is posted; before that the accumulate waits for the flag.
`MPIDI_PSP_Accumulate_generic` (`:231,306`). -/
def post (w : AccWin ι) (req : AccReq ι) : Option (AccWin ι) :=
  if w.enableRmaAccumulateOrdering = true ∧ w.rmaPendingAccumulates req.targetRank ≠ 0 then none
  else some { w with
    rmaPendingAccumulates := Function.update w.rmaPendingAccumulates req.targetRank 1
    inFlight := w.inFlight ++ [req] }

/-- `MPIDI_PSP_Accumulate_generic` (:47). -/
def accumulate (conf : AccConf ι) (w : AccWin ι) (call : AccCall ι) : Option (AccWin ι) :=
  match w.request conf call with
  | none => some w
  | some req => w.post req

def accumulateDone (w : AccWin ι) (req : AccReq ι) : AccWin ι :=
  { w with
    rmaPendingAccumulates := Function.update w.rmaPendingAccumulates req.targetRank 0
    failed := w.failed || decide (w.rmaPendingAccumulates req.targetRank ≠ 1) }

/-- `rma_accumulate_done` (:22). -/
def rmaAccumulateDone : AccWin ι → AccReq ι → AccWin ι := accumulateDone

/-- `MPIDI_PSP_rma_acc_origin_cb` (`mpid_rma_callbacks.c:64`). -/
def rmaAccOriginCb : AccWin ι → AccReq ι → AccWin ι := accumulateDone

def complete (w : AccWin ι) (i : Nat) : Option (AccWin ι) := do
  let req ← w.inFlight[i]?
  let w := { w with inFlight := w.inFlight.eraseIdx i }
  match req.ioDone with
  | .rmaAccumulateDone => return w.rmaAccumulateDone req
  | .rmaAccOriginCb => return w.rmaAccOriginCb req

/-- `MPID_Win_set_info` (`mpid_win_info.c:83`). -/
def winSetInfo (w : AccWin ι) (orderingNone : Bool) : AccWin ι :=
  if orderingNone then { w with enableRmaAccumulateOrdering := false } else w

def step (conf : AccConf ι) (w : AccWin ι) : AccStep ι → Option (AccWin ι)
  | .accumulate call => w.accumulate conf call
  | .complete i => w.complete i
  | .winSetInfo orderingNone => some (w.winSetInfo orderingNone)

end AccWin

def accSys {ι : Type*} [DecidableEq ι] (conf : AccConf ι) (ordering : Bool) :
    Sys (AccWin ι) (AccStep ι) :=
  ⟨.init ordering, AccWin.step conf⟩

namespace AccWin

variable {ι : Type*} [DecidableEq ι] {conf : AccConf ι} {w w' : AccWin ι} {req : AccReq ι}

def targets (w : AccWin ι) : List ι := w.inFlight.map (·.targetRank)

theorem accumulate_cases {call : AccCall ι} (h : w.accumulate conf call = some w') :
    w' = w ∨ ∃ req, w.request conf call = some req ∧ w.post req = some w' := by
  unfold accumulate at h
  cases hreq : w.request conf call with
  | none =>
    rw [hreq] at h
    exact .inl (Option.some.inj h).symm
  | some req =>
    rw [hreq] at h
    exact .inr ⟨req, rfl, h⟩

theorem post_cases (h : w.post req = some w') :
    (w.enableRmaAccumulateOrdering = true → w.rmaPendingAccumulates req.targetRank = 0) ∧
      w' = { w with
        rmaPendingAccumulates := Function.update w.rmaPendingAccumulates req.targetRank 1
        inFlight := w.inFlight ++ [req] } := by
  unfold post at h
  split at h
  · cases h
  · next hnot =>
    refine ⟨fun hord => ?_, (Option.some.inj h).symm⟩
    by_contra hne
    exact hnot ⟨hord, hne⟩

theorem complete_cases {i : Nat} (h : w.complete i = some w') :
    ∃ req, w.inFlight[i]? = some req ∧
      w' = { w with inFlight := w.inFlight.eraseIdx i }.accumulateDone req := by
  obtain ⟨req, hreq, hw⟩ := bind_eq_some_iff.1 h
  refine ⟨req, hreq, ?_⟩
  cases hdone : req.ioDone <;>
    · rw [hdone] at hw
      exact (Option.some.inj hw).symm

/-! ## Runs -/

theorem pending_bounds {ordering : Bool} (h : (accSys conf ordering).Reach w) (t : ι) :
    0 ≤ w.rmaPendingAccumulates t ∧ w.rmaPendingAccumulates t ≤ 1 := by
  refine Sys.Reach.inv (I := fun w => ∀ t, 0 ≤ w.rmaPendingAccumulates t ∧
    w.rmaPendingAccumulates t ≤ 1) (fun t => by simp [accSys, init]) ?_ h t
  intro w a w' hI hstep t
  have hupdate : ∀ (r : ι) (v : Int), 0 ≤ v ∧ v ≤ 1 →
      0 ≤ Function.update w.rmaPendingAccumulates r v t ∧
        Function.update w.rmaPendingAccumulates r v t ≤ 1 := by
    intro r v hv
    by_cases ht : t = r
    · rw [ht, update_self]
      exact hv
    · rw [update_of_ne ht]
      exact hI t
  cases a with
  | accumulate call =>
    rcases accumulate_cases hstep with rfl | ⟨req, -, hpost⟩
    · exact hI t
    · obtain ⟨-, rfl⟩ := post_cases hpost
      exact hupdate _ 1 (by decide)
  | complete i =>
    obtain ⟨req, -, rfl⟩ := complete_cases hstep
    exact hupdate _ 0 (by decide)
  | winSetInfo orderingNone =>
    cases hstep
    cases orderingNone <;> exact hI t

/-- No accumulate is posted to a target while another one is in flight to it, in a window that does
not keep the order. -/
def Alone (conf : AccConf ι) (w : AccWin ι) : AccStep ι → Prop
  | .accumulate call =>
    w.enableRmaAccumulateOrdering = false →
      ∀ req ∈ w.request conf call, req.targetRank ∉ w.targets
  | _ => True

instance (w : AccWin ι) (a : AccStep ι) : Decidable (Alone conf w a) := by
  cases a <;> unfold Alone <;> infer_instance

structure Flagged (w : AccWin ι) : Prop where
  nodup : w.targets.Nodup
  flag : ∀ t, w.rmaPendingAccumulates t = if t ∈ w.targets then 1 else 0
  failed : w.failed = false

theorem Flagged.init (ordering : Bool) : Flagged (AccWin.init ordering : AccWin ι) :=
  ⟨nodup_nil, fun _ => rfl, rfl⟩

theorem Flagged.waits_for_pending (h : Flagged w)
    (hord : w.enableRmaAccumulateOrdering = true) (hpost : w.post req = some w') :
    req.targetRank ∉ w.targets := by
  intro hmem
  have hzero := (post_cases hpost).1 hord
  rw [h.flag, if_pos hmem] at hzero
  cases hzero

theorem Flagged.post (h : Flagged w) (halone : req.targetRank ∉ w.targets)
    (hpost : w.post req = some w') : Flagged w' := by
  obtain ⟨-, rfl⟩ := post_cases hpost
  have htargets : ({ w with
      rmaPendingAccumulates := Function.update w.rmaPendingAccumulates req.targetRank 1
      inFlight := w.inFlight ++ [req] } : AccWin ι).targets = w.targets ++ [req.targetRank] := by
    simp [targets]
  refine ⟨?_, fun t => ?_, h.failed⟩
  · rw [htargets]
    exact nodup_append.2 ⟨h.nodup, nodup_singleton _, fun a ha b hb => by
      obtain rfl := mem_singleton.1 hb
      exact fun hab => halone (hab ▸ ha)⟩
  · rw [htargets]
    by_cases ht : t = req.targetRank
    · simp [ht]
    · simp [ht, h.flag]

theorem Flagged.complete {i : Nat} (h : Flagged w) (hcomplete : w.complete i = some w') :
    Flagged w' := by
  obtain ⟨req, hreq, rfl⟩ := complete_cases hcomplete
  have hget : w.targets[i]? = some req.targetRank := by
    rw [targets, List.getElem?_map, hreq]
    rfl
  have hmem : req.targetRank ∈ w.targets := mem_of_getElem? hget
  have htargets : ({ w with inFlight := w.inFlight.eraseIdx i }.accumulateDone req).targets
      = w.targets.erase req.targetRank := by
    obtain ⟨hi, hreq'⟩ := List.getElem?_eq_some_iff.1 hget
    have hidx : w.targets.idxOf req.targetRank = i := by
      rw [← hreq']
      exact h.nodup.idxOf_getElem i hi
    rw [erase_eq_eraseIdx_of_idxOf hidx]
    exact (eraseIdx_map (·.targetRank) w.inFlight i).symm
  refine ⟨?_, fun t => ?_, ?_⟩
  · rw [htargets]
    exact h.nodup.erase _
  · simp only [htargets, h.nodup.mem_erase_iff]
    by_cases ht : t = req.targetRank
    · simp [ht, accumulateDone]
    · simp [ht, accumulateDone, h.flag]
  · simp [accumulateDone, h.failed, h.flag, hmem]

theorem Flagged.step {a : AccStep ι} (h : Flagged w) (halone : Alone conf w a)
    (hstep : w.step conf a = some w') : Flagged w' := by
  cases a with
  | accumulate call =>
    rcases accumulate_cases hstep with rfl | ⟨req, hreq, hpost⟩
    · exact h
    · refine h.post ?_ hpost
      cases hord : w.enableRmaAccumulateOrdering with
      | true => exact h.waits_for_pending hord hpost
      | false => exact halone hord req hreq
  | complete i => exact h.complete hstep
  | winSetInfo orderingNone =>
    cases hstep
    cases orderingNone
    · exact h
    · exact ⟨h.nodup, h.flag, h.failed⟩

/-- The assertions of the callbacks hold, and no flag is negative, if accumulates are alone in
flight to their targets. -/
theorem pending_accumulates {ordering : Bool}
    (h : (accSys conf ordering).ReachWhen (Alone conf) w) :
    w.failed = false ∧ ∀ t, 0 ≤ w.rmaPendingAccumulates t := by
  have hflagged := h.inv (I := Flagged) (Flagged.init ordering)
    fun _ hI halone hstep => hI.step halone hstep
  exact ⟨hflagged.failed, fun t => (pending_bounds h.reach t).1⟩

/-- One accumulate after the other to one target, and another one to a second target meanwhile. -/
theorem pending_accumulates_two :
    ∃ w : AccWin Nat, w.inFlight.length = 2 ∧ w.failed = false ∧
      ∀ t, 0 ≤ w.rmaPendingAccumulates t := by
  let conf : AccConf Nat := ⟨0, false, false⟩
  have hrun : (((accSys conf false).checked (Alone conf)).exec (accSys conf false).init
      [.accumulate ⟨false, false, some 1, true, true, true⟩, .complete 0,
        .accumulate ⟨false, false, some 1, true, true, true⟩,
        .accumulate ⟨false, false, some 2, true, true, true⟩]).map (·.inFlight.length)
      = some 2 := by decide
  obtain ⟨w, hw, hlen⟩ := map_eq_some_iff.1 hrun
  obtain ⟨hexec, halong⟩ := Sys.checked_along hw
  have hreach := @Sys.exec_reachWhen _ _ _ _ _ _ _ [] .init rfl halong hexec
  exact ⟨w, hlen, pending_accumulates hreach⟩

theorem pending_accumulates_fails :
    ∃ w : AccWin Nat, (accSys ⟨0, false, false⟩ false).Reach w ∧ w.failed = true := by
  have hrun : ((accSys ⟨0, false, false⟩ false).exec (accSys ⟨0, false, false⟩ false).init
      [.accumulate ⟨false, false, some 1, true, true, true⟩,
        .accumulate ⟨false, false, some 1, true, true, true⟩, .complete 0, .complete 0]).map
      (fun w : AccWin Nat => w.failed) = some true := by decide
  obtain ⟨w, hw, hfailed⟩ := map_eq_some_iff.1 hrun
  exact ⟨w, Sys.exec_reach .init hw, hfailed⟩

end AccWin

end PsMpi.Rma
