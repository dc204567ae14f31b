import PsMpi.Lib.Trans
import PsMpi.Rma.Epoch
import Mathlib.Algebra.BigOperators.Fin

/-!
# Pending operations at the origin

See `mpich2/src/mpid/psp/src/mpid_rma_callbacks.c`.
-/

open List PsMpi.Lib

namespace PsMpi.Rma

/-- A request: how often it has been created and completed, its references and the user's. -/
structure PendReq where
  created : Nat
  completed : Nat
  refs : Int
  user : Int

/-- What a call does. A request is given to the user where the call succeeds. -/
inductive PendAct (n : Nat)
  | create
  | setCompleted
  | free
  | give
  | count (target : Fin n)
  | post (target : Fin n) (request : Bool)
deriving DecidableEq

/-- The counters without their bound, the operations in flight with their targets and requests, the
requests of all calls, the number of the last call, and what it has still to do. -/
structure PendWin (n : Nat) where
  rmaLocalPendingCnt : Int
  rmaLocalPendingRank : Fin n → Int
  inFlight : List (Fin n × Option Nat)
  reqs : Nat → PendReq
  call : Nat
  running : List (PendAct n)

/-- A call in a state of the epoch; `here` says that its target is in the own memory. -/
structure PendCall (n : Nat) where
  win : EpochWin n
  args : RmaArgs
  target : Fin n
  here : Bool

inductive PendOp
  | put
  | get
  | accumulate
  | getAccumulate
  | fetchAndOp
  | compareAndSwap

inductive PendEvent (n : Nat)
  | call (op : PendOp) (x : PendCall n)
  | act
  | complete (i : Nat)

/-! ## What the calls do -/

namespace PendCall

variable {n : Nat} (haveRmaApi : Bool) (x : PendCall n)

def noRequest : PendCall n := { x with args := { x.args with request := false } }

/-- `MPIDI_PSP_Put_generic` (`mpid_rma_put.c:60-255`). -/
def generic (errno : Errno) (countFirst : Bool) : List (PendAct n) :=
  (if x.args.request then [PendAct.create] else []) ++
  if errno ≠ .success then (if x.args.request then [PendAct.setCompleted, .free] else [])
  else if x.args.procNull ∨ x.here then (if x.args.request then [PendAct.setCompleted, .give] else [])
  else (if countFirst then [PendAct.count x.target, .post x.target x.args.request]
    else [PendAct.post x.target x.args.request, .count x.target]) ++
    if x.args.request then [PendAct.give] else []

/-- `MPIDI_PSP_Put_generic` (:43). -/
def putGeneric : List (PendAct n) :=
  x.generic (EpochWin.putGeneric x.args x.win).1 !(haveRmaApi && x.args.contig)

/-- `MPIDI_PSP_Get_generic` (`mpid_rma_get.c:64`). -/
def getGeneric : List (PendAct n) :=
  x.generic (EpochWin.getGeneric { x.args with transferOk := x.args.transferOk || !x.here } x.win).1
    false

/-- `MPIDI_PSP_Accumulate_generic` (`mpid_rma_accumulate.c:47`). -/
def accumulateGeneric : List (PendAct n) :=
  if x.args.empty then []
  else if x.args.asPut then x.putGeneric haveRmaApi
  else x.generic (EpochWin.accumulateGeneric x.args x.win).1 !(haveRmaApi && x.args.contig)

/-- The call after the get of a call that is made of two. -/
def afterGet : PendCall n := { x with win := (EpochWin.getGeneric x.noRequest.args x.win).2 }

/-- `MPIDI_PSP_Get_accumulate_generic` (:453). -/
def getAccumulateGeneric : List (PendAct n) :=
  if x.args.procNull then x.generic .success false
  else if x.args.noOp then x.getGeneric
  else if haveRmaApi = false ∨ x.args.contig = false then
    x.noRequest.getGeneric ++ x.afterGet.accumulateGeneric haveRmaApi ++
      if x.args.request ∧ (EpochWin.accumulateGeneric x.args x.afterGet.win).1 ≠ .success then
        [.give] else []
  else if x.args.empty then []
  else x.generic (EpochWin.getAccumulateGeneric haveRmaApi x.args x.win).1 false

/-- `MPID_Fetch_and_op` (:739). -/
def fetchAndOp : List (PendAct n) :=
  if x.args.procNull then []
  else if x.args.noOp then x.noRequest.getGeneric
  else if haveRmaApi then
    x.noRequest.generic (EpochWin.fetchAndOp haveRmaApi x.args x.win).1 false
  else x.noRequest.getAccumulateGeneric haveRmaApi

/-- `MPID_Compare_and_swap` (:880). -/
def compareAndSwap : List (PendAct n) :=
  if x.args.procNull then []
  else if haveRmaApi then
    x.noRequest.generic (EpochWin.compareAndSwap haveRmaApi x.args x.win).1 false
  else x.noRequest.getGeneric ++
    if x.args.equal then x.noRequest.afterGet.putGeneric haveRmaApi else []

def acts : PendOp → List (PendAct n)
  | .put => x.putGeneric haveRmaApi
  | .get => x.getGeneric
  | .accumulate => x.accumulateGeneric haveRmaApi
  | .getAccumulate => x.getAccumulateGeneric haveRmaApi
  | .fetchAndOp => x.fetchAndOp haveRmaApi
  | .compareAndSwap => x.compareAndSwap haveRmaApi

end PendCall

/-! ## Runs -/

namespace PendWin

variable {n : Nat}

/-- `MPID_Win_create` (`mpid_rma.c:324,378`). -/
def init : PendWin n := ⟨0, fun _ => 0, [], fun _ => ⟨0, 0, 0, 0⟩, 0, []⟩

def setReq (w : PendWin n) (i : Nat) (f : PendReq → PendReq) : PendWin n :=
  { w with reqs := Function.update w.reqs i (f (w.reqs i)) }

def addPending (w : PendWin n) (r : Fin n) (k : Int) : PendWin n :=
  { w with
    rmaLocalPendingCnt := w.rmaLocalPendingCnt + k
    rmaLocalPendingRank := fun q => w.rmaLocalPendingRank q + if q = r then k else 0 }

def perform (w : PendWin n) : PendAct n → PendWin n
  | .create => w.setReq w.call fun q => { q with created := q.created + 1, refs := q.refs + 1 }
  | .setCompleted => w.setReq w.call fun q => { q with completed := q.completed + 1 }
  | .free => w.setReq w.call fun q => { q with refs := q.refs - 1 }
  | .give => w.setReq w.call fun q => { q with user := q.user + 1 }
  | .count r => w.addPending r 1
  | .post r true =>
    { w.setReq w.call fun q => { q with refs := q.refs + 1 } with
      inFlight := w.inFlight ++ [(r, some w.call)] }
  | .post r false => { w with inFlight := w.inFlight ++ [(r, none)] }

/-- `MPIDI_PSP_rma_put_origin_cb` (`mpid_rma_callbacks.c:28`). -/
def originCb (w : PendWin n) (op : Fin n × Option Nat) : PendWin n :=
  match op.2 with
  | none => w.addPending op.1 (-1)
  | some i => (w.addPending op.1 (-1)).setReq i fun q =>
    { q with completed := q.completed + 1, refs := q.refs - 1 }

/-- A callback runs between any two acts of a call or between the calls. -/
def step (haveRmaApi : Bool) (w : PendWin n) : PendEvent n → Option (PendWin n)
  | .call op x =>
    if w.running = [] then
      some { w with call := w.call + 1, running := x.acts haveRmaApi op }
    else none
  | .act =>
    match w.running with
    | [] => none
    | a :: as => some ({ w with running := as }.perform a)
  | .complete i =>
    w.inFlight[i]?.map { w with inFlight := w.inFlight.eraseIdx i }.originCb

/-- The operations in flight to a rank. -/
def toRank (w : PendWin n) (r : Fin n) : Nat := w.inFlight.countP fun op => op.1 = r

/-- The operations in flight of a request. -/
def ofReq (w : PendWin n) (i : Nat) : Nat := w.inFlight.countP fun op => op.2 = some i

/-- Whenever no call runs, the counters are exact, every request is completed once unless its
operation is in flight, and has the references of the user and of that operation. -/
def Exact (w : PendWin n) : Prop := w.running = [] →
  (∀ r, w.rmaLocalPendingRank r = w.toRank r) ∧
  w.rmaLocalPendingCnt = ∑ r, w.rmaLocalPendingRank r ∧
  ∀ i, (w.reqs i).refs = (w.reqs i).user + w.ofReq i ∧
    (w.reqs i).completed + w.ofReq i = (w.reqs i).created

end PendWin

def pendSys {n : Nat} (haveRmaApi : Bool) : Sys (PendWin n) (PendEvent n) :=
  ⟨.init, PendWin.step haveRmaApi⟩

/-- A get-accumulate with a request that is made of a get and an accumulate is in an epoch that
permits it, and its data can be transferred, unless it has none. -/
def AccumulateOk {n : Nat} (haveRmaApi : Bool) (_ : PendWin n) : PendEvent n → Prop
  | .call .getAccumulate x => x.args.request = true → haveRmaApi = false ∨ x.args.contig = false →
    x.args.procNull = true ∨ x.args.noOp = true ∨ x.args.empty = true ∨
      x.args.transferOk = true ∧ (x.win.epochState = .lock ∨ x.win.epochState = .lockAll)
  | _ => True

/-! ## The acts of a call are balanced -/

namespace PendAct

variable {n : Nat}

def rankW (r : Fin n) : PendAct n → Int
  | .post t _ => if r = t then 1 else 0
  | .count t => if r = t then -1 else 0
  | _ => 0

def refsW : PendAct n → Int
  | .create => -1
  | .free | .give => 1
  | _ => 0

def doneW : PendAct n → Int
  | .create => -1
  | .setCompleted | .post _ true => 1
  | _ => 0

def total (f : PendAct n → Int) (l : List (PendAct n)) : Int := (l.map f).sum

@[simp] theorem total_nil (f : PendAct n → Int) : total f [] = 0 := rfl

@[simp] theorem total_cons (f : PendAct n → Int) (a : PendAct n) (l : List (PendAct n)) :
    total f (a :: l) = f a + total f l := by
  rw [total, map_cons, sum_cons, total]

@[simp] theorem total_append (f : PendAct n → Int) (l m : List (PendAct n)) :
    total f (l ++ m) = total f l + total f m := by
  rw [total, map_append, sum_append, total, total]

/-- What is posted is counted, and what is created is completed once and given once or freed. -/
structure Balanced (l : List (PendAct n)) : Prop where
  rank : ∀ r, total (rankW r) l = 0
  refs : total refsW l = 0
  done : total doneW l = 0

theorem Balanced.nil : Balanced ([] : List (PendAct n)) := ⟨fun _ => rfl, rfl, rfl⟩

theorem Balanced.append {l m : List (PendAct n)} (hl : Balanced l) (hm : Balanced m) :
    Balanced (l ++ m) :=
  ⟨fun r => by rw [total_append, hl.rank, hm.rank]; rfl,
    by rw [total_append, hl.refs, hm.refs]; rfl, by rw [total_append, hl.done, hm.done]; rfl⟩

end PendAct

namespace PendCall

open PendAct

variable {n : Nat} {haveRmaApi : Bool} {x : PendCall n}

theorem generic_balanced (errno : Errno) (countFirst : Bool) :
    Balanced (x.generic errno countFirst) := by
  unfold generic
  have hpost : ∀ r : Fin n, (if r = x.target then (-1 : Int) else 0) +
      (if r = x.target then 1 else 0) = 0 := fun r => by split <;> rfl
  cases x.args.request <;> cases countFirst <;>
    simp only [Bool.false_eq_true, if_false, if_true, nil_append, append_nil] <;> split <;>
    try split
  all_goals
    refine ⟨fun r => ?_, ?_, ?_⟩ <;>
      simp [rankW, refsW, doneW, hpost, Int.add_comm _ (ite _ (-1 : Int) 0)]

theorem accumulateGeneric_balanced : Balanced (x.accumulateGeneric haveRmaApi) := by
  unfold accumulateGeneric
  split
  · exact .nil
  · split <;> exact generic_balanced _ _

theorem trackAccess_lock {w : EpochWin n} {request : Bool} {rest : Errno}
    (h : w.epochState = .lock ∨ w.epochState = .lockAll) :
    EpochWin.trackAccess request rest w = (rest, w) := by
  unfold EpochWin.trackAccess
  rcases h with h | h <;> simp [h]

theorem getAccumulateGeneric_balanced
    (h : x.args.request = true → haveRmaApi = false ∨ x.args.contig = false →
      x.args.procNull = true ∨ x.args.noOp = true ∨ x.args.empty = true ∨
        x.args.transferOk = true ∧ (x.win.epochState = .lock ∨ x.win.epochState = .lockAll)) :
    Balanced (x.getAccumulateGeneric haveRmaApi) := by
  unfold getAccumulateGeneric
  split
  · exact generic_balanced _ _
  · rename_i hproc
    split
    · exact generic_balanced _ _
    · rename_i hop
      split
      · rename_i hapi
        rw [if_neg]
        · exact ((generic_balanced _ _).append accumulateGeneric_balanced).append .nil
        · rintro ⟨hreq, hacc⟩
          refine hacc ?_
          rcases h hreq hapi with h | h | h | ⟨htr, hep⟩
          · exact absurd h hproc
          · exact absurd h hop
          · rw [EpochWin.accumulateGeneric, if_pos h]
          · have hwin : x.afterGet.win = x.win := by
              rw [afterGet, EpochWin.getGeneric, trackAccess_lock hep]
              split <;> rfl
            rw [hwin, EpochWin.accumulateGeneric, EpochWin.putGeneric, trackAccess_lock hep,
              RmaArgs.rest, if_pos htr, ite_self, ite_self, ite_self]
      · split
        · exact .nil
        · exact generic_balanced _ _

theorem acts_balanced {w : PendWin n} {op : PendOp} (h : AccumulateOk haveRmaApi w (.call op x)) :
    Balanced (x.acts haveRmaApi op) := by
  cases op with
  | put | get => exact generic_balanced _ _
  | accumulate => exact accumulateGeneric_balanced
  | getAccumulate => exact getAccumulateGeneric_balanced h
  | fetchAndOp =>
    change Balanced (x.fetchAndOp haveRmaApi)
    unfold fetchAndOp
    split
    · exact .nil
    · split
      · exact generic_balanced _ _
      · split
        · exact generic_balanced _ _
        · exact getAccumulateGeneric_balanced nofun
  | compareAndSwap =>
    change Balanced (x.compareAndSwap haveRmaApi)
    unfold compareAndSwap
    split
    · exact .nil
    · split
      · exact generic_balanced _ _
      · refine (generic_balanced _ _).append ?_
        split
        · exact generic_balanced _ _
        · exact .nil

end PendCall

/-! ## All runs -/

namespace PendWin

open PendAct

variable {n : Nat} {haveRmaApi : Bool} {w w' : PendWin n}

/-- How far the counter of a rank is ahead of the operations in flight. -/
def rankDebt (w : PendWin n) (r : Fin n) : Int := w.rmaLocalPendingRank r - w.toRank r

/-- The references of a request that neither the user nor an operation in flight has. -/
def refsDebt (w : PendWin n) (i : Nat) : Int := (w.reqs i).refs - (w.reqs i).user - w.ofReq i

/-- How often a request has still to be completed without its operation in flight. -/
def doneDebt (w : PendWin n) (i : Nat) : Int :=
  (w.reqs i).created - (w.reqs i).completed - w.ofReq i

/-- What is not exact is what the running call has still to do. -/
structure Ok (w : PendWin n) : Prop where
  rank : ∀ r, w.rankDebt r = total (rankW r) w.running
  cnt : w.rmaLocalPendingCnt = ∑ r, w.rmaLocalPendingRank r
  refs : ∀ i, w.refsDebt i = if i = w.call then total refsW w.running else 0
  done : ∀ i, w.doneDebt i = if i = w.call then total doneW w.running else 0

theorem sum_addPending (r : Fin n) (k : Int) (h : w.rmaLocalPendingCnt =
    ∑ q, w.rmaLocalPendingRank q) : (w.addPending r k).rmaLocalPendingCnt =
      ∑ q, (w.addPending r k).rmaLocalPendingRank q := by
  simp only [addPending]
  rw [Finset.sum_add_distrib, Finset.sum_ite_eq', if_pos (Finset.mem_univ r), h]

/-! ### The acts of a call -/

theorem rankDebt_perform (a : PendAct n) (r : Fin n) :
    (w.perform a).rankDebt r = w.rankDebt r - rankW r a := by
  cases a with
  | create | setCompleted | free | give => exact (Int.sub_zero _).symm
  | count t =>
    simp only [rankDebt, perform, addPending, toRank, rankW]
    split <;> omega
  | post t request =>
    cases request <;>
      simp only [rankDebt, perform, setReq, toRank, rankW, countP_append, countP_singleton,
        decide_eq_true_eq, eq_comm (a := t)] <;> split <;> omega

theorem refsDebt_perform (a : PendAct n) (i : Nat) :
    (w.perform a).refsDebt i = w.refsDebt i - if i = w.call then a.refsW else 0 := by
  cases a with
  | create | setCompleted | free | give =>
    simp only [refsDebt, perform, setReq, ofReq, refsW, Function.update_apply]
    split <;> simp_all <;> omega
  | count t =>
    simp only [refsW, ite_self, Int.sub_zero]
    rfl
  | post t request =>
    cases request
    · simp [refsDebt, perform, ofReq, refsW]
    · simp only [refsDebt, perform, setReq, ofReq, refsW, countP_append, countP_singleton,
        Function.update_apply]
      split <;> simp_all [eq_comm]
      omega

theorem doneDebt_perform (a : PendAct n) (i : Nat) :
    (w.perform a).doneDebt i = w.doneDebt i - if i = w.call then a.doneW else 0 := by
  cases a with
  | create | setCompleted | free | give =>
    simp only [doneDebt, perform, setReq, ofReq, doneW, Function.update_apply]
    split <;> simp_all <;> omega
  | count t =>
    simp only [doneW, ite_self, Int.sub_zero]
    rfl
  | post t request =>
    cases request
    · simp [doneDebt, perform, ofReq, doneW]
    · simp only [doneDebt, perform, setReq, ofReq, doneW, countP_append, countP_singleton,
        Function.update_apply]
      split <;> simp_all [eq_comm]
      omega

theorem perform_call (a : PendAct n) : (w.perform a).call = w.call := by
  cases a with
  | post t request => cases request <;> rfl
  | _ => rfl

theorem perform_running (a : PendAct n) : (w.perform a).running = w.running := by
  cases a with
  | post t request => cases request <;> rfl
  | _ => rfl

theorem Ok.perform {a : PendAct n} {l : List (PendAct n)} (h : w.Ok) (hrun : w.running = a :: l) :
    Ok ({ w with running := l }.perform a) := by
  obtain ⟨hrank, hcnt, hrefs, hdone⟩ := h
  rw [hrun] at hrank hrefs hdone
  simp only [total_cons] at hrank hrefs hdone
  refine ⟨fun r => ?_, ?_, fun i => ?_, fun i => ?_⟩
  · have hr := hrank r
    rw [rankDebt_perform, perform_running]
    change w.rankDebt r - _ = total _ l
    omega
  · cases a with
    | count t => exact sum_addPending t 1 hcnt
    | post t request => cases request <;> exact hcnt
    | create | setCompleted | free | give => exact hcnt
  · have hr := hrefs i
    rw [refsDebt_perform, perform_running, perform_call]
    change w.refsDebt i - (if i = w.call then _ else _) = if i = w.call then _ else _
    split at hr <;> simp_all
  · have hd := hdone i
    rw [doneDebt_perform, perform_running, perform_call]
    change w.doneDebt i - (if i = w.call then _ else _) = if i = w.call then _ else _
    split at hd <;> simp_all

/-! ### The callbacks -/

/-- What the callback takes from the counters has been in flight. -/
theorem Ok.originCb {i : Nat} {op : Fin n × Option Nat} (h : w.Ok) (hi : w.inFlight[i]? = some op) :
    Ok ({ w with inFlight := w.inFlight.eraseIdx i }.originCb op) := by
  obtain ⟨hlt, hop⟩ := List.getElem?_eq_some_iff.1 hi
  have hcount : ∀ p : Fin n × Option Nat → Bool, w.inFlight.countP p =
      (w.inFlight.eraseIdx i).countP p + if p op then 1 else 0 := fun p => by
    rw [← (getElem_cons_eraseIdx_perm hlt).countP_eq, countP_cons, hop]
  obtain ⟨hrank, hcnt, hrefs, hdone⟩ := h
  obtain ⟨t, q⟩ := op
  have hsum := @sum_addPending n { w with inFlight := w.inFlight.eraseIdx i } t (-1) hcnt
  have hreq : ∀ (f : PendReq → Int) (j : Nat) (c : Int),
      (∀ p, f { p with completed := p.completed + 1, refs := p.refs - 1 } = f p - 1) →
      f (w.reqs j) - w.ofReq j = c →
      f ((PendWin.originCb { w with inFlight := w.inFlight.eraseIdx i } (t, q)).reqs j) -
        PendWin.ofReq { w with inFlight := w.inFlight.eraseIdx i } j = c := by
    intro f j c hf hr
    rw [ofReq, hcount] at hr
    rw [ofReq]
    cases q with
    | none =>
      rw [if_neg (by simp), Nat.add_zero] at hr
      exact hr
    | some k =>
      simp only [PendWin.originCb, addPending, setReq]
      by_cases hk : k = j
      · subst hk
        rw [if_pos (by simp)] at hr
        rw [Function.update_self, hf]
        omega
      · rw [if_neg (by simpa using hk), Nat.add_zero] at hr
        rw [Function.update_of_ne (Ne.symm hk)]
        exact hr
  refine ⟨fun r => ?_, by cases q <;> exact hsum, fun j => ?_, fun j => ?_⟩
  · have hr := hrank r
    rw [rankDebt, toRank, hcount] at hr
    have hdebt : w.rmaLocalPendingRank r + (if r = t then -1 else 0) -
        ((w.inFlight.eraseIdx i).countP fun op => op.1 = r : Nat) = total (rankW r) w.running := by
      by_cases htr : t = r
      · rw [if_pos (decide_eq_true htr)] at hr
        rw [if_pos htr.symm]
        omega
      · rw [if_neg (by simpa using htr)] at hr
        rw [if_neg (Ne.symm htr)]
        omega
    cases q <;> exact hdebt
  · have hr := hreq (fun p => p.refs - p.user) j _ (fun p => by simp only; omega) (hrefs j)
    cases q <;> exact hr
  · have hr := hreq (fun p => p.created - p.completed) j _ (fun p => by simp only; omega) (hdone j)
    cases q <;> exact hr

theorem Ok.call (h : w.Ok) (hrun : w.running = []) {l : List (PendAct n)} (hl : Balanced l) :
    Ok { w with call := w.call + 1, running := l } := by
  obtain ⟨hrank, hcnt, hrefs, hdone⟩ := h
  rw [hrun] at hrank hrefs hdone
  simp only [total_nil, ite_self] at hrank hrefs hdone
  exact ⟨fun r => (hrank r).trans (hl.rank r).symm, hcnt,
    fun i => (hrefs i).trans (by rw [hl.refs, ite_self]),
    fun i => (hdone i).trans (by rw [hl.done, ite_self])⟩

theorem step_ok {e : PendEvent n} (h : w.Ok) (he : AccumulateOk haveRmaApi w e)
    (hs : w.step haveRmaApi e = some w') : w'.Ok := by
  cases e with
  | call op x =>
    simp only [step, Option.ite_none_right_eq_some, Option.some.injEq] at hs
    obtain ⟨hrun, rfl⟩ := hs
    exact h.call hrun (PendCall.acts_balanced he)
  | act =>
    simp only [step] at hs
    split at hs
    · cases hs
    · cases hs
      exact h.perform ‹_›
  | complete i =>
    obtain ⟨op, hop, rfl⟩ := Option.map_eq_some_iff.1 hs
    exact h.originCb hop

theorem init_ok : (init : PendWin n).Ok :=
  ⟨fun _ => rfl, Finset.sum_const_zero.symm, fun _ => (ite_self _).symm, fun _ => (ite_self _).symm⟩

theorem Ok.exact (h : w.Ok) : w.Exact := by
  intro hrun
  obtain ⟨hrank, hcnt, hrefs, hdone⟩ := h
  rw [hrun] at hrank hrefs hdone
  simp only [total_nil, ite_self] at hrank hrefs hdone
  refine ⟨fun r => Int.sub_eq_zero.1 (hrank r), hcnt, fun i => ⟨?_, ?_⟩⟩
  · have := hrefs i
    rw [refsDebt] at this
    omega
  · have := hdone i
    rw [doneDebt] at this
    omega

/-- In every run in which no such get-accumulate fails, the counters and the requests are exact
whenever no call runs. -/
theorem local_pending_exact (h : (pendSys haveRmaApi).ReachWhen (AccumulateOk haveRmaApi) w) :
    w.Exact :=
  (h.inv init_ok fun _ h he hs => step_ok h he hs).exact

/-- A put with a request in a lock epoch is in flight. -/
theorem local_pending_exact_put : ∃ w : PendWin 1, w.inFlight.length = 1 ∧ w.Exact := by
  let x : PendCall 1 := ⟨{ EpochWin.init with epochState := .lock },
    ⟨false, true, false, true, false, false, false, true⟩, 0, false⟩
  have hrun : ((pendSys true).exec init (.call .put x :: replicate 4 .act)).map
      (·.inFlight.length) = some 1 := by decide
  obtain ⟨w, hw, hlen⟩ := Option.map_eq_some_iff.1 hrun
  have halong : (pendSys true).Along (AccumulateOk true) ([] ++ PendEvent.call .put x :: replicate 4 .act) :=
    fun pre a s hpre _ => by
      rcases mem_cons.1 (hpre.subset (mem_append_right _ mem_cons_self)) with rfl | ha
      · trivial
      · rw [(mem_replicate.1 ha).2]
        trivial
  exact ⟨w, hlen, local_pending_exact (Sys.exec_reachWhen .init rfl halong hw)⟩

/-- In a fence epoch the accumulate fails, its request is freed, and the user is given it. -/
theorem not_forall_local_pending_exact :
    ¬ ∀ w : PendWin 1, (pendSys false).Reach w → w.Exact := by
  intro h
  let x : PendCall 1 := ⟨{ EpochWin.init with epochState := .fence },
    ⟨false, true, false, true, false, false, false, true⟩, 0, true⟩
  have hrun : ((pendSys false).exec init (.call .getAccumulate x :: replicate 4 .act)).map
      (fun w => (w.running, (w.reqs 1).refs, (w.reqs 1).user)) = some ([], 0, 1) := by decide
  obtain ⟨w, hw, hlast⟩ := Option.map_eq_some_iff.1 hrun
  obtain ⟨hrunning, hrefs, huser⟩ := by simpa only [Prod.mk.injEq] using hlast
  have := ((h w (Sys.exec_reach .init hw) hrunning).2.2 1).1
  omega

end PendWin

end PsMpi.Rma
