import PsMpi.Lib.Trans
import PsMpi.Lib.Tasks

/-!
# The generic transport

See `mpich2/src/mpi/coll/transports/gentran/gentran_utils.c` and `tsp_gentran.c`.
-/

namespace PsMpi.Tsp

open PsMpi.Lib Tasks

/-- `MPII_Genutil_vtx_kind_e` (`gentran_types.h`); `imcast` has its number of
destinations, and the kinds above the built-in ones are generic. -/
inductive Kind where
  | isend
  | irecv
  | irecvStatus
  | imcast (numDests : Nat)
  | reduceLocal
  | localcopy
  | selectiveSink
  | sink
  | fence
  | sched
  | cb
  | generic
deriving DecidableEq

/-- `MPII_Genutil_vtx_state_e` (`gentran_types.h`). -/
inductive VtxState where
  | init
  | issued
  | complete
deriving DecidableEq

/-- A vertex. `MPII_Genutil_vtx_t` (`gentran_types.h`). -/
structure Vtx where
  kind : Kind
  state : VtxState
  inVtcs : List Nat
  outVtcs : List Nat
  pending : Int
  num : Int
  reqs : List Bool
  checked : Nat

/-- The schedule is not started, waits in the queue of collectives, is complete, or has been freed. -/
inductive Phase where
  | built
  | running
  | complete
  | freed
deriving DecidableEq

/-- `MPII_Genutil_sched_t` (`gentran_types.h`); `total_vtcs` is the length of `vtcs`. -/
structure Sched where
  vtcs : List Vtx
  completed : Nat
  lastFence : Option Nat
  issued : List Nat
  persistent : Bool
  phase : Phase
  log : List (Ev Nat)
  reports : Nat
  frees : Nat

def Sched.modifyVtx (s : Sched) (v : Nat) (f : Vtx → Vtx) : Sched :=
  { s with vtcs := s.vtcs.modify v f }

/-! ## Building a schedule -/

/-- `MPIR_TSP_sched_create` (`tsp_gentran.c:26`). -/
def create (persistent : Bool) : Sched := ⟨[], 0, none, [], persistent, .built, [], 0, 0⟩

/-- `MPII_Genutil_vtx_create` (:447). -/
def Sched.vtxCreate (s : Sched) (kind : Kind) : Sched :=
  { s with vtcs := s.vtcs ++ [⟨kind, .init, [], [], 0, 0, [], 0⟩] }

/-- `MPII_Genutil_vtx_add_dependencies` (:413). -/
def Sched.addDependency (s : Sched) (v u : Nat) : Sched :=
  let open' := decide (s.vtcs[u]?.map Vtx.state ≠ some .complete)
  let s := s.modifyVtx u fun x => { x with outVtcs := x.outVtcs ++ [v] }
  if open' then s.modifyVtx v fun x => { x with num := x.num + 1, pending := x.pending + 1 } else s

/-- The dependency on the last fence is added to a vertex without dependencies of its own.
Line 430. -/
def Sched.addFenceDependency (s : Sched) (v : Nat) (inVtcs : List Nat) : Sched :=
  match s.lastFence with
  | some f => if f ≠ v ∧ inVtcs = [] then s.addDependency v f else s
  | none => s

/-- Line 395. -/
def Sched.addDependencies (s : Sched) (v : Nat) (inVtcs : List Nat) : Sched :=
  ((inVtcs.foldl (fun s u => s.addDependency v u) s).addFenceDependency v inVtcs).modifyVtx v fun x =>
    { x with inVtcs := inVtcs }

/-- `MPIR_TSP_sched_isend` (:186) and its relatives. -/
def Sched.add (s : Sched) (kind : Kind) (inVtcs : List Nat) : Sched :=
  (s.vtxCreate kind).addDependencies s.vtcs.length inVtcs

/-- The vertices without successors among the first `i`, from the last one back to a fence.
`MPIR_TSP_sched_sink` (:441). -/
def Sched.sinkVtcs (s : Sched) : Nat → List Nat
  | 0 => []
  | i + 1 =>
    match s.vtcs[i]? with
    | none => []
    | some x =>
      if x.kind = .fence then []
      else if x.outVtcs.length = 0 then i :: s.sinkVtcs i
      else s.sinkVtcs i

/-- Line 420. -/
def Sched.sink (s : Sched) : Sched :=
  let v := s.vtcs.length
  let s := s.vtxCreate .sink
  s.addDependencies v (s.sinkVtcs v)

/-- `MPIR_TSP_sched_fence` (:466). -/
def Sched.fence (s : Sched) : Sched :=
  let v := s.vtcs.length
  { s.sink.modifyVtx v fun x => { x with kind := .fence } with lastFence := some v }

/-! ## Issuing vertices -/

/-- What happens when a vertex is issued: it waits, it is complete at once, or an error is returned. -/
inductive Outcome where
  | wait
  | done
  | error
deriving DecidableEq

/-- `vtx_issue` (:40). -/
def Kind.outcome (kind : Kind) (o : Outcome) : Outcome :=
  match kind with
  | .isend | .irecv | .irecvStatus => if o = .done then .done else .wait
  | .imcast _ => .wait
  | .reduceLocal | .localcopy | .selectiveSink | .sink | .fence | .cb => .done
  | .sched => if o = .error then .error else .wait
  | .generic => o

def Kind.numReqs : Kind → Nat
  | .imcast numDests => numDests
  | _ => 1

def Sched.noteIssue (s : Sched) (v : Nat) : Sched := { s with log := s.log ++ [Ev.issue v] }

/-- `vtx_record_issue` (:21). -/
def Sched.recordIssue (s : Sched) (v : Nat) : Sched :=
  { s.modifyVtx v fun x => { x with
      state := .issued, reqs := List.replicate x.kind.numReqs false } with
    issued := s.issued ++ [v] }

/-- `vtx_record_completion` (:274). -/
def Sched.markComplete (s : Sched) (v : Nat) : Sched :=
  { s.modifyVtx v fun x => { x with state := .complete } with
    completed := s.completed + 1
    log := s.log ++ [Ev.complete v] }

/-- Line 293. -/
def Sched.release (s : Sched) (w : Nat) : Sched :=
  s.modifyVtx w fun x => { x with pending := x.pending - 1 }

def Sched.isFree (s : Sched) (w : Nat) : Bool := s.vtcs[w]?.map Vtx.pending = some 0

/-- Release the successors of a vertex, and issue those that have no other open dependency.
Line 287. -/
def releaseLoop (issue : Sched → Nat → Option Sched) : List Nat → Sched → Option Sched
  | [], s => some s
  | w :: ws, s =>
    let s := s.release w
    if s.isFree w then (issue s w).bind (releaseLoop issue ws) else releaseLoop issue ws s

/-- Line 266. -/
def recordCompletion (issue : Sched → Nat → Option Sched) (s : Sched) (v : Nat) : Option Sched :=
  (s.vtcs[v]?).bind fun x => releaseLoop issue x.outVtcs (s.markComplete v)

/-- Issue a vertex that has not been issued and has no open dependency, with whether an error is
returned; an error is ignored when the vertex is issued by a predecessor. `vtx_issue`
(:27). -/
def vtxIssue (res : Nat → Outcome) : Nat → Sched → Nat → Option (Sched × Bool)
  | 0, _, _ => none
  | fuel + 1, s, v =>
    (s.vtcs[v]?).bind fun x =>
      if x.state = .init ∧ x.pending = 0 then
        match x.kind.outcome (res v) with
        | .error => some (s, true)
        | .wait => some ((s.noteIssue v).recordIssue v, false)
        | .done =>
          (recordCompletion (fun s w => (vtxIssue res fuel s w).map Prod.fst) (s.noteIssue v) v).map
            fun s => (s, false)
      else some (s, false)

def issueAny (res : Nat → Outcome) (s : Sched) (v : Nat) : Option Sched :=
  (vtxIssue res s.vtcs.length s v).map Prod.fst

/-- `MPII_Genutil_sched_poke` (:497). -/
def issueAll (res : Nat → Outcome) : List Nat → Sched → Option (Sched × Bool)
  | [], s => some (s, false)
  | v :: vs, s =>
    (vtxIssue res s.vtcs.length s v).bind fun (s, err) =>
      if err then some (s, true) else issueAll res vs s

/-! ## Poking a schedule -/

def nextOf (v : Nat) : List Nat → Option Nat
  | [] => none
  | u :: l => if u = v then l.head? else nextOf v l

/-- `vtx_record_completion` (:302). -/
def completeIssued (res : Nat → Outcome) (s : Sched) (v : Nat) : Option Sched :=
  (recordCompletion (issueAny res) s v).map fun s => { s with issued := s.issued.erase v }

/-- The number of requests of a vertex that are known to be complete: they are looked at in order. -/
def Vtx.check (x : Vtx) : Nat := x.checked + ((x.reqs.drop x.checked).takeWhile id).length

/-- `MPII_Genutil_sched_poke` (:511). -/
def pollVtx (res : Nat → Outcome) (s : Sched) (v : Nat) : Option (Sched × Bool) :=
  (s.vtcs[v]?).bind fun x =>
    if x.state = .issued then
      match x.kind with
      | .imcast numDests =>
        let s := s.modifyVtx v fun x => { x with checked := x.check }
        if x.check = numDests then (completeIssued res s v).map fun s => (s, false)
        else some (s, false)
      | .isend | .irecv | .irecvStatus | .sched =>
        if x.reqs.all id then (completeIssued res s v).map fun s => (s, false) else some (s, false)
      | .generic =>
        if res v = .error then some (s, true)
        else if x.reqs.all id then (completeIssued res s v).map fun s => (s, false)
        else some (s, false)
      | _ => some (s, false)
    else none

/-- Go over the issued vertices; the next one is known before the requests of one are looked at.
Line 509. -/
def walk (res : Nat → Outcome) : Nat → Sched → Option Nat → Option (Sched × Bool)
  | _, s, none => some (s, false)
  | 0, _, some _ => none
  | fuel + 1, s, some v =>
    (pollVtx res s v).bind fun (s', err) =>
      if err then some (s', true) else walk res fuel s' (nextOf v s.issued)

/-- The first part of a poke: if no vertex is issued, all vertices are gone over. -/
def firstIssue (res : Nat → Outcome) (s : Sched) : Option (Sched × Bool) :=
  if s.issued = [] then issueAll res (List.range s.vtcs.length) s else some (s, false)

/-- `MPII_Genutil_sched_poke` (:660). -/
def Sched.finish (s : Sched) : Sched :=
  { s with
    phase := if s.persistent then .complete else .freed
    reports := s.reports + 1
    frees := if s.persistent then s.frees else s.frees + 1 }

/-- `MPII_Genutil_sched_poke` (:467), `MPII_Genutil_progress_hook` (:307),
`MPIR_TSP_sched_start` (:566). -/
def poke (res : Nat → Outcome) (s : Sched) : Option Sched :=
  (firstIssue res s).bind fun (s, err) =>
    if err then some { s with phase := .running }
    else
      (walk res (s.issued.length + s.vtcs.length) s s.issued.head?).bind fun (s, err) =>
        if err then some { s with phase := .running }
        else if s.completed = s.vtcs.length then some s.finish
        else some { s with phase := .running }

/-! ## Runs -/

inductive Act where
  | add (kind : Kind) (inVtcs : List Nat)
  | sink
  | fence
  | start (res : Nat → Outcome)
  | finish (v i : Nat)
  | poke (res : Nat → Outcome)
  | reset
  | free

/-- `MPIR_TSP_sched_start` (:537). -/
def start (res : Nat → Outcome) (s : Sched) : Option Sched :=
  if s.vtcs.length = 0 then some s.finish else if s.completed = 0 then poke res s else none

/-- `MPIR_TSP_sched_reset` (:592). -/
def Sched.reset (s : Sched) : Sched :=
  { s with
    vtcs := s.vtcs.map fun x => { x with pending := x.num, state := .init, checked := 0 }
    completed := 0
    issued := []
    phase := .built
    log := []
    reports := 0 }

def Kind.isSink : Kind → Bool
  | .sink => true
  | .fence => true
  | _ => false

/-- The step of a call. A persistent schedule that is not running may be freed with its request
(`nbcutil.c:69`). -/
def step (s : Sched) : Act → Option Sched
  | .add kind inVtcs =>
    if s.phase = .built ∧ kind.isSink = false ∧ ∀ u ∈ inVtcs, u < s.vtcs.length then
      some (s.add kind inVtcs)
    else none
  | .sink => if s.phase = .built then some s.sink else none
  | .fence => if s.phase = .built then some s.fence else none
  | .start res => if s.phase = .built then start res s else none
  | .finish v i => do
    let x ← s.vtcs[v]?
    if s.phase = .running ∧ x.state = .issued then
      some (s.modifyVtx v fun x => { x with reqs := x.reqs.set i true })
    else none
  | .poke res => if s.phase = .running then poke res s else none
  | .reset => if s.persistent = true ∧ s.phase = .complete then some s.reset else none
  | .free =>
    if s.persistent = true ∧ (s.phase = .built ∨ s.phase = .complete) then
      some { s with phase := .freed, frees := s.frees + 1 }
    else none

def sys (persistent : Bool) : Sys Sched Act := ⟨create persistent, step⟩

end PsMpi.Tsp
