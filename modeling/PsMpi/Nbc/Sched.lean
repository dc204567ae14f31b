import Mathlib.Algebra.GroupWithZero.Nat
import Mathlib.Algebra.Ring.Int.Defs
import PsMpi.Lib.Trans
import Mathlib.Data.List.Basic

/-!
# Schedules of nonblocking collectives

See `mpich2/src/mpid/common/sched/mpidu_sched.c`.
-/

namespace PsMpi.Nbc

open PsMpi.Lib

/-- `MPIDU_Sched_entry_type` (`mpidu_sched.h`). -/
inductive EntryType where
  | send
  | recv
  | pt2ptSend
  | pt2ptRecv
  | reduce
  | copy
  | cb
deriving DecidableEq

/-- `MPIDU_Sched_entry_status` (`mpidu_sched.h:94`). -/
inductive Status where
  | notStarted
  | started
  | complete
  | failed
deriving DecidableEq

def Status.isFinished : Status → Bool
  | .complete => true
  | .failed => true
  | _ => false

inductive Req where
  | pending
  | complete (err : Bool)
deriving DecidableEq

/-- `MPIDU_Sched_entry` (`mpidu_sched.h`). -/
structure Entry where
  type : EntryType
  status : Status
  isBarrier : Bool
  req : Option Req
  starts : Nat
  early : Bool
deriving DecidableEq

/-- `MPIR_Sched_kind` (`mpir_nbc.h`). -/
inductive Kind where
  | regular
  | persistent
  | generalized
deriving DecidableEq

/-- Where a schedule is: it has not been started since it was created or reset, it is in the list of
all schedules, its request is complete, or it could not be started. -/
inductive Phase where
  | built
  | running
  | complete
  | broken
deriving DecidableEq

/-- `MPIDU_Sched` (`mpidu_sched.h`); `errflag` and `mpiError` are those of its request. -/
structure Sched where
  entries : List Entry
  idx : Nat
  kind : Kind
  errflag : Bool
  mpiError : Bool
  phase : Phase
  completions : Nat
deriving DecidableEq

/-! ## Building a schedule -/

inductive Add where
  | entry (type : EntryType)
  | barrier

def Entry.new (type : EntryType) : Entry := ⟨type, .notStarted, false, none, 0, false⟩

def Sched.modifyEntry (s : Sched) (i : Nat) (f : Entry → Entry) : Sched :=
  { s with entries := s.entries.modify i f }

/-- `MPIDU_Sched_send` (:658) and its relatives, `MPIDU_Sched_barrier`
(:967). -/
def Sched.add (s : Sched) : Add → Sched
  | .entry type => { s with entries := s.entries ++ [Entry.new type] }
  | .barrier => s.modifyEntry (s.entries.length - 1) fun e => { e with isBarrier := true }

/-! ## Starting entries -/

/-- What is returned to an entry that is started: by `MPIC_Isend`, by `MPIC_Irecv` and whether it has
made a request although it failed, by `MPID_Isend` and `MPID_Irecv`, by `MPIR_Reduce_local` and
`MPIR_Localcopy`, and by a callback; the request that is made, and what a callback adds. -/
structure Results where
  sendErr : Bool
  recvErr : Bool
  recvReq : Bool
  pt2ptErr : Bool
  localErr : Bool
  cbErr : Bool
  req : Req
  append : List Add

def Results.ok : Results := ⟨false, false, false, false, false, false, .pending, []⟩

def Sched.isBarrier (s : Sched) (i : Nat) : Bool := (s.entries[i]?.map Entry.isBarrier).getD false

def Sched.isFinished (s : Sched) (i : Nat) : Bool :=
  (s.entries[i]?.map fun e => e.status.isFinished).getD false

def Sched.barriersDone (s : Sched) (i : Nat) : Bool :=
  (List.range i).all fun b => !s.isBarrier b || (List.range (b + 1)).all s.isFinished

def Sched.setStatus (s : Sched) (i : Nat) (status : Status) (req : Option Req) : Sched :=
  s.modifyEntry i fun e => { e with status := status, req := req }

def Sched.noteStart (s : Sched) (i : Nat) : Sched :=
  s.modifyEntry i fun e => { e with starts := e.starts + 1, early := e.early || !s.barriersDone i }

def Sched.callback (s : Sched) (append : List Add) : Sched :=
  if s.kind = .generalized then append.foldl Sched.add s else s

/-- Start an entry, with whether an error is returned; `fatal` is `MPIR_CVAR_REQUEST_ERR_FATAL`.
`MPIDU_Sched_start_entry` (:211). -/
def startEntry (fatal : Bool) (s : Sched) (i : Nat) (type : EntryType) (r : Results) :
    Sched × Bool :=
  let s := s.noteStart i
  match type with
  | .send =>
    if r.sendErr then ({ s.setStatus i .failed none with errflag := true }, fatal)
    else (s.setStatus i .started (some r.req), false)
  | .recv =>
    if r.recvErr then
      -- the request is to be handled by the progress engine
      ({ s.setStatus i .started (if r.recvReq then some r.req else none) with errflag := true },
        fatal)
    else (s.setStatus i .started (some r.req), false)
  | .pt2ptSend | .pt2ptRecv =>
    if r.pt2ptErr then (s.setStatus i .failed none, fatal)
    else (s.setStatus i .started (some r.req), false)
  | .reduce | .copy =>
    if r.localErr then ({ s.setStatus i .failed none with mpiError := true }, true)
    else (s.setStatus i .complete none, false)
  | .cb =>
    let s := s.callback r.append
    if r.cbErr then ({ s.setStatus i .failed none with errflag := true }, fatal)
    else (s.setStatus i .complete none, false)

def Sched.advance (s : Sched) (i : Nat) : Sched :=
  if i = s.idx ∧ s.isFinished i = true then { s with idx := s.idx + 1 } else s

def startNext (fatal : Bool) (results : List Results) (s : Sched) (i : Nat) (e : Entry) :
    Sched × Bool :=
  if e.status = .notStarted then startEntry fatal s i e.type (results.getD i .ok) else (s, false)

/-- `MPIDU_Sched_continue` (:407). -/
def continueLoop (fatal : Bool) (results : List Results) :
    Nat → Sched → Nat → Option (Sched × Bool)
  | 0, _, _ => none
  | fuel + 1, s, i =>
    match s.entries[i]? with
    | none => some (s, false)
    | some e =>
      let (s, err) := startNext fatal results s i e
      if err then some (s, true)
      else
        let s := s.advance i
        if s.isBarrier i = true ∧ (s.isFinished i = false ∨ s.idx ≠ i + 1) then some (s, false)
        else continueLoop fatal results fuel s (i + 1)

def growth (results : List Results) : Nat := (results.map fun r => r.append.length).sum

/-- Line 401. -/
def schedContinue (fatal : Bool) (results : List Results) (s : Sched) : Option (Sched × Bool) :=
  continueLoop fatal results (s.entries.length + growth results + 1) s s.idx

/-! ## Progress -/

def doneStatus (failed : Bool) : Status := if failed then .failed else .complete

/-- `MPIDU_Sched_progress_state` (:1051). -/
def Sched.poll (s : Sched) (i : Nat) (e : Entry) : Sched :=
  match e.type, e.req with
  | .send, some (.complete _) => s.setStatus i (doneStatus s.errflag) none
  | .recv, some (.complete err) => s.setStatus i (doneStatus err) none
  | .pt2ptSend, some (.complete _) => s.setStatus i (doneStatus s.mpiError) none
  | .pt2ptRecv, some (.complete _) => s.setStatus i (doneStatus s.mpiError) none
  | _, _ => s

/-- Line 1045. -/
def progressLoop (fatal : Bool) (results : List Results) :
    Nat → Sched → Nat → Option (Sched × Bool)
  | 0, _, _ => none
  | fuel + 1, s, i =>
    match s.entries[i]? with
    | none => some (s, false)
    | some e =>
      let s := s.poll i e
      if i = s.idx ∧ s.isFinished i = true then
        let s := { s with idx := s.idx + 1 }
        if s.isBarrier i then
          match schedContinue fatal results s with
          | none => none
          | some (s, true) => some (s, true)
          | some (s, false) => progressLoop fatal results fuel s (i + 1)
        else progressLoop fatal results fuel s (i + 1)
      else if s.isBarrier i = true ∧ s.isFinished i = false then some (s, false)
      else progressLoop fatal results fuel s (i + 1)

def progressSched (fatal : Bool) (results : List Results) (s : Sched) : Option (Sched × Bool) :=
  progressLoop fatal results (s.entries.length + growth results + 1) s s.idx

/-- Line 1133. -/
def Sched.completeReq (s : Sched) : Sched :=
  { s with phase := .complete, completions := s.completions + 1, mpiError := s.mpiError || s.errflag }

/-- The progress of the schedules of a list, with the list of those that remain.
Line 1033. -/
def progressState (fatal : Bool) (results : Nat → List Results) :
    List Nat → List Sched → Option (List Sched × List Nat)
  | [], scheds => some (scheds, [])
  | k :: queue, scheds => do
    let s ← scheds[k]?
    let (s, err) ← progressSched fatal (results k) s
    if err then some (scheds.set k s, k :: queue)
    else if s.idx = s.entries.length then
      progressState fatal results queue (scheds.set k s.completeReq)
    else
      let (scheds, rest) ← progressState fatal results queue (scheds.set k s)
      return (scheds, k :: rest)

/-! ## Runs -/

structure St where
  scheds : List Sched
  queue : List Nat
deriving DecidableEq

/-- Calls on schedules; `finish` completes the request of an entry. -/
inductive Act where
  | create (kind : Kind)
  | add (k : Nat) (a : Add)
  | start (k : Nat) (results : List Results)
  | finish (k i : Nat) (err : Bool)
  | progress (results : Nat → List Results)
  | reset (k : Nat)

/-- `MPIDU_Sched_create` (:439). -/
def Sched.create (kind : Kind) : Sched := ⟨[], 0, kind, false, false, .built, 0⟩

/-- `MPIDU_Sched_start` (:560). -/
def schedStart (fatal : Bool) (st : St) (k : Nat) (results : List Results) : Option St := do
  let s ← st.scheds[k]?
  if s.phase = .built then
    let (s, err) ← schedContinue fatal results { s with errflag := false, mpiError := false }
    -- the request is freed, and the schedule is not put into the list
    if err then some { st with scheds := st.scheds.set k { s with phase := .broken } }
    else some ⟨st.scheds.set k { s with phase := .running }, st.queue ++ [k]⟩
  else none

/-- `MPIDU_Sched_reset` (:522). -/
def Sched.reset (s : Sched) : Sched :=
  { s with
    entries := s.entries.map fun e => { e with status := .notStarted, starts := 0, early := false }
    idx := 0
    phase := .built
    completions := 0 }

def Entry.finish (err : Bool) (e : Entry) : Entry := { e with req := some (.complete err) }

def step (fatal : Bool) (st : St) : Act → Option St
  | .create kind => some { st with scheds := st.scheds ++ [Sched.create kind] }
  | .add k a => do
    let s ← st.scheds[k]?
    if s.phase = .built then some { st with scheds := st.scheds.set k (s.add a) } else none
  | .start k results => schedStart fatal st k results
  | .finish k i err => do
    let s ← st.scheds[k]?
    let e ← s.entries[i]?
    if e.req = some .pending then
      some { st with scheds := st.scheds.set k (s.modifyEntry i (Entry.finish err)) }
    else none
  | .progress results => do
    let (scheds, queue) ← progressState fatal results st.queue st.scheds
    return ⟨scheds, queue⟩
  | .reset k => do
    let s ← st.scheds[k]?
    if s.kind = .persistent ∧ s.phase = .complete then
      some { st with scheds := st.scheds.set k s.reset }
    else none

def sys (fatal : Bool) : Sys St Act := ⟨⟨[], []⟩, step fatal⟩

end PsMpi.Nbc
