import PsMpi.ContextId.Mask
import PsMpi.Lib.Allreduce
import PsMpi.Lib.Trans

/-!
# Context id allocation

The collective allocation of context ids by any number of processes.
-/

open PsMpi.Lib

namespace PsMpi.ContextId

inductive AllocKind
  | blocking
  | nonblocking
  deriving DecidableEq

/-- One collective allocation: its members, which of them ignore the id, and the context id of the
parent communicator and the tag, by which it is ordered. `MPIR_Get_contextid_sparse_group`
(`contextid.c:352`), `sched_get_cid_nonblock` (:889). -/
structure AllocSpec (P : Type*) where
  kind : AllocKind
  members : List P
  ignoreId : P → Bool
  contextId : Nat
  tag : Nat

def AllocSpec.ignores {P : Type*} (sp : AllocSpec P) (p : P) : Bool :=
  match sp.kind with
  | .blocking => sp.ignoreId p
  | .nonblocking => false

/-- The size of the eager segment of each process, in words, and the allocations of the run.
`eager_nelem` (`:270,380-386`). -/
structure CtxCfg (P : Type*) where
  eagerNelem : P → Nat
  eagerNelem_lt : ∀ p, eagerNelem p < 63
  spec : Nat → AllocSpec P

/-- `local_mask` with the element `ALL_OWN_MASK_FLAG` (`:38,304`). -/
structure LocalMask where
  words : Mask
  allOwn : Bool

namespace LocalMask

/-- `MPI_BAND` (:461-467). -/
def band (x y : LocalMask) : LocalMask :=
  ⟨fun i => x.words i &&& y.words i, x.allOwn && y.allOwn⟩

/-- `:391,449`. -/
def ones : LocalMask := ⟨fun _ => BitVec.allOnes 32, true⟩

end LocalMask

inductive GcnPhase
  | idle
  | ready
  | reducing
  | retry
  | exhausted
  | released
  | counting
  | done (contextId : Nat)
  | failed (frag : Bool)
  deriving DecidableEq

/-- `gcn_state` (:292). -/
structure Gcn where
  phase : GcnPhase
  firstIter : Bool
  ownMask : Bool
  ownEagerMask : Bool
  contribs : List LocalMask
  minfree : Option Nat

/-- The ways in which a process dies: the assertions in `allocate_context_bit` and at line 416, the
abort in `MPIR_Free_contextid`, and the search in the list for an element that is not there. -/
inductive CtxFault
  | allocateContextBit
  | freeContextid
  | emptyList
  | notListed
  deriving DecidableEq

/-- The variables of a process. `:36,270-275,307`. -/
structure CtxProc where
  contextMask : Mask
  eagerInUse : Bool
  maskInUse : Bool
  nextGcn : List Nat
  live : List (Nat × Nat)
  fault : Option CtxFault

structure CtxSt (P : Type*) where
  proc : P → CtxProc
  gcn : Nat → P → Gcn

/-! ## The list of pending allocations -/

/-- `:319-321`. -/
def AllocSpec.before {P : Type*} (x y : AllocSpec P) : Bool :=
  y.contextId > x.contextId || (y.contextId == x.contextId && y.tag > x.tag)

/-- `add_gcn_to_list` (:313). -/
def addGcnToList {P : Type*} (spec : Nat → AllocSpec P) (a : Nat) : List Nat → List Nat
  | [] => [a]
  | b :: l => if (spec a).before (spec b) then a :: b :: l else b :: addGcnToList spec a l

/-- `:510-515,607-612,711-716,786-791`. -/
def removeGcn (l : List Nat) (a : Nat) : Except CtxFault (List Nat) :=
  if a ∈ l then .ok (l.erase a) else .error .notListed

/-! ## Offering ids -/

/-- `:402-408,808-815`. -/
def eagerWords (n : Nat) (m : Mask) : Mask := fun i => if i.val < n then m i else 0

/-- `:432-435,829-832`. -/
def mainWords (n : Nat) (m : Mask) : Mask := fun i => if i.val < n then 0 else m i

/-- `:401-413,807-819`. -/
def copyEager (n : Nat) (x : CtxProc) (g : Gcn) : CtxProc × Gcn × Mask :=
  if x.eagerInUse = false ∧ 0 < n then
    ({ x with eagerInUse := true }, { g with ownEagerMask := true }, eagerWords n x.contextMask)
  else (x, { g with ownEagerMask := false }, 0)

/-- `:422-440,822-836`. -/
def copyMain (n a : Nat) (x : CtxProc) (g : Gcn) : CtxProc × Gcn × Mask :=
  if x.maskInUse = true ∨ x.nextGcn.head? ≠ some a then (x, { g with ownMask := false }, 0)
  else ({ x with maskInUse := true }, { g with ownMask := true }, mainWords n x.contextMask)

def Gcn.reduce (g : Gcn) (m : LocalMask) : Gcn :=
  { g with phase := .reducing, contribs := g.contribs ++ [m] }

/-- `:378-451`. -/
def copyMaskBlocking (n a : Nat) (ignoreId : Bool) (x : CtxProc) (g : Gcn) :
    Except CtxFault (CtxProc × Gcn) :=
  if ignoreId then .ok (x, { g with ownMask := false }.reduce .ones)
  else if g.firstIter then
    let r := copyEager n x g
    .ok (r.1, r.2.1.reduce ⟨r.2.2, r.2.1.ownMask⟩)
  else if x.nextGcn = [] then .error .emptyList
  else
    let r := copyMain n a x g
    .ok (r.1, r.2.1.reduce ⟨r.2.2, r.2.1.ownMask⟩)

/-- `sched_cb_gcn_copy_mask` (:802). -/
def schedCbGcnCopyMask (n a : Nat) (x : CtxProc) (g : Gcn) : CtxProc × Gcn :=
  if g.firstIter then
    let r := copyEager n x g
    (r.1, r.2.1.reduce ⟨r.2.2, false⟩)
  else
    let r := copyMain n a x g
    (r.1, r.2.1.reduce ⟨r.2.2, r.2.1.ownMask⟩)

/-! ## Taking an id -/

/-- `find_and_allocate_context_id` (:253). -/
def findAndAllocateContextId (mask localMask : Mask) : Except CtxFault (Nat × Mask) :=
  if locateContextBit localMask ≠ 0 then
    match allocateContextBit mask (locateContextBit localMask) with
    | some m => .ok (locateContextBit localMask, m)
    | none => .error .allocateContextBit
  else .ok (0, mask)

/-- Try to take an id with the result of the reduction, and give up the segment that is owned.
`:473-534,691-718`. -/
def takeContextId (a : Nat) (ignoreId : Bool) (localMask : Mask) (x : CtxProc) (g : Gcn) :
    Except CtxFault (Nat × CtxProc × Gcn) :=
  if ignoreId then .ok (locateContextBit localMask, x, g)
  else if g.ownEagerMask then
    match findAndAllocateContextId x.contextMask localMask with
    | .ok (id, m) =>
      .ok (id, { x with contextMask := m, eagerInUse := false }, { g with ownEagerMask := false })
    | .error f => .error f
  else if g.ownMask then
    match findAndAllocateContextId x.contextMask localMask with
    | .ok (id, m) =>
      if 0 < id then
        match removeGcn x.nextGcn a with
        | .ok l => .ok (id, { x with contextMask := m, maskInUse := false, nextGcn := l }, g)
        | .error f => .error f
      else .ok (id, { x with contextMask := m, maskInUse := false }, g)
    | .error f => .error f
  else .ok (0, x, g)

/-- `MPIR_INVALID_CONTEXT_ID` (`mpir_contextid.h:21`). -/
def invalidContextId : Nat := 0xffff

/-- `contextid.c:542,580-593`. -/
def concludeBlocking (a : Nat) (ignoreId allOwn : Bool) (id : Nat) (x : CtxProc) (g : Gcn) :
    CtxProc × Gcn :=
  if id = 0 then
    if allOwn then (x, { g with phase := .exhausted }) else (x, { g with phase := .retry })
  else if ignoreId then (x, { g with phase := .done invalidContextId, firstIter := false })
  else
    ({ x with live := (a, id) :: x.live }, { g with phase := .done id, firstIter := false })

/-- `sched_cb_gcn_allocate_cid` (:720-799). -/
def concludeNonblocking {P : Type*} (spec : Nat → AllocSpec P) (a : Nat) (allOwn : Bool) (id : Nat)
    (x : CtxProc) (g : Gcn) : Except CtxFault (CtxProc × Gcn) :=
  if id = 0 then
    if allOwn then
      let failed : Gcn := { g with phase := .failed (0 < contextMaskStats x.contextMask) }
      if g.firstIter then .ok (x, failed)
      else
        match removeGcn x.nextGcn a with
        | .ok l => .ok ({ x with nextGcn := l }, failed)
        | .error f => .error f
    else if g.firstIter then
      .ok ({ x with nextGcn := addGcnToList spec a x.nextGcn },
        { g with phase := .ready, firstIter := false })
    else .ok (x, { g with phase := .ready })
  else .ok ({ x with live := (a, id) :: x.live }, { g with phase := .done id })

/-! ## The exhaustion of a blocking allocation -/

/-- `:548-552,602-604`. -/
def dropMask (x : CtxProc) (g : Gcn) : CtxProc :=
  { x with maskInUse := if g.ownMask then false else x.maskInUse }

/-- `:554-558`, `INT_MAX`. -/
def countFree (ignoreId : Bool) (x : CtxProc) (g : Gcn) : Gcn :=
  { g with
    phase := .counting
    minfree := some (if ignoreId then 2 ^ 31 - 1 else contextMaskStats x.contextMask) }

/-- `fn_fail` (`:569-577,599-614`). -/
def failAlloc (a minfree : Nat) (ignoreId : Bool) (x : CtxProc) (g : Gcn) :
    Except CtxFault (CtxProc × Gcn) :=
  let failed : Gcn := { g with phase := .failed (0 < minfree) }
  if g.firstIter = false ∧ ignoreId = false then
    match removeGcn x.nextGcn a with
    | .ok l => .ok ({ dropMask x g with nextGcn := l }, failed)
    | .error f => .error f
  else .ok (dropMask x g, failed)

/-! ## The system -/

inductive CtxAct (P : Type*)
  | call (a : Nat) (p : P)
  | copyMask (a : Nat) (p : P)
  | allocate (a : Nat) (p : P)
  | enlist (a : Nat) (p : P)
  | release (a : Nat) (p : P)
  | count (a : Nat) (p : P)
  | fail (a : Nat) (p : P)
  | free (p : P) (a id : Nat)

namespace CtxSt

variable {P : Type*}

/-- `MPIR_context_id_init` (:150), `:361-369,906-915`. -/
def init : CtxSt P where
  proc _ := ⟨initMask, false, false, [], [], none⟩
  gcn _ _ := ⟨.idle, true, false, false, [], none⟩

section
variable [DecidableEq P]

def set (s : CtxSt P) (a : Nat) (p : P) (x : CtxProc) (g : Gcn) : CtxSt P where
  proc := Function.update s.proc p x
  gcn := Function.update s.gcn a (Function.update (s.gcn a) p g)

def die (s : CtxSt P) (p : P) (f : CtxFault) : CtxSt P :=
  { s with proc := Function.update s.proc p { s.proc p with fault := some f } }

def finish (s : CtxSt P) (a : Nat) (p : P) : Except CtxFault (CtxProc × Gcn) → CtxSt P
  | .ok (x, g) => s.set a p x g
  | .error f => s.die p f

end

def contribs (s : CtxSt P) (a : Nat) (q : P) : List LocalMask := (s.gcn a q).contribs

/-- `:460-467,840-842`. -/
def result (cfg : CtxCfg P) (s : CtxSt P) (a r : Nat) : LocalMask :=
  roundResult .band .ones (cfg.spec a).members (s.contribs a) r

def round (s : CtxSt P) (a : Nat) (p : P) : Nat := (s.contribs a p).length - 1

/-- What the first critical section of a round, or the callback before the reduction, does. -/
def copyMask (cfg : CtxCfg P) (a : Nat) (p : P) (x : CtxProc) (g : Gcn) :
    Except CtxFault (CtxProc × Gcn) :=
  match (cfg.spec a).kind with
  | .blocking => copyMaskBlocking (cfg.eagerNelem p) a ((cfg.spec a).ignores p) x g
  | .nonblocking => .ok (schedCbGcnCopyMask (cfg.eagerNelem p) a x g)

/-- What the second critical section of a round, or the callback after the reduction, does with the
result of the reduction. `:472-593,686-799`. -/
def allocateCid (cfg : CtxCfg P) (a : Nat) (p : P) (m : LocalMask) (x : CtxProc) (g : Gcn) :
    Except CtxFault (CtxProc × Gcn) :=
  let sp := cfg.spec a
  match takeContextId a (sp.ignores p) m.words x g with
  | .ok (id, x, g) =>
    match sp.kind with
    | .blocking => .ok (concludeBlocking a (sp.ignores p) m.allOwn id x g)
    | .nonblocking => concludeNonblocking cfg.spec a m.allOwn id x g
  | .error f => .error f

def stepAt [DecidableEq P] (cfg : CtxCfg P) (s : CtxSt P) : CtxAct P → Option (CtxSt P)
  | .call a p =>
    if (s.gcn a p).phase = .idle ∧ p ∈ (cfg.spec a).members then
      some (s.set a p (s.proc p) { s.gcn a p with phase := .ready })
    else none
  | .copyMask a p =>
    if (s.gcn a p).phase = .ready then
      some (s.finish a p (copyMask cfg a p (s.proc p) (s.gcn a p)))
    else none
  | .allocate a p =>
    if (s.gcn a p).phase = .reducing ∧
        RoundReady (cfg.spec a).members (s.contribs a) (s.round a p) then
      some (s.finish a p
        (allocateCid cfg a p (s.result cfg a (s.round a p)) (s.proc p) (s.gcn a p)))
    else none
  | .enlist a p =>
    if (s.gcn a p).phase = .retry then
      some (s.set a p
        (if (s.gcn a p).firstIter = true ∧ (cfg.spec a).ignores p = false then
          { s.proc p with nextGcn := addGcnToList cfg.spec a (s.proc p).nextGcn }
        else s.proc p)
        { s.gcn a p with phase := .ready, firstIter := false })
    else none
  | .release a p =>
    if (s.gcn a p).phase = .exhausted then
      some (s.set a p (dropMask (s.proc p) (s.gcn a p)) { s.gcn a p with phase := .released })
    else none
  | .count a p =>
    if (s.gcn a p).phase = .released then
      some (s.set a p (s.proc p) (countFree ((cfg.spec a).ignores p) (s.proc p) (s.gcn a p)))
    else none
  | .fail a p =>
    if (s.gcn a p).phase = .counting ∧
        ∀ q ∈ (cfg.spec a).members, (s.gcn a q).minfree ≠ none then
      let minfree := ((cfg.spec a).members.filterMap fun q => (s.gcn a q).minfree).foldr min
        (2 ^ 31 - 1)
      some (s.finish a p
        (failAlloc a minfree ((cfg.spec a).ignores p) (s.proc p) (s.gcn a p)))
    else none
  | .free p a id =>
    if (a, id) ∈ (s.proc p).live then
      match freeContextid (s.proc p).contextMask id with
      | some m =>
        some { s with
          proc := Function.update s.proc p
            { s.proc p with contextMask := m, live := (s.proc p).live.erase (a, id) } }
      | none => some (s.die p .freeContextid)
    else none

end CtxSt

def CtxAct.at {P : Type*} : CtxAct P → P
  | .call _ p | .copyMask _ p | .allocate _ p | .enlist _ p | .release _ p | .count _ p
  | .fail _ p | .free p _ _ => p

def CtxSt.step {P : Type*} [DecidableEq P] (cfg : CtxCfg P) (s : CtxSt P) (act : CtxAct P) :
    Option (CtxSt P) :=
  if (s.proc act.at).fault = none then s.stepAt cfg act else none

def ctxSys {P : Type*} [DecidableEq P] (cfg : CtxCfg P) : Sys (CtxSt P) (CtxAct P) :=
  ⟨.init, CtxSt.step cfg⟩

end PsMpi.ContextId
