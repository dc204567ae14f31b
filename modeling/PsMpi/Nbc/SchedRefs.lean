import PsMpi.Nbc.Sched
import PsMpi.Handle.Alloc

/-!
# References of schedules

See `mpich2/src/mpid/common/sched/mpidu_sched.c`.
-/

namespace PsMpi.Nbc

open PsMpi.Lib PsMpi.Handle

/-! ## Handles -/

/-- `MPIR_COMM` (`mpir_objects.h:142`). -/
def mpirComm : Nat := 1

/-- `MPIR_DATATYPE` (:144). -/
def mpirDatatype : Nat := 3

/-- `MPIR_OP` (:147). -/
def mpirOp : Nat := 6

/-- `HANDLE_IS_BUILTIN` (:177). -/
def handleIsBuiltin (h : Nat) : Bool := handleGetKind h == 1

/-- `MPI_DATATYPE_NULL` (`mpi.h.in:155`). -/
def datatypeNull : Nat := 0x0c000000

/-- `MPIR_DATATYPE_IS_PREDEFINED` (`mpir_datatype.h:367`). -/
def datatypeIsPredefined (h : Nat) : Bool :=
  handleIsBuiltin h || h == 0x8c000000 || h == 0x8c000001 || h == 0x8c000002 || h == 0x8c000003 ||
    h == 0x8c000004

abbrev CommHandle := { h : Nat // handleGetMpiKind h = mpirComm }

abbrev TypeHandle := { h : Nat // handleGetMpiKind h = mpirDatatype }

abbrev OpHandle := { h : Nat // handleGetMpiKind h = mpirOp }

inductive Ref where
  | comm (h : CommHandle)
  | datatype (h : TypeHandle)
  | op (h : OpHandle)

namespace Ref

def handle : Ref → Nat
  | .comm h => h.1
  | .datatype h => h.1
  | .op h => h.1

/-- `MPIR_Datatype_add_ref_if_not_builtin` (:343),
`MPIR_Op_add_ref_if_not_builtin` (`mpir_op.h:200`). -/
def isCounted : Ref → Bool
  | .comm _ => true
  | .datatype h => h.1 != datatypeNull && !datatypeIsPredefined h.1
  | .op h => !handleIsBuiltin h.1

def add (refs : Nat → Int) (r : Ref) : Nat → Int :=
  if r.isCounted then Function.update refs r.handle (refs r.handle + 1) else refs

def release (refs : Nat → Int) (r : Ref) : Nat → Int :=
  if r.isCounted then Function.update refs r.handle (refs r.handle - 1) else refs

end Ref

/-- Release the reference to the object of a handle, which depends on the kind of the handle;
another kind fails an assertion. `MPIDU_Sched_free` (:503). -/
def releaseHandle (refs : Nat → Int) (h : Nat) : Option (Nat → Int) :=
  let released := Function.update refs h (refs h - 1)
  if handleGetMpiKind h = mpirComm then some released
  else if handleGetMpiKind h = mpirDatatype then
    some (if h != datatypeNull && !datatypeIsPredefined h then released else refs)
  else if handleGetMpiKind h = mpirOp then some (if !handleIsBuiltin h then released else refs)
  else none

/-! ## Building a schedule -/

/-- `MPIDU_Sched_send` (:659), `MPIDU_Sched_pt2pt_send` (:698), `MPIDU_Sched_send_defer`
(:737), `MPIDU_Sched_recv_status` (:774), `MPIDU_Sched_recv` (:808),
`MPIDU_Sched_pt2pt_recv` (:842), `MPIDU_Sched_reduce` (:877), `MPIDU_Sched_copy` (:914),
`MPIDU_Sched_cb` (:984), `MPIDU_Sched_cb2` (:1009) and `MPIDU_Sched_barrier` (:969). -/
inductive Call where
  | send (datatype : TypeHandle) (comm : CommHandle)
  | pt2ptSend (datatype : TypeHandle) (comm : CommHandle)
  | sendDefer (datatype : TypeHandle) (comm : CommHandle)
  | recvStatus (datatype : TypeHandle) (comm : CommHandle)
  | recv (datatype : TypeHandle) (comm : CommHandle)
  | pt2ptRecv (datatype : TypeHandle) (comm : CommHandle)
  | reduce (datatype : TypeHandle) (op : OpHandle)
  | copy (intype outtype : TypeHandle)
  | cb
  | cb2
  | barrier

def Call.toAdd : Call → Add
  | .send _ _ => .entry .send
  | .pt2ptSend _ _ => .entry .pt2ptSend
  | .sendDefer _ _ => .entry .send
  | .recvStatus _ _ => .entry .recv
  | .recv _ _ => .entry .recv
  | .pt2ptRecv _ _ => .entry .pt2ptRecv
  | .reduce _ _ => .entry .reduce
  | .copy _ _ => .entry .copy
  | .cb => .entry .cb
  | .cb2 => .entry .cb
  | .barrier => .barrier

def Call.args : Call → List Ref
  | .send datatype comm => [.comm comm, .datatype datatype]
  | .pt2ptSend datatype comm => [.comm comm, .datatype datatype]
  | .sendDefer datatype comm => [.comm comm, .datatype datatype]
  | .recvStatus datatype comm => [.comm comm, .datatype datatype]
  | .recv datatype comm => [.comm comm, .datatype datatype]
  | .pt2ptRecv datatype comm => [.comm comm, .datatype datatype]
  | .reduce datatype op => [.datatype datatype, .op op]
  | .copy intype outtype => [.datatype intype, .datatype outtype]
  | .cb => []
  | .cb2 => []
  | .barrier => []

/-- A schedule with its references: the objects that each entry uses, the list of the handles, and
the communicator of its request, to which the schedule and the user have references. -/
structure Counted where
  sched : Sched
  args : List (List Ref)
  handles : List Nat
  refs : Nat → Int
  comm : CommHandle
  schedRef : Bool
  userRef : Bool
  freed : Bool
  released : Nat → Bool
  failed : Nat → Bool

namespace Counted

/-- `MPIDU_Sched_create` (:439). -/
def create (kind : Kind) (comm : CommHandle) : Counted :=
  ⟨.create kind, [], [], fun _ => 0, comm, false, false, false, fun _ => false, fun _ => false⟩

/-- `sched_add_ref` (:552) and its calls (:685). -/
def takeArgs (c : Counted) (args : List Ref) : Counted :=
  { c with
    args := c.args ++ [args]
    refs := args.foldl Ref.add c.refs
    handles := if c.sched.kind = .generalized then c.handles
      else c.handles ++ args.map Ref.handle }

def takeRefs (c : Counted) : Call → Counted
  | .barrier => c
  | call => c.takeArgs call.args

def add (c : Counted) (call : Call) : Counted :=
  { c.takeRefs call with sched := c.sched.add call.toAdd }

end Counted

/-! ## Starting entries -/

/-- What is returned to an entry that is started, and the calls that a callback makes. -/
structure RefResults where
  results : Results
  append : List Call

def RefResults.plain (r : RefResults) : Results :=
  { r.results with append := r.append.map Call.toAdd }

def RefResults.ok : RefResults := ⟨.ok, []⟩

def EntryType.failsToStart (r : Results) : EntryType → Bool
  | .send => r.sendErr
  | .pt2ptSend => r.pt2ptErr
  | .pt2ptRecv => r.pt2ptErr
  | _ => false

namespace Counted

/-- `MPIDU_Sched_start_entry` (:211). -/
def startEntry (fatal : Bool) (c : Counted) (i : Nat) (type : EntryType) (r : RefResults) :
    Counted × Bool :=
  let x := Nbc.startEntry fatal c.sched i type r.plain
  let c := if type = .cb ∧ c.sched.kind = .generalized then r.append.foldl takeRefs c else c
  ({ c with
      sched := x.1
      failed := if type.failsToStart r.results then Function.update c.failed i true else c.failed },
    x.2)

def startNext (fatal : Bool) (c : Counted) (i : Nat) (e : Entry) (r : RefResults) :
    Counted × Bool :=
  if e.status = .notStarted then c.startEntry fatal i e.type r else (c, false)

/-- `MPIDU_Sched_continue` (:407). -/
def continueLoop (fatal : Bool) (results : List RefResults) :
    Nat → Counted → Nat → Option (Counted × Bool)
  | 0, _, _ => none
  | fuel + 1, c, i =>
    match c.sched.entries[i]? with
    | none => some (c, false)
    | some e =>
      let (c, err) := c.startNext fatal i e (results.getD i .ok)
      if err then some (c, true)
      else
        let c := { c with sched := c.sched.advance i }
        if c.sched.isBarrier i = true ∧ (c.sched.isFinished i = false ∨ c.sched.idx ≠ i + 1) then
          some (c, false)
        else continueLoop fatal results fuel c (i + 1)

/-- Line 401. -/
def schedContinue (fatal : Bool) (results : List RefResults) (c : Counted) :
    Option (Counted × Bool) :=
  continueLoop fatal results
    (c.sched.entries.length + growth (results.map RefResults.plain) + 1) c c.sched.idx

/-! ## Progress -/

/-- `MPIDU_Sched_progress_state` (:1062). -/
def releaseArgs (c : Counted) (i : Nat) : Counted :=
  if c.sched.kind = .generalized then
    { c with
      refs := (c.args.getD i []).foldl Ref.release c.refs
      released := Function.update c.released i true }
  else c

/-- Line 1051. -/
def poll (c : Counted) (i : Nat) (e : Entry) : Counted :=
  let c' := { c with sched := c.sched.poll i e }
  match e.type, e.req with
  | .send, some (.complete _) => c'.releaseArgs i
  | .recv, some (.complete _) => c'.releaseArgs i
  | .pt2ptSend, some (.complete _) => c'.releaseArgs i
  | .pt2ptRecv, some (.complete _) => c'.releaseArgs i
  | _, _ => c'

/-- Line 1045. -/
def progressLoop (fatal : Bool) (results : List RefResults) :
    Nat → Counted → Nat → Option (Counted × Bool)
  | 0, _, _ => none
  | fuel + 1, c, i =>
    match c.sched.entries[i]? with
    | none => some (c, false)
    | some e =>
      let c := c.poll i e
      if i = c.sched.idx ∧ c.sched.isFinished i = true then
        let c := { c with sched := { c.sched with idx := c.sched.idx + 1 } }
        if c.sched.isBarrier i then
          match schedContinue fatal results c with
          | none => none
          | some (c, true) => some (c, true)
          | some (c, false) => progressLoop fatal results fuel c (i + 1)
        else progressLoop fatal results fuel c (i + 1)
      else if c.sched.isBarrier i = true ∧ c.sched.isFinished i = false then some (c, false)
      else progressLoop fatal results fuel c (i + 1)

def progressSched (fatal : Bool) (results : List RefResults) (c : Counted) :
    Option (Counted × Bool) :=
  progressLoop fatal results
    (c.sched.entries.length + growth (results.map RefResults.plain) + 1) c c.sched.idx

/-- `MPIR_Request_free_with_safety` (`mpir_request.h:626`). -/
def freeRequest (c : Counted) : Counted :=
  if c.schedRef || c.userRef then c else { c with refs := Ref.release c.refs (.comm c.comm) }

/-- `MPIDU_Sched_free` (:492). -/
def free (c : Counted) : Option Counted :=
  (c.handles.foldlM releaseHandle c.refs).map fun refs =>
    { c with refs := refs, handles := [], freed := true }

/-- `MPIDU_Sched_progress_state` (:1133). -/
def complete (c : Counted) : Option Counted :=
  let c := freeRequest { c with sched := c.sched.completeReq, schedRef := false }
  if c.sched.kind = .persistent then some c else c.free

/-! ## Runs -/

/-- Calls on a schedule; `finish` completes the request of an entry, and `release` is the user's
release of the request of the schedule. -/
inductive Act where
  | add (call : Call)
  | start (results : List RefResults)
  | finish (i : Nat) (err : Bool)
  | progress (results : List RefResults)
  | release
  | reset
  | free

/-- `MPIDU_Sched_start` (:560). -/
def start (fatal : Bool) (c : Counted) (results : List RefResults) : Option Counted := do
  let c := { c with
    sched := { c.sched with errflag := false, mpiError := false }
    refs := Ref.add c.refs (.comm c.comm), schedRef := true, userRef := true }
  let (c, err) ← schedContinue fatal results c
  -- both references to the request are released, and the schedule is not put into the list
  if err then
    return freeRequest { c with
      sched := { c.sched with phase := .broken }, schedRef := false, userRef := false }
  else return { c with sched := { c.sched with phase := .running } }

def step (fatal : Bool) (c : Counted) (a : Act) : Option Counted :=
  match a with
  | .add call => if c.sched.phase = .built ∧ c.freed = false then some (c.add call) else none
  | .start results =>
    if c.sched.phase = .built ∧ c.freed = false then c.start fatal results else none
  | .finish i err => do
    let e ← c.sched.entries[i]?
    if e.req = some .pending then
      return { c with sched := c.sched.modifyEntry i (Entry.finish err) }
    else none
  | .progress results =>
    if c.sched.phase = .running then do
      let (c, err) ← progressSched fatal results c
      if err = false ∧ c.sched.idx = c.sched.entries.length then c.complete else return c
    else none
  | .release =>
    if c.userRef then some (freeRequest { c with userRef := false }) else none
  | .reset =>
    if c.sched.kind = .persistent ∧ (c.sched.phase = .complete ∨ c.sched.phase = .broken) ∧
        c.userRef = false ∧ c.freed = false then
      some { c with sched := c.sched.reset }
    else none
  | .free =>
    if c.sched.kind = .persistent ∧ c.sched.phase ≠ .running ∧ c.freed = false then c.free else none

def sys (fatal : Bool) (kind : Kind) (comm : CommHandle) : Sys Counted Act :=
  ⟨create kind comm, step fatal⟩

end Counted

end PsMpi.Nbc
