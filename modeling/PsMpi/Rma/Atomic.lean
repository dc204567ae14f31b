import Mathlib.Algebra.BigOperators.Group.Finset.Basic
import PsMpi.Lib.Trans

/-!
# The atomic calls on an element of a window
-/

open PsMpi.Lib

namespace PsMpi.Rma

inductive AtomicFn (V : Type)
  | getAccumulate (op : Option (V → V)) (contig : Bool)
  | fetchAndOp (op : Option (V → V))
  | compareAndSwap (compare origin : V)

inductive CallPath
  | get
  | callback
  | lock

structure AtomicCall (V : Type) where
  id : Nat
  fn : AtomicFn V

/-- The messages from an origin to the target. `accumulate` has the value that its call has
fetched. -/
inductive AtomicMsg (V : Type)
  | lockReq
  | get
  | read (c : AtomicCall V)
  | rmw (c : AtomicCall V)
  | accumulate (c : AtomicCall V) (v : V) (f : V → V)
  | unlockReq

inductive AtomicAns (V : Type)
  | lockAns
  | getAns (v : V)
  | unlockAns

inductive LockPc (V : Type)
  | idle
  | waitLock (c : AtomicCall V)
  | waitGet (c : AtomicCall V)
  | got (c : AtomicCall V) (v : V)
  | accumulated
  | waitUnlock

/-- An origin with its connections to and from the target. -/
structure Site (V : Type) where
  pc : LockPc V
  out : List (AtomicMsg V)
  back : List (AtomicAns V)

structure ElemSt (V : Type) where
  val : V
  lockInternal : Bool
  lockList : List Nat
  site : Nat → Site V
  issued : Nat
  effects : List (AtomicCall V × V)

/-- The number of processes, the target among them, and whether pscom has the RMA functions
(`MPID_PSP_HAVE_PSCOM_RMA_API`). -/
structure ElemCfg where
  size : Nat
  target : Nat
  rmaApi : Bool

/-- The steps: a process begins a call, the target receives a message of an origin, and the origin
goes on in a call of the lock path. -/
inductive ElemAct (V : Type)
  | call (o : Nat) (fn : AtomicFn V)
  | recv (o : Nat)
  | lockAns (o : Nat)
  | getAns (o : Nat)
  | accumulate (o : Nat)
  | unlock (o : Nat)
  | unlockAns (o : Nat)

def ElemAct.origin {V : Type} : ElemAct V → Nat
  | .call o _ => o
  | .recv o => o
  | .lockAns o => o
  | .getAns o => o
  | .accumulate o => o
  | .unlock o => o
  | .unlockAns o => o

section
variable {V : Type} [DecidableEq V]

/-- `MPIDI_PSP_Get_accumulate_generic`, `MPID_Fetch_and_op`, `MPID_Compare_and_swap`
(`mpid_rma_accumulate.c:474-490,752,880`). -/
def AtomicFn.path (rmaApi : Bool) : AtomicFn V → CallPath
  | .getAccumulate none _ => .get
  | .getAccumulate (some _) contig => if rmaApi = true ∧ contig = true then .callback else .lock
  | .fetchAndOp none => .get
  | .fetchAndOp (some _) => if rmaApi = true then .callback else .lock
  | .compareAndSwap _ _ => if rmaApi = true then .callback else .lock

/-- `MPIDI_PSP_rma_get_acc_target_cb`, `MPIDI_PSP_rma_fetch_op_target_cb`
(`mpid_rma_callbacks.c:155,178`), and pscom for the compare and swap. -/
def AtomicFn.update : AtomicFn V → V → V
  | .getAccumulate op _, v => op.elim v fun f => f v
  | .fetchAndOp op, v => op.elim v fun f => f v
  | .compareAndSwap compare origin, v => if v = compare then origin else v

/-- What a call of the lock path sends after its get has returned `v`: the accumulate, or the put of
a compare and swap that has found what it compares with. `mpid_rma_accumulate.c:496,1048`.
-/
def AtomicFn.second (v : V) : AtomicFn V → Option (V → V)
  | .getAccumulate op _ => op
  | .fetchAndOp op => op
  | .compareAndSwap compare origin => if compare = v then some fun _ => origin else none

namespace ElemSt

def init (v₀ : V) : ElemSt V := ⟨v₀, false, [], fun _ => ⟨.idle, [], []⟩, 0, []⟩

def setSite (s : ElemSt V) (o : Nat) (t : Site V) : ElemSt V :=
  { s with site := Function.update s.site o t }

def answer (s : ElemSt V) (o : Nat) (a : AtomicAns V) : ElemSt V :=
  s.setSite o { s.site o with back := (s.site o).back ++ [a] }

def effect (s : ElemSt V) (c : AtomicCall V) (v new : V) : ElemSt V :=
  { s with effects := s.effects ++ [(c, v)], val := new }

/-- `do_trylock_internal` (`mpid_rma_sync.c:919`). -/
def doTrylockInternal (s : ElemSt V) : Option (ElemSt V) :=
  if s.lockInternal = true then none else some { s with lockInternal := true }

/-- `do_lock_internal` (:932). -/
def doLockInternal (s : ElemSt V) (o : Nat) : ElemSt V :=
  match s.doTrylockInternal with
  | some s' => s'.answer o .lockAns
  | none => { s with lockList := s.lockList ++ [o] }

/-- `do_unlock_internal` (:944). -/
def doUnlockInternal (s : ElemSt V) : ElemSt V :=
  match s.lockList with
  | [] => { s with lockInternal := false }
  | o :: rest =>
    match doTrylockInternal { s with lockInternal := false, lockList := rest } with
    | some s' => s'.answer o .lockAns
    | none => { s with lockInternal := false, lockList := o :: rest }

/-- `mpid_rma_accumulate.c`, `MPIDI_PSP_Win_lock_internal` (:1010). -/
def call (cfg : ElemCfg) (s : ElemSt V) (o : Nat) (fn : AtomicFn V) : ElemSt V :=
  let c : AtomicCall V := ⟨s.issued, fn⟩
  let s := { s with issued := s.issued + 1 }
  let t := s.site o
  match fn.path cfg.rmaApi with
  | .get =>
    if o = cfg.target then s.effect c s.val s.val
    else s.setSite o { t with out := t.out ++ [AtomicMsg.read c] }
  | .callback =>
    if o = cfg.target then s.effect c s.val (fn.update s.val)
    else s.setSite o { t with out := t.out ++ [AtomicMsg.rmw c] }
  | .lock =>
    if o = cfg.target ∧ s.lockInternal = false then
      { s.setSite o { t with pc := .got c s.val } with lockInternal := true }
    else s.setSite o { t with pc := .waitLock c, out := t.out ++ [AtomicMsg.lockReq] }

/-- `MPID_do_recv_rma_lock_internal_req`, `MPID_do_recv_rma_unlock_internal_req` (`:968,987`),
`MPIDI_PSP_rma_get_acc_target_cb` (`mpid_rma_callbacks.c:155`). -/
def recv (s : ElemSt V) (o : Nat) : AtomicMsg V → ElemSt V
  | .lockReq => s.doLockInternal o
  | .get => s.answer o (.getAns s.val)
  | .read c => s.effect c s.val s.val
  | .rmw c => s.effect c s.val (c.fn.update s.val)
  | .accumulate c v f => s.effect c v (f s.val)
  | .unlockReq => (s.answer o .unlockAns).doUnlockInternal

/-- `mpid_rma_accumulate.c:491`. -/
def lockAns (cfg : ElemCfg) (s : ElemSt V) (o : Nat) (c : AtomicCall V)
    (back : List (AtomicAns V)) : ElemSt V :=
  let t := s.site o
  if o = cfg.target then s.setSite o { t with pc := .got c s.val, back := back }
  else s.setSite o { t with pc := .waitGet c, out := t.out ++ [AtomicMsg.get], back := back }

/-- `:496,1046`. -/
def accumulate (cfg : ElemCfg) (s : ElemSt V) (o : Nat) (c : AtomicCall V) (v : V) : ElemSt V :=
  let t := s.site o
  match c.fn.second v with
  | none => (s.setSite o { t with pc := .accumulated }).effect c v s.val
  | some f =>
    if o = cfg.target then (s.setSite o { t with pc := .accumulated }).effect c v (f s.val)
    else s.setSite o { t with pc := .accumulated, out := t.out ++ [AtomicMsg.accumulate c v f] }

/-- `MPIDI_PSP_Win_unlock_internal` (`mpid_rma_sync.c:1040`). -/
def unlock (cfg : ElemCfg) (s : ElemSt V) (o : Nat) : ElemSt V :=
  let t := s.site o
  if o = cfg.target then (s.setSite o { t with pc := .idle }).doUnlockInternal
  else s.setSite o { t with pc := .waitUnlock, out := t.out ++ [AtomicMsg.unlockReq] }

def stepAt (cfg : ElemCfg) (s : ElemSt V) : ElemAct V → Option (ElemSt V)
  | .call o fn =>
    match (s.site o).pc with
    | .idle => some (s.call cfg o fn)
    | _ => none
  | .recv o =>
    match (s.site o).out with
    | m :: rest => some ((s.setSite o { s.site o with out := rest }).recv o m)
    | [] => none
  | .lockAns o =>
    match (s.site o).pc, (s.site o).back with
    | .waitLock c, .lockAns :: back => some (s.lockAns cfg o c back)
    | _, _ => none
  | .getAns o =>
    match (s.site o).pc, (s.site o).back with
    | .waitGet c, .getAns v :: back =>
      some (s.setSite o { s.site o with pc := .got c v, back := back })
    | _, _ => none
  | .accumulate o =>
    match (s.site o).pc with
    | .got c v => some (s.accumulate cfg o c v)
    | _ => none
  | .unlock o =>
    match (s.site o).pc with
    | .accumulated => some (s.unlock cfg o)
    | _ => none
  | .unlockAns o =>
    match (s.site o).pc, (s.site o).back with
    | .waitUnlock, .unlockAns :: back =>
      some (s.setSite o { s.site o with pc := .idle, back := back })
    | _, _ => none

def step (cfg : ElemCfg) (s : ElemSt V) (a : ElemAct V) : Option (ElemSt V) :=
  if a.origin < cfg.size then s.stepAt cfg a else none

end ElemSt

def elemSys (cfg : ElemCfg) (v₀ : V) : Sys (ElemSt V) (ElemAct V) := ⟨.init v₀, ElemSt.step cfg⟩

/-! ## Serial orders -/

/-- The value of the element after calls one after the other, if each of them fetches what it is
said to have fetched. -/
def replay (v : V) : List (AtomicCall V × V) → Option V
  | [] => some v
  | (c, r) :: l => if r = v then replay (c.fn.update v) l else none

/-- There is an order of the calls that have taken effect with the values they have fetched and the
value that the element has. -/
def ElemSt.Serializable (v₀ : V) (s : ElemSt V) : Prop :=
  ∃ order : List (AtomicCall V × V), order.Perm s.effects ∧ replay v₀ order = some s.val

def ElemSt.Quiet (cfg : ElemCfg) (s : ElemSt V) : Prop :=
  ∀ o < cfg.size, (s.site o).pc = .idle ∧ (s.site o).out = []

def Site.Open (t : Site V) : Prop :=
  (∃ v, .getAns v ∈ t.back) ∨ (∃ c v, t.pc = .got c v) ∨ ∃ c v f, .accumulate c v f ∈ t.out

/-- A callback, and a call of the target itself, does not change the element while a call of the
lock path has fetched it and not yet updated it. -/
def ElemSt.Apart (cfg : ElemCfg) (s : ElemSt V) : ElemAct V → Prop
  | .call o fn => o = cfg.target → fn.path cfg.rmaApi = .callback →
    fn.update s.val = s.val ∨ ∀ o', ¬ (s.site o').Open
  | .recv o => ∀ c rest, (s.site o).out = .rmw c :: rest →
    c.fn.update s.val = s.val ∨ ∀ o', ¬ (s.site o').Open
  | _ => True

end

end PsMpi.Rma
