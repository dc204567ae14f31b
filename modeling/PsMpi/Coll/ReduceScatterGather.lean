import PsMpi.Coll.Parts
import PsMpi.Lib.Network

/-!
# A reduction to one process

`MPIR_Reduce_intra_reduce_scatter_gather`
(`mpich2/src/mpi/coll/reduce/reduce_intra_reduce_scatter_gather.c`).
-/

namespace PsMpi.Coll

open PsMpi.Lib PsMpi.Lib.Network

/-- The arguments of the call that are the same at all processes: the number of the elements, the
operation on elements and whether it is predefined, and the root. -/
structure ReduceCall (α : Type) where
  count : Nat
  op : α → α → α
  isBuiltin : Bool
  root : Nat

/-- The receive buffer and the temporary one, and whether a message had another length than its
receive. -/
structure Work (α : Type) where
  recvbuf : Nat → α
  tmpBuf : Nat → α
  mismatch : Bool

section work

variable {α : Type}

def Work.recvTmp (s : Work α) (disp cnt : Nat) (msg : List α) : Work α :=
  { s with
    tmpBuf := writeAt s.tmpBuf disp cnt msg
    mismatch := s.mismatch || decide (msg.length ≠ cnt) }

def Work.recvRecv (s : Work α) (disp cnt : Nat) (msg : List α) : Work α :=
  { s with
    recvbuf := writeAt s.recvbuf disp cnt msg
    mismatch := s.mismatch || decide (msg.length ≠ cnt) }

def Work.reduceTmp (op : α → α → α) (s : Work α) (disp cnt : Nat) : Work α :=
  { s with recvbuf := reduceLocal op s.tmpBuf s.recvbuf disp cnt }

/-- `MPIR_Reduce_intra_reduce_scatter_gather` (:74). -/
def initWork (count : Nat) (sendbuf : Option (Nat → α)) (recvbuf tmpBuf : Nat → α) : Work α :=
  ⟨(sendbuf.map fun src => localcopy src recvbuf count).getD recvbuf, tmpBuf, false⟩

end work

section program

variable {α : Type} (call : ReduceCall α) (commSize rank : Nat)

abbrev ReduceInstr (α : Type) := Instr Nat (Work α) (List α)

/-- Line 150. -/
def spreadCnts (count pof2 : Nat) : List Nat :=
  (List.range pof2).map fun i => count / pof2 + if i < count % pof2 then 1 else 0

/-- Line 105. -/
def reducePre (rem : Nat) : List (ReduceInstr α) :=
  if rank < 2 * rem then
    if rank % 2 ≠ 0 then sendTo (rank - 1) fun s => slice s.recvbuf 0 call.count
    else recvFrom (rank + 1) fun s msg =>
      (s.recvTmp 0 call.count msg).reduceTmp call.op 0 call.count
  else []

/-- Line 105. -/
def reduceNewrank (rem : Nat) : Option Nat :=
  if rank < 2 * rem then
    if rank % 2 ≠ 0 then none else some (rank / 2)
  else some (rank - rem)

/-- Line 168. -/
def reduceRank (rem newdst : Nat) : Nat := if newdst < rem then newdst * 2 else newdst + rem

/-- Line 162. -/
def reduceScatterLoop (cnts : List Nat) (newrank pof2 rem : Nat) :
    Nat → Nat → Cursor → Option (List (ReduceInstr α) × Cursor)
  | 0, _, _ => none
  | fuel + 1, mask, c =>
    if mask < pof2 then do
      let newdst := newrank ^^^ mask
      let dst := reduceRank rem newdst
      let (p, c) ← scatterPiece cnts pof2 newrank newdst mask c
      let (is, c) ← reduceScatterLoop cnts newrank pof2 rem fuel (mask <<< 1) c
      return (sendRecv dst (fun s => slice s.recvbuf p.sendDisp p.sendCnt) dst (fun s msg =>
        (s.recvTmp p.recvDisp p.recvCnt msg).reduceTmp call.op p.recvDisp p.recvCnt) ++ is, c)
    else some ([], c)

/-- Line 231. -/
def rootExcluded (rem : Nat) : Bool := decide (call.root < 2 * rem ∧ call.root % 2 ≠ 0)

/-- Line 231. -/
def newroot (rem : Nat) : Nat :=
  if call.root < 2 * rem then
    if call.root % 2 ≠ 0 then 0 else call.root / 2
  else call.root - rem

/-- Line 231. -/
def handOver (cnts : List Nat) (rem : Nat) (newrank : Option Nat) (c : Cursor) :
    Option (List (ReduceInstr α) × Option Nat × Cursor) :=
  if rootExcluded call rem then
    if rank = call.root then
      cnts[0]?.map fun cnt =>
        (recvFrom 0 fun s msg => s.recvRecv 0 cnt msg, some 0, ⟨0, c.recvIdx, 2⟩)
    else if newrank = some 0 then
      cnts[0]?.map fun cnt => (sendTo call.root fun s => slice s.recvbuf 0 cnt, none, c)
    else some ([], newrank, c)
  else some ([], newrank, c)

/-- Line 270. -/
def maskLoop (pof2 : Nat) : Nat → Nat → Nat → Option (Nat × Nat)
  | 0, _, _ => none
  | fuel + 1, mask, j =>
    if mask < pof2 then maskLoop pof2 fuel (mask <<< 1) (j + 1) else some (mask, j)

/-- Line 278. -/
def reduceGatherLoop (cnts : List Nat) (newrank pof2 rem : Nat) :
    Nat → Nat → Nat → Cursor → Option (List (ReduceInstr α))
  | 0, _, _, _ => none
  | fuel + 1, mask, j, c =>
    if 0 < mask then do
      let newdst := newrank ^^^ mask
      let dst :=
        if newdst = 0 ∧ rootExcluded call rem = true then call.root else reduceRank rem newdst
      let (p, c) ← gatherPiece cnts pof2 newrank newdst mask c
      if newdst >>> j <<< j = newroot call rem >>> j <<< j then
        return sendTo dst fun s => slice s.recvbuf p.sendDisp p.sendCnt
      else do
        let is ← reduceGatherLoop cnts newrank pof2 rem fuel (mask >>> 1) (j - 1) c
        return (recvFrom dst fun s msg => s.recvRecv p.recvDisp p.recvCnt msg) ++ is
    else some []

/-- Line 149. -/
def reduceScatter (cnts : List Nat) (pof2 rem : Nat) :
    Option Nat → Option (List (ReduceInstr α) × Cursor)
  | none => some ([], ⟨0, 0, 0⟩)
  | some newrank => reduceScatterLoop call cnts newrank pof2 rem (pof2 + 1) 1 ⟨0, 0, pof2⟩

/-- Line 267. -/
def reduceGather (cnts : List Nat) (pof2 rem : Nat) (c : Cursor) :
    Option Nat → Option (List (ReduceInstr α))
  | none => some []
  | some newrank => do
    let (mask, j) ← maskLoop pof2 (pof2 + 1) 1 0
    reduceGatherLoop call cnts newrank pof2 rem (pof2 + 1) (mask >>> 1) (j - 1) c

/-- The communication of a process; a user-defined operation and a vector with less elements than
processes that go on fail assertions. `MPIR_Reduce_intra_reduce_scatter_gather`
(:35). -/
def reduceIntraReduceScatterGather : Option (List (ReduceInstr α)) :=
  let pof2 := mplPof2 commSize
  if call.isBuiltin = true ∧ pof2 ≤ call.count then do
    let rem := commSize - pof2
    let cnts := spreadCnts call.count pof2
    let newrank := reduceNewrank rank rem
    let (scatter, c) ← reduceScatter call cnts pof2 rem newrank
    let (hand, newrank, c) ← handOver call rank cnts rem newrank c
    let gather ← reduceGather call cnts pof2 rem c newrank
    return reducePre call rank rem ++ scatter ++ hand ++ gather
  else none

def reduceProg (r : Nat) : List (ReduceInstr α) :=
  if r < commSize then (reduceIntraReduceScatterGather call commSize r).getD [] else []

end program

end PsMpi.Coll
