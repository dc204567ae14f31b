import PsMpi.Coll.Parts
import PsMpi.Lib.Network
import PsMpi.Lib.Strtol

/-!
# Reduce-scatter

`MPIR_Reduce_scatter_intra_recursive_doubling`
(`mpich2/src/mpi/coll/reduce_scatter/reduce_scatter_intra_recursive_doubling.c`) and
`MPIR_Reduce_scatter_intra_recursive_halving`
(`mpich2/src/mpi/coll/reduce_scatter/reduce_scatter_intra_recursive_halving.c`).
-/

namespace PsMpi.Coll

open PsMpi.Lib PsMpi.Lib.Network

/-- The arguments of the call that are the same at all processes: the number of elements in each
block, the operation on elements and whether it is commutative. -/
structure ScatterCall (α : Type) where
  recvcounts : List Nat
  op : α → α → α
  isCommutative : Bool

/-- The buffers of a process, and whether a message had another length than its receive. -/
structure ScatterBufs (α : Type) where
  sendbuf : Option (Nat → α)
  recvbuf : Nat → α
  tmpRecvbuf : Nat → α
  tmpResults : Nat → α
  mismatch : Bool

/-! ## Sums -/

/-- The sum of an `int` and numbers of elements, which are added one after the other. -/
def intSum (cnts : List Nat) (start : Int) : Int :=
  cnts.foldl (fun sum (c : Nat) => wrapInt (sum + c)) start

/-- `MPIR_Reduce_scatter_intra_recursive_doubling`
(`reduce_scatter_intra_recursive_doubling.c:48`). -/
def intDisps (cnts : List Nat) : List Int :=
  (List.range cnts.length).map fun i => intSum (cnts.take i) 0

def inBuf (total disp cnt : Int) : Bool :=
  decide (cnt = 0 ∨ 0 ≤ disp ∧ 0 ≤ cnt ∧ disp + cnt ≤ total)

/-! ## Buffers -/

/-- `blklens` and `dis` of `MPIR_Reduce_scatter_intra_recursive_doubling`
(:28). -/
structure Indexed where
  blk0 : Int
  dis1 : Int
  blk1 : Int

namespace Indexed

variable {α : Type}

def fits (t : Indexed) (total : Int) : Bool := inBuf total 0 t.blk0 && inBuf total t.dis1 t.blk1

def pack (t : Indexed) (buf : Nat → α) : List α :=
  slice buf 0 t.blk0.toNat ++ slice buf t.dis1.toNat t.blk1.toNat

def unpack (t : Indexed) (buf : Nat → α) (msg : List α) : Nat → α :=
  writeAt (writeAt buf 0 t.blk0.toNat (msg.take t.blk0.toNat)) t.dis1.toNat t.blk1.toNat
    (msg.drop t.blk0.toNat)

def reduce (t : Indexed) (op : α → α → α) (inbuf inoutbuf : Nat → α) : Nat → α :=
  reduceLocal op inbuf (reduceLocal op inbuf inoutbuf 0 t.blk0.toNat) t.dis1.toNat t.blk1.toNat

def size (t : Indexed) : Nat := t.blk0.toNat + t.blk1.toNat

end Indexed

namespace ScatterBufs

variable {α : Type}

/-- `MPIR_Reduce_scatter_intra_recursive_doubling`
(:80). -/
def copyIn (total : Nat) (s : ScatterBufs α) : ScatterBufs α :=
  { s with tmpResults := localcopy (s.sendbuf.getD s.recvbuf) s.tmpResults total }

def copyOut (disp cnt : Nat) (s : ScatterBufs α) : ScatterBufs α :=
  { s with recvbuf := localcopy (fun i => s.tmpResults (disp + i)) s.recvbuf cnt }

def recvIndexed (t : Indexed) (s : ScatterBufs α) (msg : List α) : ScatterBufs α :=
  { s with
    tmpRecvbuf := t.unpack s.tmpRecvbuf msg
    mismatch := s.mismatch || decide (msg.length ≠ t.size) }

/-- `MPIR_Reduce_scatter_intra_recursive_doubling`
(:214). -/
def reduceIndexed (op : α → α → α) (ordered : Bool) (t : Indexed) (s : ScatterBufs α) :
    ScatterBufs α :=
  if ordered then { s with tmpResults := t.reduce op s.tmpRecvbuf s.tmpResults }
  else
    let tmp := t.reduce op s.tmpResults s.tmpRecvbuf
    { s with tmpRecvbuf := tmp, tmpResults := t.unpack s.tmpResults (t.pack tmp) }

def recvTmp (disp cnt : Nat) (s : ScatterBufs α) (msg : List α) : ScatterBufs α :=
  { s with
    tmpRecvbuf := writeAt s.tmpRecvbuf disp cnt msg
    mismatch := s.mismatch || decide (msg.length ≠ cnt) }

def reduceTmp (op : α → α → α) (disp cnt : Nat) (s : ScatterBufs α) : ScatterBufs α :=
  { s with tmpResults := reduceLocal op s.tmpRecvbuf s.tmpResults disp cnt }

def recvRecv (cnt : Nat) (s : ScatterBufs α) (msg : List α) : ScatterBufs α :=
  { s with
    recvbuf := writeAt s.recvbuf 0 cnt msg
    mismatch := s.mismatch || decide (msg.length ≠ cnt) }

end ScatterBufs

abbrev ScatterInstr (α : Type) := Instr Nat (ScatterBufs α) (List α)

section programs

variable {α : Type} (call : ScatterCall α) (rank : Nat) (total : Int)

/-! ## Recursive doubling -/

/-- `MPIR_Reduce_scatter_intra_recursive_doubling`
(:112). -/
def treeType (root mask : Nat) : Indexed :=
  let blk0 := intSum (call.recvcounts.take root) 0
  ⟨blk0, intSum ((call.recvcounts.drop root).take mask) blk0,
    intSum (call.recvcounts.drop (root + mask)) 0⟩

/-- The processes of a subtree that have received the data pass them on to the others, and whether
this process receives them. `MPIR_Reduce_scatter_intra_recursive_doubling`
(:181). -/
def passOn (nprocsCompleted : Int) (t : Indexed) :
    Nat → Nat → Nat → Option (List (ScatterInstr α) × Bool)
  | 0, _, _ => none
  | fuel + 1, tmpMask, k =>
    if tmpMask = 0 then some ([], false)
    else do
      let dst := rank ^^^ tmpMask
      let root := rank >>> k <<< k
      let (is, received) ← passOn nprocsCompleted t fuel (tmpMask >>> 1) (k - 1)
      if rank < dst ∧ (rank : Int) < root + nprocsCompleted ∧
          root + nprocsCompleted ≤ (dst : Int) then
        return (sendTo dst (fun s => t.pack s.tmpRecvbuf) ++ is, received)
      else if dst < rank ∧ (dst : Int) < root + nprocsCompleted ∧
          root + nprocsCompleted ≤ (rank : Int) then
        return (recvFrom dst (ScatterBufs.recvIndexed t) ++ is, true)
      else return (is, received)

/-- `MPIR_Reduce_scatter_intra_recursive_doubling`
(:173). -/
def bitsLoop : Nat → Nat → Nat → Option Nat
  | 0, _, _ => none
  | fuel + 1, j, k => if j = 0 then some (k - 1) else bitsLoop fuel (j >>> 1) (k + 1)

/-- `MPIR_Reduce_scatter_intra_recursive_doubling`
(:92). -/
def doublingStep (mask i : Nat) : Option (List (ScatterInstr α)) := do
  let commSize := call.recvcounts.length
  let dst := rank ^^^ mask
  let dstRoot := dst >>> i <<< i
  let myRoot := rank >>> i <<< i
  let sendtype := treeType call myRoot mask
  let recvtype := treeType call dstRoot mask
  let exchange ←
    if dst < commSize then
      if sendtype.fits total && recvtype.fits total then
        some (sendRecv dst (fun s => sendtype.pack s.tmpResults) dst
          (ScatterBufs.recvIndexed recvtype))
      else none
    else some []
  let (pass, received) ←
    if commSize < dstRoot + mask then do
      let k ← bitsLoop (mask + 1) mask 0
      passOn rank ((commSize : Int) - myRoot - mask) recvtype (mask + 1) (mask >>> 1) k
    else some ([], false)
  if pass.isEmpty || recvtype.fits total then
    return exchange ++ pass ++ (if dst < commSize ∨ received = true then
      [.compute (ScatterBufs.reduceIndexed call.op
        (call.isCommutative || decide (dstRoot < myRoot)) recvtype)] else [])
  else none

/-- `MPIR_Reduce_scatter_intra_recursive_doubling`
(:92). -/
def scatterDoubling : Nat → Nat → Nat → Option (List (ScatterInstr α))
  | 0, _, _ => none
  | fuel + 1, mask, i =>
    if mask < call.recvcounts.length then do
      let is ← doublingStep call rank total mask i
      let rest ← scatterDoubling fuel (mask <<< 1) (i + 1)
      return is ++ rest
    else some []

/-- `MPIR_Reduce_scatter_intra_recursive_doubling`
(:254). -/
def ownBlock : Option (List (ScatterInstr α)) := do
  let disp ← (intDisps call.recvcounts)[rank]?
  let cnt ← call.recvcounts[rank]?
  if inBuf total disp cnt then return [Instr.compute (ScatterBufs.copyOut disp.toNat cnt)] else none

/-- `MPIR_Reduce_scatter_intra_recursive_doubling`
(:20). -/
def reduceScatterIntraRecursiveDoubling : Option (List (ScatterInstr α)) :=
  let total := intSum call.recvcounts 0
  if total = 0 then some []
  -- the temporary buffers cannot be allocated
  else if total < 0 then none
  else do
    let is ← scatterDoubling call rank total (call.recvcounts.length + 1) 1 0
    let own ← ownBlock call rank total
    return [Instr.compute (ScatterBufs.copyIn total.toNat)] ++ is ++ own

/-! ## Recursive halving -/

/-- `MPIR_Reduce_scatter_intra_recursive_halving`
(`reduce_scatter_intra_recursive_halving.c:107`). -/
def halvingPre (rem : Nat) : List (ScatterInstr α) :=
  if rank < 2 * rem then
    if rank % 2 = 0 then sendTo (rank + 1) fun s => slice s.tmpResults 0 total.toNat
    else recvFrom (rank - 1) fun s msg =>
      ScatterBufs.reduceTmp call.op 0 total.toNat (s.recvTmp 0 total.toNat msg)
  else []

/-- `MPIR_Reduce_scatter_intra_recursive_halving`
(:149). -/
def newCnts (pof2 rem : Nat) : Option (List Nat) :=
  (List.range pof2).mapM fun i =>
    let old := realRank rem i
    if old < 2 * rem then do
      let cnt ← call.recvcounts[old]?
      let left ← call.recvcounts[old - 1]?
      return cnt + left
    else call.recvcounts[old]?

def intCnts (cnts : List Nat) (lo hi : Nat) : Option Int :=
  if hi ≤ cnts.length then some (intSum ((cnts.take hi).drop lo) 0) else none

/-- A range of parts in a buffer; where it begins does not matter if it is empty. -/
def partRange (cnts : List Nat) (idx : Nat) (cnt : Int) : Option (Nat × Nat) :=
  if cnt = 0 then some (0, 0)
  else do
    let disp ← (dispsOf 0 cnts)[idx]?
    if inBuf total disp cnt then return (disp, cnt.toNat) else none

/-- `MPIR_Reduce_scatter_intra_recursive_halving`
(:197). -/
def halvingExchange (dst : Nat) (snd rcv : Nat × Nat) : List (ScatterInstr α) :=
  let msg := fun s : ScatterBufs α => slice s.tmpResults snd.1 snd.2
  let upd := fun (s : ScatterBufs α) m =>
    ScatterBufs.reduceTmp call.op rcv.1 rcv.2 (s.recvTmp rcv.1 rcv.2 m)
  if snd.2 ≠ 0 then
    if rcv.2 ≠ 0 then sendRecv dst msg dst upd else sendTo dst msg
  else if rcv.2 ≠ 0 then recvFrom dst upd
  else []

/-- `MPIR_Reduce_scatter_intra_recursive_halving`
(:169). -/
def scatterHalving (cnts : List Nat) (newrank rem : Nat) :
    Nat → Nat → Cursor → Option (List (ScatterInstr α))
  | 0, _, _ => none
  | fuel + 1, mask, c =>
    if 0 < mask then do
      let newdst := newrank ^^^ mask
      let lower : Bool := newrank < newdst
      let sendIdx := if lower then c.recvIdx + mask else c.sendIdx
      let recvIdx := if lower then c.recvIdx else c.sendIdx + mask
      let sendCnt ← intCnts cnts sendIdx (if lower then c.lastIdx else recvIdx)
      let recvCnt ← intCnts cnts recvIdx (if lower then sendIdx else c.lastIdx)
      let snd ← partRange total cnts sendIdx sendCnt
      let rcv ← partRange total cnts recvIdx recvCnt
      let is ← scatterHalving cnts newrank rem fuel (mask >>> 1) ⟨recvIdx, recvIdx, recvIdx + mask⟩
      return halvingExchange call (realRank rem newdst) snd rcv ++ is
    else some []

/-- `MPIR_Reduce_scatter_intra_recursive_halving`
(:136). -/
def halvingMain (pof2 rem : Nat) : Option Nat → Option (List (ScatterInstr α))
  | none => some []
  | some newrank => do
    let cnts ← newCnts call pof2 rem
    let is ← scatterHalving call total cnts newrank rem (pof2 + 1) (pof2 >>> 1) ⟨0, 0, pof2⟩
    let own ← ownBlock call rank total
    return is ++ own

/-- `MPIR_Reduce_scatter_intra_recursive_halving`
(:246). -/
def halvingPost (rem : Nat) : Option (List (ScatterInstr α)) :=
  if rank < 2 * rem then
    if rank % 2 = 1 then do
      let disp ← (intDisps call.recvcounts)[rank - 1]?
      let cnt ← call.recvcounts[rank - 1]?
      if cnt = 0 then return []
      else if inBuf total disp cnt then
        return sendTo (rank - 1) fun s => slice s.tmpResults disp.toNat cnt
      else none
    else do
      let cnt ← call.recvcounts[rank]?
      if cnt = 0 then return [] else return recvFrom (rank + 1) (ScatterBufs.recvRecv cnt)
  else some []

/-- `MPIR_Reduce_scatter_intra_recursive_halving`
(:37). -/
def reduceScatterIntraRecursiveHalving : Option (List (ScatterInstr α)) :=
  let total := intSum call.recvcounts 0
  if call.isCommutative = false then none
  else if total = 0 then some []
  -- the temporary buffers cannot be allocated
  else if total < 0 then none
  else do
    let pof2 := mplPof2 call.recvcounts.length
    let rem := call.recvcounts.length - pof2
    let is ← halvingMain call rank total pof2 rem (newrank rank rem)
    let post ← halvingPost call rank total rem
    return [Instr.compute (ScatterBufs.copyIn total.toNat)] ++ halvingPre call rank total rem ++ is ++
      post

end programs

end PsMpi.Coll
