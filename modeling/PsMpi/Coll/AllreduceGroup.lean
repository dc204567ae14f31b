import PsMpi.Lib.Rounds
import PsMpi.Group.Translate

/-!
# Reduction over a group

See `MPII_Allreduce_group_intra` (`mpich2/src/mpi/coll/allreduce_group/allreduce_group.c`).
-/

namespace PsMpi.Coll

open PsMpi.Lib.Rounds PsMpi.Groups

/-- `MPL_log2` (`mpl_math.h:15`). -/
def mplLog2 (number : Nat) : Nat := Nat.log2 number

/-- `MPL_pof2` (:35). -/
def mplPof2 (number : Nat) : Nat := if 0 < number then 1 <<< mplLog2 number else 0

/-- The arguments of the call, which are the same at all members: the number and the size of the
elements, the operation on elements, and what is known about it. -/
structure Call (α : Type) where
  count : Nat
  typeSize : Nat
  op : α → α → α
  isCommutative : Bool
  isBuiltin : Bool
  shortMsgSize : Int

structure View where
  group : MpiGroup
  localGroup : MpiGroup

/-- The receive buffer and the temporary one, and whether a message has been too long for its
receive. -/
structure Bufs (α : Type) where
  recvbuf : Nat → α
  tmpBuf : Nat → α
  truncated : Bool

section bufs

variable {α : Type}

def slice (buf : Nat → α) (disp cnt : Nat) : List α := (List.range cnt).map fun i => buf (disp + i)

def writeAt (buf : Nat → α) (disp cnt : Nat) (msg : List α) : Nat → α := fun i =>
  if disp ≤ i ∧ i < disp + cnt then (msg[i - disp]?).getD (buf i) else buf i

/-- `MPIR_Reduce_local`. -/
def reduceLocal (op : α → α → α) (inbuf inoutbuf : Nat → α) (disp cnt : Nat) : Nat → α := fun i =>
  if disp ≤ i ∧ i < disp + cnt then op (inbuf i) (inoutbuf i) else inoutbuf i

/-- `MPIR_Localcopy`. -/
def localcopy (src dst : Nat → α) (cnt : Nat) : Nat → α := fun i => if i < cnt then src i else dst i

def Bufs.recvTmp (s : Bufs α) (disp cnt : Nat) (msg : List α) : Bufs α :=
  { s with
    tmpBuf := writeAt s.tmpBuf disp cnt msg
    truncated := s.truncated || decide (cnt < msg.length) }

def Bufs.recvRecv (s : Bufs α) (disp cnt : Nat) (msg : List α) : Bufs α :=
  { s with
    recvbuf := writeAt s.recvbuf disp cnt msg
    truncated := s.truncated || decide (cnt < msg.length) }

def Bufs.reduceTmp (op : α → α → α) (s : Bufs α) (disp cnt : Nat) : Bufs α :=
  { s with recvbuf := reduceLocal op s.tmpBuf s.recvbuf disp cnt }

end bufs

/-! ## The communication of a member -/

abbrev Act (α : Type) := Action Nat (Bufs α) (List α)

section acts

variable {α : Type} (call : Call α) (v : View)

structure Piece where
  sendDisp : Nat
  sendCnt : Nat
  recvDisp : Nat
  recvCnt : Nat

/-- Line 67. -/
def newrank (rank rem : Nat) : Option Nat :=
  if rank < 2 * rem then
    if rank % 2 = 0 then none else some (rank / 2)
  else some (rank - rem)

/-- Line 111. -/
def realRank (rem newdst : Nat) : Nat := if newdst < rem then newdst * 2 + 1 else newdst + rem

/-- Line 162. -/
def dispsOf (disp : Nat) : List Nat → List Nat
  | [] => []
  | cnt :: cnts => disp :: dispsOf (disp + cnt) cnts

def sumCnts (cnts : List Nat) (lo hi : Nat) : Option Nat :=
  if hi ≤ cnts.length then some ((cnts.take hi).drop lo).sum else none

structure Cursor where
  sendIdx : Nat
  recvIdx : Nat
  lastIdx : Nat

/-- The parts that are exchanged in a step of the reduce-scatter, and the cursors for the next step.
Line 176. -/
def scatterPiece (cnts : List Nat) (pof2 newrank newdst mask : Nat) (c : Cursor) :
    Option (Piece × Cursor) := do
  let half := pof2 / (mask * 2)
  let lower : Bool := newrank < newdst
  let sendIdx := if lower then c.recvIdx + half else c.sendIdx
  let recvIdx := if lower then c.recvIdx else c.sendIdx + half
  let sendCnt ← sumCnts cnts sendIdx (if lower then c.lastIdx else recvIdx)
  let recvCnt ← sumCnts cnts recvIdx (if lower then sendIdx else c.lastIdx)
  let sendDisp ← (dispsOf 0 cnts)[sendIdx]?
  let recvDisp ← (dispsOf 0 cnts)[recvIdx]?
  -- the last cursor of the last step is needed to gather
  let lastIdx := if mask <<< 1 < pof2 then recvIdx + pof2 / (mask <<< 1) else c.lastIdx
  return (⟨sendDisp, sendCnt, recvDisp, recvCnt⟩, ⟨recvIdx, recvIdx, lastIdx⟩)

/-- The parts that are exchanged in a step of the allgather, and the cursors for the next step.
Line 233. -/
def gatherPiece (cnts : List Nat) (pof2 newrank newdst mask : Nat) (c : Cursor) :
    Option (Piece × Cursor) := do
  let half := pof2 / (mask * 2)
  let lower : Bool := newrank < newdst
  let lastIdx := if lower ∧ mask ≠ pof2 / 2 then c.lastIdx + half else c.lastIdx
  let recvIdx ←
    if lower then some (c.sendIdx + half)
    else if half ≤ c.sendIdx then some (c.sendIdx - half) else none
  let sendCnt ← sumCnts cnts c.sendIdx (if lower then recvIdx else lastIdx)
  let recvCnt ← sumCnts cnts recvIdx (if lower then lastIdx else c.sendIdx)
  let sendDisp ← (dispsOf 0 cnts)[c.sendIdx]?
  let recvDisp ← (dispsOf 0 cnts)[recvIdx]?
  let sendIdx := if newdst < newrank then recvIdx else c.sendIdx
  return (⟨sendDisp, sendCnt, recvDisp, recvCnt⟩, ⟨sendIdx, recvIdx, lastIdx⟩)

end acts

/-! ## The members together -/

section system

variable {α : Type} (call : Call α) (members : List Nat) (view : Nat → View)

end system

end PsMpi.Coll
