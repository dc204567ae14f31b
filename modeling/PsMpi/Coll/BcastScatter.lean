import PsMpi.Coll.ReduceScatter
import PsMpi.Lib.Branch

/-!
# Broadcast by scatter and allgather

`MPII_Scatter_for_bcast` (`mpich2/src/mpi/coll/bcast/bcast_utils.c`),
`MPIR_Bcast_intra_scatter_ring_allgather`
(`mpich2/src/mpi/coll/bcast/bcast_intra_scatter_ring_allgather.c`) and
`MPIR_Bcast_intra_scatter_recursive_doubling_allgather`
(`mpich2/src/mpi/coll/bcast/bcast_intra_scatter_recursive_doubling_allgather.c`).
-/

namespace PsMpi.Coll

open PsMpi.Lib PsMpi.Lib.Network

/-- The number of bytes, which is the same at all processes, the number of the processes, and the
root. -/
structure BcastCall where
  nbytes : Nat
  commSize : Nat
  root : Nat

/-- The user's buffer and the temporary one, the number of the bytes that the process has and that
of the last message; whether a message was too long for its receive, and whether the check at the
end has failed. -/
structure BcastBufs (α : Type) where
  buffer : Nat → α
  tmpBuf : Nat → α
  currSize : Int
  recvSize : Int
  truncated : Bool
  sizeMismatch : Bool

abbrev BcastInstr (α : Type) := Instr Nat (BcastBufs α) (List α)

abbrev BcastCode (α : Type) := Code Nat (BcastBufs α) (List α)

namespace BcastBufs

variable {α : Type}

def start (buffer tmpBuf : Nat → α) : BcastBufs α := ⟨buffer, tmpBuf, 0, 0, false, false⟩

def recv (disp cnt : Nat) (s : BcastBufs α) (msg : List α) : BcastBufs α :=
  { s with
    tmpBuf := writeAt s.tmpBuf disp cnt msg
    recvSize := msg.length
    truncated := s.truncated || decide (cnt < msg.length) }

def recvFirst (disp cnt : Nat) (s : BcastBufs α) (msg : List α) : BcastBufs α :=
  { s.recv disp cnt msg with currSize := msg.length }

def recvMore (disp cnt : Nat) (s : BcastBufs α) (msg : List α) : BcastBufs α :=
  { s.recv disp cnt msg with currSize := s.currSize + msg.length }

def setCurr (size : Int) (s : BcastBufs α) : BcastBufs α := { s with currSize := size }

end BcastBufs

section programs

variable {α : Type} (call : BcastCall) (rank : Nat)

/-! ## Scatter -/

/-- `MPII_Scatter_for_bcast` (`bcast_utils.c:34`). -/
def BcastCall.relativeRank : Nat :=
  if call.root ≤ rank then rank - call.root else rank + call.commSize - call.root

/-- `MPII_Scatter_for_bcast` (:47). -/
def BcastCall.scatterSize : Nat := (call.nbytes + call.commSize - 1) / call.commSize

/-- A process receives from its parent, unless nothing can be left for it.
Line 52. -/
def scatterRecv : Nat → Nat → Option (List (BcastInstr α) × Nat)
  | 0, _ => none
  | fuel + 1, mask =>
    if mask < call.commSize then
      let rel := call.relativeRank rank
      if rel &&& mask ≠ 0 then
        let src := if rank < mask then rank + call.commSize - mask else rank - mask
        let recvSize : Int := call.nbytes - rel * call.scatterSize
        if recvSize ≤ 0 then some ([.compute (.setCurr 0)], mask)
        else some (recvFrom src (.recvFirst (rel * call.scatterSize) recvSize.toNat), mask)
      else scatterRecv fuel (mask <<< 1)
    else some ([], mask)

/-- Line 84. -/
def scatterSend : Nat → Nat → Option (BcastCode α)
  | 0, _ => none
  | fuel + 1, mask =>
    if 0 < mask then do
      let rest ← scatterSend fuel (mask >>> 1)
      let rel := call.relativeRank rank
      if rel + mask < call.commSize then
        let sendSize (s : BcastBufs α) : Int := s.currSize - call.scatterSize * mask
        let dst :=
          if call.commSize ≤ rank + mask then rank + mask - call.commSize else rank + mask
        return .branch (fun s => decide (0 < sendSize s))
          (.ofList (sendTo dst (fun s =>
            slice s.tmpBuf (call.scatterSize * (rel + mask)) (sendSize s).toNat) ++
              [Instr.compute fun s => s.setCurr (s.currSize - sendSize s)]) rest) rest
      else return rest
    else some .done

/-- Line 19. -/
def scatterForBcast : Option (BcastCode α) := do
  let (is, mask) ← scatterRecv call rank (call.commSize + 1) 1
  let code ← scatterSend call rank (mask + 1) (mask >>> 1)
  return .ofList (.compute (.setCurr (if rank = call.root then call.nbytes else 0)) :: is) code

/-! ## Allgather -/

/-- `MPIR_Bcast_intra_scatter_ring_allgather` (`bcast_intra_scatter_ring_allgather.c:84`). -/
def BcastCall.blockSize (rel : Nat) : Nat :=
  (min (call.scatterSize : Int) (call.nbytes - rel * call.scatterSize)).toNat

/-- `MPIR_Bcast_intra_scatter_ring_allgather` (:93). -/
def ringLoop : Nat → Nat → Nat → List (BcastInstr α)
  | 0, _, _ => []
  | k + 1, j, jnext =>
    let n := call.commSize
    let relJ := (j + n - call.root) % n
    let relJnext := (jnext + n - call.root) % n
    sendRecv ((rank + 1) % n)
      (fun s => slice s.tmpBuf (relJ * call.scatterSize) (call.blockSize relJ))
      ((n + rank - 1) % n) (.recvMore (relJnext * call.scatterSize) (call.blockSize relJnext)) ++
      ringLoop k jnext ((n + jnext - 1) % n)

/-- `MPIR_Bcast_intra_scatter_ring_allgather`
(:83). -/
def ringAllgather : List (BcastInstr α) :=
  let n := call.commSize
  .compute (.setCurr (call.blockSize ((rank + n - call.root) % n))) ::
    ringLoop call rank (n - 1) rank ((n + rank - 1) % n)

/-- The processes of a subtree that have received the data pass them on to the others; this happens
only if the number of the processes is not a power of two.
`MPIR_Bcast_intra_scatter_recursive_doubling_allgather`
(`bcast_intra_scatter_recursive_doubling_allgather.c:168`). -/
def passBlocks (nprocsCompleted : Int) (offset : Nat) :
    Nat → Nat → Nat → Option (List (BcastInstr α))
  | 0, _, _ => none
  | fuel + 1, tmpMask, k =>
    if tmpMask = 0 then some []
    else do
      let rel := call.relativeRank rank
      let relDst := rel ^^^ tmpMask
      let dst := (relDst + call.root) % call.commSize
      let treeRoot := rel >>> k <<< k
      let rest ← passBlocks nprocsCompleted offset fuel (tmpMask >>> 1) (k - 1)
      if rel < relDst ∧ (rel : Int) < treeRoot + nprocsCompleted ∧
          treeRoot + nprocsCompleted ≤ (relDst : Int) then
        return sendTo dst (fun s => slice s.tmpBuf offset s.recvSize.toNat) ++ rest
      else if relDst < rel ∧ (relDst : Int) < treeRoot + nprocsCompleted ∧
          treeRoot + nprocsCompleted ≤ (rel : Int) then
        return recvFrom dst (.recvMore offset (call.nbytes - offset)) ++ rest
      else return rest

/-- `MPIR_Bcast_intra_scatter_recursive_doubling_allgather`
(:95). -/
def bcastDoublingLoop : Nat → Nat → Nat → Option (List (BcastInstr α))
  | 0, _, _ => none
  | fuel + 1, mask, i =>
    if mask < call.commSize then do
      let rel := call.relativeRank rank
      let relDst := rel ^^^ mask
      let dst := (relDst + call.root) % call.commSize
      let dstTreeRoot := relDst >>> i <<< i
      let myTreeRoot := rel >>> i <<< i
      let sendOffset := myTreeRoot * call.scatterSize
      let recvOffset := dstTreeRoot * call.scatterSize
      let exchange : List (BcastInstr α) :=
        if relDst < call.commSize then
          sendRecv dst (fun s => slice s.tmpBuf sendOffset s.currSize.toNat) dst
            (.recvMore recvOffset (call.nbytes - recvOffset))
        else []
      let pass ←
        if call.commSize < dstTreeRoot + mask then do
          let k ← bitsLoop (mask + 1) mask 0
          passBlocks call rank ((call.commSize : Int) - myTreeRoot - mask)
            (call.scatterSize * (myTreeRoot + mask)) (mask + 1) (mask >>> 1) k
        else some []
      let rest ← bcastDoublingLoop fuel (mask <<< 1) (i + 1)
      return exchange ++ pass ++ rest
    else some []

/-- `MPIR_Bcast_intra_scatter_recursive_doubling_allgather`
(:87). -/
def bcastDoublingAllgather : Option (List (BcastInstr α)) := do
  let is ← bcastDoublingLoop call rank (call.commSize + 1) 1 0
  return .compute (.setCurr (call.blockSize (call.relativeRank rank))) :: is

/-! ## Broadcast -/

/-- The temporary buffer is the user's buffer if the datatype is contiguous; otherwise the root
packs its bytes into it. `MPIR_Bcast_intra_scatter_ring_allgather`
(`bcast_intra_scatter_ring_allgather.c:63`). -/
def packIn (isContig : Bool) : List (BcastInstr α) :=
  if isContig then [.compute fun s => { s with tmpBuf := s.buffer }]
  else if rank = call.root then
    [.compute fun s => { s with tmpBuf := localcopy s.buffer s.tmpBuf call.nbytes }]
  else []

/-- `MPIR_Bcast_intra_scatter_ring_allgather` (:128). -/
def unpackOut (isContig : Bool) : List (BcastInstr α) :=
  if isContig then [.compute fun s => { s with buffer := s.tmpBuf }]
  else if rank = call.root then []
  else [.compute fun s => { s with buffer := localcopy s.tmpBuf s.buffer call.nbytes }]

/-- Line 122. -/
def checkSize (isContig : Bool) : BcastCode α :=
  .branch (fun s => decide (s.currSize ≠ call.nbytes))
    (.ofList [.compute fun s => { s with sizeMismatch := true }] .done)
    (.ofList (unpackOut call rank isContig) .done)

/-- `MPIR_Bcast_intra_scatter_ring_allgather`
(:31). -/
def bcastIntraScatterRingAllgather (isContig : Bool) : Option (BcastCode α) :=
  if call.nbytes = 0 then some .done
  else do
    let scatter ← scatterForBcast call rank
    return .ofList (packIn call rank isContig)
      (scatter.append (.ofList (ringAllgather call rank) (checkSize call rank isContig)))

/-- `MPIR_Bcast_intra_scatter_recursive_doubling_allgather`
(`bcast_intra_scatter_recursive_doubling_allgather.c:28`). -/
def bcastIntraScatterRecursiveDoublingAllgather (isContig : Bool) : Option (BcastCode α) :=
  if call.nbytes = 0 then some .done
  else do
    let scatter ← scatterForBcast call rank
    let gather ← bcastDoublingAllgather call rank
    return .ofList (packIn call rank isContig)
      (scatter.append (.ofList gather (checkSize call rank isContig)))

inductive Allgather where
  | ring
  | recursiveDoubling

def bcastCode (allgather : Allgather) (isContig : Bool) : Option (BcastCode α) :=
  match allgather with
  | .ring => bcastIntraScatterRingAllgather call rank isContig
  | .recursiveDoubling => bcastIntraScatterRecursiveDoublingAllgather call rank isContig

end programs

def bcastProg {α : Type} (call : BcastCall) (allgather : Allgather) (isContig : Nat → Bool)
    (r : Nat) : BcastCode α :=
  if r < call.commSize then (bcastCode call r allgather (isContig r)).getD .done else .done

end PsMpi.Coll
