import PsMpi.Lib.CInt
import PsMpi.Lib.MixedRadix
import PsMpi.Comm.Split

/-!
# Cartesian topologies

See `mpich2/src/mpi/topo/topo_impl.c`.
-/

open PsMpi.Comm PsMpi.Lib

namespace PsMpi.Topo

/-- `MPIR_Cart_topology` (`mpir_topo.h`). -/
structure CartTopology where
  nnodes : Nat
  ndims : Nat
  dims : List Nat
  periodic : List Bool
  position : List Nat

/-- `MPIR_Topology` (`mpir_topo.h`). -/
inductive Topology where
  | cart (t : CartTopology)
  | graph
  | distGraph

/-- How the communicator of a topology is made: it is a copy of the one of the process alone, a copy
of the old one with its first processes, or made by a split. -/
inductive Newcart where
  | self
  | copy (size : Nat)
  | split (newcomm : Newcomm)

inductive CartResult where
  | error (msg : String)
  | null
  | comm (c : Newcart) (t : CartTopology)

def Newcart.members (rank : Nat) : Newcart → List Int
  | .self => [rank]
  | .copy size => (List.range size).map Int.ofNat
  | .split newcomm => newcomm.l2l

/-! ## Making a topology -/

/-- `MPIR_Cart_create_impl` (:37). -/
def newsize (dims : List Nat) : Option Nat := dims.foldlM mulInt 1

/-- `MPIR_Cart_create_impl` (:122), `MPIR_Cart_sub_impl` (:386). -/
def cartPosition : Nat → Nat → List Nat → Option (List Nat)
  | _, _, [] => some []
  | nranks, rank, d :: dims =>
    if d = 0 ∨ nranks / d = 0 then none
    else (cartPosition (nranks / d) (rank % (nranks / d)) dims).map (rank / (nranks / d) :: ·)

/-- `MPIR_Cart_map_impl` (:176). -/
def cartMap (rank nranks : Nat) : Int := if rank < nranks then rank else undefined

/-- The communicator of a grid at a process, which has the rank `rank` in it unless it is not in the
grid. `MPIR_Cart_create_impl` (:82). -/
def cartComm (qsort : Option Qsort) (comm : CommPtr) (table : List Splittype)
    (getContextid : Bool → Nat) (reorder : Bool) (size : Nat) : Option (Int × Option Newcart) :=
  if reorder then do
    let rank := cartMap comm.rank size
    let color := if rank = undefined then undefined else 1
    let (newcomm, _) ← splitImpl qsort comm table [] color getContextid 0
    return (rank, newcomm.map .split)
  else some (comm.rank, if comm.rank < size then some (.copy size) else none)

/-- Line 26. -/
def cartCreate (qsort : Option Qsort) (comm : CommPtr) (remoteSize : Nat) (dims : List Nat)
    (periods : List Bool) (reorder : Bool) (table : List Splittype) (getContextid : Bool → Nat) :
    Option CartResult := do
  let size ← newsize dims
  if remoteSize < size then
    return .error "**cartdim"
  else if dims = [] then
    -- only the first process gets a communicator, a duplicate of `MPI_COMM_SELF`
    if comm.rank = 0 then return .comm .self ⟨1, 0, [], [], []⟩ else return .null
  else do
    let (rank, newcomm) ← cartComm qsort comm table getContextid reorder size
    if rank ≥ size ∨ rank = undefined then
      return .null
    else do
      let newcomm ← newcomm
      let position ← cartPosition size rank.toNat dims
      return .comm newcomm ⟨size, dims.length, dims, periods, position⟩

/-! ## Sub-grids -/

def remains (remainDims : List Int) : List Bool := remainDims.map fun remain => decide (remain ≠ 0)

/-- `MPIR_Cart_sub_impl` (:317). -/
def allFalse (remainDims : List Int) : Bool := !(remains remainDims).any id

/-- Line 335. -/
def nnodesInSubcomm : List Bool → List Nat → Nat → Option Nat
  | remain :: remains, d :: dims, nnodes =>
    if remain then do nnodesInSubcomm remains dims (← mulInt nnodes d)
    else nnodesInSubcomm remains dims nnodes
  | _, _, nnodes => some nnodes

def addDigit (n d p : Nat) : Option Nat := do addInt (← mulInt n d) p

/-- Line 346. -/
def keyAndColor : List Bool → List Nat → List Nat → Nat × Nat → Option (Nat × Nat)
  | remain :: remains, d :: dims, p :: position, (key, color) =>
    if remain then do keyAndColor remains dims position (← addDigit key d p, color)
    else do keyAndColor remains dims position (key, ← addDigit color d p)
  | _, _, _, r => some r

def subEntry (t : CartTopology) (remainDims : List Int) : Option Splittype := do
  let (key, color) ← keyAndColor (remains remainDims) t.dims t.position (0, 0)
  return ⟨color, key⟩

/-- Line 300. -/
def cartSub (qsort : Option Qsort) (comm : CommPtr) (remoteSize : Nat) (topo : Option Topology)
    (remainDims : List Int) (table : List Splittype) (getContextid : Bool → Nat) :
    Option CartResult :=
  match topo with
  | none => some (.error "**notopology")
  | some .graph | some .distGraph => some (.error "**notcarttopo")
  | some (.cart t) =>
    if allFalse remainDims then cartCreate qsort comm remoteSize [] [] false table getContextid
    else do
      let nnodes ← nnodesInSubcomm (remains remainDims) t.dims 1
      let e ← subEntry t remainDims
      let (newcomm, _) ← splitImpl qsort comm table [] e.color getContextid 0
      let newcomm ← newcomm
      let dims := MixedRadix.keep (remains remainDims) t.dims
      let periodic := MixedRadix.keep (remains remainDims) t.periodic
      let rank ← newcomm.rank
      let position ← cartPosition nnodes rank dims
      return .comm (.split newcomm) ⟨nnodes, dims.length, dims, periodic, position⟩

end PsMpi.Topo
