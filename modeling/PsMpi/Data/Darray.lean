import PsMpi.Data.BoundsOk
import PsMpi.Lib.MixedRadix

/-!
# Distributed array types

See `mpich2/src/mpi/datatype/type_create_darray.c`.
-/

open PsMpi.Lib

namespace PsMpi.Data

/-- `MPI_DISTRIBUTE_BLOCK`, `MPI_DISTRIBUTE_CYCLIC`, `MPI_DISTRIBUTE_NONE`. -/
inductive Distrib where
  | block
  | cyclic
  | none

/-- `MPI_ORDER_C`, `MPI_ORDER_FORTRAN`. -/
inductive StorageOrder where
  | c
  | fortran

/-- A dimension; `darg` is `none` for `MPI_DISTRIBUTE_DFLT_DARG`. -/
structure DarrayDim where
  gsize : Nat
  distrib : Distrib
  darg : Option Int
  psize : Nat

namespace Meaning

/-- `MPIR_Type_contiguous`. -/
def contiguous (count : Nat) (old : Meaning) : Meaning := old.copies (steps count old.extent)

/-- `MPIR_Type_vector`. -/
def hvector (count blocklength : Nat) (stride : Int) (old : Meaning) : Meaning :=
  old.copies (vectorDispls count blocklength stride old.extent)

/-- `MPIR_Type_blockindexed`. -/
def blockindexed (disp : Int) (old : Meaning) : Meaning :=
  old.copies (indexedDispls old.extent true [(1, disp)])

/-- `MPIR_Type_create_resized`. -/
def resized (lb extent : Int) (old : Meaning) : Meaning := { old with lb := lb, ub := lb + extent }

/-- `MPIR_Type_struct`. -/
def struct (blocks : List (Nat × Int × Meaning)) : Meaning := (ofBlocks blocks).pad

end Meaning

/-- `MPIR_Type_block` (:8). -/
def blockSize (gsize nprocs : Nat) (darg : Option Int) : Option Nat :=
  match darg with
  | none => some ((gsize + nprocs - 1) / nprocs)
  | some d => if d ≤ 0 then none else if d * nprocs < gsize then none else some d.toNat

/-- `MPIR_Type_cyclic` (:126). -/
def cyclicSize (darg : Option Int) : Option Nat :=
  match darg with
  | none => some 1
  | some d => if d ≤ 0 then none else some d.toNat

/-- `MPIR_Type_block` (:8). -/
def typeBlock (faster : List Nat) (gsize nprocs rank : Nat) (darg : Option Int) (origExtent : Int)
    (old : Meaning) : Option (Meaning × Nat) :=
  (blockSize gsize nprocs darg).map fun blksize =>
    let mysize := min blksize (gsize - blksize * rank)
    let stride := faster.foldl (fun (s : Int) (g : Nat) => s * g) origExtent
    let new := if faster = [] then old.contiguous mysize else old.hvector mysize 1 stride
    (new.resized 0 (gsize * old.extent), if mysize = 0 then 0 else blksize * rank)

/-- `MPIR_Type_cyclic` (:163). -/
def cyclicLocalSize (gsize nprocs rank blksize : Nat) : Nat :=
  if (gsize : Int) - 1 < rank * blksize then 0
  else (gsize - rank * blksize) / (nprocs * blksize) * blksize +
    min ((gsize - rank * blksize) % (nprocs * blksize)) blksize

/-- Line 126. -/
def typeCyclic (faster : List Nat) (gsize nprocs rank : Nat) (darg : Option Int) (origExtent : Int)
    (old : Meaning) : Option (Meaning × Nat) :=
  (cyclicSize darg).map fun blksize =>
    let localSize := cyclicLocalSize gsize nprocs rank blksize
    let count := localSize / blksize
    let rem := localSize % blksize
    let stride := faster.foldl (fun (s : Int) (g : Nat) => s * g) (nprocs * blksize * origExtent)
    let vec := old.hvector count blksize stride
    let new := if rem = 0 then vec else .struct [(1, 0, vec), (rem, count * stride, old)]
    let (new, offset) :=
      if faster = [] then
        ((new.blockindexed (rank * blksize * origExtent)).resized 0 (origExtent * gsize), 0)
      else (new, rank * blksize)
    (new.resized 0 (gsize * old.extent), if localSize = 0 then 0 else offset)

/-- The type of one dimension. `MPIR_Type_create_darray` (:314). -/
def darrayDim (order : StorageOrder) (faster : List Nat) (d : DarrayDim) (coord : Nat)
    (origExtent : Int) (old : Meaning) : Option (Meaning × Nat) :=
  match d.distrib with
  | .block => typeBlock faster d.gsize d.psize coord d.darg origExtent old
  | .cyclic => typeCyclic faster d.gsize d.psize coord d.darg origExtent old
  | .none =>
    match order with
    | .fortran => typeBlock faster d.gsize 1 0 none origExtent old
    | .c => typeBlock faster d.gsize d.psize coord none origExtent old

/-- The loop over the dimensions, the fastest one first, and the displacement in elements.
Line 311. -/
def darrayLoop (order : StorageOrder) (origExtent : Int) :
    List (DarrayDim × Nat) → List Nat → Meaning → Nat → Option (Meaning × Nat)
  | [], _, old, disp => some (old, disp)
  | (d, coord) :: dims, faster, old, disp =>
    (darrayDim order faster d coord origExtent old).bind fun (new, offset) =>
      darrayLoop order origExtent dims (faster ++ [d.gsize]) new (disp + faster.prod * offset)

/-- The dimensions with the coordinates of a process, the fastest dimension first.
Line 297. -/
def fastestFirst {α : Type} (order : StorageOrder) (l : List α) : List α :=
  match order with
  | .fortran => l
  | .c => l.reverse

/-- Line 277. -/
def createDarray (size rank : Nat) (dims : List DarrayDim) (order : StorageOrder) (old : Meaning) :
    Option Meaning :=
  let coords := MixedRadix.digits size rank (dims.map DarrayDim.psize)
  (darrayLoop order old.extent (fastestFirst order (dims.zip coords)) [] old 0).map
    fun (new, disp) =>
      (new.blockindexed (disp * old.extent)).resized 0
        (dims.foldl (fun (s : Int) (d : DarrayDim) => s * d.gsize) old.extent)

end PsMpi.Data
