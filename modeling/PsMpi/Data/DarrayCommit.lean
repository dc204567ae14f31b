import PsMpi.Data.Darray

/-!
# Distributed array types at commit time

See `mpich2/src/mpi/datatype/typerep/src/typerep_dataloop_darray.c`.
-/

open PsMpi.Lib

namespace PsMpi.Data.Commit

/-- `MPIR_Type_struct` (`type_create.c:224`). -/
def structMarked (lb disp ub : Int) (old : Meaning) : Meaning :=
  (Meaning.struct [(1, disp, old)]).resized lb (ub - lb)

/-- `type_block` (:154). -/
def typeBlock (faster : List Nat) (gsize nprocs rank : Nat) (darg : Option Int) (origExtent : Int)
    (old : Meaning) : Option (Meaning × Nat) :=
  (blockSize gsize nprocs darg).map fun blksize =>
    let mysize := min blksize (gsize - blksize * rank)
    let stride := faster.foldl (fun (s : Int) (g : Nat) => s * g) origExtent
    (if faster = [] then old.contiguous mysize else old.hvector mysize 1 stride,
      if mysize = 0 then 0 else blksize * rank)

/-- `type_cyclic` (:223). -/
def typeCyclic (faster : List Nat) (gsize nprocs rank : Nat) (darg : Option Int) (origExtent : Int)
    (old : Meaning) : Option (Meaning × Nat) :=
  (cyclicSize darg).map fun blksize =>
    let localSize := cyclicLocalSize gsize nprocs rank blksize
    let count := localSize / blksize
    let rem := localSize % blksize
    let stride := faster.foldl (fun (s : Int) (g : Nat) => s * g) (nprocs * blksize * origExtent)
    let vec := old.hvector count blksize stride
    let new := if rem = 0 then vec else .struct [(1, 0, vec), (rem, count * stride, old)]
    let (new, offset) :=
      if faster = [] then
        (structMarked 0 (rank * blksize * origExtent) (origExtent * gsize) new, 0)
      else (new, rank * blksize)
    (new, if localSize = 0 then 0 else offset)

/-- `MPII_Typerep_convert_darray` (:56). -/
def darrayDim (order : StorageOrder) (faster : List Nat) (d : DarrayDim) (coord : Nat)
    (origExtent : Int) (old : Meaning) : Option (Meaning × Nat) :=
  match d.distrib with
  | .block => typeBlock faster d.gsize d.psize coord d.darg origExtent old
  | .cyclic => typeCyclic faster d.gsize d.psize coord d.darg origExtent old
  | .none =>
    match order with
    | .fortran => typeBlock faster d.gsize 1 0 none origExtent old
    | .c => typeBlock faster d.gsize d.psize coord none origExtent old

/-- Line 54. -/
def darrayLoop (order : StorageOrder) (origExtent : Int) :
    List (DarrayDim × Nat) → List Nat → Meaning → Nat → Option (Meaning × Nat)
  | [], _, old, disp => some (old, disp)
  | (d, coord) :: dims, faster, old, disp =>
    (darrayDim order faster d coord origExtent old).bind fun (new, offset) =>
      darrayLoop order origExtent dims (faster ++ [d.gsize]) new (disp + faster.prod * offset)

/-- Line 18. -/
def convertDarray (size rank : Nat) (dims : List DarrayDim) (order : StorageOrder) (old : Meaning) :
    Option Meaning :=
  let coords := MixedRadix.digits size rank (dims.map DarrayDim.psize)
  (darrayLoop order old.extent (fastestFirst order (dims.zip coords)) [] old 0).map
    fun (new, disp) =>
      structMarked 0 (disp * old.extent)
        (dims.foldl (fun (s : Int) (d : DarrayDim) => s * d.gsize) old.extent) new

end PsMpi.Data.Commit
