import PsMpi.Data.Bounds
import PsMpi.Lib.Displs

/-!
# Flattened datatypes

See `mpich2/src/mpi/datatype/typerep/src/typerep_flatten.c` and
`mpich2/src/mpi/datatype/typerep/dataloop/dataloop.c`.
-/

open PsMpi.Lib

namespace PsMpi.Data

/-- `MPII_DATALOOP_KIND_MASK` (`dataloop_internal.h:15`). -/
inductive LoopKind where
  | contig
  | vector
  | blockindexed
  | indexed
  | struct
deriving DecidableEq

/-- `struct MPII_Dataloop` (:92). -/
structure LoopData where
  kind : LoopKind
  final : Bool
  count : Int
  blocksize : Int
  stride : Int
  totalBlocks : Int
  elSize : Int
  elExtent : Int
  elType : Option Basic
  isContig : Bool
  numContig : Int

/-- `struct MPII_Dataloop` (:92). -/
structure Dataloop extends LoopData where
  dataloop : Int
  blocksizeArray : Int
  offsetArray : Int
  elExtentArray : Int
  dloopSz : Nat

inductive Cell where
  | loop (d : Dataloop)
  | aint (v : Int)
  | ptr (a : Int)

abbrev Heap := Int → Cell

def Heap.set (m : Heap) (a : Int) (c : Cell) : Heap := fun x => if x = a then c else m x

/-- `MPIR_Memcpy`. -/
def Heap.copy (m : Heap) (dst : Int) (sz : Nat) (src : Int → Cell) : Heap := fun x =>
  if dst ≤ x ∧ x < dst + sz then src (x - dst) else m x

structure Abi where
  sizeofLoop : Nat
  sizeofAint : Nat
  sizeofPtr : Nat
  maxAlignment : Nat
  loop_pos : 0 < sizeofLoop
  aint_pos : 0 < sizeofAint
  alignment_pos : 0 < maxAlignment

section update

variable (abi : Abi) (diff : Int)

/-- `MPII_Dataloop_update` (`dataloop.c:197`). -/
def updateInner (below : Int → Heap → Option Heap) (p : Int) (d : Dataloop) (m : Heap) :
    Option Heap :=
  if d.final then some m
  else if d.dataloop = 0 then none
  else below (d.dataloop + diff) (m.set p (.loop { d with dataloop := d.dataloop + diff }))

/-- `MPII_Dataloop_update` (:282). -/
def updateLooparray (looparray : Int) (count : Nat) (m : Heap) : Option Heap :=
  (List.range count).foldlM (fun m i =>
    match m (looparray + i * abi.sizeofPtr) with
    | .ptr a =>
      if a = 0 then none else some (m.set (looparray + i * abi.sizeofPtr) (.ptr (a + diff)))
    | _ => none) m

/-- Move the pointers of a loop and of the loops below it. Line 197. -/
def dataloopUpdate : Nat → Int → Heap → Option Heap
  | 0, _, _ => none
  | fuel + 1, p, m =>
    match m p with
    | .loop d =>
      match d.kind with
      | .contig | .vector => updateInner diff (dataloopUpdate fuel) p d m
      | .blockindexed =>
        if d.offsetArray = 0 then none
        else
          let d := { d with offsetArray := d.offsetArray + diff }
          updateInner diff (dataloopUpdate fuel) p d (m.set p (.loop d))
      | .indexed =>
        if d.blocksizeArray = 0 ∨ d.offsetArray = 0 then none
        else
          let d := { d with
            blocksizeArray := d.blocksizeArray + diff, offsetArray := d.offsetArray + diff }
          updateInner diff (dataloopUpdate fuel) p d (m.set p (.loop d))
      | .struct =>
        if d.blocksizeArray = 0 ∨ d.offsetArray = 0 then none
        else
          let d := { d with
            blocksizeArray := d.blocksizeArray + diff, offsetArray := d.offsetArray + diff }
          if d.final then some (m.set p (.loop d))
          else if d.dataloop = 0 then none
          else
            let looparray := d.dataloop + diff
            (updateLooparray abi diff looparray d.count.toNat
              (m.set p (.loop { d with dataloop := looparray }))).bind fun m =>
              (List.range d.count.toNat).foldlM (fun m i =>
                match m (looparray + i * abi.sizeofPtr) with
                | .ptr a => dataloopUpdate fuel a m
                | _ => none) m
    | _ => none

end update

section create

variable (abi : Abi) (fuel : Nat)

/-- `MPII_Dataloop_alloc_and_copy` (:376). -/
def Abi.padded (sz : Nat) : Nat :=
  if sz % abi.maxAlignment ≠ 0 then sz + (abi.maxAlignment - sz % abi.maxAlignment) else sz

/-- `dloop_copy` (:161). -/
def dloopCopy (dest src : Int) (size : Nat) (m : Heap) : Option Heap :=
  dataloopUpdate abi (dest - src) fuel dest (m.copy dest size fun i => m (src + i))

def copyOld (pos : Int) (old : Option Int) (oldSz : Nat) (m : Heap) : Option Heap :=
  match old with
  | none => some m
  | some old => dloopCopy abi fuel pos old oldSz m

def oldLoopSz (m : Heap) : Option Int → Option Nat
  | none => some 0
  | some old =>
    match m old with
    | .loop d => if d.dloopSz % abi.maxAlignment = 0 then some d.dloopSz else none
    | _ => none

def LoopKind.hasOffsets : LoopKind → Bool
  | .contig | .vector => false
  | .blockindexed | .indexed | .struct => true

def LoopKind.hasBlocks : LoopKind → Bool
  | .contig | .vector | .blockindexed => false
  | .indexed | .struct => true

/-- The sizes of the arrays of a loop: the pointers, the blocks, the offsets and the extents.
`MPII_Dataloop_alloc_and_copy` (:355). -/
def arraySizes (kind : LoopKind) (count : Nat) : Nat × Nat × Nat × Nat :=
  (if kind = .struct then abi.padded (count * abi.sizeofPtr) else 0,
    if kind.hasBlocks then abi.padded (count * abi.sizeofAint) else 0,
    if kind.hasOffsets then abi.padded (count * abi.sizeofAint) else 0,
    if kind = .struct then abi.padded (count * abi.sizeofAint) else 0)

/-- Line 397. -/
def newLoopSz (kind : LoopKind) (count oldSz : Nat) : Nat :=
  let (ptrSz, blkSz, offSz, extentSz) := arraySizes abi kind count
  abi.padded abi.sizeofLoop + offSz + blkSz + ptrSz + extentSz + oldSz

/-- Line 413. -/
def newPointers (kind : LoopKind) (count : Nat) (old : Option Int) (new pos : Int) : Dataloop :=
  let (ptrSz, blkSz, offSz, _) := arraySizes abi kind count
  let loopSz := abi.padded abi.sizeofLoop
  { kind, final := false, count := 0, blocksize := 0, stride := 0, totalBlocks := 0, elSize := 0
    elExtent := 0, elType := none, isContig := false, numContig := 0
    dataloop := if kind = .struct then new + loopSz else if old.isSome then pos else 0
    blocksizeArray := if kind.hasBlocks then new + loopSz + ptrSz else 0
    offsetArray := if kind.hasOffsets then new + loopSz + ptrSz + blkSz else 0
    elExtentArray := if kind = .struct then new + loopSz + ptrSz + blkSz + offSz else 0
    dloopSz := 0 }

/-- Allocate a loop at an address, and put a copy of the old loop behind it.
Line 338. -/
def allocAndCopy (kind : LoopKind) (count : Nat) (old : Option Int) (new : Int) (m : Heap) :
    Option (Heap × Dataloop) :=
  (oldLoopSz abi m old).bind fun oldSz =>
    let sz := newLoopSz abi kind count oldSz
    let pos := new + (sz - oldSz : Nat)
    let d := newPointers abi kind count old new pos
    let zeroed := (m.copy new sz fun _ => .aint 0).set new (.loop d)
    (copyOld abi fuel pos old oldSz zeroed).map fun m =>
      (m.set new (.loop { d with dloopSz := sz }), { d with dloopSz := sz })

structure Level where
  data : LoopData
  blocksizes : List Int
  offsets : List Int

def setArray (a : Int) (l : List Int) (m : Heap) : Heap := fun x =>
  match (List.range l.length).find? fun i : Nat => x = a + i * abi.sizeofAint with
  | some i => .aint (l.getD i 0)
  | none => m x

/-- `MPIR_Dataloop_create_contiguous` (`dataloop_create_contig.c:25`),
`MPIR_Dataloop_create_vector` (`dataloop_create_vector.c:23`), `MPIR_Dataloop_create_blockindexed`
(`dataloop_create_blockindexed.c:30`) and `MPIR_Dataloop_create_indexed`
(`dataloop_create_indexed.c:33`). -/
def fillLoop (new : Int) (d : Dataloop) (l : Level) (m : Heap) : Heap :=
  let m := m.set new (.loop { d with toLoopData := l.data })
  let m := if l.data.kind.hasBlocks then setArray abi d.blocksizeArray l.blocksizes m else m
  if l.data.kind.hasOffsets then setArray abi d.offsetArray l.offsets m else m

end create

/-! ## Datatypes -/

structure TypeObj extends TypeInfo where
  isCommitted : Bool
  isContig : Bool
  numContigBlocks : Int
  handle : Int

/-- `struct flatten_hdr` (`typerep_flatten.c:16`) and `struct dloop_flatten_hdr`
(`dataloop.c:76`). -/
structure Flattened where
  size : Int
  extent : Int
  ub : Int
  lb : Int
  trueUb : Int
  trueLb : Int
  isContig : Bool
  basicType : Option Basic
  numContigBlocks : Int
  dloopSz : Nat
  dataloopLocalAddr : Int
  dataloop : Int → Cell

section flatten

variable (abi : Abi) (fuel : Nat)

/-- `MPIR_Typerep_flatten` (`typerep_flatten.c:62`), `MPIR_Dataloop_flatten`
(`dataloop.c:90`). -/
def flatten (m : Heap) (t : TypeObj) : Option Flattened :=
  match m t.handle with
  | .loop d => some
    { size := t.size, extent := t.extent, ub := t.ub, lb := t.lb, trueUb := t.trueUb
      trueLb := t.trueLb, isContig := t.isContig, basicType := t.basicType
      numContigBlocks := t.numContigBlocks, dloopSz := d.dloopSz, dataloopLocalAddr := t.handle
      dataloop := fun i => m (t.handle + i) }
  | _ => none

/-- `MPIR_Typerep_unflatten` (`typerep_flatten.c:101`), `MPIR_Dataloop_unflatten`
(`dataloop.c:112`). -/
def unflatten (f : Flattened) (new : Int) (t : TypeObj) (m : Heap) : Option (Heap × TypeObj) :=
  (dataloopUpdate abi (new - f.dataloopLocalAddr) fuel new (m.copy new f.dloopSz f.dataloop)).map
    fun m => (m, { t with
      isCommitted := true
      isContig := f.isContig
      numContigBlocks := f.numContigBlocks
      size := f.size
      extent := f.extent
      basicType := f.basicType
      ub := f.ub
      lb := f.lb
      trueUb := f.trueUb
      trueLb := f.trueLb
      builtinElementSize := match f.basicType with
        | some b => b.size
        | none => 0
      handle := new })

end flatten

end PsMpi.Data
