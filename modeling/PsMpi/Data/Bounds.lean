import PsMpi.Data.Datatype

/-!
# The bounds of derived datatypes

See `mpich2/src/mpi/datatype/typerep/src/typerep_dataloop_create.c`.
-/

namespace PsMpi.Data

/-- `struct MPIR_Datatype` (`mpir_datatype.h`). -/
structure TypeInfo where
  size : Int
  lb : Int
  ub : Int
  trueLb : Int
  trueUb : Int
  extent : Int
  alignsize : Int
  nBuiltinElements : Int
  builtinElementSize : Int
  basicType : Option Basic

inductive OldType where
  | builtin (b : Basic)
  | derived (d : TypeInfo)

section create

variable (alignOf : Basic → Nat)

/-- What the constructors take of an old type; `alignOf` is the alignment of the basic types.
See the two branches of `update_type_vector` (:112). -/
def OldType.info : OldType → TypeInfo
  | .builtin b =>
    { size := b.size, lb := 0, ub := b.size, trueLb := 0, trueUb := b.size, extent := b.size
      alignsize := alignOf b, nBuiltinElements := 1, builtinElementSize := b.size
      basicType := some b }
  | .derived d => d

/-- `MPII_DATATYPE_CONTIG_LB_UB` (:21). -/
def contigLbUb (cnt oldLb oldUb oldExtent : Int) : Int × Int :=
  if cnt = 0 then (oldLb, oldUb)
  else if oldUb ≥ oldLb then (oldLb, oldUb + oldExtent * (cnt - 1))
  else (oldLb + oldExtent * (cnt - 1), oldUb)

/-- `MPII_DATATYPE_VECTOR_LB_UB` (:49). -/
def vectorLbUb (cnt stride blklen oldLb oldUb oldExtent : Int) : Int × Int :=
  if cnt = 0 ∨ blklen = 0 then (oldLb, oldUb)
  else if stride ≥ 0 ∧ oldExtent ≥ 0 then
    (oldLb, oldUb + oldExtent * (blklen - 1) + stride * (cnt - 1))
  else if stride < 0 ∧ oldExtent ≥ 0 then
    (oldLb + stride * (cnt - 1), oldUb + oldExtent * (blklen - 1))
  else if stride ≥ 0 ∧ oldExtent < 0 then
    (oldLb + oldExtent * (blklen - 1), oldUb + stride * (cnt - 1))
  else (oldLb + oldExtent * (blklen - 1) + stride * (cnt - 1), oldUb)

/-- `MPII_DATATYPE_BLOCK_LB_UB` (:87). -/
def blockLbUb (cnt disp oldLb oldUb oldExtent : Int) : Int × Int :=
  if cnt = 0 then (oldLb + disp, oldUb + disp)
  else if oldUb ≥ oldLb then (oldLb + disp, oldUb + disp + oldExtent * (cnt - 1))
  else (oldLb + disp + oldExtent * (cnt - 1), oldUb + disp)

/-- `update_type_vector` (:112). -/
def updateTypeVector (count blocklength : Nat) (stride : Int) (old : OldType)
    (strideinbytes : Bool) : TypeInfo :=
  let o := old.info alignOf
  let effStride := if count > 1 then (if strideinbytes then stride else stride * o.extent) else 0
  let b := vectorLbUb count effStride blocklength o.lb o.ub o.extent
  { o with
    size := count * blocklength * o.size
    nBuiltinElements := count * blocklength * o.nBuiltinElements
    lb := b.1
    ub := b.2
    trueLb := b.1 + (o.trueLb - o.lb)
    trueUb := b.2 + (o.trueUb - o.ub)
    extent := b.2 - b.1 }

def effDisp (dispinbytes : Bool) (disp oldExtent : Int) : Int :=
  if dispinbytes then disp else disp * oldExtent

/-- The least lower and the greatest upper bound of the blocks that are not empty, and the number of
old types. See the loop of `update_type_indexed` (:227). -/
def indexedLoop (o : TypeInfo) (dispinbytes : Bool) :
    List (Nat × Int) → Int × Int × Int → Int × Int × Int
  | [], acc => acc
  | (blocklength, disp) :: rest, (minLb, maxUb, ct) =>
    if blocklength > 0 then
      let b := blockLbUb blocklength (effDisp dispinbytes disp o.extent) o.lb o.ub o.extent
      indexedLoop o dispinbytes rest (if b.1 < minLb then b.1 else minLb,
        if b.2 > maxUb then b.2 else maxUb, ct + blocklength)
    else indexedLoop o dispinbytes rest (minLb, maxUb, ct)

/-- Line 169. -/
def updateTypeIndexed (blocks : List (Nat × Int)) (old : OldType) (dispinbytes : Bool) :
    Option TypeInfo :=
  let o := old.info alignOf
  match blocks.dropWhile fun x => x.1 == 0 with
  | [] => none
  | (blocklength, disp) :: rest =>
    let b := blockLbUb blocklength (effDisp dispinbytes disp o.extent) o.lb o.ub o.extent
    let (minLb, maxUb, ct) := indexedLoop o dispinbytes rest (b.1, b.2, blocklength)
    some { o with
      size := ct * o.size
      nBuiltinElements := ct * o.nBuiltinElements
      lb := minLb
      ub := maxUb
      trueLb := minLb + (o.trueLb - o.lb)
      trueUb := maxUb + (o.trueUb - o.ub)
      extent := maxUb - minLb }

def blockindexedLoop (o : TypeInfo) (blocklength : Nat) (dispinbytes : Bool) :
    List Int → Int × Int → Int × Int
  | [], acc => acc
  | disp :: rest, (minLb, maxUb) =>
    let b := blockLbUb blocklength (effDisp dispinbytes disp o.extent) o.lb o.ub o.extent
    blockindexedLoop o blocklength dispinbytes rest
      (if b.1 < minLb then b.1 else minLb, if b.2 > maxUb then b.2 else maxUb)

/-- `update_type_blockindexed` (:263). -/
def updateTypeBlockindexed (blocklength : Nat) (displs : List Int) (old : OldType)
    (dispinbytes : Bool) : Option TypeInfo :=
  let o := old.info alignOf
  match displs with
  | [] => none
  | disp :: rest =>
    let b := blockLbUb blocklength (effDisp dispinbytes disp o.extent) o.lb o.ub o.extent
    let (minLb, maxUb) := blockindexedLoop o blocklength dispinbytes rest b
    some { o with
      size := displs.length * blocklength * o.size
      nBuiltinElements := displs.length * blocklength * o.nBuiltinElements
      lb := minLb
      ub := maxUb
      trueLb := minLb + (o.trueLb - o.lb)
      trueUb := maxUb + (o.trueUb - o.ub)
      extent := maxUb - minLb }

/-- `MPIR_Typerep_create_contig` (:371). -/
def createContig (count : Nat) (old : OldType) : TypeInfo :=
  let o := old.info alignOf
  match old with
  | .builtin b =>
    { o with
      size := count * b.size
      trueLb := 0
      lb := 0
      trueUb := count * b.size
      ub := count * b.size
      extent := count * b.size - 0
      nBuiltinElements := count }
  | .derived _ =>
    let b := contigLbUb count o.lb o.ub o.extent
    { o with
      size := count * o.size
      lb := b.1
      ub := b.2
      trueLb := b.1 + (o.trueLb - o.lb)
      trueUb := b.2 + (o.trueUb - o.ub)
      extent := b.2 - b.1
      nBuiltinElements := count * o.nBuiltinElements }

/-- `MPIR_Typerep_create_resized` (:472). -/
def createResized (old : OldType) (lb extent : Int) : TypeInfo :=
  { old.info alignOf with lb := lb, ub := lb + extent, extent := extent }

/-- `struct_alignsize` (:334). -/
def structAlignsize (types : List OldType) : Int :=
  types.foldl
    (fun m t => if m < (t.info alignOf).alignsize then (t.info alignOf).alignsize else m) 0

/-- The variables of the loop over the blocks of a struct: a bound that has not been found yet is
`none`. -/
structure StructAcc where
  el : Option (Int × Option Basic)
  size : Int
  trueLb : Option Int
  lb : Option Int
  trueUb : Option Int
  ub : Option Int

def lowest (found : Option Int) (x : Int) : Option Int :=
  match found with
  | none => some x
  | some y => if y > x then some x else some y

def highest (found : Option Int) (x : Int) : Option Int :=
  match found with
  | none => some x
  | some y => if y < x then some x else some y

def sameEl (found : Option (Int × Option Basic)) (sz : Int) (ty : Option Basic) :
    Option (Int × Option Basic) :=
  match found with
  | none => some (sz, ty)
  | some (s, t) =>
    if s ≠ sz then some (-1, none) else if t ≠ ty then some (s, none) else some (s, t)

/-- One block of a struct. See the loop of `MPIR_Typerep_create_struct`
(:519). -/
def structStep (acc : StructAcc) (x : Nat × Int × OldType) : StructAcc :=
  if x.1 = 0 then acc
  else
    let o := x.2.2.info alignOf
    let b := blockLbUb x.1 x.2.1 o.lb o.ub o.extent
    { el := sameEl acc.el o.builtinElementSize o.basicType
      size := acc.size + o.size * x.1
      trueLb := lowest acc.trueLb (b.1 + (o.trueLb - o.lb))
      lb := lowest acc.lb b.1
      trueUb := highest acc.trueUb (b.2 + (o.trueUb - o.ub))
      ub := highest acc.ub b.2 }

/-- `MPIR_Typerep_create_struct` (:622). -/
def structPadding (extent alignsize : Int) : Int :=
  let epsilon := if alignsize > 0 then extent.tmod alignsize else 0
  if epsilon ≠ 0 then alignsize - epsilon else 0

/-- Line 507. -/
def createStruct (blocks : List (Nat × Int × OldType)) : TypeInfo :=
  let acc := blocks.foldl (structStep alignOf) ⟨none, 0, none, none, none, none⟩
  let lb := acc.lb.getD 0
  let ub := acc.ub.getD 0
  let alignsize := structAlignsize alignOf (blocks.map fun x => x.2.2)
  let ub := ub + structPadding (ub - lb) alignsize
  { size := acc.size
    lb
    ub
    trueLb := acc.trueLb.getD 0
    trueUb := acc.trueUb.getD 0
    extent := ub - lb
    alignsize
    nBuiltinElements := -1
    builtinElementSize := (acc.el.getD (0, none)).1
    basicType := (acc.el.getD (0, none)).2 }

end create

/-! ## Nests -/

mutual

/-- A datatype as it is constructed. A displacement or stride may be in bytes or in extents of the
old type. -/
inductive Ty where
  | builtin (b : Basic)
  | contig (count : Nat) (old : Ty)
  | vector (count blocklength : Nat) (stride : Int) (inBytes : Bool) (old : Ty)
  | indexed (blocks : List (Nat × Int)) (inBytes : Bool) (old : Ty)
  | blockindexed (blocklength : Nat) (displs : List Int) (inBytes : Bool) (old : Ty)
  | resized (lb extent : Int) (old : Ty)
  | struct (blocks : Blocks)

inductive Blocks where
  | nil
  | cons (blocklength : Nat) (displ : Int) (old : Ty) (rest : Blocks)

end

section build

variable (alignOf : Basic → Nat)

mutual

/-- `MPIR_Typerep_create_contig`, `MPIR_Typerep_create_vector`, `MPIR_Typerep_create_hvector`,
`MPIR_Typerep_create_indexed`, `MPIR_Typerep_create_hindexed`, `MPIR_Typerep_create_indexed_block`,
`MPIR_Typerep_create_hindexed_block`, `MPIR_Typerep_create_resized` and `MPIR_Typerep_create_struct`
(:353). -/
def Ty.build : Ty → Option OldType
  | .builtin b => some (.builtin b)
  | .contig count old => old.build.map fun o => .derived (createContig alignOf count o)
  | .vector count blocklength stride inBytes old =>
    old.build.map fun o => .derived (updateTypeVector alignOf count blocklength stride o inBytes)
  | .indexed blocks inBytes old =>
    old.build.bind fun o => (updateTypeIndexed alignOf blocks o inBytes).map .derived
  | .blockindexed blocklength displs inBytes old =>
    old.build.bind fun o =>
      (updateTypeBlockindexed alignOf blocklength displs o inBytes).map .derived
  | .resized lb extent old => old.build.map fun o => .derived (createResized alignOf o lb extent)
  | .struct blocks => blocks.build.map fun l => .derived (createStruct alignOf l)

def Blocks.build : Blocks → Option (List (Nat × Int × OldType))
  | .nil => some []
  | .cons blocklength displ old rest =>
    old.build.bind fun o => rest.build.map fun l => (blocklength, displ, o) :: l

end

end build

end PsMpi.Data
