import Mathlib.Algebra.GroupWithZero.Nat
import Mathlib.Algebra.Ring.Int.Defs
import PsMpi.Lib.Chain
import PsMpi.Lib.Trans

/-!
# The handle allocator

See `mpich2/src/include/mpir_handlemem.h` and `mpich2/src/include/mpir_objects.h`.
-/

namespace PsMpi.Handle

open PsMpi.Lib

/-! ## Handles -/

/-- `MPIR_Handle_direct_init` (`mpir_handlemem.h:136`). -/
def directHandle (kind i : Nat) : Nat := 2 <<< 30 ||| kind <<< 26 ||| i

/-- `MPIR_Handle_indirect_init` (:198). -/
def indirectHandle (kind block i : Nat) : Nat := 3 <<< 30 ||| kind <<< 26 ||| block <<< 12 ||| i

/-- `HANDLE_GET_KIND` (`mpir_objects.h:175`). -/
def handleGetKind (a : Nat) : Nat := (a &&& 0xc0000000) >>> 30

/-- `HANDLE_GET_MPI_KIND` (:161). -/
def handleGetMpiKind (a : Nat) : Nat := (a &&& 0x3c000000) >>> 26

/-- `HANDLE_BLOCK` (:182). -/
def handleBlock (a : Nat) : Nat := (a &&& 0x03fff000) >>> 12

/-- `HANDLE_BLOCK_INDEX` (:183). -/
def handleBlockIndex (a : Nat) : Nat := a &&& 0x00000fff

/-- `HANDLE_INDEX` (:203). -/
def handleIndex (a : Nat) : Nat := a &&& 0x03ffffff

/-! ## The allocator -/

/-- What is fixed for an allocator: the kind of its objects, the size of its direct block, which may
be missing, and the bounds of the indirect blocks, which have to fit into a handle. -/
structure Params where
  kind : Nat
  directSize : Nat
  maxBlocks : Nat
  maxIndices : Nat
  isInfo : Bool
  kind_lt : kind < 2 ^ 4
  direct_le : directSize ≤ 2 ^ 26
  blocks_pos : 0 < maxBlocks
  blocks_le : maxBlocks ≤ 2 ^ 14
  indices_pos : 0 < maxIndices
  indices_le : maxIndices ≤ 2 ^ 12

inductive Block where
  | direct
  | indirect (ptr : Nat)
deriving DecidableEq

structure Obj where
  block : Block
  index : Nat
deriving DecidableEq

/-- An allocator and the memory of its objects: `indirect` is the table of the indirect blocks, if
there is one, and `live` the objects that have been allocated and not been freed.
`MPIR_Object_alloc_t` (:515). -/
structure Objmem where
  avail : Option Obj
  initialized : Bool
  indirect : Option (List Nat)
  numAllocated : Int
  numAvail : Int
  next : Obj → Option Obj
  handle : Obj → Nat
  live : List Obj

def Objmem.blocks (o : Objmem) : List Nat := o.indirect.getD []

def Objmem.thread (o : Objmem) (block : Block) (n : Nat) (handle : Nat → Nat) : Objmem :=
  { o with
    next := fun x => if x.block = block ∧ x.index < n then
        if x.index + 1 = n then none else some ⟨block, x.index + 1⟩
      else o.next x
    handle := fun x => if x.block = block ∧ x.index < n then handle x.index else o.handle x
    numAllocated := o.numAllocated + n
    numAvail := o.numAvail + n }

/-- `MPIR_Handle_direct_init` (`mpir_handlemem.h:122`). -/
def directInit (P : Params) (o : Objmem) : Objmem × Option Obj :=
  (o.thread .direct P.directSize (directHandle P.kind),
    if P.directSize = 0 then none else some ⟨.direct, 0⟩)

/-- What the memory allocator has for a new table and a new block. -/
structure Mem where
  table : Bool
  block : Option Nat

def createTable (o : Objmem) (mem : Mem) : Option Objmem :=
  match o.indirect with
  | some _ => some o
  | none => if mem.table then some { o with indirect := some [] } else none

/-- `MPIR_Handle_indirect_init` (:151). -/
def indirectInit (P : Params) (o : Objmem) (mem : Mem) : Objmem × Option Obj :=
  match createTable o mem with
  | none => (o, none)
  | some o =>
    if P.maxBlocks ≤ o.blocks.length then (o, none)
    else
      match mem.block with
      | none => (o, none)
      | some b =>
        let o := o.thread (.indirect b) P.maxIndices (indirectHandle P.kind o.blocks.length)
        ({ o with indirect := some (o.blocks ++ [b]) }, some ⟨.indirect b, 0⟩)

def takeFirst (r : Objmem × Option Obj) : Objmem × Option Obj :=
  match r.2 with
  | some p => ({ r.1 with avail := r.1.next p }, some p)
  | none => r

def directFirst (P : Params) (o : Objmem) : Objmem × Option Obj :=
  if o.initialized then (o, none) else takeFirst (directInit P { o with initialized := true })

/-- `MPIR_Handle_obj_alloc_unsafe` (:285). -/
def slowPath (P : Params) (o : Objmem) (mem : Mem) : Objmem × Option Obj :=
  match (directFirst P o).2 with
  | some p => ((directFirst P o).1, some p)
  | none => takeFirst (indirectInit P (directFirst P o).1 mem)

/-- Line 272. -/
def objAlloc (P : Params) (o : Objmem) (mem : Mem) : Objmem × Option Obj :=
  let r := match o.avail with
    | some p => ({ o with avail := o.next p }, some p)
    | none => slowPath P o mem
  -- the number goes down also if there is no object
  ({ r.1 with numAvail := r.1.numAvail - 1 }, r.2)

/-- `MPIR_Handle_free` (:62). -/
def handleFree (o : Objmem) : Objmem :=
  { o with avail := none, initialized := false, indirect := none, numAllocated := 0, numAvail := 0 }

/-- `MPIR_Handle_obj_free_unsafe` (:384). -/
def objFree (P : Params) (o : Objmem) (obj : Obj) : Objmem :=
  let o := { o with
    next := Function.update o.next obj o.avail, avail := some obj, numAvail := o.numAvail + 1 }
  if P.isInfo = true ∧ o.numAvail = o.numAllocated then handleFree o else o

/-- `MPIR_Handle_get_ptr_indirect` (:446). -/
def getPtrIndirect (P : Params) (o : Objmem) (a : Nat) : Option Obj :=
  if handleGetMpiKind a ≠ P.kind then none
  else o.blocks[handleBlock a]?.map fun b => ⟨.indirect b, handleBlockIndex a⟩

/-- `MPIR_Get_ptr` (`mpir_objects.h:577`). -/
def getPtr (P : Params) (o : Objmem) (a : Nat) : Option Obj :=
  match handleGetKind a with
  | 2 => some ⟨.direct, handleIndex a⟩
  | 3 => getPtrIndirect P o a
  | _ => none

/-! ## Runs -/

inductive Act where
  | alloc (mem : Mem)
  | free (obj : Obj)
  | write (obj : Obj) (next : Option Obj)

/-- The step of a call. A new block is not one that is in use, and only live objects are freed and
written. -/
def step (P : Params) (o : Objmem) : Act → Option Objmem
  | .alloc mem =>
    if ∀ b ∈ mem.block, b ∉ o.blocks then
      let r := objAlloc P o mem
      some { r.1 with live := r.2.toList ++ r.1.live }
    else none
  | .free obj =>
    if obj ∈ o.live then
      some { objFree P o obj with live := o.live.erase obj }
    else none
  | .write obj next =>
    if obj ∈ o.live then some { o with next := Function.update o.next obj next } else none

def init : Objmem := ⟨none, false, none, 0, 0, fun _ => none, fun _ => 0, []⟩

def sys (P : Params) : Sys Objmem Act := ⟨init, step P⟩

end PsMpi.Handle
