import Mathlib.Algebra.GroupWithZero.Nat
import Mathlib.Algebra.Ring.Int.Defs
import Mathlib.Data.List.Basic

/-!
# Process groups

See `mpich2/src/include/mpir_group.h`, `mpich2/src/mpi/group/grouputil.c` and
`mpich2/src/mpi/group/group_impl.c`.
-/

namespace PsMpi.Groups

/-- `MPI_UNDEFINED` (`mpi.h.in`). -/
def undefined : Int := -32766

/-- `MPII_Group_pmap_t` (`mpir_group.h:18`). -/
structure Pmap where
  lpid : Nat
  nextLpid : Int
deriving DecidableEq

/-- `MPIR_Group` (:59). -/
structure MpiGroup where
  rank : Int
  idxOfFirstLpid : Int
  lrankToLpid : List Pmap
  isLocalDenseMonotonic : Bool
deriving DecidableEq

/-- `MPIR_Process_t` (`mpir_process.h`). -/
structure Process where
  size : Nat
  rank : Nat
  rank_lt : rank < size
  size_lt : size < 2 ^ 31

def MpiGroup.size (g : MpiGroup) : Nat := g.lrankToLpid.length

def MpiGroup.lpids (g : MpiGroup) : List Nat := g.lrankToLpid.map Pmap.lpid

/-- `MPIR_Group_init` (`grouputil.c:22`). -/
def MpiGroup.empty : MpiGroup := ⟨undefined, -1, [], false⟩

/-! ## The order of the ids -/

def entryAt (a : List Pmap) (i : Int) : Option Pmap := if 0 ≤ i then a[i.toNat]? else none

def setNext (a : List Pmap) (i : Nat) (next : Int) : List Pmap :=
  a.modify i fun e => { e with nextLpid := next }

def relink (offset : Nat) (next : Int) : Int := if 0 ≤ next then next + offset else next

/-- `mergesort_lpidarray` (:182). -/
def convertRest : Nat → List Pmap → Nat → Int → Option (List Pmap)
  | 0, _, _, _ => none
  | fuel + 1, a, offset, idx2 =>
    if 0 ≤ idx2 then do
      let e ← entryAt a idx2
      let next := relink offset e.nextLpid
      convertRest fuel (setNext a idx2.toNat next) offset next
    else some a

/-- Line 160. -/
def mergeLoop : Nat → List Pmap → Nat → Nat → Int → Int → Option (List Pmap)
  | 0, _, _, _, _, _ => none
  | fuel + 1, a, offset, curIdx, idx1, idx2 =>
    if 0 ≤ idx1 ∧ 0 ≤ idx2 then do
      let e1 ← entryAt a idx1
      let e2 ← entryAt a idx2
      if e1.lpid > e2.lpid then
        mergeLoop fuel (setNext a curIdx idx2) offset idx2.toNat idx1 (relink offset e2.nextLpid)
      else
        mergeLoop fuel (setNext a curIdx idx1) offset idx1.toNat e1.nextLpid idx2
    else if 0 ≤ idx1 then some (setNext a curIdx idx1)
    else convertRest (fuel + 1) (setNext a curIdx idx2) offset idx2

/-- Line 149. -/
def mergeHalves (a : List Pmap) (offset : Nat) (idx1 idx2 : Int) : Option (List Pmap × Int) := do
  let e1 ← entryAt a idx1
  let e2 ← entryAt a idx2
  if e1.lpid > e2.lpid then
    let a ← mergeLoop (a.length + 1) a offset idx2.toNat idx1 (e2.nextLpid + offset)
    return (a, idx2)
  else
    let a ← mergeLoop (a.length + 1) a offset idx1.toNat e1.nextLpid idx2
    return (a, idx1)

/-- Sort entries through their links; the result has the index of the first one.
Line 107. -/
def mergesortLpidarray : Nat → List Pmap → Option (List Pmap × Int)
  | _, [] => some ([], -1)
  | _, [e] => some ([{ e with nextLpid := -1 }], 0)
  | _, [e₀, e₁] =>
    if e₀.lpid > e₁.lpid then
      some ([{ e₀ with nextLpid := -1 }, { e₁ with nextLpid := 0 }], 1)
    else some ([{ e₀ with nextLpid := 1 }, { e₁ with nextLpid := -1 }], 0)
  | 0, _ => none
  | fuel + 1, a => do
    let offset := a.length / 2
    let (a₁, idx1) ← mergesortLpidarray fuel (a.take offset)
    let (a₂, idx2) ← mergesortLpidarray fuel (a.drop offset)
    mergeHalves (a₁ ++ a₂) offset idx1 (idx2 + offset)

/-- `MPII_Group_setup_lpid_list` (:205). -/
def setupLpidList (g : MpiGroup) : Option MpiGroup :=
  if g.idxOfFirstLpid = -1 then do
    let (a, first) ← mergesortLpidarray g.size g.lrankToLpid
    return { g with lrankToLpid := a, idxOfFirstLpid := first }
  else some g

def needLpidList (g : MpiGroup) : Option MpiGroup :=
  if g.idxOfFirstLpid < 0 then setupLpidList g else some g

/-! ## Operations on two groups -/

/-- `MPI_IDENT`, `MPI_SIMILAR` and `MPI_UNEQUAL` (`mpi.h.in`). -/
inductive Comparison where
  | ident
  | similar
  | unequal

/-- `MPIR_Group_compare_impl` (`group_impl.c:47`). -/
def sameMembers : Nat → List Pmap → List Pmap → Int → Int → Option Bool
  | 0, _, _, _, _ => none
  | fuel + 1, a₁, a₂, idx1, idx2 =>
    if 0 ≤ idx1 ∧ 0 ≤ idx2 then do
      let e1 ← entryAt a₁ idx1
      let e2 ← entryAt a₂ idx2
      if e1.lpid ≠ e2.lpid then some false
      else sameMembers fuel a₁ a₂ e1.nextLpid e2.nextLpid
    else some true

/-- `MPIR_Group_compare_impl` (:23). -/
def compareImpl (g₁ g₂ : MpiGroup) : Option (MpiGroup × MpiGroup × Comparison) :=
  if g₁.size ≠ g₂.size then some (g₁, g₂, .unequal)
  else do
    let g₁ ← needLpidList g₁
    let g₂ ← needLpidList g₂
    let same ← sameMembers (g₁.size + 1) g₁.lrankToLpid g₂.lrankToLpid g₁.idxOfFirstLpid
      g₂.idxOfFirstLpid
    if !same then return (g₁, g₂, .unequal)
    else if g₁.lpids = g₂.lpids then return (g₁, g₂, .ident)
    else return (g₁, g₂, .similar)

def setFlag (flags : List Bool) (i : Int) : Option (List Bool) :=
  if i.toNat < flags.length then some (flags.set i.toNat true) else none

/-- `MPIR_Group_difference_impl` (:92), `MPIR_Group_intersection_impl`
(:268). -/
def commonLoop : Nat → List Pmap → List Pmap → Int → Int → List Bool → Nat →
    Option (List Bool × Nat)
  | 0, _, _, _, _, _, _ => none
  | fuel + 1, a₁, a₂, idx1, idx2, flags, n =>
    if 0 ≤ idx1 ∧ 0 ≤ idx2 then do
      let e1 ← entryAt a₁ idx1
      let e2 ← entryAt a₂ idx2
      if e1.lpid < e2.lpid then commonLoop fuel a₁ a₂ e1.nextLpid idx2 flags n
      else if e1.lpid > e2.lpid then commonLoop fuel a₁ a₂ idx1 e2.nextLpid flags n
      else
        let flags ← setFlag flags idx1
        commonLoop fuel a₁ a₂ e1.nextLpid e2.nextLpid flags (n + 1)
    else some (flags, n)

/-- `MPIR_Group_union_impl` (:594). -/
def flagRest : Nat → List Pmap → Int → List Bool → Nat → Option (List Bool × Nat)
  | 0, _, _, _, _ => none
  | fuel + 1, a₂, idx2, flags, n =>
    if 0 ≤ idx2 then do
      let e2 ← entryAt a₂ idx2
      let flags ← setFlag flags idx2
      flagRest fuel a₂ e2.nextLpid flags (n + 1)
    else some (flags, n)

/-- Line 575. -/
def unionLoop : Nat → List Pmap → List Pmap → Int → Int → List Bool → Nat →
    Option (List Bool × Nat)
  | 0, _, _, _, _, _, _ => none
  | fuel + 1, a₁, a₂, idx1, idx2, flags, n =>
    if 0 ≤ idx1 ∧ 0 ≤ idx2 then do
      let e1 ← entryAt a₁ idx1
      let e2 ← entryAt a₂ idx2
      if e1.lpid > e2.lpid then
        let flags ← setFlag flags idx2
        unionLoop fuel a₁ a₂ idx1 e2.nextLpid flags (n + 1)
      else if e1.lpid = e2.lpid then unionLoop fuel a₁ a₂ e1.nextLpid e2.nextLpid flags n
      else unionLoop fuel a₁ a₂ e1.nextLpid idx2 flags n
    else flagRest (fuel + 1) a₂ idx2 flags n

end PsMpi.Groups
