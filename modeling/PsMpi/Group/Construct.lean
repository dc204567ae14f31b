import PsMpi.Group.Basic
import PsMpi.Lib.CInt
import PsMpi.Lib.Trans

/-!
# Group constructors

See `mpich2/src/mpi/group/group_impl.c`, `mpich2/src/mpi/group/grouputil.c` and
`mpich2/src/binding/c/group_api.txt`.
-/

namespace PsMpi.Groups

open PsMpi.Lib

/-- A new group of `nproc` entries, with the ids that were written to it; there is no room for more.
`MPIR_Group_create` (`grouputil.c:60`). -/
def groupCreate (nproc : Nat) (lpids : List Nat) (rank : Int) : Option MpiGroup :=
  if lpids.length ≤ nproc then
    some ⟨rank, -1, lpids.map (⟨·, 0⟩) ++ List.replicate (nproc - lpids.length) ⟨0, 0⟩, false⟩
  else none

/-- Copy the entries with the given ranks to the entries from `k` on. See the loops of
`MPIR_Group_incl_impl` (`group_impl.c:230`), `MPIR_Group_excl_impl` (:171),
`MPIR_Group_difference_impl` (:125), `MPIR_Group_range_excl_impl`
(:383) and `MPIR_Group_range_incl_impl` (:437). -/
def copyRanks (g : MpiGroup) : List Nat → Nat → Int → Option (List Nat × Int)
  | [], _, rank => some ([], rank)
  | r :: ranks, k, rank => do
    let e ← g.lrankToLpid[r]?
    let (lpids, rank) ← copyRanks g ranks (k + 1) (if (r : Int) = g.rank then k else rank)
    return (e.lpid :: lpids, rank)

def fromRanks (g : MpiGroup) (nproc : Nat) (ranks : List Nat) : Option MpiGroup := do
  let (lpids, rank) ← copyRanks g ranks 0 undefined
  groupCreate nproc lpids rank

def flagged (flags : List Bool) (b : Bool) : List Nat :=
  (List.range flags.length).filter fun i => flags[i]? = some b

/-! ## Ranks and ranges -/

/-- `MPIR_Group_check_valid_ranks` (`grouputil.c:232`). -/
def checkRanksLoop (size : Nat) : List Int → Nat → List Nat → Option Bool
  | [], _, _ => some true
  | r :: ranks, i, flags =>
    if r < 0 ∨ (size : Int) ≤ r then some false
    else do
      let flag ← flags[i]?
      if flag ≠ 0 then some false else checkRanksLoop size ranks (i + 1) (flags.set i (i + 1))

/-- `MPIR_Group_check_valid_ranks` (:232). -/
def checkValidRanks (g : MpiGroup) (ranks : List Int) : Option Bool :=
  checkRanksLoop g.size ranks 0 (List.replicate g.size 0)

/-- `MPIR_Group_incl_impl` (`group_impl.c:210`). -/
def inclImpl (g : MpiGroup) (ranks : List Int) : Option MpiGroup :=
  if ranks.length = 0 then some .empty else fromRanks g ranks.length (ranks.map Int.toNat)

/-- `MPIR_Group_excl_impl` (:145). -/
def exclImpl (g : MpiGroup) (ranks : List Int) : Option MpiGroup := do
  let flags ← ranks.foldlM setFlag (List.replicate g.size false)
  fromRanks g (g.size - ranks.length) (flagged flags false)

structure Range where
  first : Int
  last : Int
  stride : Int
  first_int : IsInt first
  last_int : IsInt last
  stride_int : IsInt stride

/-- `MPIR_Group_range_incl_impl` (:437). -/
def rangeLoop : Nat → Int → Int → Int → List Int × Bool
  | 0, _, _, _ => ([], true)
  | fuel + 1, j, last, stride =>
    if (0 < stride ∧ j ≤ last) ∨ (stride ≤ 0 ∧ last ≤ j) then
      if IsInt (j + stride) then
        (j :: (rangeLoop fuel (j + stride) last stride).1,
          (rangeLoop fuel (j + stride) last stride).2)
      else ([j], true)
    else ([], false)

def Range.visit (r : Range) : List Int × Bool :=
  rangeLoop ((r.last - r.first).natAbs + 2) r.first r.last r.stride

/-- Line 417. -/
def Range.count (r : Range) : Int := 1 + (r.last - r.first).tdiv r.stride

/-- `MPIR_Group_check_valid_ranges` (`grouputil.c:296`). -/
def Range.actLast (r : Range) : Option Int := do
  let d ← fitInt (r.last - r.first)
  let q ← fitInt (d.tdiv r.stride)
  let p ← fitInt (r.stride * q)
  fitInt (r.first + p)

/-- Flag ranks until one has its flag already; the result is `none` in that case. -/
def markRanks : List Bool → List Int → Option (Option (List Bool))
  | flags, [] => some (some flags)
  | flags, j :: js =>
    if 0 ≤ j ∧ j.toNat < flags.length then
      if flags[j.toNat]? = some true then some none else markRanks (flags.set j.toNat true) js
    else none

/-- `MPIR_Group_check_valid_ranges` (:260). -/
def checkRangesLoop (size : Nat) : List Range → List Bool → Option Bool
  | [], _ => some true
  | r :: ranges, flags =>
    if r.first < 0 ∨ (size : Int) ≤ r.first then some false
    else if r.stride = 0 then some false
    else do
      let actLast ← r.actLast
      if r.last < 0 ∨ (size : Int) ≤ actLast then some false
      else if (0 < r.stride ∧ r.last < r.first) ∨ (r.stride < 0 ∧ r.first < r.last) then some false
      else
        match markRanks flags r.visit.1 with
        | none => none
        | some none => some false
        | some (some flags) => if r.visit.2 then none else checkRangesLoop size ranges flags

/-- Line 260. -/
def checkValidRanges (g : MpiGroup) (ranges : List Range) : Option Bool :=
  checkRangesLoop g.size ranges (List.replicate g.size false)

def visitAll (ranges : List Range) : Option (List Int) :=
  if ranges.any fun r => r.visit.2 then none else some (ranges.flatMap fun r => r.visit.1)

/-- `MPIR_Group_range_incl_impl` (`group_impl.c:405`). -/
def rangeInclImpl (g : MpiGroup) (ranges : List Range) : Option MpiGroup :=
  let nnew := (ranges.map Range.count).sum
  if nnew = 0 then some .empty
  else do
    let ranks ← visitAll ranges
    fromRanks g nnew.toNat (ranks.map Int.toNat)

/-- `MPIR_Group_range_excl_impl` (:320). -/
def rangeExclImpl (g : MpiGroup) (ranges : List Range) : Option MpiGroup :=
  let nnew := g.size - (ranges.map Range.count).sum
  if nnew = 0 then some .empty
  else do
    let ranks ← visitAll ranges
    let flags ← ranks.foldlM setFlag (List.replicate g.size false)
    fromRanks g nnew.toNat (flagged flags false)

/-! ## Two groups -/

/-- `MPIR_Group_setup_lpid_pairs` (`grouputil.c:213`). -/
def setupLpidPairs (g₁ g₂ : MpiGroup) : Option (MpiGroup × MpiGroup) := do
  let g₁ ← needLpidList g₁
  let g₂ ← needLpidList g₂
  return (g₁, g₂)

/-- The members of the first group that are in the second one, as flags, with their number. -/
def commonMembers (g₁ g₂ : MpiGroup) : Option (List Bool × Nat) :=
  commonLoop (g₁.size + g₂.size + 1) g₁.lrankToLpid g₂.lrankToLpid g₁.idxOfFirstLpid
    g₂.idxOfFirstLpid (List.replicate g₁.size false) 0

/-- `MPIR_Group_difference_impl` (`group_impl.c:72`). -/
def differenceImpl (g₁ g₂ : MpiGroup) : Option (MpiGroup × MpiGroup × MpiGroup) := do
  let (g₁, g₂) ← setupLpidPairs g₁ g₂
  let (flags, n) ← commonMembers g₁ g₂
  if g₁.size - n = 0 then return (g₁, g₂, .empty)
  else
    let g ← fromRanks g₁ (g₁.size - n) (flagged flags false)
    return (g₁, g₂, g)

/-- `MPIR_Group_intersection_impl` (:300), `MPIR_Group_from_session_pset_impl`
(:710). -/
def followEachOther : List Nat → Bool
  | l :: l' :: lpids => l = (l' + (2 ^ 64 - 1)) % 2 ^ 64 && followEachOther (l' :: lpids)
  | _ => true

/-- Line 247. -/
def intersectionImpl (proc : Process) (g₁ g₂ : MpiGroup) :
    Option (MpiGroup × MpiGroup × MpiGroup) := do
  let (g₁, g₂) ← setupLpidPairs g₁ g₂
  let (flags, nnew) ← commonMembers g₁ g₂
  if nnew = 0 then return (g₁, g₂, .empty)
  else
    let (lpids, rank) ← copyRanks g₁ (flagged flags true) 0 undefined
    let g ← groupCreate nnew lpids rank
    return (g₁, g₂, { g with
      isLocalDenseMonotonic := lpids.all (· ≤ proc.size) && followEachOther lpids })

/-- `MPIR_Group_union_impl` (:627). -/
def addMembers (mylpid : Nat) : List (Nat × Bool) → Nat → Int → List Nat × Int
  | [], _, rank => ([], rank)
  | (lpid, flag) :: members, k, rank =>
    if flag then
      let r := addMembers mylpid members (k + 1)
        (if rank = undefined ∧ lpid = mylpid then k else rank)
      (lpid :: r.1, r.2)
    else addMembers mylpid members k rank

/-- The id of the calling process if it is in the second group only, else an id that no process is
expected to have. Line 620. -/
def unionLpid (g₁ g₂ : MpiGroup) : Option Nat :=
  if g₁.rank = undefined ∧ 0 ≤ g₂.rank then g₂.lpids[g₂.rank.toNat]? else some (2 ^ 64 - 2)

/-- Line 541. -/
def unionImpl (g₁ g₂ : MpiGroup) : Option (MpiGroup × MpiGroup × MpiGroup) := do
  let (g₁, g₂) ← setupLpidPairs g₁ g₂
  let (flags, n) ← unionLoop (g₁.size + g₂.size + 1) g₁.lrankToLpid g₂.lrankToLpid
    g₁.idxOfFirstLpid g₂.idxOfFirstLpid (List.replicate g₂.size false) 0
  let nnew := g₁.size + n
  if nnew = 0 then return (g₁, g₂, .empty)
  else
    let mylpid ← unionLpid g₁ g₂
    let added := addMembers mylpid (g₂.lpids.zip flags) g₁.size g₁.rank
    let g ← groupCreate nnew (g₁.lpids ++ added.1) added.2
    return (g₁, g₂, g)

/-! ## Process sets -/

/-- A process set of the calling process: its members are ranks in ascending order, and the calling
process is one of them, else the set is not registered. `MPIR_Pset` (`mpir_pset.h:16`),
`pmix_pset_define_callback` (`mpir_pmix.inc:1104`). -/
structure Pset (proc : Process) where
  members : List Nat
  sorted : members.Pairwise (· < ·)
  own : proc.rank ∈ members
  bound : ∀ m ∈ members, m < 2 ^ 31

/-- `MPIR_Group_from_session_pset_impl` (`group_impl.c:707`). -/
def psetEntries : List Nat → List Pmap
  | [] => []
  | [m] => [⟨m, -1⟩]
  | m :: m' :: members => ⟨m, m'⟩ :: psetEntries (m' :: members)

/-- `MPIR_Group_from_session_pset_impl` (:681). -/
def fromPset {proc : Process} (p : Pset proc) : MpiGroup :=
  ⟨p.members.idxOf proc.rank, 0, psetEntries p.members, followEachOther p.members⟩

/-- Line 655. -/
def fromWorldPset (proc : Process) : MpiGroup :=
  ⟨proc.rank, 0, (List.range proc.size).map fun i =>
    ⟨i, if i = proc.size - 1 then -1 else i + 1⟩, true⟩

/-- Line 670. -/
def fromSelfPset (proc : Process) : MpiGroup := ⟨0, 0, [⟨proc.rank, -1⟩], true⟩

/-! ## The groups of a process -/

inductive Act (proc : Process) where
  | world
  | self
  | pset (p : Pset proc)
  | incl (g : Nat) (ranks : List Int)
  | excl (g : Nat) (ranks : List Int)
  | rangeIncl (g : Nat) (ranges : List Range)
  | rangeExcl (g : Nat) (ranges : List Range)
  | union (g₁ g₂ : Nat)
  | intersection (g₁ g₂ : Nat)
  | difference (g₁ g₂ : Nat)

/-- The groups of a process, and whether an operation has left the bounds of an array. -/
structure St where
  groups : List MpiGroup
  fault : Bool

def St.push (s : St) : Option MpiGroup → St
  | some g => { s with groups := s.groups ++ [g] }
  | none => { s with fault := true }

def St.pushSetup (s : St) (i j : Nat) : Option (MpiGroup × MpiGroup × MpiGroup) → St
  | some (g₁, g₂, g) => { s with groups := (s.groups.set i g₁).set j g₂ ++ [g] }
  | none => { s with fault := true }

def St.checked (s : St) (check : Option Bool) (impl : Option MpiGroup) : Option St :=
  match check with
  | some true => some (s.push impl)
  | some false => none
  | none => some { s with fault := true }

/-- `group_api.txt`. -/
def groupStep (proc : Process) (s : St) : Act proc → Option St
  | .world => some (s.push (some (fromWorldPset proc)))
  | .self => some (s.push (some (fromSelfPset proc)))
  | .pset p => some (s.push (some (fromPset p)))
  | .incl i ranks => do
    let g ← s.groups[i]?
    s.checked (checkValidRanks g ranks)
      (if ranks.length = 0 then some .empty else inclImpl g ranks)
  | .excl i ranks => do
    let g ← s.groups[i]?
    s.checked (checkValidRanks g ranks)
      (if g.size = ranks.length then some .empty else exclImpl g ranks)
  | .rangeIncl i ranges => do
    let g ← s.groups[i]?
    s.checked (checkValidRanges g ranges) (rangeInclImpl g ranges)
  | .rangeExcl i ranges => do
    let g ← s.groups[i]?
    s.checked (checkValidRanges g ranges) (rangeExclImpl g ranges)
  | .union i j => do
    let g₁ ← s.groups[i]?
    let g₂ ← s.groups[j]?
    return s.pushSetup i j (unionImpl g₁ g₂)
  | .intersection i j => do
    let g₁ ← s.groups[i]?
    let g₂ ← s.groups[j]?
    return s.pushSetup i j (intersectionImpl proc g₁ g₂)
  | .difference i j => do
    let g₁ ← s.groups[i]?
    let g₂ ← s.groups[j]?
    return s.pushSetup i j (differenceImpl g₁ g₂)

def groupSys (proc : Process) : Sys St (Act proc) := ⟨⟨[.empty], false⟩, groupStep proc⟩

end PsMpi.Groups
