import PsMpi.Lib.CInt64
import PsMpi.Lib.Cuts
import PsMpi.Lib.CInt
import PsMpi.Lib.Strtol

/-!
# File domains of collective I/O

See `mpich2/src/mpi/romio/adio/common/ad_aggregate.c`.
-/

namespace PsMpi.Io

open PsMpi.Lib

/-! ## File domains -/

/-- `ADIOI_Calc_file_domains` (:154). -/
def minStOffset (stOffsets : List Int) : Int := stOffsets.tail.foldl min (stOffsets.headD 0)

/-- Line 155. -/
def maxEndOffset (endOffsets : List Int) : Int := endOffsets.tail.foldl max (endOffsets.headD 0)

/-- Line 167. -/
def calcFdSize (minSt maxEnd : Int) (nprocsForColl minFdSize : Nat) : Option Int := do
  let range ← fitInt64 (maxEnd - minSt + 1)
  let sum ← fitInt64 (range + nprocsForColl)
  let fdSize := (sum - 1) / nprocsForColl
  return if fdSize < minFdSize then (minFdSize : Int) else fdSize

/-- Line 194. -/
def nearest (stripingUnit : Nat) (endOff : Int) : Int :=
  let remFront := endOff % stripingUnit
  let remBack := stripingUnit - remFront
  if remFront < remBack then endOff - remFront else endOff + remBack

/-- Lines 190-214. -/
def stripedDomains (stripingUnit : Nat) (minSt fdSize : Int) :
    Nat → Nat → Int → Option (List (Int × Int))
  | _, 0, _ => some []
  | i, k + 1, fdStart => do
    let size ← fitInt64 (fdSize * (i + 1))
    let endOff ← fitInt64 (minSt + size)
    let endOff ← fitInt64 (nearest stripingUnit endOff)
    let rest ← stripedDomains stripingUnit minSt fdSize (i + 1) k endOff
    return (fdStart, endOff - 1) :: rest

/-- Lines 216-222. -/
def plainDomains (fdSize : Int) : Nat → Int → Option (List (Int × Int))
  | 0, _ => some []
  | k + 1, fdStart => do
    let endOff ← fitInt64 (fdStart + fdSize)
    let rest ← plainDomains fdSize k endOff
    return (fdStart, endOff - 1) :: rest

/-- Line 214. -/
def setLastEnd (maxEnd : Int) : List (Int × Int) → List (Int × Int)
  | [] => []
  | [d] => [(d.1, maxEnd)]
  | d :: ds => d :: setLastEnd maxEnd ds

/-- Line 230. -/
def clipDomain (maxEnd : Int) (d : Int × Int) : Int × Int :=
  if maxEnd < d.1 then (-1, -1) else if maxEnd < d.2 then (d.1, maxEnd) else d

/-- The start of the range, the file domains, and their size. -/
structure Domains where
  minSt : Int
  domains : List (Int × Int)
  fdSize : Int
deriving DecidableEq

/-- The domains before they are cut off, in arrays for as many as `nprocs_for_coll * 2` offsets.
`ADIOI_Calc_file_domains` (:178-222). -/
def allDomains (nprocsForColl stripingUnit : Nat) (minSt maxEnd fdSize : Int) :
    Option (List (Int × Int)) :=
  if intMax < nprocsForColl * 2 then none
  else if 0 < stripingUnit then
    (stripedDomains stripingUnit minSt fdSize 0 nprocsForColl minSt).map (setLastEnd maxEnd)
  else plainDomains fdSize nprocsForColl minSt

/-- Line 128. -/
def calcFileDomains (stOffsets endOffsets : List Int) (nprocsForColl minFdSize stripingUnit : Nat) :
    Option Domains := do
  let minSt := minStOffset stOffsets
  let maxEnd := maxEndOffset endOffsets
  let fdSize ← calcFdSize minSt maxEnd nprocsForColl minFdSize
  let domains ← allDomains nprocsForColl stripingUnit minSt maxEnd fdSize
  return ⟨minSt, domains.map (clipDomain maxEnd), fdSize⟩

/-! ## Requests -/

/-- `ADIOI_Calc_aggregator` (:92). -/
def scanDomains (off : Int) : List (Int × Int) → Option Nat
  | [] => none
  | d :: ds => if d.2 < off then (scanDomains off ds).map (· + 1) else some 0

/-- Lines 84-94. -/
def rankIndex (stripingUnit : Nat) (d : Domains) (off : Int) : Option Int := do
  let sum ← fitInt64 (off - d.minSt + d.fdSize)
  if 0 < stripingUnit then (scanDomains off d.domains).map Nat.cast
  else some (wrapInt (sum / d.fdSize - 1))

/-- The rank of the aggregator for an offset, and how much of an access is in its domain.
Line 74. -/
def calcAggregator (ranklist : List Nat) (stripingUnit : Nat) (d : Domains) (off len : Int) :
    Option (Nat × Int) := do
  let index ← rankIndex stripingUnit d off
  if (ranklist.length : Int) ≤ index ∨ index < 0 then none
  else do
    let domain ← d.domains[index.toNat]?
    let fdEnd ← fitInt64 (domain.2 + 1)
    let availBytes := fdEnd - off
    let rank ← ranklist[index.toNat]?
    return (rank, if availBytes < len then availBytes else len)

abbrev Piece := Nat × Int × Int

section loops

variable {σ : Type} (ranklist : List Nat) (stripingUnit : Nat) (d : Domains)
  (upd : σ → Piece → Option σ)

/-- `ADIOI_Calc_my_req` (:302-329, :367-405). -/
def accessLoop : Nat → Int → Int → σ → Option σ
  | 0, _, _, _ => none
  | fuel + 1, off, len, s => do
    let (proc, fdLen) ← calcAggregator ranklist stripingUnit d off len
    let s ← upd s (proc, off, fdLen)
    let remLen := len - fdLen
    if remLen ≠ 0 then accessLoop fuel (off + fdLen) remLen s else some s

/-- The loop over the accesses; those without bytes are left out. `ADIOI_Calc_my_req` (:296,
:361). -/
def accessesLoop : List (Int × Int) → σ → Option σ
  | [], s => some s
  | (off, len) :: accesses, s =>
    if len = 0 then accessesLoop accesses s
    else (accessLoop ranklist stripingUnit d upd (len.toNat + 1) off len s).bind
      (accessesLoop accesses)

end loops

/-- The pieces for each process, where the data for it are in the buffer, and how much of the buffer
is done. -/
structure MyReq where
  reqs : Nat → List (Int × Int)
  bufIdx : Nat → Int
  currIdx : Int

/-- `ADIOI_Calc_my_req` (:311). -/
def countPiece (nprocs : Nat) (counts : Nat → Nat) (p : Piece) : Option (Nat → Nat) :=
  if p.1 < nprocs then some (Function.update counts p.1 (counts p.1 + 1)) else none

/-- Lines 371-391. -/
def recordPiece (counts : Nat → Nat) (s : MyReq) (p : Piece) : Option MyReq :=
  if (s.reqs p.1).length < counts p.1 then some {
    reqs := Function.update s.reqs p.1 (s.reqs p.1 ++ [p.2])
    bufIdx := if s.bufIdx p.1 = -1 then Function.update s.bufIdx p.1 s.currIdx else s.bufIdx
    currIdx := s.currIdx + p.2.2 }
  else none

/-- What a process needs of every process: the number of pieces, the number of processes that have
any, and the pieces. -/
structure Requests where
  countMyReqPerProc : Nat → Nat
  countMyReqProcs : Nat
  myReq : MyReq

/-- `ADIOI_Calc_my_req` (:249). -/
def calcMyReq (nprocs : Nat) (ranklist : List Nat) (stripingUnit : Nat) (d : Domains)
    (accesses : List (Int × Int)) : Option Requests := do
  let counts ← accessesLoop ranklist stripingUnit d (countPiece nprocs) accesses fun _ => 0
  let myReq ← accessesLoop ranklist stripingUnit d (recordPiece counts) accesses
    ⟨fun _ => [], fun _ => -1, 0⟩
  return ⟨counts, ((List.range nprocs).filter fun i => counts i ≠ 0).length, myReq⟩

end PsMpi.Io
