import PsMpi.Lib.CInt

/-!
# The recursive exchange schedule

See `mpich2/src/mpi/coll/algorithms/recexchalgo/recexchalgo.c`.
-/

namespace PsMpi.Coll.Recexch

open PsMpi.Lib

/-- The base is reduced for a small communicator. See line 115. -/
def reduceK (nranks k : Nat) : Nat :=
  if nranks < k then if nranks > 2 then nranks else 2 else k

/-- The loop for the power of `k` and its logarithm; an `int` overflows before the fuel is used up.
See line 120, line 288, line 340. -/
def pOfKLoop (k nranks : Nat) : Nat → Nat → Nat → Option (Nat × Nat)
  | 0, _, _ => none
  | fuel + 1, pOfK, logPOfK =>
    if pOfK ≤ nranks then do
      let pOfK ← mulInt pOfK k
      pOfKLoop k nranks fuel pOfK (logPOfK + 1)
    else some (pOfK / k, logPOfK - 1)

/-- What the ranks agree on: the number of those that take part in step 2 and its logarithm, the
number of those that do not, and the rank up to which there are some that do not. -/
structure Params where
  pOfK : Nat
  logPOfK : Nat
  rem : Nat
  T : Nat

/-- See lines 120-155, lines 288-294, lines 340-349. -/
def params (k nranks : Nat) : Option Params := do
  let (pOfK, logPOfK) ← pOfKLoop k nranks 32 1 0
  let rem := nranks - pOfK
  let t ← mulInt rem k
  return ⟨pOfK, logPOfK, rem, t / (k - 1)⟩

/-- `MPII_Recexchalgo_origrank_to_step2rank` (:249). -/
def origrankToStep2rank (rank rem T k : Nat) : Nat :=
  if rank < T then rank / k else rank - rem

/-- `MPII_Recexchalgo_step2rank_to_origrank` (:263). -/
def step2rankToOrigrank (rank rem k : Nat) : Option Nat :=
  if rank < rem / (k - 1) then (mulInt rank k).map fun r => r + (k - 1) else some (rank + rem)

/-! ## Step 1 -/

/-- The neighbours in step 1, and the new rank of a rank that takes part in step 2. -/
structure Step1 where
  sendto : Option Nat
  recvfrom : List Nat
  newrank : Option Nat

/-- See lines 161-190. -/
def step1 (rank k : Nat) (q : Params) : Step1 :=
  if rank < q.T then
    if rank % k ≠ k - 1 then
      let sendto := rank + (k - 1 - rank % k)
      ⟨some (if sendto > q.T - 1 then q.T else sendto), [], none⟩
    else ⟨none, (List.range (k - 1)).map fun i => rank - i - 1, some (rank / k)⟩
  else
    let nsenders := (q.T - 1) % k + 1
    let senders := (List.range nsenders).reverse.map fun j => q.T - nsenders + j
    ⟨none, if rank = q.T ∧ (q.T - 1) % k ≠ k - 1 ∧ q.T ≥ 1 then senders else [],
      some (rank - q.rem)⟩

/-! ## Step 2 -/

/-- The digits of a number are written to an array. See line 200,
line 362. -/
def digitsLoop (k : Nat) : Nat → Nat → List Nat → Nat → Option (List Nat)
  | 0, _, _, _ => none
  | fuel + 1, temprank, digit, i =>
    if temprank = 0 then some digit
    else if i < digit.length then
      digitsLoop k fuel (temprank / k) (digit.set i (temprank % k)) (i + 1)
    else none

def digits (k logPOfK newrank : Nat) : Option (List Nat) :=
  digitsLoop k (logPOfK + 1) newrank (List.replicate logPOfK 0) 0

/-- The number with these digits. See line 216, line 379. -/
def valueLoop (k : Nat) : List Nat → Nat → Nat → Option Nat
  | [], nbr, _ => some nbr
  | d :: digit, nbr, power => do
    let t ← mulInt d power
    let power ← mulInt power k
    valueLoop k digit (nbr + t) power

/-- The ranks that differ in one digit. See line 211. -/
def phaseNbrs (k rem : Nat) (digit : List Nat) (phase cbit : Nat) : Option (List Nat) :=
  ((List.range k).filter fun i => i ≠ cbit).mapM fun i => do
    let nbr ← valueLoop k (digit.set phase i) 0 1
    step2rankToOrigrank nbr rem k

/-- One phase after the other. See line 208. -/
def step2Loop (k pOfK rem : Nat) (digit : List Nat) : Nat → Nat → Nat → Option (List (List Nat))
  | 0, _, _ => none
  | fuel + 1, mask, phase =>
    if mask < pOfK then do
      let cbit ← digit[phase]?
      let nbrs ← phaseNbrs k rem digit phase cbit
      let mask ← mulInt mask k
      let rest ← step2Loop k pOfK rem digit fuel mask (phase + 1)
      return nbrs :: rest
    else some []

/-- The neighbours in all phases of step 2. See lines 184-236. -/
def step2 (k : Nat) (q : Params) : Option Nat → Option (List (List Nat))
  | none => some []
  | some newrank => do
    let digit ← digits k q.logPOfK newrank
    step2Loop k q.pOfK q.rem digit 32 1 0

/-! ## The functions -/

structure Neighbors where
  k : Nat
  step1Sendto : Option Nat
  step1Recvfrom : List Nat
  step2Nbrs : List (List Nat)
  step2Nphases : Nat
  pOfK : Nat
  T : Nat

/-- `MPII_Recexchalgo_get_neighbors` (:101). -/
def getNeighbors (rank nranks k : Nat) : Option Neighbors := do
  let k := reduceK nranks k
  let q ← params k nranks
  let s := step1 rank k q
  let nbrs ← step2 k q s.newrank
  return ⟨k, s.sendto, s.recvfrom, nbrs, q.logPOfK, q.pOfK, q.T⟩

/-- `k` to the power of the phase. See line 297. -/
def powerLoop (k : Nat) : Nat → Nat → Option Nat
  | 0, power => some power
  | phase + 1, power => do
    let power ← mulInt power k
    powerLoop k phase power

/-- `MPII_Recexchalgo_get_count_and_offset` (:278). -/
def getCountAndOffset (rank phase k nranks : Nat) : Option (Int × Int) := do
  let q ← params k nranks
  let power ← powerLoop k phase 1
  let step2rank := origrankToStep2rank rank q.rem q.T k
  let t ← mulInt (step2rank / power) power
  let min : Int := t - 1
  let max : Int := min + power
  let origMin ← if min ≥ 0 then (step2rankToOrigrank min.toNat q.rem k).map Int.ofNat else some min
  let origMax ← step2rankToOrigrank max.toNat q.rem k
  return (origMax - origMin, origMin + 1)

/-- `MPII_Recexchalgo_reverse_digits_step2` (:328). -/
def reverseDigitsStep2 (rank commSize k : Nat) : Option Nat := do
  let q ← params k commSize
  let digit ← digits k q.logPOfK (origrankToStep2rank rank q.rem q.T k)
  let reversed ← valueLoop k digit.reverse 0 1
  step2rankToOrigrank reversed q.rem k

end PsMpi.Coll.Recexch
