import PsMpi.Lib.CInt

/-!
# Trees for collective operations
-/

open PsMpi.Lib

namespace PsMpi.Coll

/-- `MPIR_Treealgo_tree_t` (`treealgo_types.h`). -/
structure Treealgo where
  rank : Nat
  nranks : Nat
  parent : Option Nat
  numChildren : Nat
  children : List Nat

/-- `treeutil.c:53`. -/
def localRank (rank nranks root : Nat) : Option Nat :=
  (addInt rank (nranks - root)).map (· % nranks)

/-- `:55,63`. -/
def globalRank (nranks root x : Nat) : Option Nat := (addInt x root).map (· % nranks)

/-- `tree_add_child` (:18). -/
def childIf (nranks root x : Nat) : Option (List Nat) :=
  if x < nranks then (globalRank nranks root x).map ([·]) else some []

/-- `:55,202-205`. -/
def parentIf (nranks root : Nat) : Option Nat → Option (Option Nat)
  | none => some none
  | some x => (globalRank nranks root x).map some

def treeOf (rank nranks : Nat) (parent : Option Nat) (children : List Nat) : Treealgo :=
  ⟨rank, nranks, parent, children.length, children⟩

/-! ## K-ary trees -/

/-- `:57-66`. -/
def karyLoop (nranks root : Nat) (first : Option Nat) : Nat → Nat → Option (List Nat)
  | 0, _ => some []
  | todo + 1, child => do
    let before ← first
    let val ← addInt before child
    if nranks ≤ val then some []
    else do
      let c ← globalRank nranks root val
      let next ← addInt child 1
      let rest ← karyLoop nranks root first todo next
      some (c :: rest)

/-- `MPII_Treeutil_tree_kary_init` (:38). -/
def karyInit (rank nranks k root : Nat) : Option Treealgo :=
  if nranks = 0 then some (treeOf rank nranks none [])
  else do
    let lrank ← localRank rank nranks root
    let parent ← parentIf nranks root (if lrank = 0 then none else some ((lrank - 1) / k))
    let children ← karyLoop nranks root (mulInt lrank k) k 1
    some (treeOf rank nranks parent children)

/-- `MPII_Treeutil_tree_kary_init_topo_aware` (:80). -/
def karyInitTopoAware (rank nranks k0 k1 root : Nat) : Option Treealgo :=
  if nranks ≤ 2 ∨ k1 ≤ k0 then karyInit rank nranks k1 root
  else do
    let lrank ← localRank rank nranks root
    let parent ← (if lrank = 0 then some none
      else (addInt lrank k1).bind fun sum => parentIf nranks root (some ((sum - k0 - 1) / k1)))
    let children ← (if lrank = 0 then karyLoop nranks root (some 0) k0 1
      else karyLoop nranks root ((mulInt (lrank - 1) k1).bind (addInt k0)) k1 1)
    some (treeOf rank nranks parent children)

/-! ## Powers -/

def ipowLoop : Nat → Nat → Nat → Nat → Option Nat
  | fuel, base, exp, result =>
    if exp = 0 then some result
    else match fuel with
    | 0 => none
    | fuel + 1 => do
      let result ← (if exp % 2 = 1 then mulInt result base else some result)
      let base ← mulInt base base
      ipowLoop fuel base (exp / 2) result

/-- `MPL_ipow` (`mpl_math.h:63`). -/
def ipow (base exp : Nat) : Option Nat := ipowLoop exp base exp 1

/-- `MPL_getdigit` (:79). -/
def getdigit (k number digit : Nat) : Option Nat := (ipow k digit).map fun p => number / p % k

/-- `MPL_setdigit` (:85). -/
def setdigit (k number digit newdigit : Nat) : Option Nat := do
  let lshift ← ipow k digit
  let olddigit ← getdigit k number digit
  let old ← mulInt olddigit lshift
  let new ← mulInt newdigit lshift
  addInt (number - old) new

/-! ## K-nomial trees, the first kind -/

/-- `treeutil.c:165-166`. -/
def maxstepLoop (k : Nat) : Nat → Nat → Nat → Option Nat
  | fuel, tmp, maxstep =>
    if tmp = 0 then some maxstep
    else match fuel with
    | 0 => none
    | fuel + 1 => maxstepLoop k fuel (tmp / k) (maxstep + 1)

/-- Look for a rank in the subtrees of one step, which have `k ^ e` ranks each, the first one from
`running`: the first rank of the subtree that has it, or the rank after all of them. `:186-196`. -/
def scan (k e lrank : Nat) : Nat → Nat → Option (Bool × Nat)
  | 0, running => some (false, running)
  | todo + 1, running => do
    let size ← ipow k e
    let stop ← addInt running size
    if running ≤ lrank ∧ lrank < stop then some (true, running) else scan k e lrank todo stop

/-- `:178-197`. -/
def descend (k maxstep lrank : Nat) : Nat → Nat → Option Nat → Nat → Nat →
    Option (Option Nat × Nat)
  | 0, _, _, _, _ => none
  | fuel + 1, step, parent, current, running =>
    if lrank = current then some (parent, step)
    else if maxstep ≤ step then none
    else match scan k (maxstep - step - 1) lrank (k - 1) running with
      | none => none
      | some (true, first) => do
        let next ← addInt first 1
        descend k maxstep lrank fuel (step + 1) (some current) first next
      | some (false, next) => descend k maxstep lrank fuel (step + 1) parent current next

/-- `:211-219`. -/
def stepChildren (nranks root k e : Nat) : Nat → Nat → Option (List Nat × Nat)
  | 0, crank => some ([], crank)
  | todo + 1, crank => do
    let here ← childIf nranks root crank
    let size ← ipow k e
    let next ← addInt crank size
    let (rest, last) ← stepChildren nranks root k e todo next
    some (here ++ rest, last)

/-- `:210-220`. -/
def stepsChildren (nranks root k : Nat) : Nat → Nat → Option (List Nat)
  | 0, _ => some []
  | left + 1, crank => do
    let (here, next) ← stepChildren nranks root k left (k - 1) crank
    let rest ← stepsChildren nranks root k left next
    some (here ++ rest)

/-- `MPII_Treeutil_tree_knomial_1_init` (:147). -/
def knomial1Init (rank nranks k root : Nat) : Option Treealgo :=
  if nranks = 0 then some (treeOf rank nranks none [])
  else do
    let lrank ← localRank rank nranks root
    if k < 2 then none
    else do
      let maxstep ← maxstepLoop k (nranks - 1) (nranks - 1) 0
      let (parent, step) ← descend k maxstep lrank (nranks + 1) 0 none 0 1
      let parent ← parentIf nranks root parent
      let crank ← addInt lrank 1
      let children ← stepsChildren nranks root k (maxstep - step) crank
      some (treeOf rank nranks parent children)

/-! ## K-nomial trees, the second kind -/

/-- `:32-33`. -/
def ilogLoop (k number : Nat) : Nat → Nat → Nat → Option Nat
  | fuel, i, p =>
    if number ≤ p - 1 then some i
    else match fuel with
    | 0 => none
    | fuel + 1 => do
      let p ← mulInt p k
      ilogLoop k number fuel (i + 1) p

/-- `tree_ilog` (:28). -/
def treeIlog (k number : Nat) : Option Nat := ilogLoop k number (number + 1) 1 (k - 1)

/-- `:267-272`. -/
def clearDigit (nranks root k lrank : Nat) : Nat → Nat → Option (Option Nat)
  | 0, _ => some none
  | todo + 1, i => do
    let digit ← getdigit k lrank i
    if digit ≠ 0 then do
      let parent ← setdigit k lrank i 0
      parentIf nranks root (some parent)
    else clearDigit nranks root k lrank todo (i + 1)

/-- `:280-285`. -/
def flipBits (k lrank : Nat) : Nat → Nat → Option (List Bool)
  | 0, _ => some []
  | todo + 1, j => do
    let digit ← getdigit k lrank j
    if digit ≠ 0 then some (List.replicate (todo + 1) false)
    else (flipBits k lrank todo (j + 1)).map (true :: ·)

/-- `:289-293`. -/
def digitChildren (nranks root k lrank j : Nat) : Nat → Option (List Nat)
  | 0 => some []
  | i + 1 => do
    let child ← setdigit k lrank j (i + 1)
    let here ← childIf nranks root child
    let rest ← digitChildren nranks root k lrank j i
    some (here ++ rest)

/-- `:287-295`. -/
def digitsChildren (nranks root k lrank : Nat) (flipBit : List Bool) : Nat → Option (List Nat)
  | 0 => some []
  | j + 1 => do
    let here ← (if flipBit[j]? = some true then digitChildren nranks root k lrank j (k - 1)
      else some [])
    let rest ← digitsChildren nranks root k lrank flipBit j
    some (here ++ rest)

/-- `MPII_Treeutil_tree_knomial_2_init` (:241). -/
def knomial2Init (rank nranks k root : Nat) : Option Treealgo :=
  if nranks = 0 then some (treeOf rank nranks none [])
  else do
    let lrank ← localRank rank nranks root
    if k < 2 then none
    else do
      let depth ← treeIlog k (nranks - 1)
      let parent ← (if lrank = 0 then some none else clearDigit nranks root k lrank depth 0)
      let flipBit ← flipBits k lrank depth 0
      let children ← digitsChildren nranks root k lrank flipBit depth
      some (treeOf rank nranks parent children)

end PsMpi.Coll
