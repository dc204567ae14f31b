import PsMpi.Lib.Strtol
import PsMpi.Topo.Primes

/-!
# Dimensions of a grid

See `mpich2/src/mpi/topo/dims_create.c`.
-/

namespace PsMpi.Dims

open PsMpi.Lib

/-- `MAX_FACTORS` (:111). -/
def maxFactors : Nat := 10

/-- `MAX_DIMS` (:113). -/
def maxDims : Nat := 20

/-- `Factors` (:115). -/
structure Factors where
  val : Nat
  cnt : Nat

def mulWrap (a b : Int) : Int := wrapInt (a * b)

/-! ## Factors -/

def divideOut (val : Nat) : Nat → Nat → Nat → Nat × Nat
  | 0, n, cnt => (n, cnt)
  | fuel + 1, n, cnt =>
    if n / val * val = n then divideOut val fuel (n / val) (cnt + 1) else (n, cnt)

/-- How the loop over the primes ends: with what is left of the number, or with too many factors. -/
inductive FactorEnd where
  | done (n : Nat) (factors : List Factors)
  | panic (factors : List Factors)

/-- `factor_num` (:169). -/
def factorLoop : List Nat → Nat → List Factors → Option FactorEnd
  | [], _, _ => none
  | val :: table, n, factors =>
    if n < val * val then some (.done n factors)
    else if n / val * val = n then
      let (n, cnt) := divideOut val n n 0
      if factors.length + 1 = maxFactors then some (.panic factors)
      else if n = 1 then some (.done n (factors ++ [⟨val, cnt⟩]))
      else factorLoop table n (factors ++ [⟨val, cnt⟩])
    else factorLoop table n factors

def countPrimes (factors : List Factors) : Nat := (factors.map (·.cnt)).sum

/-- Line 137. -/
def factorNum (nn : Nat) : Option (List Factors × Nat) := do
  let (n, factors) :=
    if nn % 2 = 0 then
      let (n, cnt) := divideOut 2 nn nn 0
      (n, [⟨2, cnt⟩])
    else (nn, [])
  match ← factorLoop primes.tail n factors with
  | .panic factors => return (factors, 0)
  | .done n factors =>
    let factors := if n ≠ 1 then factors ++ [⟨n, 1⟩] else factors
    return (factors, countPrimes factors)

/-! ## Divisors -/

/-- `ndivisors_from_factor` (:213). -/
def ndivisorsFromFactor (factors : List Factors) : Nat :=
  (factors.map (·.cnt + 1)).prod - 2

structure Digit where
  factor : Factors
  power : Nat
  base : Nat

/-- `factor_to_divisors` (:238). -/
def nextPowers : List Digit → List Digit
  | [] => []
  | d :: ds =>
    if d.factor.cnt < d.power + 1 then ⟨d.factor, 0, 1⟩ :: nextPowers ds
    else ⟨d.factor, d.power + 1, d.base * d.factor.val⟩ :: ds

def powersValue (digits : List Digit) : Nat := (digits.map (·.base)).prod

/-- Line 236. -/
def divisorsLoop : Nat → List Digit → List Nat
  | 0, _ => []
  | k + 1, digits => powersValue (nextPowers digits) :: divisorsLoop k (nextPowers digits)

/-- Line 278. -/
def sortPairs : List Nat → List Nat
  | a :: b :: rest => (if b < a then [b, a] else [a, b]) ++ sortPairs rest
  | rest => rest

/-- Merge a run that begins with `x` into another one; `rest` merges what follows `x`. -/
def mergeHead (x : Nat) (xs : List Nat) (rest : List Nat → List Nat) : List Nat → List Nat
  | [] => x :: xs
  | y :: ys => if x < y then x :: rest (y :: ys) else y :: mergeHead x xs rest ys

/-- `factor_to_divisors` (:299). -/
def mergeRuns : List Nat → List Nat → List Nat
  | [] => id
  | x :: xs => mergeHead x xs (mergeRuns xs)

/-- Line 291. -/
def mergePass (gap : Nat) : Nat → List Nat → List Nat
  | 0, divs => divs
  | fuel + 1, divs =>
    if gap < divs.length then
      mergeRuns (divs.take gap) ((divs.drop gap).take gap)
        ++ mergePass gap fuel (divs.drop (gap * 2))
    else divs

/-- Line 289. -/
def mergePasses : Nat → Nat → List Nat → List Nat
  | 0, _, divs => divs
  | fuel + 1, gap, divs =>
    if gap < divs.length then mergePasses fuel (gap * 2) (mergePass gap divs.length divs)
    else divs

/-- Line 226. -/
def factorToDivisors (factors : List Factors) : List Nat :=
  let divs := divisorsLoop (ndivisorsFromFactor factors) (factors.map (⟨·, 0, 1⟩))
  if 1 < factors.length then mergePasses divs.length 2 (sortPairs divs) else divs

/-! ## The first guess -/

/-- `factor_to_dims_by_rr` (:363). -/
def rrPlace (dims : List Nat) (val : Nat) : Nat → Nat
  | 0 => 0
  | kk + 1 => if dims.getD (kk + 1) 0 * val ≤ dims.getD kk 0 then kk + 1 else rrPlace dims val kk

/-- Line 355. -/
def rrLoop (nd : Nat) : List Nat → Nat → List Nat → List Nat
  | [], _, dims => dims
  | val :: vals, k, dims =>
    if k < nd then rrLoop nd vals (k + 1) (dims.set k val)
    else rrLoop nd vals k (dims.modify (rrPlace dims val (nd - 1)) (· * val))

def primesDown (factors : List Factors) : List Nat :=
  factors.reverse.flatMap fun f => List.replicate f.cnt f.val

/-- Line 343. -/
def factorToDimsByRr (factors : List Factors) (nd : Nat) : List Nat :=
  rrLoop nd (primesDown factors) 0 (List.replicate nd 1)

/-! ## The search -/

/-- What the search changes: the balance of the best choice, the current choice and the best one. -/
structure Search where
  curbal : Int
  trydims : List Nat
  optdims : List Nat

/-- `optbalance` (:437). -/
def powLoop (sf q : Nat) : Nat → Int → Nat
  | 0, _ => 0
  | ii + 1, ff => if ff ≤ q then powLoop sf q ii (mulWrap ff sf) else ii + 1

/-- Line 454. -/
def scanDivs (q : Nat) : List Nat → List Nat
  | [] => []
  | f :: rest =>
    if mulWrap f f > q then []
    else if q % f = 0 then f :: scanDivs q rest else scanDivs q rest

/-- The smallest remaining factor and the divisors that are known so far; none if there is no
further factor. Line 418. -/
def smallestFactor (q f : Nat) (rest : List Nat) : Option (Nat × List Nat) :=
  if q % f = 0 then some (f, [f])
  else
    match rest with
    | g :: _ => some (g, [])
    | [] => none

/-- The loop over the divisors at a place behind the first two. Line 402. -/
def optLoop (rec : Nat → List Nat → Search → Search) (nd idx n : Nat) (min curbal : Int) :
    List Nat → Search → Search
  | [], st => st
  | f :: rest, st =>
    if idx < nd - 1 ∧ f - min > curbal then st
    else
      let q := n / f
      match smallestFactor q f rest with
      | none => st
      | some (sf, newdivs) =>
        if idx < nd - 1 ∧ sf - min > curbal then st
        else if 0 < powLoop sf q (idx - 1) (mulWrap sf sf) then st
        else
          let st := { st with trydims := st.trydims.set idx f }
          let newdivs := newdivs ++ scanDivs q rest
          let st := if newdivs ≠ [] then rec q newdivs st else st
          optLoop rec nd idx n min curbal rest st

/-- The largest divisor that is not larger than its cofactor, if there is one behind the first, and
the cofactor. Line 481. -/
def pairLoop (n : Nat) : Nat → Int → List Nat → Nat × Int
  | f, qprev, [] => (f, qprev)
  | f, qprev, g :: rest => if n / g < g then (f, qprev) else pairLoop n g (n / g : Nat) rest

/-- Line 476. -/
def optPair (nd n : Nat) (min : Int) (divs : List Nat) (st : Search) : Search :=
  match divs with
  | [] => st
  | f :: rest =>
    let (f, qprev) := pairLoop n f (-1) rest
    let q : Int := if qprev > 0 then qprev else (n / f : Nat)
    if q < f then st
    else
      let testbal := if nd = 2 then q - f else q - min
      if testbal ≤ st.curbal then
        { st with optdims := q.toNat :: f :: st.trydims.drop 2, curbal := q - min }
      else st

/-- Line 379. -/
def optbalance (nd : Nat) : Nat → Nat → List Nat → Search → Search
  | 0, n, _, st =>
    let min : Int := st.trydims.getD (nd - 1) 0
    if n - min ≤ st.curbal then
      { st with optdims := n :: st.trydims.drop 1, curbal := n - min }
    else st
  | 1, n, divs, st => optPair nd n (st.trydims.getD (nd - 1) 0) divs st
  | idx + 2, n, divs, st =>
    optLoop (optbalance nd (idx + 1)) nd (idx + 2) n (st.trydims.getD (nd - 1) 0) st.curbal divs st

/-! ## The dimensions -/

/-- Large primes become dimensions, as long as there are two factors and room for more than one
dimension. `MPIR_Dims_create_impl` (:654). -/
def removeLarge : List Factors → Nat → Nat → List Nat → List Factors × Nat × List Nat
  | f :: g :: rest, room + 1, nnodes, chosen =>
    if f.cnt = 1 ∧ mulWrap f.val f.val > nnodes then
      removeLarge (g :: rest) room (nnodes / f.val) (chosen ++ [f.val])
    else (f :: g :: rest, nnodes, chosen)
  | factors, _, nnodes, chosen => (factors, nnodes, chosen)

/-- Line 706. -/
def roundRobin (val nd : Nat) : Nat → Nat → List Nat → List Nat
  | 0, _, chosen => chosen
  | cnt + 1, k, chosen =>
    let k := if nd ≤ k then 0 else k
    roundRobin val nd cnt (k + 1) (chosen.modify k (· * val))

/-- Line 689. -/
def fillOnes (ndims : Nat) (chosen : List Nat) : Option (List Nat) :=
  if chosen.length < ndims ∧ maxDims < ndims then none
  else some (chosen ++ List.replicate (ndims - chosen.length) 1)

/-- Line 751. -/
def searchDims (factors : List Factors) (nnodes nd : Nat) (chosen : List Nat) :
    Option (List Nat) := do
  let divs := factorToDivisors factors
  let guess := factorToDimsByRr factors nd
  let first ← (chosen ++ guess).head?
  let last ← (chosen ++ guess).getLast?
  let smallest ← divs.head?
  let st : Search :=
    ⟨(first : Int) - last, (List.replicate nd 0).set (nd - 1) smallest, guess⟩
  return chosen ++ (optbalance nd (nd - 1) nnodes divs st).optdims

/-- Line 632. -/
def chooseDims (nnodes dimsNeeded ndims : Nat) : Option (List Nat) :=
  if dimsNeeded = 1 then some [nnodes]
  else do
    let (factors, nprimes) ← factorNum nnodes
    let (down, nnodes, chosen) := removeLarge factors.reverse (dimsNeeded - 1) nnodes []
    let factors := down.reverse
    let nextidx := chosen.length
    let nprimes := nprimes - nextidx
    let nd := dimsNeeded - nextidx
    if nprimes + nextidx ≤ dimsNeeded then fillOnes ndims (chosen ++ primesDown factors)
    else if nd = 1 then some (chosen ++ [nnodes])
    else
      match factors with
      | [f] => some (chosen ++ roundRobin f.val nd f.cnt 0 (List.replicate nd 1))
      | _ =>
        if ∀ f ∈ factors, f.cnt % nd = 0 then
          some (chosen ++ List.replicate nd (factors.map fun f => f.val ^ (f.cnt / nd)).prod)
        else searchDims factors nnodes nd chosen

inductive DimsErr where
  | argarrayneg (i : Nat) (value : Int)
  | dimspartition
  | dimsmany (dimsNeeded : Nat)
deriving DecidableEq

/-- Line 576. -/
def scanDims : List Int → Nat → Nat → Int → Except DimsErr (Nat × Int)
  | [], _, dimsNeeded, dimsProduct => .ok (dimsNeeded, dimsProduct)
  | d :: dims, i, dimsNeeded, dimsProduct =>
    if d < 0 then .error (.argarrayneg i d)
    else if d = 0 then scanDims dims (i + 1) (dimsNeeded + 1) dimsProduct
    else scanDims dims (i + 1) dimsNeeded (mulWrap dimsProduct d)

/-- Line 738. -/
def fillDims : List Int → List Nat → Option (List Int)
  | [], _ => some []
  | d :: dims, chosen =>
    if d = 0 then
      match chosen with
      | [] => none
      | c :: chosen => (fillDims dims chosen).map ((c : Int) :: ·)
    else (fillDims dims chosen).map (d :: ·)

/-- The dimensions of a grid of `nnodes` processes: none where the source divides by zero or leaves
an array. Line 552. -/
def dimsCreateImpl (nnodes : Int) (dims : List Int) : Option (Except DimsErr (List Int)) :=
  match scanDims dims 0 0 1 with
  | .error e => some (.error e)
  | .ok (dimsNeeded, dimsProduct) =>
    if dimsProduct = 0 then none
    else if mulWrap (nnodes.tdiv dimsProduct) dimsProduct ≠ nnodes then
      some (.error .dimspartition)
    else if dimsNeeded = 0 then some (.ok dims)
    else if maxDims < dimsNeeded then some (.error (.dimsmany dimsNeeded))
    else do
      let chosen ← chooseDims (nnodes.tdiv dimsProduct).toNat dimsNeeded dims.length
      return .ok (← fillDims dims chosen)

end PsMpi.Dims
