import PsMpi.Topo.DimsChoice

/-!
# Which grids are chosen
-/

open List

namespace PsMpi.Dims

open PsMpi.Lib

/-! ## Valid requests -/

def given (dims : List Int) : Int := (dims.filter (· ≠ 0)).prod

def restNodes (nnodes : Int) (dims : List Int) : Nat := (nnodes.tdiv (given dims)).toNat

structure Valid (nnodes : Int) (dims : List Int) : Prop where
  pos : 1 ≤ nnodes
  le : nnodes ≤ intMax
  nonneg : ∀ d ∈ dims, 0 ≤ d
  dvd : given dims ∣ nnodes

def freeValues (dims res : List Int) : List Int :=
  ((dims.zip res).filter (·.1 = 0)).map (·.2)

section

variable {nnodes : Int} {dims : List Int}

theorem given_cons_zero (dims : List Int) : given (0 :: dims) = given dims := rfl

theorem given_cons {d : Int} (hd : d ≠ 0) (dims : List Int) :
    given (d :: dims) = d * given dims := by
  rw [given, filter_cons, if_pos (by simpa using hd), prod_cons]
  rfl

theorem given_pos (h : ∀ d ∈ dims, 0 ≤ d) : 1 ≤ given dims := by
  induction dims with
  | nil => exact le_rfl
  | cons d dims ih =>
    obtain ⟨hd, hdims⟩ := forall_mem_cons.1 h
    by_cases hzero : d = 0
    · subst hzero
      exact ih hdims
    · rw [given_cons hzero]
      have hrest := ih hdims
      exact Int.mul_pos (by omega) (by omega)

theorem Valid.given_le (h : Valid nnodes dims) : given dims ≤ nnodes :=
  Int.le_of_dvd (by have := h.pos; omega) h.dvd

theorem Valid.restNodes_mul (h : Valid nnodes dims) :
    (restNodes nnodes dims : Int) * given dims = nnodes := by
  have hgiven := given_pos h.nonneg
  have hpos := h.pos
  have hdiv : 0 ≤ nnodes.tdiv (given dims) := Int.tdiv_nonneg (by omega) (by omega)
  rw [restNodes, Int.toNat_of_nonneg hdiv, Int.tdiv_mul_cancel h.dvd]

theorem Valid.restNodes_pos (h : Valid nnodes dims) : 0 < restNodes nnodes dims := by
  refine Nat.pos_of_ne_zero fun hzero => ?_
  have hmul := h.restNodes_mul
  rw [hzero, Int.natCast_zero, Int.zero_mul] at hmul
  have := h.pos
  omega

theorem Valid.restNodes_le (h : Valid nnodes dims) : restNodes nnodes dims ≤ intMax := by
  have hdvd : (restNodes nnodes dims : Int) ∣ nnodes := ⟨_, h.restNodes_mul.symm⟩
  have hle := Int.le_of_dvd (by have := h.pos; omega) hdvd
  have := h.le
  omega

theorem scanDims_spec {i needed : Nat} {product : Int} (h : ∀ d ∈ dims, 0 ≤ d)
    (hpos : 1 ≤ product) (hle : product * given dims ≤ intMax) :
    scanDims dims i needed product = .ok (needed + dims.count 0, product * given dims) := by
  induction dims generalizing i needed product with
  | nil => rw [scanDims, count_nil, Nat.add_zero, given, filter_nil, prod_nil,
      Int.mul_one]
  | cons d dims ih =>
    obtain ⟨hd, hdims⟩ := forall_mem_cons.1 h
    rw [scanDims, if_neg (by omega)]
    split
    · next hzero =>
      subst hzero
      rw [ih hdims hpos hle, count_cons_self, given_cons_zero]
      congr 2
      omega
    · next hne =>
      rw [given_cons hne, ← Int.mul_assoc] at hle
      have hgiven := given_pos hdims
      have hprod : 1 ≤ product * d := Int.mul_pos (by omega) (by omega)
      have hfit : product * d ≤ intMax := by
        refine le_trans ?_ hle
        exact le_mul_of_one_le_right (by omega) hgiven
      have hmax : (intMax : Int) = 2147483647 := rfl
      have hmul : mulWrap product d = product * d := wrapInt_of_lt (by omega) (by omega)
      rw [hmul, ih hdims hprod hle, count_cons_of_ne hne, given_cons hne, Int.mul_assoc]

theorem dimsCreateImpl_eq (h : Valid nnodes dims) :
    dimsCreateImpl nnodes dims =
      if dims.count 0 = 0 then some (.ok dims)
      else if maxDims < dims.count 0 then some (.error (.dimsmany (dims.count 0)))
      else (chooseDims (restNodes nnodes dims) (dims.count 0) dims.length).bind fun chosen =>
        (fillDims dims chosen).bind fun res => some (.ok res) := by
  have hgiven := given_pos h.nonneg
  have hle := h.given_le
  have hmax := h.le
  have hscan := @scanDims_spec _ 0 0 _ h.nonneg le_rfl
    (by rw [Int.one_mul]; omega)
  rw [Nat.zero_add, Int.one_mul] at hscan
  have hmul : mulWrap (nnodes.tdiv (given dims)) (given dims) = nnodes := by
    have hpos := h.pos
    have hmax' : (intMax : Int) = 2147483647 := rfl
    rw [mulWrap, Int.tdiv_mul_cancel h.dvd]
    exact wrapInt_of_lt (by omega) (by omega)
  unfold dimsCreateImpl
  rw [hscan]
  dsimp only
  rw [if_neg (by omega), if_neg (not_not.2 hmul)]
  rfl

/-! ## The values in the array -/

theorem freeValues_cons_zero (x : Int) (dims res : List Int) :
    freeValues (0 :: dims) (x :: res) = x :: freeValues dims res := rfl

theorem freeValues_cons {d : Int} (hd : d ≠ 0) (x : Int) (dims res : List Int) :
    freeValues (d :: dims) (x :: res) = freeValues dims res := by
  rw [freeValues, zip_cons_cons, filter_cons, if_neg (by simpa using hd)]
  rfl

theorem fillDims_cons_zero (c : Nat) (dims : List Int) (chosen : List Nat) :
    fillDims (0 :: dims) (c :: chosen) = (fillDims dims chosen).map ((c : Int) :: ·) := by
  rw [fillDims.eq_def]
  exact if_pos rfl

theorem fillDims_cons {d : Int} (hd : d ≠ 0) (dims : List Int) (chosen : List Nat) :
    fillDims (d :: dims) chosen = (fillDims dims chosen).map (d :: ·) := by
  rw [fillDims.eq_def]
  exact if_neg hd

theorem fillDims_spec {chosen : List Nat} (h : dims.count 0 ≤ chosen.length) :
    ∃ res, fillDims dims chosen = some res ∧ res.length = dims.length ∧
      (∀ (i : Nat) d, dims[i]? = some d → d ≠ 0 → res[i]? = some d) ∧
      freeValues dims res = (chosen.take (dims.count 0)).map (fun c : Nat => (c : Int)) ∧
      res.prod = given dims * ((chosen.take (dims.count 0)).prod : Nat) := by
  induction dims generalizing chosen with
  | nil => exact ⟨[], rfl, rfl, fun i d hd => absurd hd (by simp), rfl, rfl⟩
  | cons d dims ih =>
    by_cases hzero : d = 0
    · subst hzero
      rw [count_cons_self] at h ⊢
      cases chosen with
      | nil => exact absurd h (by simp)
      | cons c chosen =>
        obtain ⟨res, hrun, hlen, hkept, hfree, hprod⟩ := @ih chosen (by simpa using h)
        rw [fillDims_cons_zero, hrun]
        refine ⟨c :: res, rfl, by rw [length_cons, hlen]; rfl, fun i d hd hne => ?_, ?_, ?_⟩
        · cases i with
          | zero => exact absurd (Option.some.inj hd).symm hne
          | succ i => exact hkept i d hd hne
        · rw [freeValues_cons_zero, hfree, take_succ_cons, map_cons]
        · rw [prod_cons, hprod, take_succ_cons, prod_cons, given_cons_zero,
            Int.natCast_mul, Int.mul_left_comm]
    · rw [count_cons_of_ne hzero] at h ⊢
      obtain ⟨res, hrun, hlen, hkept, hfree, hprod⟩ := ih h
      rw [fillDims_cons hzero, hrun]
      refine ⟨d :: res, rfl, by rw [length_cons, hlen]; rfl, fun i x hx hne => ?_, ?_, ?_⟩
      · cases i with
        | zero => exact hx
        | succ i => exact hkept i x hx hne
      · rw [freeValues_cons hzero, hfree]
      · rw [prod_cons, hprod, given_cons hzero, Int.mul_assoc]

/-! ## The values -/

/-- What the code does with a valid request: it keeps the given dimensions, and puts positive values
in decreasing order into the free places, such that all processes are used if there is one. -/
structure Filled (nnodes : Int) (dims res : List Int) : Prop where
  length : res.length = dims.length
  kept : ∀ (i : Nat) d, dims[i]? = some d → d ≠ 0 → res[i]? = some d
  pos : ∀ x ∈ freeValues dims res, 0 < x
  sorted : (freeValues dims res).Pairwise (· ≥ ·)
  prod : dims.count 0 ≠ 0 → res.prod = nnodes

/-- The code stays in its arrays: the table has a prime that ends the loop, and ones behind the
primes end in the array of the choices. -/
def Fits (m d ndims : Nat) : Prop := ¬ Unfactored m ∧ (ndims ≤ maxDims ∨ d < bigOmega m)

theorem dimsCreateImpl_chosen (h : Valid nnodes dims) (hfree : dims.count 0 ≠ 0)
    (hmax : dims.count 0 ≤ maxDims) {chosen l : List Nat}
    (hchosen : chooseDims (restNodes nnodes dims) (dims.count 0) dims.length = some chosen)
    (hlen : dims.count 0 ≤ chosen.length) (htake : chosen.take (dims.count 0) = l)
    (hdec : Decomp (dims.count 0) (restNodes nnodes dims) l) (hsorted : l.Pairwise (· ≥ ·)) :
    ∃ res, dimsCreateImpl nnodes dims = some (.ok res) ∧ Filled nnodes dims res ∧
      freeValues dims res = l.map (fun c : Nat => (c : Int)) := by
  obtain ⟨res, hrun, hlength, hkept, hvalues, hprod⟩ := fillDims_spec hlen
  rw [htake] at hvalues hprod
  refine ⟨res, ?_, ⟨hlength, hkept, ?_, ?_, fun _ => ?_⟩, hvalues⟩
  · rw [dimsCreateImpl_eq h, if_neg hfree, if_neg (by omega), hchosen, Option.bind_some, hrun,
      Option.bind_some]
  · rw [hvalues]
    intro x hx
    obtain ⟨c, hc, rfl⟩ := mem_map.1 hx
    exact Int.natCast_pos.2 (hdec.pos c hc)
  · rw [hvalues, pairwise_map]
    exact hsorted.imp fun hle => Int.ofNat_le.2 hle
  · rw [hprod, hdec.prod, Int.mul_comm, h.restNodes_mul]

theorem dimsCreateImpl_one (h : Valid nnodes dims) (hone : dims.count 0 = 1) :
    ∃ res, dimsCreateImpl nnodes dims = some (.ok res) ∧ Filled nnodes dims res ∧
      freeValues dims res = [(restNodes nnodes dims : Int)] := by
  have hbest := best_singleton h.restNodes_pos
  refine @dimsCreateImpl_chosen _ _ h (by omega) (by rw [hone]; decide)
    [restNodes nnodes dims] _ ?_ hone.le ?_ (by rw [hone]; exact hbest.toDecomp)
    (pairwise_singleton _ _)
  · rw [chooseDims, if_pos hone]
  · rw [hone]
    rfl

theorem dimsCreateImpl_two (h : Valid nnodes dims) (htwo : 2 ≤ dims.count 0)
    (hmax : dims.count 0 ≤ maxDims)
    (hfits : Fits (restNodes nnodes dims) (dims.count 0) dims.length) :
    ∃ ps m l res, largePrimes (dims.count 0 - 1) (restNodes nnodes dims) = (ps, m) ∧
      LargePrimes (restNodes nnodes dims) ps m ∧ ps.length < dims.count 0 ∧
      Best (dims.count 0 - ps.length) m l ∧ dimsCreateImpl nnodes dims = some (.ok res) ∧
      Filled nnodes dims res ∧
      freeValues dims res = (ps ++ l).map (fun c : Nat => (c : Int)) := by
  obtain ⟨hps, hlen, chosen, l, hchosen, hchoice⟩ := chooseDims_spec h.restNodes_pos
    h.restNodes_le htwo count_le_length hfits.1 hfits.2
  have hdec := hps.decomp hchoice.best.toDecomp
  rw [Nat.add_sub_cancel' hlen.le] at hdec
  obtain ⟨res, hrun, hfilled, hvalues⟩ := dimsCreateImpl_chosen h (by omega) hmax hchosen
    hchoice.length hchoice.take hdec
    (hps.sorted hchoice.best.toDecomp h.restNodes_pos hchoice.sorted)
  exact ⟨_, _, l, res, rfl, hps, hlen, hchoice.best, hrun, hfilled, hvalues⟩

theorem dimsCreateImpl_zero (h : Valid nnodes dims) (hzero : dims.count 0 = 0) :
    dimsCreateImpl nnodes dims = some (.ok dims) ∧ freeValues dims dims = [] := by
  refine ⟨by rw [dimsCreateImpl_eq h, if_pos hzero], ?_⟩
  rw [freeValues, map_eq_nil_iff, filter_eq_nil_iff]
  intro x hx heq
  have hmem := (of_mem_zip hx).1
  rw [of_decide_eq_true heq] at hmem
  exact count_eq_zero.1 hzero hmem

end

/-- A valid request is filled. With no free dimension the dimensions stay as they are. -/
theorem dims_create_filled {nnodes : Int} {dims : List Int} (h : Valid nnodes dims)
    (hmax : dims.count 0 ≤ maxDims)
    (hfits : dims.count 0 ≤ 1 ∨ Fits (restNodes nnodes dims) (dims.count 0) dims.length) :
    ∃ res, dimsCreateImpl nnodes dims = some (.ok res) ∧ Filled nnodes dims res := by
  by_cases hzero : dims.count 0 = 0
  · obtain ⟨hrun, hvalues⟩ := dimsCreateImpl_zero h hzero
    refine ⟨dims, hrun, rfl, fun i d hd _ => hd, ?_, ?_, fun hne => absurd hzero hne⟩
    · rw [hvalues]
      exact fun x hx => absurd hx not_mem_nil
    · rw [hvalues]
      exact .nil
  by_cases hone : dims.count 0 = 1
  · obtain ⟨res, hrun, hfilled, -⟩ := dimsCreateImpl_one h hone
    exact ⟨res, hrun, hfilled⟩
  · obtain ⟨-, -, -, res, -, -, -, -, hrun, hfilled, -⟩ :=
      dimsCreateImpl_two h (by omega) hmax (hfits.resolve_left (by omega))
    exact ⟨res, hrun, hfilled⟩

theorem dims_create_filled_twelve :
    ∃ res, dimsCreateImpl 12 [0, 2, 0] = some (.ok res) ∧ Filled 12 [0, 2, 0] res := by
  refine dims_create_filled ⟨by decide, by decide, by decide, by decide⟩ (by decide)
    (.inr ⟨fun h => absurd h.2 (by decide), .inl (by decide)⟩)

theorem dims_create_given : ¬ ∀ (nnodes : Int) (dims : List Int), Valid nnodes dims →
    dims.count 0 ≤ maxDims → ∃ res, dimsCreateImpl nnodes dims = some (.ok res) ∧
      Filled nnodes dims res ∧ res.prod = nnodes := by
  intro h
  obtain ⟨res, hrun, -, hprod⟩ := h 4 [2] ⟨by decide, by decide, by decide, by decide⟩ (by decide)
  have hres : dimsCreateImpl 4 [2] = some (.ok [2]) := by decide
  obtain rfl : [2] = res := Except.ok.inj (Option.some.inj (hres.symm.trans hrun))
  exact absurd hprod (by decide)

/-! ## The balance -/

/-- The code stays in its arrays, and no other way to write the number of processes as a product has
a smaller difference between its greatest and its least factor than the values that it chooses. -/
def Balanced (nnodes : Int) (dims : List Int) : Prop :=
  match dimsCreateImpl nnodes dims with
  | none => False
  | some (.error _) => True
  | some (.ok res) => ∀ l, Decomp (dims.count 0) (restNodes nnodes dims) l →
      spread ((freeValues dims res).map Int.toNat) ≤ spread l

/-- No large prime is taken out, or a decomposition of what is left has both the least difference
and the greatest least factor. -/
def RestBalanced (d n : Nat) : Prop :=
  (largePrimes (d - 1) n).1 = [] ∨
    ∃ l, Decomp (d - (largePrimes (d - 1) n).1.length) (largePrimes (d - 1) n).2 l ∧
      ∀ l', Decomp (d - (largePrimes (d - 1) n).1.length) (largePrimes (d - 1) n).2 l' →
        spread l ≤ spread l' ∧ least l' ≤ least l

section

variable {nnodes : Int} {dims : List Int}

theorem map_toNat (l : List Nat) : (l.map (fun c : Nat => (c : Int))).map Int.toNat = l := by
  rw [map_map]
  exact map_id l

theorem balanced_iff {res : List Int} {l : List Nat}
    (hrun : dimsCreateImpl nnodes dims = some (.ok res))
    (hvalues : freeValues dims res = l.map (fun c : Nat => (c : Int))) :
    Balanced nnodes dims ↔
      ∀ l', Decomp (dims.count 0) (restNodes nnodes dims) l' → spread l ≤ spread l' := by
  rw [Balanced, hrun]
  dsimp only
  rw [hvalues, map_toNat]

theorem balanced_two (h : Valid nnodes dims) (htwo : 2 ≤ dims.count 0)
    (hmax : dims.count 0 ≤ maxDims)
    (hfits : Fits (restNodes nnodes dims) (dims.count 0) dims.length) :
    Balanced nnodes dims ↔ RestBalanced (dims.count 0) (restNodes nnodes dims) := by
  obtain ⟨ps, m, l, res, hlarge, hps, hlen, hbest, hrun, -, hvalues⟩ :=
    dimsCreateImpl_two h htwo hmax hfits
  rw [balanced_iff hrun hvalues, RestBalanced, hlarge]
  dsimp only
  cases ps with
  | nil =>
    have hm : m = restNodes nnodes dims := by simpa using hps.prod
    rw [length_nil, Nat.sub_zero, hm] at hbest
    exact ⟨fun _ => .inl rfl, fun _ => hbest.spread_le⟩
  | cons p ps =>
    obtain ⟨k, hk⟩ : ∃ k, dims.count 0 - (p :: ps).length = k + 1 :=
      ⟨dims.count 0 - (p :: ps).length - 1, by omega⟩
    have hcount : dims.count 0 = (p :: ps).length + (k + 1) := by omega
    rw [hk] at hbest ⊢
    rw [hcount, hps.spread_le_iff hbest h.restNodes_pos]
    exact ⟨.inr, fun hor => hor.resolve_left (cons_ne_nil p ps)⟩

theorem balanced_zero (h : Valid nnodes dims) (hzero : dims.count 0 = 0) :
    Balanced nnodes dims := by
  obtain ⟨hrun, hvalues⟩ := dimsCreateImpl_zero h hzero
  exact (balanced_iff (l := []) hrun hvalues).2 fun l _ => Nat.zero_le _

theorem balanced_one (h : Valid nnodes dims) (hone : dims.count 0 = 1) :
    Balanced nnodes dims := by
  obtain ⟨res, hrun, -, hvalues⟩ := dimsCreateImpl_one h hone
  refine (balanced_iff (l := [restNodes nnodes dims]) hrun hvalues).2 fun l hl => ?_
  rw [hone] at hl
  exact (best_singleton h.restNodes_pos).spread_le l hl

end

/-- The values are as balanced as possible exactly when the code stays in its arrays and the rest
behind the large primes can be balanced with the greatest least factor. -/
theorem dims_create_balanced {nnodes : Int} {dims : List Int} (h : Valid nnodes dims) :
    Balanced nnodes dims ↔ dims.count 0 ≤ 1 ∨ maxDims < dims.count 0 ∨
      Fits (restNodes nnodes dims) (dims.count 0) dims.length ∧
        RestBalanced (dims.count 0) (restNodes nnodes dims) := by
  by_cases hle : dims.count 0 ≤ 1
  · refine ⟨fun _ => .inl hle, fun _ => ?_⟩
    rcases Nat.le_one_iff_eq_zero_or_eq_one.1 hle with hzero | hone
    · exact balanced_zero h hzero
    · exact balanced_one h hone
  by_cases hmany : maxDims < dims.count 0
  · refine ⟨fun _ => .inr (.inl hmany), fun _ => ?_⟩
    rw [Balanced, dimsCreateImpl_eq h, if_neg (by omega), if_pos hmany]
    trivial
  by_cases hfits : Fits (restNodes nnodes dims) (dims.count 0) dims.length
  · rw [balanced_two h (by omega) (by omega) hfits]
    constructor
    · exact fun hrest => .inr (.inr ⟨hfits, hrest⟩)
    · rintro (hone | hmax | ⟨-, hrest⟩)
      · exact absurd hone hle
      · exact absurd hmax hmany
      · exact hrest
  · have hnone : chooseDims (restNodes nnodes dims) (dims.count 0) dims.length = none := by
      refine chooseDims_none h.restNodes_pos h.restNodes_le (by omega) (by omega) ?_
      by_cases hfact : Unfactored (restNodes nnodes dims)
      · exact .inl hfact
      · refine .inr ⟨?_, ?_⟩
        · by_contra hle
          exact hfits ⟨hfact, .inl (by omega)⟩
        · by_contra hlt
          exact hfits ⟨hfact, .inr (by omega)⟩
    have hrun : dimsCreateImpl nnodes dims = none := by
      rw [dimsCreateImpl_eq h, if_neg (by omega), if_neg hmany, hnone]
      rfl
    rw [Balanced, hrun]
    refine ⟨False.elim, ?_⟩
    rintro (hone | hmax | ⟨hfits', -⟩)
    · exact absurd hone hle
    · exact absurd hmax hmany
    · exact absurd hfits' hfits

theorem dims_create_balanced_sixteen : Balanced 16 [0, 0] := by
  have hfactors : IsFactors 16 [⟨2, 4⟩] :=
    ⟨⟨pairwise_singleton _ _, fun f hf => mem_singleton.1 hf ▸ Nat.prime_two,
      fun f hf => mem_singleton.1 hf ▸ Nat.succ_pos 3⟩, rfl⟩
  refine (dims_create_balanced ⟨by decide, by decide, by decide, by decide⟩).2
    (.inr (.inr ⟨⟨fun h => absurd h.2 (by decide), .inl (by decide)⟩, .inl ?_⟩))
  exact congrArg Prod.fst (largePrimes_single hfactors 1)

/-- Of 1017072 processes the prime 1009 is taken out, and the search balances 12, 12 and 7, but with
14, 9 and 8 the difference to 1009 is smaller. -/
theorem dims_create_unbalanced : ¬ ∀ (nnodes : Int) (dims : List Int), Valid nnodes dims →
    Balanced nnodes dims := by
  intro h
  have hbalanced := h 1017072 [0, 0, 0, 0] ⟨by decide, by decide, by decide, by decide⟩
  have hres : dimsCreateImpl 1017072 [0, 0, 0, 0] = some (.ok [1009, 12, 12, 7]) := by
    decide
  rw [Balanced, hres] at hbalanced
  exact absurd (hbalanced [1009, 14, 9, 8] ⟨by decide, by decide, by decide⟩) (by decide)

end PsMpi.Dims
