import PsMpi.Topo.DimsParts

/-!
# The chosen dimensions
-/

open List Option

namespace PsMpi.Dims

open PsMpi.Lib

section

variable {n m nd : Nat} {ps l : List Nat} {fs : List Factors}

/-! ## The search -/

theorem greatest_of_sorted (h : l.Pairwise (· ≥ ·)) (hne : l ≠ []) : greatest l = l.headD 0 := by
  cases l with
  | nil => exact absurd rfl hne
  | cons x l =>
    refine greatest_eq (mem_cons_self ..) fun y hy => ?_
    rcases mem_cons.1 hy with rfl | hy
    · exact le_rfl
    · exact (pairwise_cons.1 h).1 y hy

theorem least_of_sorted (h : l.Pairwise (· ≥ ·)) (hne : l ≠ []) : least l = l.getLastD 0 := by
  rcases eq_nil_or_concat' l with rfl | ⟨l, x, rfl⟩
  · exact absurd rfl hne
  · rw [getLastD_concat]
    refine least_eq (by simp) fun y hy => ?_
    rcases mem_append.1 hy with hy | hy
    · exact (pairwise_append.1 h).2.2 y hy x (mem_singleton_self x)
    · exact (mem_singleton.1 hy).ge

theorem spread_of_sorted (h : l.Pairwise (· ≥ ·)) (hne : l ≠ []) : (spread l : Int) = bal l := by
  rw [spread, bal, ← greatest_of_sorted h hne, ← least_of_sorted h hne]
  exact Int.natCast_sub (least_le_greatest l)

theorem leaf_iff : Leaf nd n 2 [] l ↔ Guess nd l ∧ l.prod = n := by
  constructor
  · rintro ⟨front, h⟩
    obtain rfl : l = front := h.eq.trans (append_nil front)
    exact ⟨⟨h.length, h.sorted, h.least⟩, h.prod⟩
  · rintro ⟨h, hprod⟩
    exact ⟨l, h.length, hprod, h.sorted, h.two_le, (append_nil l).symm⟩

theorem Guess.decomp (h : Guess nd l) (hprod : l.prod = n) : Decomp nd n l :=
  ⟨h.length, hprod, fun x hx => lt_of_lt_of_le Nat.two_pos (h.two_le x hx)⟩

theorem Guess.ne_nil (h : Guess nd l) (hnd : 0 < nd) : l ≠ [] := by
  rw [← length_pos_iff, h.length]
  exact hnd

theorem best_of_leaf (h : Leaf nd n 2 [] l) (hnd : 0 < nd) (hle : nd ≤ bigOmega n)
    (hbest : ∀ l', Leaf nd n 2 [] l' →
      bal l ≤ bal l' ∧ (bal l' = bal l → l'.getLastD 0 ≤ l.getLastD 0)) : Best nd n l := by
  obtain ⟨hl, hprod⟩ := leaf_iff.1 h
  refine .of_without_ones (hl.decomp hprod) hnd hle fun l' hl' htwo => ?_
  have hperm := l'.mergeSort_perm (· ≥ ·)
  have hsorted : (l'.mergeSort (· ≥ ·)).Pairwise (· ≥ ·) := pairwise_mergeSort' (· ≥ ·) l'
  have hguess : Guess nd (l'.mergeSort (· ≥ ·)) :=
    ⟨hperm.length_eq.trans hl'.length, hsorted, fun x hx => htwo x (hperm.subset hx)⟩
  have hne := hguess.ne_nil hnd
  obtain ⟨hbal, htie⟩ := hbest _ (leaf_iff.2 ⟨hguess, hperm.prod_eq.trans hl'.prod⟩)
  have hspread : spread l' = spread (l'.mergeSort (· ≥ ·)) := by
    rw [spread, spread, greatest_perm hperm, least_perm hperm]
  rw [hspread, ← least_perm hperm, least_of_sorted hsorted hne,
    least_of_sorted hl.sorted (hl.ne_nil hnd)]
  rw [← spread_of_sorted hl.sorted (hl.ne_nil hnd), ← spread_of_sorted hsorted hne] at hbal htie
  exact ⟨by omega, fun heq => htie (by omega)⟩

theorem exists_smallest (h : IsFactors n fs) (htwo : 2 ≤ bigOmega n) :
    ∃ g, (factorToDivisors fs).head? = some g := by
  have hn := h.num_pos
  have hne : n ≠ 1 := by
    rintro rfl
    simp [bigOmega] at htwo
  have hnot : ¬ n.Prime := fun hp => by
    rw [bigOmega, Nat.primeFactorsList_prime hp] at htwo
    simp at htwo
  have hmem : n.minFac ∈ factorToDivisors fs :=
    (mem_factorToDivisors h).2 ⟨Nat.minFac_dvd n, (Nat.minFac_prime hne).two_le,
      (Nat.not_prime_iff_minFac_lt (by omega)).1 hnot⟩
  cases hdivs : factorToDivisors fs with
  | nil =>
    rw [hdivs] at hmem
    exact absurd hmem not_mem_nil
  | cons g divs => exact ⟨g, rfl⟩

theorem bal_le_first (hps : LargePrimes n ps m) (h : Decomp nd m l) (hn : 0 < n) (hnd : 0 < nd) :
    ∃ first last, (ps ++ l).head? = some first ∧ (ps ++ l).getLast? = some last ∧
      bal l ≤ (first : Int) - last := by
  have hne : l ≠ [] := by
    rw [← length_pos_iff, h.length]
    exact hnd
  obtain ⟨s, x, rfl⟩ := (eq_nil_or_concat' l).resolve_left hne
  cases ps with
  | nil =>
    refine ⟨(s ++ [x]).headD 0, x, ?_, by simp, ?_⟩
    · cases s <;> rfl
    · rw [bal, getLastD_concat]
  | cons p ps =>
    refine ⟨p, x, rfl, by rw [← append_assoc]; exact List.getLast?_concat .., ?_⟩
    have hmem : (s ++ [x]).headD 0 ∈ s ++ [x] := by
      cases s with
      | nil => exact mem_singleton_self x
      | cons y s => exact mem_cons_self ..
    have hlt := hps.lt h hn _ (mem_append_right ps hmem)
    rw [bal, getLastD_concat]
    omega

theorem searchDims_spec (h : IsFactors m fs) (hlen : 1 < fs.length) (hmax : m ≤ intMax)
    (hps : LargePrimes n ps m) (hn : 0 < n) (hnd : 2 ≤ nd) (hle : nd ≤ bigOmega m) :
    ∃ l, searchDims fs m nd ps = some (ps ++ l) ∧ Best nd m l ∧ l.Pairwise (· ≥ ·) := by
  obtain ⟨hguess, hprod⟩ := factorToDimsByRr_spec h (by omega) (h.countPrimes_eq ▸ hle)
  obtain ⟨first, last, hfirst, hlast, hbal⟩ :=
    bal_le_first hps (hguess.decomp hprod) hn (by omega)
  obtain ⟨smallest, hsmallest⟩ := exists_smallest h (hnd.trans hle)
  obtain ⟨st, hst⟩ : ∃ st : Search, ⟨(first : Int) - last,
    (List.replicate nd 0).set (nd - 1) smallest, factorToDimsByRr fs nd⟩ = st := ⟨_, rfl⟩
  have hrun : searchDims fs m nd ps
      = some (ps ++ (optbalance nd (nd - 1) m (factorToDivisors fs) st).optdims) := by
    simp only [searchDims, hfirst, hlast, hsmallest, bind_eq_bind, bind_some, hst]
    rfl
  have hlength : st.trydims.length = nd := by
    rw [← hst]
    simp
  refine ⟨_, hrun, ?_⟩
  rcases optbalance_best hnd (covers_factorToDivisors h hlen) h.num_pos hmax hlength with
    ⟨-, hworse⟩ | ⟨hleaf, hbest⟩
  · have hlt := hworse _ (leaf_iff.2 ⟨hguess, hprod⟩)
    rw [← hst] at hlt
    exact absurd hbal (not_le.2 hlt)
  · exact ⟨best_of_leaf hleaf (by omega) hle hbest, (leaf_iff.1 hleaf).1.sorted⟩

/-! ## All shapes of the rest -/

def chooseRest (fs : List Factors) (m d ndims : Nat) (ps : List Nat) : Option (List Nat) :=
  if countPrimes fs + ps.length ≤ d then fillOnes ndims (ps ++ primesDown fs)
  else if d - ps.length = 1 then some (ps ++ [m])
  else
    match fs with
    | [f] =>
      some (ps ++ roundRobin f.val (d - ps.length) f.cnt 0 (List.replicate (d - ps.length) 1))
    | _ =>
      if ∀ f ∈ fs, f.cnt % (d - ps.length) = 0 then
        some (ps ++ List.replicate (d - ps.length)
          (fs.map fun f => f.val ^ (f.cnt / (d - ps.length))).prod)
      else searchDims fs m (d - ps.length) ps

theorem chooseRest_else {d ndims : Nat} (hgt : ¬ countPrimes fs + ps.length ≤ d)
    (hne : ¬ d - ps.length = 1) (hsingle : ¬ ∃ f, fs = [f]) :
    chooseRest fs m d ndims ps =
      if ∀ f ∈ fs, f.cnt % (d - ps.length) = 0 then
        some (ps ++ List.replicate (d - ps.length)
          (fs.map fun f => f.val ^ (f.cnt / (d - ps.length))).prod)
      else searchDims fs m (d - ps.length) ps := by
  unfold chooseRest
  rw [if_neg hgt, if_neg hne]
  rcases fs with _ | ⟨f, _ | ⟨g, fs⟩⟩
  · rfl
  · exact absurd ⟨f, rfl⟩ hsingle
  · rfl

theorem bigOmega_largePrimes (hps : LargePrimes n ps m) (hn : 0 < n) :
    bigOmega n = bigOmega m + ps.length := by
  have hm : m ≠ 0 := by
    rintro rfl
    have := hps.prod
    omega
  have hpsprod : ps.prod ≠ 0 :=
    (prod_pos fun p hp => (hps.prime p hp).pos).ne'
  rw [← hps.prod, bigOmega_mul hpsprod hm, Nat.add_comm]
  congr 1
  exact (Nat.primeFactorsList_unique rfl hps.prime).length_eq.symm

theorem chooseDims_eq {d ndims : Nat} (hn : 0 < n) (hmax : n ≤ intMax) (hd : 2 ≤ d)
    (hfact : ¬ Unfactored n) :
    ∃ fs, IsFactors (largePrimes (d - 1) n).2 fs ∧
      LargePrimes n (largePrimes (d - 1) n).1 (largePrimes (d - 1) n).2 ∧
      (largePrimes (d - 1) n).1.length ≤ d - 1 ∧
      chooseDims n d ndims =
        chooseRest fs (largePrimes (d - 1) n).2 d ndims (largePrimes (d - 1) n).1 := by
  obtain ⟨fs, hfactor, hfs⟩ := factorNum_spec hn hmax hfact
  obtain ⟨fs', hremove, hfs', hps, hlen⟩ := removeLarge_spec hfs hmax (d - 1) []
  refine ⟨fs', hfs', hps, hlen, ?_⟩
  have hcount : countPrimes fs - (largePrimes (d - 1) n).1.length = countPrimes fs' := by
    rw [hfs.countPrimes_eq, hfs'.countPrimes_eq, bigOmega_largePrimes hps hn,
      Nat.add_sub_cancel]
  rw [chooseDims, if_neg (by omega), hfactor]
  simp only [bind_eq_bind, bind_some, hremove, nil_append,
    reverse_reverse, hcount]
  rfl

theorem fillOnes_spec {d ndims : Nat} {primes : List Nat} (hd : d ≤ ndims)
    (hlen : primes.length ≤ d) (hfit : ndims ≤ maxDims) :
    ∃ chosen, fillOnes ndims primes = some chosen ∧ d ≤ chosen.length ∧
      chosen.take d = primes ++ List.replicate (d - primes.length) 1 := by
  refine ⟨_, if_neg (by omega), ?_, ?_⟩
  · rw [length_append, length_replicate]
    omega
  · rw [take_append, take_of_length_le hlen, take_replicate,
      Nat.min_eq_left (by omega)]

theorem prod_pow_div (fs : List Factors) (hnd : ∀ f ∈ fs, f.cnt % nd = 0) :
    (fs.map fun f => f.val ^ (f.cnt / nd)).prod ^ nd = factorsProd fs := by
  induction fs with
  | nil => exact Nat.one_pow nd
  | cons f fs ih =>
    obtain ⟨hf, hfs⟩ := forall_mem_cons.1 hnd
    rw [map_cons, prod_cons, Nat.mul_pow, ih hfs, ← Nat.pow_mul,
      Nat.div_mul_cancel (Nat.dvd_of_mod_eq_zero hf)]
    rfl

/-- A choice for all places: the large primes, and a best decomposition of what is left, in
decreasing order. -/
structure IsChoice (d m : Nat) (ps chosen l : List Nat) : Prop where
  length : d ≤ chosen.length
  take : chosen.take d = ps ++ l
  best : Best (d - ps.length) m l
  sorted : l.Pairwise (· ≥ ·)

theorem IsChoice.of_best {d : Nat} (hlen : ps.length ≤ d) (hl : Best (d - ps.length) m l)
    (hsorted : l.Pairwise (· ≥ ·)) : IsChoice d m ps (ps ++ l) l := by
  have hlength : (ps ++ l).length = d := by
    rw [length_append, hl.length]
    omega
  exact ⟨hlength.ge, take_of_length_le hlength.le, hl, hsorted⟩

theorem choice_primes {d ndims : Nat} (h : IsFactors m fs) (hlen : ps.length < d)
    (hle : countPrimes fs + ps.length ≤ d) (hd : d ≤ ndims) (hfit : ndims ≤ maxDims) :
    ∃ chosen l, fillOnes ndims (ps ++ primesDown fs) = some chosen ∧ IsChoice d m ps chosen l := by
  have hdown : (ps ++ primesDown fs).length ≤ d := by
    rw [length_append, length_primesDown]
    omega
  obtain ⟨chosen, hrun, hlong, htake⟩ := fillOnes_spec hd hdown hfit
  have hones : d - (ps ++ primesDown fs).length = d - ps.length - (primesDown fs).length := by
    rw [length_append, Nat.sub_sub]
  rw [hones, append_assoc] at htake
  have hbest := best_primes (d := d - ps.length) (by omega) h.toFactorsOk.prime_of_mem
    (by rw [length_append] at hdown; omega)
  rw [prod_primesDown, h.prod] at hbest
  refine ⟨chosen, _, hrun, hlong, htake, hbest, pairwise_append.2
    ⟨h.toFactorsOk.primesDown_sorted, pairwise_replicate.2 (.inr le_rfl), ?_⟩⟩
  intro a ha b hb
  rw [eq_of_mem_replicate hb]
  exact (h.toFactorsOk.prime_of_mem a ha).pos

theorem choice_powers {d : Nat} {f : Factors} (h : IsFactors m [f]) (hlen : ps.length < d) :
    ∃ l, roundRobin f.val (d - ps.length) f.cnt 0 (List.replicate (d - ps.length) 1) = l ∧
      IsChoice d m ps (ps ++ l) l := by
  obtain ⟨q, r, hr, hcnt, hrun⟩ := @roundRobin_spec (d - ps.length) f.val
    f.cnt 0 0 (by omega) (Nat.zero_le _)
  have hstart : rrState f.val (d - ps.length) 0 0 = List.replicate (d - ps.length) 1 := by
    rw [rrState, replicate_zero, nil_append, Nat.sub_zero, Nat.pow_zero]
  have hprime := h.toFactorsOk.prime f (by simp)
  have hbest := best_powers (d := d - ps.length) (q := q) hprime hr
  have hpow : f.val ^ (q * (d - ps.length) + r) = m := by
    rw [hcnt, Nat.zero_mul, Nat.zero_add, ← h.prod]
    exact prod_singleton.symm
  rw [hpow] at hbest
  rw [← hstart, hrun]
  refine ⟨_, rfl, .of_best hlen.le hbest (pairwise_append.2
    ⟨pairwise_replicate.2 (.inr le_rfl), pairwise_replicate.2 (.inr le_rfl), ?_⟩)⟩
  intro a ha b hb
  rw [eq_of_mem_replicate ha, eq_of_mem_replicate hb]
  exact Nat.pow_le_pow_right hprime.pos (Nat.le_succ q)

theorem choice_equal {d : Nat} (h : IsFactors m fs) (hlen : ps.length < d)
    (hall : ∀ f ∈ fs, f.cnt % (d - ps.length) = 0) :
    ∃ l, List.replicate (d - ps.length) (fs.map fun f => f.val ^ (f.cnt / (d - ps.length))).prod
      = l ∧ IsChoice d m ps (ps ++ l) l := by
  have hpow := prod_pow_div fs hall
  rw [h.prod] at hpow
  have hv : 0 < (fs.map fun f => f.val ^ (f.cnt / (d - ps.length))).prod := by
    refine Nat.pos_of_ne_zero fun hzero => ?_
    rw [hzero, Nat.zero_pow (by omega)] at hpow
    exact h.num_pos.ne hpow
  have hbest := best_replicate (d := d - ps.length) (by omega) hv
  rw [hpow] at hbest
  exact ⟨_, rfl, .of_best hlen.le hbest (pairwise_replicate.2 (.inr le_rfl))⟩

theorem chooseRest_spec {d ndims : Nat} (h : IsFactors m fs) (hmax : m ≤ intMax)
    (hps : LargePrimes n ps m) (hn : 0 < n) (hlen : ps.length < d) (hd : d ≤ ndims)
    (hfit : ndims ≤ maxDims ∨ d < bigOmega n) :
    ∃ chosen l, chooseRest fs m d ndims ps = some chosen ∧ IsChoice d m ps chosen l := by
  have homega := bigOmega_largePrimes hps hn
  have hcount := h.countPrimes_eq
  by_cases hle : countPrimes fs + ps.length ≤ d
  · unfold chooseRest
    rw [if_pos hle]
    exact choice_primes h hlen hle hd (by omega)
  by_cases hone : d - ps.length = 1
  · unfold chooseRest
    rw [if_neg hle, if_pos hone]
    exact ⟨_, [m], rfl, .of_best hlen.le (hone ▸ best_singleton h.num_pos)
      (pairwise_singleton _ _)⟩
  by_cases hsingle : ∃ f, fs = [f]
  · obtain ⟨f, rfl⟩ := hsingle
    unfold chooseRest
    rw [if_neg hle, if_neg hone]
    obtain ⟨l, hrun, hl⟩ := choice_powers h hlen
    exact ⟨_, l, by rw [← hrun], hl⟩
  · rw [chooseRest_else hle hone hsingle]
    split
    · next hall =>
      obtain ⟨l, hrun, hl⟩ := choice_equal h hlen hall
      exact ⟨_, l, by rw [← hrun], hl⟩
    · have htwo : 1 < fs.length := by
        rcases fs with _ | ⟨f, _ | ⟨g, fs⟩⟩
        · exact absurd (show 0 + ps.length ≤ d by omega) hle
        · exact absurd ⟨f, rfl⟩ hsingle
        · simp
      obtain ⟨l, hrun, hbest, hsorted⟩ := @searchDims_spec _ _ (d - ps.length) _ _ h htwo hmax
        hps hn (by omega) (by omega)
      exact ⟨_, l, hrun, .of_best hlen.le hbest hsorted⟩

end

section

variable {n d ndims : Nat}

theorem chooseDims_spec (hn : 0 < n) (hmax : n ≤ intMax) (hd : 2 ≤ d) (hndims : d ≤ ndims)
    (hfact : ¬ Unfactored n) (hfit : ndims ≤ maxDims ∨ d < bigOmega n) :
    LargePrimes n (largePrimes (d - 1) n).1 (largePrimes (d - 1) n).2 ∧
      (largePrimes (d - 1) n).1.length < d ∧
      ∃ chosen l, chooseDims n d ndims = some chosen ∧
        IsChoice d (largePrimes (d - 1) n).2 (largePrimes (d - 1) n).1 chosen l := by
  obtain ⟨fs, hfs, hps, hlen, heq⟩ := @chooseDims_eq _ _ ndims hn hmax hd hfact
  have hle : (largePrimes (d - 1) n).2 ≤ n :=
    Nat.le_of_dvd hn ⟨_, (hps.prod.symm.trans (Nat.mul_comm ..))⟩
  rw [heq]
  exact ⟨hps, by omega, chooseRest_spec hfs (hle.trans hmax) hps hn (by omega) hndims hfit⟩

theorem chooseDims_none (hn : 0 < n) (hmax : n ≤ intMax) (hd : 2 ≤ d) (hdmax : d ≤ maxDims)
    (h : Unfactored n ∨ maxDims < ndims ∧ bigOmega n ≤ d) : chooseDims n d ndims = none := by
  by_cases hfact : Unfactored n
  · rw [chooseDims, if_neg (by omega), factorNum_none hfact]
    rfl
  · obtain ⟨hndims, hle⟩ := h.resolve_left hfact
    obtain ⟨fs, hfs, hps, hlen, heq⟩ := @chooseDims_eq _ _ ndims hn hmax hd hfact
    have homega := bigOmega_largePrimes hps hn
    have hcount := hfs.countPrimes_eq
    rw [heq]
    unfold chooseRest
    rw [if_pos (by omega), fillOnes, if_pos]
    rw [length_append, length_primesDown]
    omega

end

end PsMpi.Dims
