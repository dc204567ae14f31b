import PsMpi.Lib.Decomp
import PsMpi.Topo.DimsDivisors

/-!
# The parts of a grid
-/

open List

namespace PsMpi.Dims

open PsMpi.Lib

/-! ## The primes in decreasing order -/

section

variable {n : Nat} {fs : List Factors}

theorem primesDown_concat (fs : List Factors) (f : Factors) :
    primesDown (fs ++ [f]) = List.replicate f.cnt f.val ++ primesDown fs := by
  rw [primesDown, reverse_append, reverse_singleton, singleton_append,
    flatMap_cons]
  rfl

theorem mem_primesDown {p : Nat} (h : p ∈ primesDown fs) : ∃ f ∈ fs, p = f.val := by
  obtain ⟨f, hf, hp⟩ := mem_flatMap.1 h
  exact ⟨f, mem_reverse.1 hf, eq_of_mem_replicate hp⟩

theorem length_primesDown (fs : List Factors) : (primesDown fs).length = countPrimes fs := by
  induction fs using List.reverseRecOn with
  | nil => rfl
  | append_singleton fs f ih =>
    rw [primesDown_concat, length_append, length_replicate, ih, countPrimes, countPrimes,
      map_append, sum_append, map_singleton, sum_singleton, Nat.add_comm]

theorem prod_primesDown (fs : List Factors) : (primesDown fs).prod = factorsProd fs := by
  induction fs using List.reverseRecOn with
  | nil => rfl
  | append_singleton fs f ih =>
    have hval : factorsProd [f] = f.val ^ f.cnt := prod_singleton
    rw [primesDown_concat, prod_append, prod_replicate, ih, factorsProd_append, hval,
      Nat.mul_comm]

theorem FactorsOk.of_concat {f : Factors} (h : FactorsOk (fs ++ [f])) :
    FactorsOk fs ∧ ∀ g ∈ fs, g.val < f.val := by
  obtain ⟨hsorted, -, hlt⟩ := pairwise_append.1 h.sorted
  exact ⟨⟨hsorted, fun g hg => h.prime g (mem_append_left _ hg),
    fun g hg => h.pos g (mem_append_left _ hg)⟩,
    fun g hg => hlt g hg f (mem_singleton_self f)⟩

theorem FactorsOk.primesDown_sorted (h : FactorsOk fs) :
    (primesDown fs).Pairwise (· ≥ ·) := by
  induction fs using List.reverseRecOn with
  | nil => exact .nil
  | append_singleton fs f ih =>
    obtain ⟨hfs, hlt⟩ := h.of_concat
    rw [primesDown_concat]
    refine pairwise_append.2 ⟨pairwise_replicate.2 (.inr le_rfl), ih hfs, ?_⟩
    intro a ha b hb
    obtain ⟨g, hg, rfl⟩ := mem_primesDown hb
    rw [eq_of_mem_replicate ha]
    exact (hlt g hg).le

theorem FactorsOk.prime_of_mem (h : FactorsOk fs) : ∀ p ∈ primesDown fs, p.Prime := by
  intro p hp
  obtain ⟨f, hf, rfl⟩ := mem_primesDown hp
  exact h.prime f hf

theorem IsFactors.primesDown_perm (h : IsFactors n fs) :
    (primesDown fs).Perm n.primeFactorsList :=
  Nat.primeFactorsList_unique ((prod_primesDown fs).trans h.prod) h.toFactorsOk.prime_of_mem

theorem IsFactors.countPrimes_eq (h : IsFactors n fs) : countPrimes fs = bigOmega n := by
  rw [← length_primesDown, h.primesDown_perm.length_eq]
  rfl

theorem IsFactors.num_pos (h : IsFactors n fs) : 0 < n := h.prod ▸ h.toFactorsOk.prod_pos

/-! ## Large primes -/

/-- The large primes of a number, as long as there is room for them, and what is left: the largest
prime, if it is not the only one and its product with itself is larger. -/
def largePrimes : Nat → Nat → List Nat × Nat
  | 0, n => ([], n)
  | room + 1, n =>
    let p := greatest n.primeFactorsList
    if p < n ∧ ¬ p ∣ n / p ∧ mulWrap p p > n then
      (p :: (largePrimes room (n / p)).1, (largePrimes room (n / p)).2)
    else ([], n)

theorem IsFactors.greatest_eq {f : Factors} (h : IsFactors n (fs ++ [f])) :
    greatest n.primeFactorsList = f.val := by
  rw [← greatest_perm h.primesDown_perm, primesDown_concat]
  have hpos := h.toFactorsOk.pos f (by simp)
  refine Lib.greatest_eq (mem_append_left _ (mem_replicate.2 ⟨hpos.ne', rfl⟩)) ?_
  intro y hy
  rcases mem_append.1 hy with hy | hy
  · exact (eq_of_mem_replicate hy).le
  · obtain ⟨g, hg, rfl⟩ := mem_primesDown hy
    exact (h.toFactorsOk.of_concat.2 g hg).le

theorem FactorsOk.last_not_dvd {f : Factors} (h : FactorsOk (fs ++ [f])) :
    ¬ f.val ∣ factorsProd fs := by
  intro hdvd
  have hprime := h.prime f (by simp)
  obtain ⟨x, hx, hdvd⟩ := (Prime.dvd_prod_iff hprime.prime).1 hdvd
  obtain ⟨g, hg, rfl⟩ := mem_map.1 hx
  have heq := (Nat.prime_dvd_prime_iff_eq hprime (h.of_concat.1.prime g hg)).1
    (hprime.dvd_of_dvd_pow hdvd)
  exact absurd heq (h.of_concat.2 g hg).ne'

theorem IsFactors.eq_mul {f : Factors} (h : IsFactors n (fs ++ [f])) :
    n = factorsProd fs * f.val ^ f.cnt := by
  have hval : factorsProd [f] = f.val ^ f.cnt := prod_singleton
  rw [← h.prod, factorsProd_append, hval]

theorem IsFactors.cnt_eq_one_iff {f : Factors} (h : IsFactors n (fs ++ [f])) :
    f.cnt = 1 ↔ ¬ f.val ∣ n / f.val := by
  have hprime := h.toFactorsOk.prime f (by simp)
  have hpos := h.toFactorsOk.pos f (by simp)
  obtain ⟨c, hc⟩ : ∃ c, f.cnt = c + 1 := ⟨f.cnt - 1, by omega⟩
  rw [h.eq_mul, hc, Nat.pow_succ, ← Nat.mul_assoc, Nat.mul_div_cancel _ hprime.pos]
  constructor
  · intro hone
    obtain rfl : c = 0 := by omega
    rw [Nat.pow_zero, Nat.mul_one]
    exact h.toFactorsOk.last_not_dvd
  · intro hnot
    by_contra hne
    exact hnot ((dvd_pow_self _ (by omega)).mul_left _)

theorem IsFactors.remove {f : Factors} (h : IsFactors n (fs ++ [f])) (hone : f.cnt = 1) :
    IsFactors (n / f.val) fs where
  toFactorsOk := h.toFactorsOk.of_concat.1
  prod := by
    rw [h.eq_mul, hone, Nat.pow_one, Nat.mul_div_cancel _ (h.toFactorsOk.prime f (by simp)).pos]

theorem largePrimes_single {f : Factors} (h : IsFactors n [f]) (room : Nat) :
    largePrimes room n = ([], n) := by
  have hn : n = f.val ^ f.cnt := h.prod.symm.trans prod_singleton
  cases room with
  | zero => rfl
  | succ room =>
    have hgreatest := @IsFactors.greatest_eq _ [] _ h
    have hcnt := @IsFactors.cnt_eq_one_iff _ [] _ h
    rw [largePrimes, hgreatest]
    refine if_neg ?_
    rintro ⟨hlt, hnot, -⟩
    rw [hn, hcnt.2 hnot, Nat.pow_one] at hlt
    exact lt_irrefl _ hlt

theorem largePrimes_one (room : Nat) : largePrimes room 1 = ([], 1) := by
  cases room with
  | zero => rfl
  | succ room =>
    rw [largePrimes, Nat.primeFactorsList_one]
    refine if_neg ?_
    rintro ⟨-, hnot, -⟩
    exact hnot (by decide)

theorem removeLarge_spec (h : IsFactors n fs) (hn : n ≤ intMax) (room : Nat) (chosen : List Nat) :
    ∃ fs', removeLarge fs.reverse room n chosen =
        (fs'.reverse, (largePrimes room n).2, chosen ++ (largePrimes room n).1) ∧
      IsFactors (largePrimes room n).2 fs' ∧
      LargePrimes n (largePrimes room n).1 (largePrimes room n).2 ∧
      (largePrimes room n).1.length ≤ room := by
  induction room generalizing n fs chosen with
  | zero =>
    refine ⟨fs, ?_, h, .nil n, le_rfl⟩
    rw [largePrimes, append_nil]
    rcases fs.reverse with _ | ⟨f, _ | ⟨g, rest⟩⟩ <;> rfl
  | succ room ih =>
    rcases eq_nil_or_concat' fs with rfl | ⟨fs, f, rfl⟩
    · obtain rfl : n = 1 := h.prod.symm
      rw [largePrimes_one]
      exact ⟨[], by rw [append_nil]; rfl, h, .nil 1, Nat.zero_le _⟩
    · rcases eq_nil_or_concat' fs with rfl | ⟨fs, g, rfl⟩
      · rw [largePrimes_single h]
        exact ⟨[f], by rw [append_nil]; rfl, h, .nil n, Nat.zero_le _⟩
      · have hprime := h.toFactorsOk.prime f (by simp)
        have hlt : f.val < n := by
          have hg := (h.toFactorsOk.of_concat.1.prime g (by simp)).one_lt
          have hdvd : g.val ∣ factorsProd (fs ++ [g]) := by
            have hval : factorsProd [g] = g.val ^ g.cnt := prod_singleton
            rw [factorsProd_append, hval]
            exact (dvd_pow_self _ (h.toFactorsOk.pos g (by simp)).ne').mul_left _
          have hle := Nat.le_of_dvd h.toFactorsOk.of_concat.1.prod_pos hdvd
          have hpow := Nat.le_self_pow (h.toFactorsOk.pos f (by simp)).ne' f.val
          have hmul := Nat.mul_le_mul (hg.trans_le hle) hpow
          rw [h.eq_mul]
          have := hprime.pos
          omega
        have hrev : (fs ++ [g] ++ [f]).reverse = f :: g :: fs.reverse := by simp
        have hrev' : g :: fs.reverse = (fs ++ [g]).reverse := by simp
        rw [hrev, removeLarge, largePrimes, h.greatest_eq]
        by_cases hlarge : f.cnt = 1 ∧ mulWrap f.val f.val > n
        · rw [if_pos hlarge, if_pos ⟨hlt, h.cnt_eq_one_iff.1 hlarge.1, hlarge.2⟩, hrev']
          obtain ⟨fs', hrun, hfs', hlp, hlen⟩ := ih (h.remove hlarge.1)
            ((Nat.div_le_self _ _).trans hn) (chosen ++ [f.val])
          refine ⟨fs', by rw [hrun, append_assoc]; rfl, hfs', .cons hprime ?_ ?_ hlp, ?_⟩
          · rw [h.eq_mul]
            exact (dvd_pow_self _ (h.toFactorsOk.pos f (by simp)).ne').mul_left _
          · rcases @square_or f.val _ hn with heq | hbig
            · have := hlarge.2
              rw [heq, Nat.pow_two] at this
              omega
            · rwa [Nat.pow_two] at hbig
          · exact Nat.succ_le_succ hlen
        · rw [if_neg hlarge, if_neg (fun hall =>
            hlarge ⟨h.cnt_eq_one_iff.2 hall.2.1, hall.2.2⟩), append_nil]
          exact ⟨fs ++ [g] ++ [f], by rw [hrev], h, .nil n, Nat.zero_le _⟩

end

/-! ## The first guess -/

structure Guess (nd : Nat) (dims : List Nat) : Prop where
  length : dims.length = nd
  sorted : dims.Pairwise (· ≥ ·)
  two_le : ∀ x ∈ dims, 2 ≤ x

theorem modify_append {f : Nat → Nat} (s : List Nat) (x : Nat) (t : List Nat) :
    (s ++ x :: t).modify s.length f = s ++ f x :: t := by
  induction s with
  | nil => rfl
  | cons y s ih => rw [cons_append, length_cons, modify_succ_cons, ih]; rfl

theorem getD_append_length (s : List Nat) (x : Nat) (t : List Nat) :
    (s ++ x :: t).getD s.length 0 = x := by
  rw [getD_eq_getElem?_getD, List.getElem?_append_right le_rfl, Nat.sub_self]
  rfl

theorem getD_append_succ (s : List Nat) (x y : Nat) (t : List Nat) :
    (s ++ x :: y :: t).getD (s.length + 1) 0 = y := by
  have hidx : s.length + 1 - s.length = 1 := Nat.add_sub_cancel_left ..
  rw [getD_eq_getElem?_getD, List.getElem?_append_right (Nat.le_add_right _ 1), hidx]
  rfl

section

variable {nd val : Nat} {dims : List Nat}

theorem rrPlace_spec (dims : List Nat) (val k : Nat) : rrPlace dims val k ≤ k ∧
    ∀ j, rrPlace dims val k = j + 1 → dims.getD (j + 1) 0 * val ≤ dims.getD j 0 := by
  induction k with
  | zero =>
    rw [rrPlace]
    exact ⟨le_rfl, fun j hj => absurd hj (Nat.succ_ne_zero j).symm⟩
  | succ k ih =>
    rw [rrPlace]
    split
    · next hle =>
      refine ⟨le_rfl, fun j hj => ?_⟩
      obtain rfl : k = j := by omega
      exact hle
    · exact ⟨ih.1.trans (Nat.le_succ k), ih.2⟩

theorem Guess.mul (h : Guess nd dims) (hnd : 0 < nd) (hval : 0 < val) :
    Guess nd (dims.modify (rrPlace dims val (nd - 1)) (· * val)) ∧
      (dims.modify (rrPlace dims val (nd - 1)) (· * val)).prod = dims.prod * val := by
  obtain ⟨hle, hplace⟩ := rrPlace_spec dims val (nd - 1)
  have hlt : rrPlace dims val (nd - 1) < dims.length := by
    rw [h.length]
    omega
  obtain ⟨k, hk⟩ : ∃ k, rrPlace dims val (nd - 1) = k := ⟨_, rfl⟩
  rw [hk] at hplace hlt ⊢
  obtain ⟨s, x, t, rfl, rfl⟩ : ∃ s x t, dims = s ++ x :: t ∧ s.length = k :=
    ⟨dims.take k, dims[k], dims.drop (k + 1),
      by rw [← drop_eq_getElem_cons hlt, take_append_drop],
      by rw [length_take, Nat.min_eq_left hlt.le]⟩
  obtain ⟨hs, hxt, hst⟩ := pairwise_append.1 h.sorted
  obtain ⟨hx, ht⟩ := pairwise_cons.1 hxt
  have hmul : x ≤ x * val := Nat.le_mul_of_pos_right x hval
  have hbefore : ∀ y ∈ s, x * val ≤ y := by
    intro y hy
    rcases eq_nil_or_concat' s with rfl | ⟨s, z, rfl⟩
    · exact absurd hy not_mem_nil
    · have hle := hplace s.length (by simp)
      rw [append_assoc, singleton_append, getD_append_length s z (x :: t),
        getD_append_succ s z x t] at hle
      rcases mem_append.1 hy with hy | hy
      · exact hle.trans ((pairwise_append.1 hs).2.2 y hy z (mem_singleton_self z))
      · rw [mem_singleton.1 hy]
        exact hle
  rw [modify_append]
  refine ⟨⟨?_, pairwise_append.2 ⟨hs, pairwise_cons.2 ⟨?_, ht⟩, ?_⟩, ?_⟩, ?_⟩
  · simpa using h.length
  · exact fun y hy => (hx y hy).trans hmul
  · intro y hy z hz
    rcases mem_cons.1 hz with rfl | hz
    · exact hbefore y hy
    · exact hst y hy z (mem_cons_of_mem _ hz)
  · intro y hy
    rcases mem_append.1 hy with hy | hy
    · exact h.two_le y (mem_append_left _ hy)
    · rcases mem_cons.1 hy with rfl | hy
      · exact (h.two_le x (by simp)).trans hmul
      · exact h.two_le y (by simp [hy])
  · simp only [prod_append, prod_cons, Nat.mul_assoc, Nat.mul_comm val]

theorem rrLoop_full {vals : List Nat} (h : Guess nd dims) (hnd : 0 < nd)
    (hvals : ∀ v ∈ vals, 0 < v) :
    Guess nd (rrLoop nd vals nd dims) ∧
      (rrLoop nd vals nd dims).prod = dims.prod * vals.prod := by
  induction vals generalizing dims with
  | nil => exact ⟨h, (Nat.mul_one _).symm⟩
  | cons v vals ih =>
    obtain ⟨hv, hvals⟩ := forall_mem_cons.1 hvals
    obtain ⟨hmul, hprod⟩ := h.mul hnd hv
    obtain ⟨hguess, hprod'⟩ := ih hmul hvals
    rw [rrLoop, if_neg (lt_irrefl nd)]
    exact ⟨hguess, by rw [hprod', hprod, prod_cons, Nat.mul_assoc]⟩

theorem rrLoop_first {k j : Nat} {placed vals : List Nat} (hk : placed.length = k)
    (hj : j ≤ vals.length) :
    rrLoop (k + j) vals k (placed ++ List.replicate j 1) =
      rrLoop (k + j) (vals.drop j) (k + j) (placed ++ vals.take j) := by
  induction j generalizing k placed vals with
  | zero => rfl
  | succ j ih =>
    cases vals with
    | nil => exact absurd hj (by simp)
    | cons v vals =>
      have hlen : (placed ++ [v]).length = k + 1 := by simp [hk]
      have hset : (placed ++ List.replicate (j + 1) 1).set k v
          = placed ++ [v] ++ List.replicate j 1 := by
        rw [set_append_right k v hk.le, hk, Nat.sub_self, replicate_succ,
          set_cons_zero, append_assoc]
        rfl
      have hrest := ih hlen (Nat.le_of_succ_le_succ hj)
      rw [Nat.add_assoc, Nat.add_comm 1 j] at hrest
      rw [rrLoop, if_pos (by omega), hset, hrest, append_assoc]
      rfl

theorem factorToDimsByRr_spec {n : Nat} {fs : List Factors} (h : IsFactors n fs) (hnd : 0 < nd)
    (hle : nd ≤ countPrimes fs) :
    Guess nd (factorToDimsByRr fs nd) ∧ (factorToDimsByRr fs nd).prod = n := by
  have hprimes := h.toFactorsOk.prime_of_mem
  have hfirst := @rrLoop_first 0 nd [] (primesDown fs) rfl
    (by rwa [length_primesDown])
  rw [Nat.zero_add, nil_append, nil_append] at hfirst
  have hguess : Guess nd ((primesDown fs).take nd) := by
    refine ⟨?_, h.toFactorsOk.primesDown_sorted.sublist (take_sublist _ _), fun x hx => ?_⟩
    · rw [length_take, length_primesDown, Nat.min_eq_left hle]
    · exact (hprimes x (mem_of_mem_take hx)).two_le
  obtain ⟨hfull, hprod⟩ := @rrLoop_full _ _ ((primesDown fs).drop nd) hguess hnd
    fun v hv => (hprimes v (mem_of_mem_drop hv)).pos
  rw [factorToDimsByRr, hfirst]
  refine ⟨hfull, ?_⟩
  rw [hprod, ← prod_append, take_append_drop, prod_primesDown, h.prod]

/-! ## The powers of a single prime -/

/-- The places after the prime has been given to all of them `q` times, and to the first `r` once
more. -/
def rrState (val nd q r : Nat) : List Nat :=
  List.replicate r (val ^ (q + 1)) ++ List.replicate (nd - r) (val ^ q)

theorem rrState_full (val nd q : Nat) : rrState val nd q nd = rrState val nd (q + 1) 0 := by
  rw [rrState, rrState, Nat.sub_self, replicate_zero, append_nil, replicate_zero,
    nil_append, Nat.sub_zero]

theorem rrState_step {q r : Nat} (hr : r < nd) :
    (rrState val nd q r).modify r (· * val) = rrState val nd q (r + 1) := by
  obtain ⟨j, hj⟩ : ∃ j, nd - r = j + 1 := ⟨nd - r - 1, by omega⟩
  have hmod := modify_append (f := (· * val)) (List.replicate r (val ^ (q + 1))) (val ^ q)
    (List.replicate j (val ^ q))
  rw [length_replicate] at hmod
  rw [rrState, rrState, hj, replicate_succ, hmod, replicate_succ', append_assoc,
    show nd - (r + 1) = j by omega, Nat.pow_succ]
  rfl

theorem roundRobin_spec {cnt q r : Nat} (hnd : 0 < nd) (hr : r ≤ nd) :
    ∃ q' r', r' < nd ∧ q' * nd + r' = q * nd + r + cnt ∧
      roundRobin val nd cnt r (rrState val nd q r) = rrState val nd q' r' := by
  induction cnt generalizing q r with
  | zero =>
    rcases Nat.lt_or_eq_of_le hr with hlt | rfl
    · exact ⟨q, r, hlt, rfl, rfl⟩
    · refine ⟨q + 1, 0, hnd, by rw [Nat.add_mul]; omega, ?_⟩
      rw [roundRobin, rrState_full]
  | succ cnt ih =>
    rw [roundRobin]
    split
    · next hge =>
      obtain rfl : r = nd := le_antisymm hr hge
      obtain ⟨q', r', hr', hcount, hrun⟩ := ih (q := q + 1) (r := 1) hnd
      refine ⟨q', r', hr', ?_, ?_⟩
      · rw [hcount, Nat.add_mul]
        omega
      · rw [rrState_full, rrState_step hnd]
        exact hrun
    · next hlt =>
      obtain ⟨q', r', hr', hcount, hrun⟩ := ih (q := q) (r := r + 1) (by omega)
      refine ⟨q', r', hr', by omega, ?_⟩
      rw [rrState_step (by omega)]
      exact hrun

end

end PsMpi.Dims
