import Mathlib.Algebra.Order.BigOperators.Group.List
import Mathlib.Algebra.Order.BigOperators.GroupWithZero.List
import Mathlib.Algebra.Order.Ring.Nat
import Mathlib.Data.Nat.Factors

/-!
# Decompositions of a number into factors
-/

open List Option

namespace PsMpi.Lib

/-! ## The greatest and the least number of a list -/

def greatest (l : List Nat) : Nat := l.max?.getD 0

def least (l : List Nat) : Nat := l.min?.getD 0

def spread (l : List Nat) : Nat := greatest l - least l

section

variable {l l' : List Nat} {x : Nat}

theorem greatest_eq (hmem : x ∈ l) (hle : ∀ y ∈ l, y ≤ x) : greatest l = x := by
  rw [greatest, List.max?_eq_some_iff.2 ⟨hmem, hle⟩, getD_some]

theorem least_eq (hmem : x ∈ l) (hle : ∀ y ∈ l, x ≤ y) : least l = x := by
  rw [least, List.min?_eq_some_iff.2 ⟨hmem, hle⟩, getD_some]

theorem greatest_mem (hne : l ≠ []) : greatest l ∈ l := by
  obtain ⟨m, hm⟩ := isSome_iff_exists.1 (isSome_max?_of_ne_nil hne)
  rw [greatest, hm, getD_some]
  exact List.max?_mem hm

theorem least_mem (hne : l ≠ []) : least l ∈ l := by
  obtain ⟨m, hm⟩ := isSome_iff_exists.1 (isSome_min?_of_ne_nil hne)
  rw [least, hm, getD_some]
  exact List.min?_mem hm

theorem le_greatest (hmem : x ∈ l) : x ≤ greatest l := by
  obtain ⟨m, hm⟩ := isSome_iff_exists.1 (isSome_max?_of_mem hmem)
  rw [greatest, hm, getD_some]
  exact (List.max?_eq_some_iff.1 hm).2 x hmem

theorem least_le (hmem : x ∈ l) : least l ≤ x := by
  obtain ⟨m, hm⟩ := isSome_iff_exists.1 (isSome_min?_of_mem hmem)
  rw [least, hm, getD_some]
  exact (List.min?_eq_some_iff.1 hm).2 x hmem

theorem greatest_perm (h : l.Perm l') : greatest l = greatest l' := by
  by_cases hne : l = []
  · subst hne
    rw [h.nil_eq]
  · exact greatest_eq (h.mem_iff.2 (greatest_mem fun hnil => hne (hnil ▸ h).eq_nil))
      fun y hy => le_greatest (h.mem_iff.1 hy)

theorem least_perm (h : l.Perm l') : least l = least l' := by
  by_cases hne : l = []
  · subst hne
    rw [h.nil_eq]
  · exact least_eq (h.mem_iff.2 (least_mem fun hnil => hne (hnil ▸ h).eq_nil))
      fun y hy => least_le (h.mem_iff.1 hy)

theorem least_le_greatest (l : List Nat) : least l ≤ greatest l := by
  by_cases hne : l = []
  · subst hne
    exact le_rfl
  · exact least_le (greatest_mem hne)

end

/-! ## Decompositions -/

structure Decomp (d n : Nat) (l : List Nat) : Prop where
  length : l.length = d
  prod : l.prod = n
  pos : ∀ x ∈ l, 0 < x

/-- A decomposition with the least spread, and of those one with the greatest least factor. -/
structure Best (d n : Nat) (l : List Nat) : Prop extends Decomp d n l where
  spread_le : ∀ l', Decomp d n l' → spread l ≤ spread l'
  least_le : ∀ l', Decomp d n l' → spread l' = spread l → least l' ≤ least l

section

variable {d n : Nat} {l l' : List Nat}

theorem Decomp.ne_nil (h : Decomp (d + 1) n l) : l ≠ [] := by
  rintro rfl
  exact absurd h.length (Nat.succ_ne_zero d).symm

theorem Decomp.of_perm (h : Decomp d n l) (hperm : l'.Perm l) : Decomp d n l' :=
  ⟨hperm.length_eq.trans h.length, hperm.prod_eq.trans h.prod,
    fun x hx => h.pos x (hperm.subset hx)⟩

theorem Decomp.least_pow_le (h : Decomp d n l) : least l ^ d ≤ n := by
  rw [← h.length, ← h.prod]
  exact pow_card_le_prod _ _ fun x hx => Lib.least_le hx

theorem Decomp.le_greatest_pow (h : Decomp d n l) : n ≤ greatest l ^ d := by
  rw [← h.length, ← h.prod]
  exact prod_le_pow_card _ _ fun x hx => le_greatest hx

theorem Best.of_tight (h : Decomp d n l)
    (htight : ∀ l', Decomp d n l' → greatest l ≤ greatest l' ∧ least l' ≤ least l) :
    Best d n l where
  toDecomp := h
  spread_le l' hl' := tsub_le_tsub (htight l' hl').1 (htight l' hl').2
  least_le l' hl' _ := (htight l' hl').2

theorem best_singleton (hn : 0 < n) : Best 1 n [n] := by
  refine .of_tight ⟨rfl, prod_singleton, fun x hx => mem_singleton.1 hx ▸ hn⟩
    fun l' hl' => ?_
  obtain ⟨x, rfl⟩ := length_eq_one_iff.1 hl'.length
  have hx : x = n := prod_singleton.symm.trans hl'.prod
  rw [hx]
  exact ⟨le_rfl, le_rfl⟩

theorem best_replicate {v : Nat} (hd : 0 < d) (hv : 0 < v) :
    Best d (v ^ d) (List.replicate d v) := by
  have hmem : v ∈ List.replicate d v := mem_replicate.2 ⟨hd.ne', rfl⟩
  have hgreatest := greatest_eq hmem fun y hy => (eq_of_mem_replicate hy).le
  have hleast := least_eq hmem fun y hy => (eq_of_mem_replicate hy).ge
  refine .of_tight ⟨length_replicate, prod_replicate _ _,
    fun x hx => eq_of_mem_replicate hx ▸ hv⟩ fun l' hl' => ?_
  rw [hgreatest, hleast]
  exact ⟨(Nat.pow_le_pow_iff_left hd.ne').1 hl'.le_greatest_pow,
    (Nat.pow_le_pow_iff_left hd.ne').1 hl'.least_pow_le⟩

/-! ### The number of primes -/

def bigOmega (n : Nat) : Nat := n.primeFactorsList.length

theorem bigOmega_mul {a b : Nat} (ha : a ≠ 0) (hb : b ≠ 0) :
    bigOmega (a * b) = bigOmega a + bigOmega b := by
  rw [bigOmega, (Nat.perm_primeFactorsList_mul ha hb).length_eq, length_append]
  rfl

theorem bigOmega_pos {a : Nat} (ha : 2 ≤ a) : 0 < bigOmega a := by
  have hmem : a.minFac ∈ a.primeFactorsList :=
    (Nat.mem_primeFactorsList (by omega)).2 ⟨Nat.minFac_prime (by omega), Nat.minFac_dvd a⟩
  exact length_pos_of_mem hmem

theorem prime_of_bigOmega_le {a : Nat} (ha : 2 ≤ a) (hle : bigOmega a ≤ 1) : a.Prime := by
  have hone : a.primeFactorsList.length = 1 := le_antisymm hle (bigOmega_pos ha)
  obtain ⟨p, hp⟩ := length_eq_one_iff.1 hone
  have hprod := Nat.prod_primeFactorsList (n := a) (by omega)
  rw [hp, prod_singleton] at hprod
  rw [← hprod]
  exact Nat.prime_of_mem_primeFactorsList (n := a) (by rw [hp]; exact mem_singleton_self p)

theorem length_le_bigOmega (h : ∀ x ∈ l, 2 ≤ x) : l.length ≤ bigOmega l.prod := by
  induction l with
  | nil => exact Nat.zero_le _
  | cons x l ih =>
    obtain ⟨hx, hl⟩ := forall_mem_cons.1 h
    have hprod : l.prod ≠ 0 := by
      refine (prod_pos fun y hy => ?_).ne'
      exact lt_of_lt_of_le Nat.two_pos (hl y hy)
    rw [prod_cons, length_cons, bigOmega_mul (by omega) hprod]
    have hrest := ih hl
    have hfirst := bigOmega_pos hx
    omega

theorem primes_of_bigOmega_le (h : ∀ x ∈ l, 2 ≤ x) (hle : bigOmega l.prod ≤ l.length) :
    ∀ x ∈ l, x.Prime := by
  induction l with
  | nil => exact fun x hx => absurd hx not_mem_nil
  | cons x l ih =>
    obtain ⟨hx, hl⟩ := forall_mem_cons.1 h
    have hprod : l.prod ≠ 0 := by
      refine (prod_pos fun y hy => ?_).ne'
      exact lt_of_lt_of_le Nat.two_pos (hl y hy)
    rw [prod_cons, length_cons, bigOmega_mul (by omega) hprod] at hle
    have hrest := length_le_bigOmega hl
    have hfirst := bigOmega_pos hx
    refine forall_mem_cons.2 ⟨prime_of_bigOmega_le hx (by omega), ih hl (by omega)⟩

theorem two_le_of_ne_one {x : Nat} (hpos : 0 < x) (hne : x ≠ 1) : 2 ≤ x := by omega

theorem best_primes {ps : List Nat} (hd : 0 < d) (hps : ∀ p ∈ ps, p.Prime)
    (hlen : ps.length ≤ d) : Best d ps.prod (ps ++ List.replicate (d - ps.length) 1) := by
  have hpos : ∀ x ∈ ps ++ List.replicate (d - ps.length) 1, 0 < x := by
    intro x hx
    rcases mem_append.1 hx with hx | hx
    · exact (hps x hx).pos
    · exact eq_of_mem_replicate hx ▸ Nat.one_pos
  have hdec : Decomp d ps.prod (ps ++ List.replicate (d - ps.length) 1) := by
    refine ⟨?_, ?_, hpos⟩
    · rw [length_append, length_replicate]
      omega
    · rw [prod_append, prod_replicate, Nat.one_pow, Nat.mul_one]
  have hne : ps ++ List.replicate (d - ps.length) 1 ≠ [] := by
    rw [← length_pos_iff, hdec.length]
    exact hd
  refine .of_tight hdec fun l' hl' => ?_
  have hne' : l' ≠ [] := by
    rw [← length_pos_iff, hl'.length]
    exact hd
  constructor
  · -- The greatest prime divides one of the factors.
    rcases mem_append.1 (greatest_mem hne) with hmem | hmem
    · have hdvd := dvd_prod hmem
      rw [← hl'.prod] at hdvd
      obtain ⟨x, hx, hpx⟩ := (Prime.dvd_prod_iff (hps _ hmem).prime).1 hdvd
      exact (Nat.le_of_dvd (hl'.pos x hx) hpx).trans (le_greatest hx)
    · rw [eq_of_mem_replicate hmem]
      exact hl'.pos _ (greatest_mem hne')
  · by_cases hone : 1 ∈ l'
    · exact (Lib.least_le hone).trans (hpos _ (least_mem hne))
    · -- There are as many factors as primes.
      have htwo : ∀ x ∈ l', 2 ≤ x := fun x hx =>
        two_le_of_ne_one (hl'.pos x hx) fun heq => hone (heq ▸ hx)
      have hfactors : ps.Perm ps.prod.primeFactorsList := Nat.primeFactorsList_unique rfl hps
      have hcount := length_le_bigOmega htwo
      rw [hl'.prod, bigOmega, ← hfactors.length_eq, hl'.length] at hcount
      have hprimes := primes_of_bigOmega_le htwo (by
        rw [hl'.prod, bigOmega, ← hfactors.length_eq, hl'.length]
        exact hlen)
      have hperm : l'.Perm ps :=
        (Nat.primeFactorsList_unique hl'.prod hprimes).trans hfactors.symm
      rw [Nat.sub_eq_zero_of_le hcount, replicate_zero, append_nil, least_perm hperm]

theorem best_powers {p q r : Nat} (hp : p.Prime) (hr : r < d) :
    Best d (p ^ (q * d + r))
      (List.replicate r (p ^ (q + 1)) ++ List.replicate (d - r) (p ^ q)) := by
  have hpq : p ^ q ≤ p ^ (q + 1) := Nat.pow_le_pow_right hp.pos (Nat.le_succ q)
  have hdec : Decomp d (p ^ (q * d + r))
      (List.replicate r (p ^ (q + 1)) ++ List.replicate (d - r) (p ^ q)) := by
    refine ⟨?_, ?_, fun x hx => ?_⟩
    · rw [length_append, length_replicate, length_replicate]
      omega
    · rw [prod_append, prod_replicate, prod_replicate, ← Nat.pow_mul,
        ← Nat.pow_mul, ← Nat.pow_add]
      have hmul := Nat.mul_le_mul_left q hr.le
      congr 1
      rw [Nat.add_mul, Nat.one_mul, Nat.mul_sub]
      omega
    · rcases mem_append.1 hx with hx | hx <;>
      · rw [eq_of_mem_replicate hx]
        exact Nat.pow_pos hp.pos
  have hlow : p ^ q ∈ List.replicate r (p ^ (q + 1)) ++ List.replicate (d - r) (p ^ q) :=
    mem_append_right _ (mem_replicate.2 ⟨by omega, rfl⟩)
  have hleast : least (List.replicate r (p ^ (q + 1)) ++ List.replicate (d - r) (p ^ q)) = p ^ q :=
    least_eq hlow fun y hy => by
      rcases mem_append.1 hy with hy | hy
      · exact eq_of_mem_replicate hy ▸ hpq
      · exact (eq_of_mem_replicate hy).ge
  refine .of_tight hdec fun l' hl' => ?_
  -- All factors are powers of the prime.
  have hpow : ∀ x ∈ l', ∃ e, x = p ^ e := by
    intro x hx
    obtain ⟨e, -, he⟩ := (Nat.dvd_prime_pow hp).1 (hl'.prod ▸ dvd_prod hx)
    exact ⟨e, he⟩
  constructor
  · by_contra hlt
    rw [not_le] at hlt
    have hbound : ∀ x ∈ l', x < p ^ (q + 1) := fun x hx => by
      refine lt_of_le_of_lt (le_greatest hx) (lt_of_lt_of_le hlt ?_)
      rcases mem_append.1 (greatest_mem (ne_nil_of_mem hlow)) with hmem | hmem
      · rw [eq_of_mem_replicate hmem]
      · rw [eq_of_mem_replicate hmem]
        exact hpq
    have hle : ∀ x ∈ l', x ≤ p ^ q := fun x hx => by
      obtain ⟨e, rfl⟩ := hpow x hx
      have := (Nat.pow_lt_pow_iff_right hp.one_lt).1 (hbound _ hx)
      exact Nat.pow_le_pow_right hp.pos (by omega)
    have hprod := prod_le_pow_card _ _ hle
    rw [hl'.prod, hl'.length, ← Nat.pow_mul, Nat.pow_le_pow_iff_right hp.one_lt] at hprod
    obtain rfl : r = 0 := by omega
    have hall : greatest (List.replicate 0 (p ^ (q + 1)) ++ List.replicate (d - 0) (p ^ q))
        = p ^ q := greatest_eq hlow fun y hy => by
      rw [replicate_zero, nil_append] at hy
      exact (eq_of_mem_replicate hy).le
    rw [hall] at hlt
    have hpow' := hl'.le_greatest_pow
    rw [Nat.add_zero, Nat.pow_mul] at hpow'
    exact absurd ((Nat.pow_le_pow_iff_left (by omega)).1 hpow') (not_le.2 hlt)
  · rw [hleast]
    have hne' : l' ≠ [] := by
      rw [← length_pos_iff, hl'.length]
      omega
    obtain ⟨e, he⟩ := hpow _ (least_mem hne')
    have hmul := hl'.least_pow_le
    rw [he, ← Nat.pow_mul, Nat.pow_le_pow_iff_right hp.one_lt] at hmul
    rw [he]
    refine Nat.pow_le_pow_right hp.pos ?_
    by_contra hgt
    have hmul' := Nat.mul_le_mul_right d (show q + 1 ≤ e by omega)
    rw [Nat.add_mul, Nat.one_mul] at hmul'
    omega

/-! ### Decompositions without ones -/

theorem greatest_le {m : Nat} (h : ∀ x ∈ l, x ≤ m) : greatest l ≤ m := by
  by_cases hne : l = []
  · subst hne
    exact Nat.zero_le m
  · exact h _ (greatest_mem hne)

theorem one_lt_of_not_prime {x : Nat} (hx : 2 ≤ x) (hnot : ¬ x.Prime) :
    ∃ a b, x = a * b ∧ 2 ≤ a ∧ 2 ≤ b := by
  obtain ⟨a, ⟨b, rfl⟩, ha, hlt⟩ := (Nat.not_prime_iff_exists_dvd_lt hx).1 hnot
  refine ⟨a, b, rfl, ha, ?_⟩
  by_contra hb
  have hmul := Nat.mul_le_mul_left a (show b ≤ 1 by omega)
  omega

theorem exists_split (h : ∀ x ∈ l, 2 ≤ x) (hlt : l.length < bigOmega l.prod) :
    ∃ l', (∀ x ∈ l', 2 ≤ x) ∧ l'.length = l.length + 1 ∧ l'.prod = l.prod ∧
      greatest l' ≤ greatest l := by
  obtain ⟨x, hx, hnot⟩ : ∃ x ∈ l, ¬ x.Prime := by
    by_contra hall
    have hprimes : ∀ x ∈ l, x.Prime := fun x hx => not_not.1 fun hnot => hall ⟨x, hx, hnot⟩
    rw [bigOmega, ← (Nat.primeFactorsList_unique rfl hprimes).length_eq] at hlt
    exact lt_irrefl _ hlt
  obtain ⟨a, b, rfl, ha, hb⟩ := one_lt_of_not_prime (h x hx) hnot
  obtain ⟨s, t, rfl⟩ := append_of_mem hx
  have hab : a ≤ a * b ∧ b ≤ a * b :=
    ⟨Nat.le_mul_of_pos_right a (by omega), Nat.le_mul_of_pos_left b (by omega)⟩
  refine ⟨s ++ a :: b :: t, fun y hy => ?_, ?_, ?_, greatest_le fun y hy => ?_⟩
  · simp only [mem_append, mem_cons] at hy
    rcases hy with hy | rfl | rfl | hy
    · exact h y (by simp [hy])
    · exact ha
    · exact hb
    · exact h y (by simp [hy])
  · simp only [length_append, length_cons]
    omega
  · simp only [prod_append, prod_cons, Nat.mul_assoc]
  · simp only [mem_append, mem_cons] at hy
    rcases hy with hy | rfl | rfl | hy
    · exact le_greatest (by simp [hy])
    · exact hab.1.trans (le_greatest hx)
    · exact hab.2.trans (le_greatest hx)
    · exact le_greatest (by simp [hy])

theorem exists_splits {k : Nat} (h : ∀ x ∈ l, 2 ≤ x) (hle : l.length + k ≤ bigOmega l.prod) :
    ∃ l', (∀ x ∈ l', 2 ≤ x) ∧ l'.length = l.length + k ∧ l'.prod = l.prod ∧
      greatest l' ≤ greatest l := by
  induction k with
  | zero => exact ⟨l, h, rfl, rfl, le_rfl⟩
  | succ k ih =>
    obtain ⟨l₁, htwo₁, hlen₁, hprod₁, hgreatest₁⟩ := ih (by omega)
    obtain ⟨l₂, htwo₂, hlen₂, hprod₂, hgreatest₂⟩ :=
      exists_split htwo₁ (by rw [hlen₁, hprod₁]; omega)
    exact ⟨l₂, htwo₂, by omega, hprod₂.trans hprod₁, hgreatest₂.trans hgreatest₁⟩

theorem prod_filter_one_lt (h : ∀ x ∈ l, 0 < x) : (l.filter (1 < ·)).prod = l.prod := by
  induction l with
  | nil => rfl
  | cons x l ih =>
    obtain ⟨hx, hl⟩ := forall_mem_cons.1 h
    rw [filter_cons]
    split
    · rw [prod_cons, prod_cons, ih hl]
    · next hone =>
      have hx1 : x = 1 := by
        rw [decide_eq_true_eq] at hone
        omega
      rw [prod_cons, ih hl, hx1, Nat.one_mul]

theorem Decomp.exists_without_ones (h : Decomp d n l) (hle : d ≤ bigOmega n) :
    ∃ l', Decomp d n l' ∧ (∀ x ∈ l', 2 ≤ x) ∧ greatest l' ≤ greatest l := by
  have hprod : (l.filter (1 < ·)).prod = n := (prod_filter_one_lt h.pos).trans h.prod
  have hlen : (l.filter (1 < ·)).length ≤ d := h.length ▸ length_filter_le _ _
  obtain ⟨l', htwo, hlen', hprod', hgreatest⟩ :=
    exists_splits (l := l.filter (1 < ·)) (k := d - (l.filter (1 < ·)).length)
      (fun x hx => Nat.succ_le_of_lt (of_decide_eq_true (mem_filter.1 hx).2)) (by rw [hprod]; omega)
  refine ⟨l', ⟨by omega, hprod'.trans hprod, fun x hx => ?_⟩, htwo, hgreatest.trans ?_⟩
  · exact lt_of_lt_of_le Nat.two_pos (htwo x hx)
  · exact greatest_le fun x hx => le_greatest (mem_of_mem_filter hx)

theorem Best.of_without_ones (h : Decomp d n l) (hd : 0 < d) (hle : d ≤ bigOmega n)
    (hbest : ∀ l', Decomp d n l' → (∀ x ∈ l', 2 ≤ x) →
      spread l ≤ spread l' ∧ (spread l' = spread l → least l' ≤ least l)) : Best d n l := by
  have hne : ∀ {l'}, Decomp d n l' → l' ≠ [] := fun hl' => by
    rw [← length_pos_iff, hl'.length]
    exact hd
  have hone : ∀ l', Decomp d n l' → 1 ∈ l' → least l' = 1 := fun l' hl' hmem =>
    least_eq hmem hl'.pos
  refine ⟨h, fun l' hl' => ?_, fun l' hl' heq => ?_⟩
  · by_cases hmem : 1 ∈ l'
    · obtain ⟨l'', hl'', htwo'', hgreatest⟩ := hl'.exists_without_ones hle
      have hleast := htwo'' _ (least_mem (hne hl''))
      have hspread := (hbest l'' hl'' htwo'').1
      rw [spread, spread] at *
      have := hone l' hl' hmem
      omega
    · exact (hbest l' hl' fun x hx =>
        two_le_of_ne_one (hl'.pos x hx) fun heq => hmem (heq ▸ hx)).1
  · by_cases hmem : 1 ∈ l'
    · rw [hone l' hl' hmem]
      exact h.pos _ (least_mem (hne h))
    · exact (hbest l' hl' fun x hx =>
        two_le_of_ne_one (hl'.pos x hx) fun heq => hmem (heq ▸ hx)).2 heq

/-! ## Large primes -/

/-- Primes that are divided out of a number, each larger than what is left then. -/
inductive LargePrimes : Nat → List Nat → Nat → Prop where
  | nil (n : Nat) : LargePrimes n [] n
  | cons {n m p : Nat} {ps : List Nat} : p.Prime → p ∣ n → n < p * p →
    LargePrimes (n / p) ps m → LargePrimes n (p :: ps) m

section

variable {m p : Nat} {ps : List Nat}

theorem Decomp.exists_div (h : Decomp (d + 2) n l) (hp : p.Prime) (hdvd : p ∣ n) :
    ∃ l', Decomp (d + 1) (n / p) l' ∧ least l ≤ least l' := by
  obtain ⟨x, hx, k, rfl⟩ := (Prime.dvd_prod_iff hp.prime).1 (h.prod.symm ▸ hdvd)
  obtain ⟨rest, hperm⟩ : ∃ rest, l.Perm (p * k :: rest) := ⟨_, perm_cons_erase hx⟩
  have hcons := h.of_perm hperm.symm
  have hk : 0 < k := Nat.pos_of_mul_pos_left (hcons.pos _ (mem_cons_self ..))
  have hlen : rest.length = d + 1 := by simpa using hcons.length
  obtain ⟨y, rest, rfl⟩ := exists_cons_of_length_eq_add_one hlen
  have hy := hcons.pos y (by simp)
  have hleast : ∀ z ∈ y :: rest, least l ≤ z := fun z hz =>
    Lib.least_le (hperm.mem_iff.2 (mem_cons_of_mem _ hz))
  refine ⟨k * y :: rest, ⟨by simpa using hlen, ?_, fun z hz => ?_⟩, ?_⟩
  · rw [← hcons.prod, prod_cons, prod_cons, prod_cons, Nat.mul_assoc p k,
      Nat.mul_div_cancel_left _ hp.pos, Nat.mul_assoc]
  · rcases mem_cons.1 hz with rfl | hz
    · exact Nat.mul_pos hk hy
    · exact hcons.pos z (by simp [hz])
  · rcases mem_cons.1 (least_mem (cons_ne_nil (k * y) rest)) with heq | hmem
    · rw [heq]
      exact (hleast y (mem_cons_self ..)).trans (Nat.le_mul_of_pos_left y hk)
    · exact hleast _ (mem_cons_of_mem _ hmem)

theorem LargePrimes.exists_rest (hps : LargePrimes n ps m)
    (h : Decomp (ps.length + (d + 1)) n l) : ∃ l', Decomp (d + 1) m l' ∧ least l ≤ least l' := by
  induction hps generalizing l with
  | nil n => exact ⟨l, by simpa using h, le_rfl⟩
  | @cons n m p ps hp hdvd hlt hrest ih =>
    have hlen : (p :: ps).length + (d + 1) = ps.length + d + 2 := by
      rw [length_cons]
      omega
    rw [hlen] at h
    obtain ⟨l', hl', hle⟩ := h.exists_div hp hdvd
    obtain ⟨l'', hl'', hle'⟩ := ih hl'
    exact ⟨l'', hl'', hle.trans hle'⟩

theorem LargePrimes.prod (hps : LargePrimes n ps m) : ps.prod * m = n := by
  induction hps with
  | nil n => exact Nat.one_mul n
  | @cons n m p ps hp hdvd hlt hrest ih =>
    rw [prod_cons, Nat.mul_assoc, ih]
    exact Nat.mul_div_cancel' hdvd

theorem LargePrimes.prime (hps : LargePrimes n ps m) : ∀ p ∈ ps, p.Prime := by
  induction hps with
  | nil n => exact fun p hp => absurd hp not_mem_nil
  | cons hp hdvd hlt hrest ih => exact forall_mem_cons.2 ⟨hp, ih⟩

theorem LargePrimes.decomp (hps : LargePrimes n ps m) (h : Decomp d m l) :
    Decomp (ps.length + d) n (ps ++ l) where
  length := by rw [length_append, h.length]
  prod := by rw [prod_append, h.prod, hps.prod]
  pos x hx := by
    rcases mem_append.1 hx with hx | hx
    · exact (hps.prime x hx).pos
    · exact h.pos x hx

theorem LargePrimes.lt (hps : LargePrimes n (p :: ps) m) (h : Decomp d m l) (hn : 0 < n) :
    ∀ x ∈ ps ++ l, x < p := by
  cases hps with
  | cons hp hdvd hlt hrest =>
    intro x hx
    have hx := dvd_prod hx
    rw [prod_append, h.prod, hrest.prod] at hx
    have hpos : 0 < n / p := Nat.div_pos (Nat.le_of_dvd hn hdvd) hp.pos
    exact lt_of_le_of_lt (Nat.le_of_dvd hpos hx) ((Nat.div_lt_iff_lt_mul hp.pos).2 hlt)

theorem LargePrimes.sorted (hps : LargePrimes n ps m) (h : Decomp d m l) (hn : 0 < n)
    (hsorted : l.Pairwise (· ≥ ·)) : (ps ++ l).Pairwise (· ≥ ·) := by
  induction hps with
  | nil n => exact hsorted
  | @cons n m p ps hp hdvd hlt hrest ih =>
    have hpos : 0 < n / p := Nat.div_pos (Nat.le_of_dvd hn hdvd) hp.pos
    refine pairwise_cons.2 ⟨fun x hx => ?_, ih h hpos⟩
    exact (LargePrimes.lt (.cons hp hdvd hlt hrest) h hn x hx).le

theorem LargePrimes.least_append (hps : LargePrimes n ps m) (h : Decomp (d + 1) m l)
    (hn : 0 < n) : least (ps ++ l) = least l := by
  refine least_eq (mem_append_right _ (least_mem h.ne_nil)) fun y hy => ?_
  induction hps with
  | nil n => exact Lib.least_le hy
  | @cons n m p ps hp hdvd hlt hrest ih =>
    have hpos : 0 < n / p := Nat.div_pos (Nat.le_of_dvd hn hdvd) hp.pos
    rcases mem_cons.1 hy with rfl | hy
    · exact (LargePrimes.lt (.cons hp hdvd hlt hrest) h hn _
        (mem_append_right _ (least_mem h.ne_nil))).le
    · exact ih h hpos hy

theorem LargePrimes.greatest_append (hps : LargePrimes n (p :: ps) m) (h : Decomp d m l)
    (hn : 0 < n) : greatest (p :: ps ++ l) = p := by
  refine greatest_eq (mem_cons_self ..) fun y hy => ?_
  rcases mem_cons.1 hy with rfl | hy
  · exact le_rfl
  · exact (hps.lt h hn y hy).le

theorem LargePrimes.spread_le_iff (hps : LargePrimes n (p :: ps) m) (h : Best (d + 1) m l)
    (hn : 0 < n) :
    (∀ l', Decomp ((p :: ps).length + (d + 1)) n l' → spread (p :: ps ++ l) ≤ spread l') ↔
      ∃ l', Decomp (d + 1) m l' ∧
        ∀ l'', Decomp (d + 1) m l'' → spread l' ≤ spread l'' ∧ least l'' ≤ least l' := by
  have hgreatest : ∀ {l'}, Decomp (d + 1) m l' →
      spread (p :: ps ++ l') = p - least l' := fun hl' => by
    rw [spread, hps.greatest_append hl' hn, hps.least_append hl' hn]
  have hlt : ∀ {l'}, Decomp (d + 1) m l' → least l' < p := fun hl' =>
    hps.lt hl' hn _ (mem_append_right _ (least_mem hl'.ne_nil))
  constructor
  · intro hle
    refine ⟨l, h.toDecomp, fun l'' hl'' => ⟨h.spread_le l'' hl'', ?_⟩⟩
    have := hle _ (hps.decomp hl'')
    rw [hgreatest h.toDecomp, hgreatest hl''] at this
    have := hlt hl''
    omega
  · rintro ⟨l₀, hl₀, hbest⟩ l' hl'
    have hleast : least l₀ ≤ least l :=
      h.least_le l₀ hl₀ (le_antisymm (hbest l h.toDecomp).1 (h.spread_le l₀ hl₀))
    obtain ⟨l'', hl'', hle⟩ := hps.exists_rest hl'
    have hle' := (hbest l'' hl'').2
    have hp : p ≤ greatest l' := by
      cases hps with
      | cons hp hdvd _ _ =>
        obtain ⟨x, hx, hpx⟩ := (Prime.dvd_prod_iff hp.prime).1 (hl'.prod.symm ▸ hdvd)
        exact (Nat.le_of_dvd (hl'.pos x hx) hpx).trans (le_greatest hx)
    rw [hgreatest h.toDecomp, spread]
    omega

end

end

end PsMpi.Lib
