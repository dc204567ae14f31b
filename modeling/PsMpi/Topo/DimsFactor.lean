import Mathlib.Algebra.BigOperators.Group.List.Lemmas
import Mathlib.Algebra.Order.BigOperators.GroupWithZero.List
import PsMpi.Lib.CInt
import PsMpi.Topo.Dims

/-!
# Factors and divisors of a number
-/

open List

namespace PsMpi.Dims

open PsMpi.Lib

/-! ## The loop over the primes -/

theorem divideOut_spec {val : Nat} (hval : 2 ≤ val) {fuel n cnt : Nat} (hn : 0 < n)
    (hfuel : n ≤ fuel) :
    ∃ k n', divideOut val fuel n cnt = (n', cnt + k) ∧ n = val ^ k * n' ∧ ¬ val ∣ n' := by
  induction fuel generalizing n cnt with
  | zero => omega
  | succ fuel ih =>
    rw [divideOut]
    split
    · next heq =>
      have hdvd : val ∣ n := ⟨n / val, by rw [Nat.mul_comm]; exact heq.symm⟩
      have hpos : 0 < n / val := Nat.div_pos (Nat.le_of_dvd hn hdvd) (by omega)
      have hlt : n / val < n := Nat.div_lt_self hn hval
      obtain ⟨k, n', hrun, hn', hnot⟩ := @ih (n / val) (cnt + 1) hpos (by omega)
      refine ⟨k + 1, n', by rw [hrun, Nat.add_right_comm, Nat.add_assoc], ?_, hnot⟩
      calc n = n / val * val := heq.symm
        _ = val ^ k * n' * val := by rw [hn']
        _ = val ^ (k + 1) * n' := by rw [Nat.pow_succ, Nat.mul_right_comm]
    · next hne =>
      exact ⟨0, n, rfl, by simp, fun hdvd => hne (Nat.div_mul_cancel hdvd)⟩

def factorsProd (fs : List Factors) : Nat := (fs.map fun f => f.val ^ f.cnt).prod

theorem factorsProd_append (fs gs : List Factors) :
    factorsProd (fs ++ gs) = factorsProd fs * factorsProd gs := by
  rw [factorsProd, map_append, prod_append]
  rfl

/-- Primes in increasing order, with powers that are not 0. -/
structure FactorsOk (fs : List Factors) : Prop where
  sorted : fs.Pairwise (·.val < ·.val)
  prime : ∀ f ∈ fs, f.val.Prime
  pos : ∀ f ∈ fs, 0 < f.cnt

structure IsFactors (n : Nat) (fs : List Factors) : Prop extends FactorsOk fs where
  prod : factorsProd fs = n

theorem FactorsOk.prod_pos {fs : List Factors} (h : FactorsOk fs) : 0 < factorsProd fs := by
  refine List.prod_pos fun x hx => ?_
  obtain ⟨f, hf, rfl⟩ := List.mem_map.1 hx
  exact Nat.pow_pos (h.prime f hf).pos

theorem FactorsOk.concat {fs : List Factors} (h : FactorsOk fs) {f : Factors}
    (hf : f.val.Prime) (hpos : 0 < f.cnt) (hlt : ∀ g ∈ fs, g.val < f.val) :
    FactorsOk (fs ++ [f]) where
  sorted := pairwise_append.2 ⟨h.sorted, pairwise_singleton _ _, fun g hg x hx => by
    rw [mem_singleton.1 hx]
    exact hlt g hg⟩
  prime g hg := by
    rcases mem_append.1 hg with hg | hg
    · exact h.prime g hg
    · rw [mem_singleton.1 hg]
      exact hf
  pos g hg := by
    rcases mem_append.1 hg with hg | hg
    · exact h.pos g hg
    · rw [mem_singleton.1 hg]
      exact hpos

/-- What holds in the loop: the factors that have been found, all below the rest of the table, and
what is left, whose primes are in the rest of the table or too large for it. -/
structure FactorState (total : Nat) (table : List Nat) (n : Nat) (fs : List Factors) : Prop
    extends FactorsOk fs where
  prod : factorsProd fs * n = total
  suffix : table <:+ primes
  left : ∀ p, p.Prime → p ∣ n → p ∈ table ∨ 46337 < p
  below : ∀ f ∈ fs, ∀ p ∈ table, f.val < p
  bound : ∀ f ∈ fs, f.val ≤ 46337
  last : table = [] → 46337 * 46337 ≤ n

/-! ### At most nine different primes -/

def Gaps : Nat → List Nat → Prop
  | _, [] => True
  | a, b :: bs => (∀ p, p.Prime → a < p → b ≤ p) ∧ Gaps b bs

theorem gaps_ten : Gaps 0 [2, 3, 5, 7, 11, 13, 17, 19, 23, 29] := by
  refine ⟨fun p hp _ => hp.two_le, ?_, ?_, ?_, ?_, ?_, ?_, ?_, ?_, ?_, trivial⟩ <;>
    · intro p hp hlt
      by_contra hle
      interval_cases p <;> revert hp <;> norm_num

theorem prod_le_factorsProd {bs : List Nat} {a : Nat} {fs : List Factors} (hbs : Gaps a bs)
    (h : FactorsOk fs) (ha : ∀ f ∈ fs, a < f.val) (hlen : bs.length ≤ fs.length) :
    bs.prod ≤ factorsProd fs := by
  induction bs generalizing a fs with
  | nil =>
    rw [prod_nil]
    exact h.prod_pos
  | cons b bs ih =>
    cases fs with
    | nil => simp at hlen
    | cons f fs =>
      obtain ⟨hb, hgaps⟩ := hbs
      obtain ⟨hhead, htail⟩ := pairwise_cons.1 h.sorted
      have hbf : b ≤ f.val := hb _ (h.prime f (by simp)) (ha f (by simp))
      have hpow : f.val ≤ f.val ^ f.cnt :=
        Nat.le_self_pow (h.pos f (by simp)).ne' _
      have hrest := ih hgaps
        ⟨htail, fun g hg => h.prime g (by simp [hg]), fun g hg => h.pos g (by simp [hg])⟩
        (fun g hg => lt_of_le_of_lt hbf (hhead g hg)) (by simpa using hlen)
      rw [prod_cons]
      exact Nat.mul_le_mul (hbf.trans hpow) hrest

theorem FactorsOk.length_lt {fs : List Factors} (h : FactorsOk fs)
    (hle : factorsProd fs ≤ intMax) : fs.length < maxFactors := by
  by_contra hlen
  have hprod := prod_le_factorsProd gaps_ten h (fun f hf => (h.prime f hf).pos)
    (by simpa [maxFactors] using hlen)
  have hten : [2, 3, 5, 7, 11, 13, 17, 19, 23, 29].prod = 6469693230 := by decide
  have hmax : intMax = 2147483647 := rfl
  omega

/-! ### Steps of the loop -/

theorem getLast_primes : primes.getLast? = some 46337 := by
  decide +kernel

section

variable {total n val : Nat} {table : List Nat} {fs : List Factors}

theorem FactorState.dvd (h : FactorState total table n fs) : n ∣ total :=
  ⟨_, h.prod.symm.trans (Nat.mul_comm ..)⟩

theorem FactorState.val_le (h : FactorState total (val :: table) n fs) : val ≤ 46337 :=
  le_of_mem_primes (h.suffix.subset (mem_cons_self ..))

theorem FactorState.sorted_table (h : FactorState total table n fs) :
    table.Pairwise (· < ·) := primes_sorted.sublist h.suffix.sublist

theorem FactorState.val_le_of_dvd (h : FactorState total (val :: table) n fs) {p : Nat}
    (hp : p.Prime) (hdvd : p ∣ n) : val ≤ p := by
  rcases h.left p hp hdvd with hmem | hbig
  · rcases mem_cons.1 hmem with rfl | hmem
    · exact le_rfl
    · exact ((pairwise_cons.1 h.sorted_table).1 p hmem).le
  · exact h.val_le.trans hbig.le

theorem FactorState.prime_val (h : FactorState total (val :: table) n fs) (hval : 2 ≤ val)
    (hdvd : val ∣ n) : val.Prime := by
  have hp := Nat.minFac_prime (n := val) (by omega)
  have hle := h.val_le_of_dvd hp ((Nat.minFac_dvd val).trans hdvd)
  have heq : val.minFac = val := le_antisymm (Nat.minFac_le (by omega)) hle
  rwa [heq] at hp

theorem FactorState.rest (h : FactorState total (val :: table) n fs) (hn : 0 < n)
    (hlt : n < val * val) : n = 1 ∨ n.Prime ∧ ∀ f ∈ fs, f.val < n := by
  by_cases hone : n = 1
  · exact .inl hone
  have hprime : n.Prime := by
    by_contra hnot
    have hsq := Nat.minFac_sq_le_self hn hnot
    have hle := h.val_le_of_dvd (Nat.minFac_prime hone) (Nat.minFac_dvd n)
    have hmul := Nat.mul_le_mul hle hle
    rw [← Nat.pow_two n.minFac] at hmul
    omega
  refine .inr ⟨hprime, fun f hf => ?_⟩
  rcases h.left n hprime dvd_rfl with hmem | hbig
  · exact h.below f hf n hmem
  · exact lt_of_le_of_lt (h.bound f hf) hbig

theorem FactorState.last_val (h : FactorState total [val] n fs) : val = 46337 := by
  obtain ⟨pre, hpre⟩ := h.suffix
  have hlast := getLast_primes
  rw [← hpre, List.getLast?_append_of_ne_nil _ (cons_ne_nil _ _)] at hlast
  exact Option.some.inj hlast

theorem suffix_of_cons (h : val :: table <:+ primes) : table <:+ primes :=
  (suffix_cons val table).trans h

theorem FactorState.skip (h : FactorState total (val :: table) n fs) (hnot : ¬ val ∣ n)
    (hle : val * val ≤ n) : FactorState total table n fs where
  toFactorsOk := h.toFactorsOk
  prod := h.prod
  suffix := suffix_of_cons h.suffix
  left p hp hdvd := by
    rcases h.left p hp hdvd with hmem | hbig
    · rcases mem_cons.1 hmem with rfl | hmem
      · exact absurd hdvd hnot
      · exact .inl hmem
    · exact .inr hbig
  below f hf p hp := h.below f hf p (mem_cons_of_mem _ hp)
  bound := h.bound
  last hnil := by
    subst hnil
    rwa [h.last_val] at hle

theorem two_le_of_mem_primes {p : Nat} (hp : p ∈ primes) : 2 ≤ p := by
  have hsorted := primes_sorted
  rw [primes_eq] at hp hsorted
  rcases mem_cons.1 hp with rfl | hp
  · exact le_rfl
  · exact ((pairwise_cons.1 hsorted).1 p hp).le

theorem le_of_prime {p : Nat} (hp : p.Prime) (hlt : 46337 < p) : 46349 ≤ p := by
  by_contra hle
  interval_cases p <;> revert hp <;> norm_num

theorem FactorState.divide (h : FactorState total (val :: table) n fs) (htotal : total ≤ intMax)
    (hpos : 0 < total) {k n' : Nat} (hk : 0 < k) (hn : n = val ^ k * n') (hnot : ¬ val ∣ n')
    (hone : n' ≠ 1) : FactorState total table n' (fs ++ [⟨val, k⟩]) where
  toFactorsOk := h.toFactorsOk.concat
    (h.prime_val (two_le_of_mem_primes (h.suffix.subset (mem_cons_self ..)))
      (hn ▸ (dvd_pow_self val hk.ne').mul_right n'))
    hk (fun g hg => h.below g hg val (mem_cons_self ..))
  prod := by
    have hval : factorsProd [⟨val, k⟩] = val ^ k := prod_singleton
    rw [factorsProd_append, hval, Nat.mul_assoc, ← hn, h.prod]
  suffix := suffix_of_cons h.suffix
  left p hp hdvd := by
    rcases h.left p hp (hn ▸ hdvd.mul_left _) with hmem | hbig
    · rcases mem_cons.1 hmem with rfl | hmem
      · exact absurd hdvd hnot
      · exact .inl hmem
    · exact .inr hbig
  below f hf p hp := by
    rcases mem_append.1 hf with hf | hf
    · exact h.below f hf p (mem_cons_of_mem _ hp)
    · rw [mem_singleton.1 hf]
      exact (pairwise_cons.1 h.sorted_table).1 p hp
  bound f hf := by
    rcases mem_append.1 hf with hf | hf
    · exact h.bound f hf
    · rw [mem_singleton.1 hf]
      exact h.val_le
  last hnil := by
    -- What is left would have a prime behind the table, and the product would be too large.
    subst hnil
    have hval := h.last_val
    have hnpos : 0 < n := Nat.pos_of_dvd_of_pos h.dvd hpos
    have hn' : 0 < n' := Nat.pos_of_ne_zero fun hzero => by simp [hzero] at hn; omega
    have hbig : 46349 ≤ n' := by
      have hp := Nat.minFac_prime hone
      rcases h.left _ hp (hn ▸ (Nat.minFac_dvd n').mul_left _) with hmem | hbig
      · rw [← mem_singleton.1 hmem] at hnot
        exact absurd (Nat.minFac_dvd n') hnot
      · exact (le_of_prime hp hbig).trans (Nat.minFac_le hn')
    have hmul : 46337 * 46349 ≤ n := by
      rw [hn, hval]
      exact Nat.mul_le_mul (Nat.le_self_pow hk.ne' _) hbig
    have hle := Nat.le_of_dvd hpos h.dvd
    have hmax : intMax = 2147483647 := rfl
    omega

theorem FactorState.behind (h : FactorState total [] n fs) (htotal : total ≤ intMax)
    (hpos : 0 < total) : total.Prime ∧ 46337 * 46337 < total := by
  have hmax : intMax = 2147483647 := rfl
  have hlast := h.last rfl
  have hprod := h.prod
  have hfs : factorsProd fs = 1 := by
    have hfpos := h.prod_pos
    by_contra hne
    have hmul : 2 * n ≤ total := hprod ▸ Nat.mul_le_mul_right n (by omega)
    omega
  rw [hfs, Nat.one_mul] at hprod
  subst hprod
  have hprime : n.Prime := by
    by_contra hnot
    have hmin := Nat.minFac_prime (n := n) (by omega)
    have hbig := le_of_prime hmin ((h.left _ hmin (Nat.minFac_dvd n)).resolve_left (by simp))
    have hsq := Nat.minFac_sq_le_self hpos hnot
    have hmul := Nat.mul_le_mul hbig hbig
    rw [← Nat.pow_two n.minFac] at hmul
    omega
  refine ⟨hprime, lt_of_le_of_ne hlast fun heq => ?_⟩
  exact Nat.not_prime_mul (by decide) (by decide) (heq ▸ hprime)

theorem factorLoop_spec (h : FactorState total table n fs) (htotal : total ≤ intMax)
    (hpos : 0 < total) :
    (factorLoop table n fs = none ∧ total.Prime ∧ 46337 * 46337 < total) ∨
      ∃ n' fs', factorLoop table n fs = some (.done n' fs') ∧ FactorsOk fs' ∧
        factorsProd fs' * n' = total ∧ (n' = 1 ∨ n'.Prime ∧ ∀ f ∈ fs', f.val < n') := by
  induction table generalizing n fs with
  | nil => exact .inl ⟨rfl, h.behind htotal hpos⟩
  | cons val table ih =>
    have hn : 0 < n := Nat.pos_of_dvd_of_pos h.dvd hpos
    have hval := two_le_of_mem_primes (h.suffix.subset (mem_cons_self ..))
    rw [factorLoop]
    split
    · next hlt => exact .inr ⟨n, fs, rfl, h.toFactorsOk, h.prod, h.rest hn hlt⟩
    · next hge =>
      split
      · next heq =>
        have hdvd : val ∣ n := ⟨n / val, by rw [Nat.mul_comm]; exact heq.symm⟩
        obtain ⟨k, n', hrun, hn', hnot⟩ := @divideOut_spec _ hval _ _ 0 hn le_rfl
        have hk : 0 < k := Nat.pos_of_ne_zero fun hzero => by
          rw [hzero, Nat.pow_zero, Nat.one_mul] at hn'
          exact hnot (hn' ▸ hdvd)
        have hok : FactorsOk (fs ++ [⟨val, k⟩]) := h.toFactorsOk.concat
          (h.prime_val hval hdvd) hk (fun g hg => h.below g hg val (mem_cons_self ..))
        have hprod : factorsProd (fs ++ [⟨val, k⟩]) * n' = total := by
          have hone : factorsProd [⟨val, k⟩] = val ^ k := prod_singleton
          rw [factorsProd_append, hone, Nat.mul_assoc, ← hn', h.prod]
        have hlen : (fs ++ [(⟨val, k⟩ : Factors)]).length < maxFactors := by
          refine hok.length_lt (le_trans (Nat.le_of_dvd hpos ⟨n', hprod.symm⟩) htotal)
        rw [hrun]
        dsimp only
        rw [Nat.zero_add, if_neg (by simpa using hlen.ne)]
        split
        · next hone => exact .inr ⟨n', _, rfl, hok, hprod, .inl hone⟩
        · next hone => exact ih (h.divide htotal hpos hk hn' hnot hone)
      · next hne =>
        refine ih (h.skip (fun hdvd => hne (Nat.div_mul_cancel hdvd)) (by omega))

theorem factorLoop_prime {p : Nat} (hp : p.Prime) (hlt : 46337 * 46337 < p)
    (htable : table <:+ primes) : factorLoop table p fs = none := by
  induction table with
  | nil => rfl
  | cons val table ih =>
    have hmem := htable.subset (mem_cons_self ..)
    have hval := two_le_of_mem_primes hmem
    have hle := le_of_mem_primes hmem
    have hsq := Nat.mul_le_mul hle hle
    rw [factorLoop, if_neg (by omega), if_neg, ih (suffix_of_cons htable)]
    intro heq
    have hdvd : val ∣ p := ⟨p / val, by rw [Nat.mul_comm]; exact heq.symm⟩
    rcases (Nat.dvd_prime hp).1 hdvd with hone | hself
    · omega
    · omega

/-! ## The factors of a number -/

def Unfactored (n : Nat) : Prop := n.Prime ∧ 46337 * 46337 < n

theorem mem_tail_primes {p : Nat} (hp : p.Prime) (hne : p ≠ 2) (hle : p ≤ 46337) :
    p ∈ primes.tail := by
  have hmem := mem_primes hp hle
  rw [primes_eq] at hmem
  exact (mem_cons.1 hmem).resolve_left hne

theorem two_lt_of_mem_tail {p : Nat} (hp : p ∈ primes.tail) : 2 < p := by
  have hsorted := primes_sorted
  rw [primes_eq] at hsorted
  exact (pairwise_cons.1 hsorted).1 p hp

theorem tail_primes_ne_nil : primes.tail ≠ [] := by
  intro hnil
  have hlast := getLast_primes
  rw [primes_eq, hnil] at hlast
  simp at hlast

theorem tail_primes_suffix : primes.tail <:+ primes := ⟨[2], primes_eq.symm⟩

theorem factorState_init {total : Nat} (hpos : 0 < total) :
    ∃ n fs, (if total % 2 = 0 then
        ((divideOut 2 total total 0).1, [(⟨2, (divideOut 2 total total 0).2⟩ : Factors)])
        else (total, [])) = (n, fs) ∧ FactorState total primes.tail n fs := by
  split
  · next heven =>
    obtain ⟨k, n', hrun, hn', hnot⟩ := @divideOut_spec _ le_rfl _ _ 0 hpos le_rfl
    have hk : 0 < k := Nat.pos_of_ne_zero fun hzero => by
      rw [hzero, Nat.pow_zero, Nat.one_mul] at hn'
      exact hnot (hn' ▸ Nat.dvd_of_mod_eq_zero heven)
    rw [hrun, Nat.zero_add]
    refine ⟨n', [⟨2, k⟩], rfl, ⟨pairwise_singleton _ _, ?_, ?_⟩, ?_, tail_primes_suffix,
      fun p hp hdvd => ?_, ?_, ?_, fun hnil => absurd hnil tail_primes_ne_nil⟩
    · exact fun f hf => mem_singleton.1 hf ▸ Nat.prime_two
    · exact fun f hf => mem_singleton.1 hf ▸ hk
    · have hval : factorsProd [⟨2, k⟩] = 2 ^ k := prod_singleton
      rw [hval, ← hn']
    · by_cases hle : p ≤ 46337
      · exact .inl (mem_tail_primes hp (fun htwo => hnot (htwo ▸ hdvd)) hle)
      · exact .inr (by omega)
    · exact fun f hf p hp => mem_singleton.1 hf ▸ two_lt_of_mem_tail hp
    · exact fun f hf => (mem_singleton.1 hf) ▸ (show 2 ≤ 46337 by decide)
  · next hodd =>
    refine ⟨total, [], rfl, ⟨.nil, fun f hf => absurd hf not_mem_nil,
      fun f hf => absurd hf not_mem_nil⟩, Nat.one_mul total, tail_primes_suffix,
      fun p hp hdvd => ?_, fun f hf => absurd hf not_mem_nil,
      fun f hf => absurd hf not_mem_nil, fun hnil => absurd hnil tail_primes_ne_nil⟩
    by_cases hle : p ≤ 46337
    · refine .inl (mem_tail_primes hp (fun htwo => hodd ?_) hle)
      exact Nat.mod_eq_zero_of_dvd (htwo ▸ hdvd)
    · exact .inr (by omega)

theorem factorNum_eq (nn : Nat) :
    factorNum nn = (factorLoop primes.tail
        (if nn % 2 = 0 then
          ((divideOut 2 nn nn 0).1, [(⟨2, (divideOut 2 nn nn 0).2⟩ : Factors)])
          else (nn, [])).1
        (if nn % 2 = 0 then
          ((divideOut 2 nn nn 0).1, [(⟨2, (divideOut 2 nn nn 0).2⟩ : Factors)])
          else (nn, [])).2).bind fun
      | .panic factors => some (factors, 0)
      | .done n factors =>
        some (if n ≠ 1 then factors ++ [⟨n, 1⟩] else factors,
          countPrimes (if n ≠ 1 then factors ++ [⟨n, 1⟩] else factors)) := rfl

theorem factorNum_spec {total : Nat} (hpos : 0 < total) (htotal : total ≤ intMax)
    (hfact : ¬ Unfactored total) :
    ∃ fs, factorNum total = some (fs, countPrimes fs) ∧ IsFactors total fs := by
  obtain ⟨n, fs, hstart, hstate⟩ := factorState_init hpos
  rw [factorNum_eq, hstart]
  rcases factorLoop_spec hstate htotal hpos with ⟨-, hprime, hlt⟩ | ⟨n', fs', hrun, hok, hprod, hn'⟩
  · exact absurd ⟨hprime, hlt⟩ hfact
  · rw [hrun]
    rcases hn' with rfl | ⟨hprime, hlt⟩
    · exact ⟨fs', rfl, hok, by rw [← hprod, Nat.mul_one]⟩
    · refine ⟨fs' ++ [⟨n', 1⟩], ?_, hok.concat hprime Nat.one_pos hlt, ?_⟩
      · rw [Option.bind_some]
        dsimp only
        rw [if_pos hprime.ne_one]
      · have hval : factorsProd [⟨n', 1⟩] = n' ^ 1 := prod_singleton
        rw [factorsProd_append, hval, Nat.pow_one, hprod]

theorem factorNum_none {p : Nat} (h : Unfactored p) : factorNum p = none := by
  have hodd : ¬ p % 2 = 0 := by
    intro heven
    have := (Nat.dvd_prime h.1).1 (Nat.dvd_of_mod_eq_zero heven)
    have := h.2
    omega
  rw [factorNum_eq, if_neg hodd, factorLoop_prime h.1 h.2 tail_primes_suffix]
  rfl

end

end PsMpi.Dims
