import Mathlib.Data.List.Prime
import PsMpi.Topo.DimsFactor
import PsMpi.Topo.DimsSearch

/-!
# The divisors of a number
-/

open List

namespace PsMpi.Dims

open PsMpi.Lib

/-! ## Merging runs -/

theorem mergeRuns_perm (xs ys : List Nat) : (mergeRuns xs ys).Perm (xs ++ ys) := by
  induction xs generalizing ys with
  | nil => exact .refl ys
  | cons x xs ih =>
    rw [mergeRuns]
    induction ys with
    | nil => rw [mergeHead, append_nil]
    | cons y ys ihy =>
      rw [mergeHead]
      split
      · exact (ih (y :: ys)).cons x
      · exact (ihy.cons y).trans perm_middle.symm

theorem mergeRuns_sorted {xs ys : List Nat} (hxs : xs.Pairwise (· ≤ ·))
    (hys : ys.Pairwise (· ≤ ·)) : (mergeRuns xs ys).Pairwise (· ≤ ·) := by
  induction xs generalizing ys with
  | nil => exact hys
  | cons x xs ih =>
    obtain ⟨hx, hxs'⟩ := pairwise_cons.1 hxs
    rw [mergeRuns]
    induction ys with
    | nil => exact hxs
    | cons y ys ihy =>
      obtain ⟨hy, hys'⟩ := pairwise_cons.1 hys
      rw [mergeHead]
      split
      · next hlt =>
        refine pairwise_cons.2 ⟨fun z hz => ?_, ih hxs' hys⟩
        rcases mem_append.1 ((mergeRuns_perm xs (y :: ys)).subset hz) with hz | hz
        · exact hx z hz
        · rcases mem_cons.1 hz with rfl | hz
          · exact hlt.le
          · exact hlt.le.trans (hy z hz)
      · next hge =>
        refine pairwise_cons.2 ⟨fun z hz => ?_, ihy hys'⟩
        rcases mem_append.1 ((mergeRuns_perm (x :: xs) ys).subset hz) with hz | hz
        · rcases mem_cons.1 hz with rfl | hz
          · exact not_lt.1 hge
          · exact (not_lt.1 hge).trans (hx z hz)
        · exact hy z hz

def RunsSorted (gap : Nat) (l : List Nat) : Prop :=
  ∀ i, ((l.drop (i * gap)).take gap).Pairwise (· ≤ ·)

theorem RunsSorted.sorted {gap : Nat} {l : List Nat} (h : RunsSorted gap l)
    (hlen : l.length ≤ gap) : l.Pairwise (· ≤ ·) := by
  have hzero := h 0
  rwa [Nat.zero_mul, drop_zero, take_of_length_le hlen] at hzero

theorem RunsSorted.of_sorted {gap : Nat} {l : List Nat} (h : l.Pairwise (· ≤ ·)) :
    RunsSorted gap l :=
  fun _ => h.sublist ((take_sublist _ _).trans (drop_sublist _ _))

theorem RunsSorted.drop {gap : Nat} {l : List Nat} (h : RunsSorted gap l) (k : Nat) :
    RunsSorted gap (l.drop (gap * k)) := by
  intro i
  have hik := h (k + i)
  rwa [Nat.add_mul, Nat.mul_comm k gap, ← drop_drop] at hik

theorem RunsSorted.append {gap : Nat} {xs l : List Nat} (hxs : xs.Pairwise (· ≤ ·))
    (h : RunsSorted gap l) (hlen : xs.length = gap) : RunsSorted gap (xs ++ l) := by
  intro i
  cases i with
  | zero =>
    rw [Nat.zero_mul, drop_zero, take_left' hlen]
    exact hxs
  | succ i =>
    rw [Nat.add_mul, Nat.one_mul, Nat.add_comm, ← drop_drop, drop_left' hlen]
    exact h i

theorem sortPairs_perm (l : List Nat) : (sortPairs l).Perm l := by
  fun_induction sortPairs l with
  | case1 a b rest ih =>
    split
    · exact (ih.append_left [b, a]).trans (.swap a b rest)
    · exact ih.append_left [a, b]
  | case2 rest => exact .refl _

theorem runsSorted_sortPairs (l : List Nat) : RunsSorted 2 (sortPairs l) := by
  fun_induction sortPairs l with
  | case1 a b rest ih =>
    split
    · next hlt => exact .append (by simpa using hlt.le) ih rfl
    · next hge => exact .append (by simpa using hge) ih rfl
  | case2 rest hrest =>
    refine .of_sorted ?_
    cases rest with
    | nil => exact .nil
    | cons a rest =>
      cases rest with
      | nil => exact pairwise_singleton _ _
      | cons b rest => exact absurd rfl (hrest a b rest)

theorem mergePass_perm (gap fuel : Nat) (l : List Nat) : (mergePass gap fuel l).Perm l := by
  induction fuel generalizing l with
  | zero => exact .refl l
  | succ fuel ih =>
    rw [mergePass]
    split
    · have hsplit : l.take gap ++ (l.drop gap).take gap ++ l.drop (gap * 2) = l := by
        rw [Nat.mul_two, ← drop_drop, append_assoc, take_append_drop,
          take_append_drop]
      refine ((mergeRuns_perm _ _).append (ih _)).trans ?_
      rw [hsplit]
    · exact .refl l

theorem runsSorted_mergePass {gap fuel : Nat} {l : List Nat} (hgap : 0 < gap)
    (h : RunsSorted gap l) (hfuel : l.length ≤ fuel) :
    RunsSorted (gap * 2) (mergePass gap fuel l) := by
  induction fuel generalizing l with
  | zero =>
    obtain rfl := eq_nil_of_length_eq_zero (Nat.le_zero.1 hfuel)
    exact .of_sorted .nil
  | succ fuel ih =>
    rw [mergePass]
    split
    · next hlt =>
      have hfirst : (l.take gap).Pairwise (· ≤ ·) := by simpa using h 0
      have hsecond : ((l.drop gap).take gap).Pairwise (· ≤ ·) := by simpa using h 1
      have hmerged := mergeRuns_sorted hfirst hsecond
      by_cases hlen : gap * 2 ≤ l.length
      · refine .append hmerged (ih (h.drop 2) (by rw [length_drop]; omega)) ?_
        rw [(mergeRuns_perm _ _).length_eq, length_append, length_take, length_take,
          length_drop]
        omega
      · have hnil : mergePass gap fuel (l.drop (gap * 2)) = [] := by
          rw [drop_eq_nil_of_le (by omega)]
          cases fuel with
          | zero => rfl
          | succ fuel => rw [mergePass, if_neg (by simp)]
        rw [hnil, append_nil]
        exact .of_sorted hmerged
    · next hge => exact .of_sorted (h.sorted (not_lt.1 hge))

theorem mergePasses_perm (fuel gap : Nat) (l : List Nat) : (mergePasses fuel gap l).Perm l := by
  induction fuel generalizing gap l with
  | zero => exact .refl l
  | succ fuel ih =>
    rw [mergePasses]
    split
    · exact (ih _ _).trans (mergePass_perm _ _ _)
    · exact .refl l

theorem mergePasses_sorted {fuel gap : Nat} {l : List Nat} (hgap : 0 < gap)
    (h : RunsSorted gap l) (hfuel : l.length ≤ fuel + gap) :
    (mergePasses fuel gap l).Pairwise (· ≤ ·) := by
  induction fuel generalizing gap l with
  | zero => exact h.sorted (by omega)
  | succ fuel ih =>
    rw [mergePasses]
    split
    · refine ih (by omega) (runsSorted_mergePass hgap h le_rfl) ?_
      rw [(mergePass_perm _ _ _).length_eq]
      omega
    · next hge => exact h.sorted (not_lt.1 hge)

/-! ## Counting up the powers -/

structure DigitOk (f : Factors) (d : Digit) : Prop where
  factor : d.factor = f
  power : d.power ≤ f.cnt
  base : d.base = f.val ^ d.power

def rank : List Digit → Nat
  | [] => 0
  | d :: ds => d.power + (d.factor.cnt + 1) * rank ds

def choices (fs : List Factors) : Nat := (fs.map (·.cnt + 1)).prod

section

variable {fs : List Factors} {ds ds' : List Digit}

theorem forall₂_nextPowers (h : List.Forall₂ DigitOk fs ds) :
    List.Forall₂ DigitOk fs (nextPowers ds) := by
  induction h with
  | nil => exact .nil
  | @cons f d fs ds hd hds ih =>
    obtain ⟨rfl, hpower, hbase⟩ := hd
    rw [nextPowers]
    split
    · exact .cons ⟨rfl, Nat.zero_le _, rfl⟩ ih
    · next hle => exact .cons ⟨rfl, not_lt.1 hle, by rw [hbase, Nat.pow_succ]⟩ hds

theorem rank_nextPowers (h : List.Forall₂ DigitOk fs ds) (hlt : rank ds + 1 < choices fs) :
    rank (nextPowers ds) = rank ds + 1 := by
  induction h with
  | nil => simp [rank, choices] at hlt
  | @cons f d fs ds hd hds ih =>
    obtain ⟨rfl, hpower, hbase⟩ := hd
    rw [nextPowers]
    split
    · next hmax =>
      have hcnt : d.power = d.factor.cnt := by omega
      have hrest : rank ds + 1 < choices fs := by
        rw [rank, hcnt, choices, map_cons, prod_cons] at hlt
        by_contra hge
        have hmul := Nat.mul_le_mul_left (d.factor.cnt + 1) (not_lt.1 hge)
        rw [Nat.mul_add, Nat.mul_one] at hmul
        exact absurd hlt (not_lt.2 (hmul.trans (by omega)))
      rw [rank, rank, ih hrest, hcnt, Nat.mul_add, Nat.mul_one]
      dsimp only
      omega
    · rw [rank, rank]
      dsimp only
      omega

theorem rank_inj (h : List.Forall₂ DigitOk fs ds) (h' : List.Forall₂ DigitOk fs ds')
    (heq : rank ds = rank ds') : ds = ds' := by
  induction h generalizing ds' with
  | nil =>
    cases h'
    rfl
  | @cons f d fs ds hd hds ih =>
    cases h' with
    | @cons _ d' _ ds' hd' hds' =>
      obtain ⟨rfl, hpower, hbase⟩ := hd
      obtain ⟨hfactor, hpower', hbase'⟩ := hd'
      rw [rank, rank, hfactor] at heq
      have hmod := congrArg (· % (d.factor.cnt + 1)) heq
      have hdiv := congrArg (· / (d.factor.cnt + 1)) heq
      rw [Nat.add_mul_mod_self_left, Nat.add_mul_mod_self_left, Nat.mod_eq_of_lt (by omega),
        Nat.mod_eq_of_lt (by omega)] at hmod
      rw [Nat.add_mul_div_left _ _ (by omega), Nat.add_mul_div_left _ _ (by omega),
        Nat.div_eq_of_lt (by omega), Nat.div_eq_of_lt (by omega), Nat.zero_add, Nat.zero_add]
        at hdiv
      rw [ih hds' hdiv]
      cases d
      cases d'
      dsimp only at hfactor hmod hbase hbase'
      subst hfactor hmod
      rw [hbase, hbase']

theorem rank_lt (h : List.Forall₂ DigitOk fs ds) : rank ds < choices fs := by
  induction h with
  | nil => exact Nat.one_pos
  | @cons f d fs ds hd hds ih =>
    obtain ⟨rfl, hpower, hbase⟩ := hd
    rw [rank, choices, map_cons, prod_cons]
    calc d.power + (d.factor.cnt + 1) * rank ds
        < (d.factor.cnt + 1) * (rank ds + 1) := by rw [Nat.mul_add]; omega
      _ ≤ (d.factor.cnt + 1) * choices fs := Nat.mul_le_mul_left _ ih

/-! ## The values of powers -/

theorem powersValue_cons (d : Digit) (ds : List Digit) :
    powersValue (d :: ds) = d.base * powersValue ds := prod_cons

theorem FactorsOk.of_cons {f : Factors} (h : FactorsOk (f :: fs)) : FactorsOk fs :=
  ⟨(pairwise_cons.1 h.sorted).2, fun g hg => h.prime g (mem_cons_of_mem _ hg),
    fun g hg => h.pos g (mem_cons_of_mem _ hg)⟩

theorem powersValue_dvd (h : List.Forall₂ DigitOk fs ds) : powersValue ds ∣ factorsProd fs := by
  induction h with
  | nil => exact dvd_rfl
  | @cons f d fs ds hd hds ih =>
    obtain ⟨rfl, hpower, hbase⟩ := hd
    rw [powersValue_cons, hbase, factorsProd, map_cons, prod_cons]
    exact Nat.mul_dvd_mul (Nat.pow_dvd_pow _ hpower) ih

theorem FactorsOk.not_dvd {f : Factors} (h : FactorsOk (f :: fs)) :
    ¬ f.val ∣ factorsProd fs := by
  intro hdvd
  obtain ⟨x, hx, hdvd⟩ := (Prime.dvd_prod_iff (h.prime f (mem_cons_self ..)).prime).1 hdvd
  obtain ⟨g, hg, rfl⟩ := mem_map.1 hx
  have hfg := (Nat.prime_dvd_prime_iff_eq (h.prime f (mem_cons_self ..))
    (h.prime g (mem_cons_of_mem _ hg))).1
    ((h.prime f (mem_cons_self ..)).dvd_of_dvd_pow hdvd)
  exact absurd hfg ((pairwise_cons.1 h.sorted).1 g hg).ne

theorem pow_mul_inj {p i j a b : Nat} (hp : 0 < p) (ha : ¬ p ∣ a) (hb : ¬ p ∣ b)
    (heq : p ^ i * a = p ^ j * b) : i = j ∧ a = b := by
  rcases Nat.lt_trichotomy i j with hlt | rfl | hlt
  · obtain ⟨k, rfl⟩ := Nat.exists_eq_add_of_lt hlt
    rw [Nat.add_assoc, Nat.pow_add, Nat.mul_assoc] at heq
    have hdvd := Nat.eq_of_mul_eq_mul_left (Nat.pow_pos hp) heq
    exact absurd (hdvd ▸ (dvd_pow_self p (Nat.succ_ne_zero k)).mul_right b) ha
  · exact ⟨rfl, Nat.eq_of_mul_eq_mul_left (Nat.pow_pos hp) heq⟩
  · obtain ⟨k, rfl⟩ := Nat.exists_eq_add_of_lt hlt
    rw [Nat.add_assoc, Nat.pow_add, Nat.mul_assoc] at heq
    have hdvd := Nat.eq_of_mul_eq_mul_left (Nat.pow_pos hp) heq.symm
    exact absurd (hdvd ▸ (dvd_pow_self p (Nat.succ_ne_zero k)).mul_right a) hb

theorem powersValue_inj (hfs : FactorsOk fs) (h : List.Forall₂ DigitOk fs ds)
    (h' : List.Forall₂ DigitOk fs ds') (heq : powersValue ds = powersValue ds') : ds = ds' := by
  induction h generalizing ds' with
  | nil =>
    cases h'
    rfl
  | @cons f d fs ds hd hds ih =>
    cases h' with
    | @cons _ d' _ ds' hd' hds' =>
      obtain ⟨rfl, hpower, hbase⟩ := hd
      obtain ⟨hfactor, hpower', hbase'⟩ := hd'
      rw [powersValue_cons, powersValue_cons, hbase, hbase'] at heq
      obtain ⟨hpow, hrest⟩ := pow_mul_inj (hfs.prime _ (mem_cons_self ..)).pos
        (fun hdvd => hfs.not_dvd (hdvd.trans (powersValue_dvd hds)))
        (fun hdvd => hfs.not_dvd (hdvd.trans (powersValue_dvd hds'))) heq
      rw [ih hfs.of_cons hds' hrest]
      cases d
      cases d'
      dsimp only at hfactor hpow hbase hbase'
      subst hfactor hpow
      rw [hbase, hbase']

theorem exists_powers (hfs : FactorsOk fs) {g : Nat} (hg : g ∣ factorsProd fs) :
    ∃ ds, List.Forall₂ DigitOk fs ds ∧ powersValue ds = g := by
  induction fs generalizing g with
  | nil => exact ⟨[], .nil, (Nat.dvd_one.1 hg).symm⟩
  | cons f fs ih =>
    have hprime := hfs.prime f (mem_cons_self ..)
    have hgpos : 0 < g := Nat.pos_of_dvd_of_pos hg hfs.prod_pos
    obtain ⟨e, g', -, rfl, hnot⟩ := @divideOut_spec _ hprime.two_le _ _ 0 hgpos le_rfl
    rw [factorsProd, map_cons, prod_cons] at hg
    have hcop : Nat.Coprime (f.val ^ e) (factorsProd fs) :=
      Nat.Coprime.pow_left e ((Nat.Prime.coprime_iff_not_dvd hprime).2 hfs.not_dvd)
    have hcop' : Nat.Coprime g' (f.val ^ f.cnt) :=
      Nat.Coprime.pow_right _ ((Nat.Prime.coprime_iff_not_dvd hprime).2 hnot).symm
    have hle : e ≤ f.cnt := (Nat.pow_dvd_pow_iff_le_right hprime.one_lt).1
      (hcop.dvd_of_dvd_mul_right ((Nat.dvd_mul_right _ _).trans hg))
    obtain ⟨ds, hds, hvalue⟩ := ih hfs.of_cons
      (hcop'.dvd_of_dvd_mul_left ((Nat.dvd_mul_left _ _).trans hg))
    exact ⟨⟨f, e, f.val ^ e⟩ :: ds, .cons ⟨rfl, hle, rfl⟩ hds, by rw [powersValue_cons, hvalue]⟩

/-! ## All divisors -/

theorem mem_divisorsLoop {k g : Nat} (h : List.Forall₂ DigitOk fs ds)
    (hlt : rank ds + k < choices fs) :
    g ∈ divisorsLoop k ds ↔ ∃ ds', List.Forall₂ DigitOk fs ds' ∧ rank ds < rank ds' ∧
      rank ds' ≤ rank ds + k ∧ powersValue ds' = g := by
  induction k generalizing ds with
  | zero =>
    rw [divisorsLoop]
    refine ⟨fun hmem => absurd hmem not_mem_nil, ?_⟩
    rintro ⟨ds', -, hlow, hhigh, -⟩
    omega
  | succ k ih =>
    have hnext := forall₂_nextPowers h
    have hrank := rank_nextPowers h (by omega)
    rw [divisorsLoop, mem_cons, ih hnext (by omega), hrank]
    constructor
    · rintro (rfl | ⟨ds', hds', hlow, hhigh, hvalue⟩)
      · exact ⟨_, hnext, by omega, by omega, rfl⟩
      · exact ⟨ds', hds', by omega, by omega, hvalue⟩
    · rintro ⟨ds', hds', hlow, hhigh, rfl⟩
      by_cases heq : rank ds' = rank ds + 1
      · exact .inl (congrArg powersValue (rank_inj hds' hnext (heq.trans hrank.symm)))
      · exact .inr ⟨ds', hds', by omega, by omega, rfl⟩

theorem nodup_divisorsLoop {k : Nat} (hfs : FactorsOk fs) (h : List.Forall₂ DigitOk fs ds)
    (hlt : rank ds + k < choices fs) : (divisorsLoop k ds).Nodup := by
  induction k generalizing ds with
  | zero => exact nodup_nil
  | succ k ih =>
    have hnext := forall₂_nextPowers h
    have hrank := rank_nextPowers h (by omega)
    rw [divisorsLoop, nodup_cons]
    refine ⟨fun hmem => ?_, ih hnext (by omega)⟩
    obtain ⟨ds', hds', hlow, -, hvalue⟩ := (mem_divisorsLoop hnext (by omega)).1 hmem
    rw [powersValue_inj hfs hds' hnext hvalue] at hlow
    exact lt_irrefl _ hlow

theorem zeroPowers_spec (fs : List Factors) :
    List.Forall₂ DigitOk fs (fs.map (⟨·, 0, 1⟩)) ∧ rank (fs.map (⟨·, 0, 1⟩)) = 0 ∧
      powersValue (fs.map (⟨·, 0, 1⟩)) = 1 := by
  induction fs with
  | nil => exact ⟨.nil, rfl, rfl⟩
  | cons f fs ih =>
    obtain ⟨hok, hrank, hvalue⟩ := ih
    rw [map_cons, rank, powersValue_cons, hrank, hvalue]
    exact ⟨.cons ⟨rfl, Nat.zero_le _, rfl⟩ hok, by simp, rfl⟩

theorem fullPowers_spec (fs : List Factors) :
    List.Forall₂ DigitOk fs (fs.map fun f => ⟨f, f.cnt, f.val ^ f.cnt⟩) ∧
      rank (fs.map fun f => ⟨f, f.cnt, f.val ^ f.cnt⟩) + 1 = choices fs ∧
      powersValue (fs.map fun f => ⟨f, f.cnt, f.val ^ f.cnt⟩) = factorsProd fs := by
  induction fs with
  | nil => exact ⟨.nil, rfl, rfl⟩
  | cons f fs ih =>
    obtain ⟨hok, hrank, hvalue⟩ := ih
    rw [map_cons, rank, powersValue_cons, hvalue, choices, map_cons, prod_cons,
      ← choices, ← hrank, Nat.mul_add]
    exact ⟨.cons ⟨rfl, le_rfl, rfl⟩ hok, by dsimp only; omega, rfl⟩

end

section

variable {n : Nat} {fs : List Factors}

theorem mem_divisorsLoop_iff (h : IsFactors n fs) {g : Nat} :
    g ∈ divisorsLoop (ndivisorsFromFactor fs) (fs.map (⟨·, 0, 1⟩)) ↔
      g ∣ n ∧ 2 ≤ g ∧ g < n := by
  obtain ⟨hzero, hrank, hone⟩ := zeroPowers_spec fs
  obtain ⟨hfull, hmax, hall⟩ := fullPowers_spec fs
  have hcount : ndivisorsFromFactor fs = choices fs - 2 := rfl
  have hpos : 0 < n := h.prod ▸ h.toFactorsOk.prod_pos
  rw [mem_divisorsLoop hzero (by omega), hrank, hcount]
  constructor
  · rintro ⟨ds, hds, hlow, hhigh, rfl⟩
    have hdvd : powersValue ds ∣ n := h.prod ▸ powersValue_dvd hds
    refine ⟨hdvd, ?_, lt_of_le_of_ne (Nat.le_of_dvd hpos hdvd) fun heq => ?_⟩
    · have hne : powersValue ds ≠ 1 := fun heq => by
        rw [powersValue_inj h.toFactorsOk hds hzero (heq.trans hone.symm)] at hlow
        omega
      have hdpos := Nat.pos_of_dvd_of_pos hdvd hpos
      omega
    · have hrankds := congrArg rank
        (powersValue_inj h.toFactorsOk hds hfull (heq.trans (h.prod.symm.trans hall.symm)))
      omega
  · rintro ⟨hdvd, htwo, hlt⟩
    obtain ⟨ds, hds, rfl⟩ := exists_powers h.toFactorsOk (h.prod.symm ▸ hdvd)
    refine ⟨ds, hds, Nat.pos_of_ne_zero fun heq => ?_, ?_, rfl⟩
    · rw [rank_inj hds hzero (heq.trans hrank.symm), hone] at htwo
      omega
    · have hne : rank ds + 1 ≠ choices fs := fun heq => by
        rw [rank_inj hds hfull (by omega), hall, h.prod] at hlt
        exact lt_irrefl _ hlt
      have := rank_lt hds
      omega

theorem factorToDivisors_perm (fs : List Factors) : (factorToDivisors fs).Perm
    (divisorsLoop (ndivisorsFromFactor fs) (fs.map (⟨·, 0, 1⟩))) := by
  rw [factorToDivisors]
  split
  · exact (mergePasses_perm _ _ _).trans (sortPairs_perm _)
  · exact .refl _

theorem mem_factorToDivisors (h : IsFactors n fs) {g : Nat} :
    g ∈ factorToDivisors fs ↔ g ∣ n ∧ 2 ≤ g ∧ g < n :=
  (factorToDivisors_perm fs).mem_iff.trans (mem_divisorsLoop_iff h)

theorem factorToDivisors_sorted (h : FactorsOk fs) (hlen : 1 < fs.length) :
    (factorToDivisors fs).Pairwise (· < ·) := by
  have hnodup : (factorToDivisors fs).Nodup := by
    refine (factorToDivisors_perm fs).nodup_iff.2 (nodup_divisorsLoop h (zeroPowers_spec fs).1 ?_)
    have hcount : ndivisorsFromFactor fs = choices fs - 2 := rfl
    have hlt := rank_lt (zeroPowers_spec fs).1
    rw [(zeroPowers_spec fs).2.1] at hlt ⊢
    omega
  have hsorted : (factorToDivisors fs).Pairwise (· ≤ ·) := by
    rw [factorToDivisors, if_pos hlen]
    refine mergePasses_sorted Nat.two_pos (runsSorted_sortPairs _) ?_
    rw [(sortPairs_perm _).length_eq]
    omega
  exact (hsorted.and hnodup).imp fun h => lt_of_le_of_ne h.1 h.2

theorem covers_factorToDivisors (h : IsFactors n fs) (hlen : 1 < fs.length) :
    Covers (factorToDivisors fs) n 2 where
  sorted := factorToDivisors_sorted h.toFactorsOk hlen
  sound g hg := ⟨((mem_factorToDivisors h).1 hg).1, ((mem_factorToDivisors h).1 hg).2.1⟩
  complete g hdvd hle hsq := by
    refine (mem_factorToDivisors h).2 ⟨hdvd, hle, ?_⟩
    have hmul := Nat.mul_le_mul_right g hle
    omega

/-- Only a prime behind the table of primes has no factors. The divisors are listed in ascending
order, each of them once. -/
theorem divisors_listed (hpos : 0 < n) (hn : n ≤ intMax) :
    ((factorNum n).isSome ↔ ¬ Unfactored n) ∧ ∀ fs k, factorNum n = some (fs, k) →
      IsFactors n fs ∧ k = countPrimes fs ∧
      (∀ g, g ∈ factorToDivisors fs ↔ g ∣ n ∧ 2 ≤ g ∧ g < n) ∧
      (1 < fs.length → (factorToDivisors fs).Pairwise (· < ·)) := by
  have hnone : (factorNum n).isSome → ¬ Unfactored n := fun h hun => by
    rw [factorNum_none hun] at h
    cases h
  refine ⟨⟨hnone, fun hfact => ?_⟩, fun fs k h => ?_⟩
  · obtain ⟨fs, h, -⟩ := factorNum_spec hpos hn hfact
    exact Option.isSome_of_eq_some h
  · obtain ⟨fs', h', hok⟩ := factorNum_spec hpos hn (hnone (Option.isSome_of_eq_some h))
    cases h'.symm.trans h
    exact ⟨hok, rfl, fun g => mem_factorToDivisors hok, factorToDivisors_sorted hok.toFactorsOk⟩

theorem divisors_listed_twelve : (factorNum 12).isSome ↔ ¬ Unfactored 12 :=
  (divisors_listed (by decide) (by decide)).1

end

end PsMpi.Dims
