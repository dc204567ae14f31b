import Mathlib.Algebra.Order.BigOperators.Group.List
import PsMpi.Lib.CInt
import PsMpi.Topo.Dims

/-!
# The search for balanced dimensions
-/

open List

namespace PsMpi.Dims

open PsMpi.Lib

/-! ## Products of ints -/

theorem mulWrap_of_le {a b : Nat} (h : a * b ≤ intMax) : mulWrap a b = ((a * b : Nat) : Int) := by
  have hmax : intMax = 2147483647 := rfl
  rw [hmax] at h
  rw [mulWrap, ← Int.natCast_mul]
  exact wrapInt_of_lt (by omega) (by omega)

theorem lt_pow_of_powLoop {sf q : Nat} (hsf : 0 < sf) (hq : q ≤ intMax) {ii j : Nat} {ff : Int}
    (hff : ff = ((sf ^ j : Nat) : Int) ∨ q < sf ^ j) (h : 0 < powLoop sf q (ii + 1) ff) :
    q < sf ^ (j + ii) := by
  induction ii generalizing j ff with
  | zero =>
    rw [powLoop] at h
    split at h
    · simp [powLoop] at h
    · next hle =>
      rcases hff with rfl | hlt
      · rw [Nat.add_zero]
        omega
      · exact hlt
  | succ ii ih =>
    rw [powLoop] at h
    have hmono : sf ^ j ≤ sf ^ (j + (ii + 1)) := Nat.pow_le_pow_right hsf (by omega)
    split at h
    · have hnext : mulWrap ff sf = ((sf ^ (j + 1) : Nat) : Int) ∨ q < sf ^ (j + 1) := by
        rcases hff with rfl | hlt
        · by_cases hfit : sf ^ j * sf ≤ intMax
          · exact .inl (by rw [mulWrap_of_le hfit, Nat.pow_succ])
          · rw [Nat.pow_succ]
            exact .inr (by omega)
        · exact .inr (lt_of_lt_of_le hlt (Nat.pow_le_pow_right hsf (by omega)))
      have hlt := ih hnext h
      rwa [Nat.add_right_comm] at hlt
    · next hle =>
      rcases hff with rfl | hlt
      · omega
      · omega

theorem square_or {sf q : Nat} (hq : q ≤ intMax) :
    mulWrap sf sf = ((sf ^ 2 : Nat) : Int) ∨ q < sf ^ 2 := by
  rw [Nat.pow_two]
  by_cases hfit : sf * sf ≤ intMax
  · exact .inl (mulWrap_of_le hfit)
  · exact .inr (by omega)

/-! ## Descending lists of factors -/

def bal (l : List Nat) : Int := (l.headD 0 : Int) - (l.getLastD 0 : Int)

/-- A list whose first `k` factors have the product `n`, descend and are not smaller than `lo`, and
whose others are given. -/
structure LeafOf (k n lo : Nat) (tail front : List Nat) (l : List Nat) : Prop where
  length : front.length = k
  prod : front.prod = n
  sorted : front.Pairwise (· ≥ ·)
  least : ∀ y ∈ front, lo ≤ y
  eq : l = front ++ tail

def Leaf (k n lo : Nat) (tail l : List Nat) : Prop := ∃ front, LeafOf k n lo tail front l

/-- Divisors in increasing order, among them all that may stand behind a larger factor. -/
structure Covers (divs : List Nat) (n lo : Nat) : Prop where
  sorted : divs.Pairwise (· < ·)
  sound : ∀ g ∈ divs, g ∣ n ∧ lo ≤ g
  complete : ∀ g, g ∣ n → lo ≤ g → g * g ≤ n → g ∈ divs

/-- What a part of the search does: nothing, if all its lists are worse than the best one so far; or
it finds a list that is at least as good as the best one so far and as its other lists, and of the
equally good ones none has a greater last factor. -/
def Improves (S : List Nat → Prop) (st st' : Search) : Prop :=
  (st'.optdims = st.optdims ∧ st'.curbal = st.curbal ∧ ∀ l, S l → st.curbal < bal l) ∨
  (S st'.optdims ∧ st'.curbal = bal st'.optdims ∧ st'.curbal ≤ st.curbal ∧
    ∀ l, S l → st'.curbal ≤ bal l ∧
      (bal l = st'.curbal → l.getLastD 0 ≤ st'.optdims.getLastD 0))

section

variable {S T U : List Nat → Prop} {st st' st'' : Search}

theorem Improves.refl (h : ∀ l, S l → st.curbal < bal l) : Improves S st st := .inl ⟨rfl, rfl, h⟩

theorem Improves.curbal_le (h : Improves S st st') : st'.curbal ≤ st.curbal := by
  rcases h with ⟨-, heq, -⟩ | ⟨-, -, hle, -⟩
  · exact heq.le
  · exact hle

theorem Improves.trans (h₁ : Improves S st st') (h₂ : Improves T st' st'')
    (horder : ∀ l l', S l → T l' → l.getLastD 0 ≤ l'.getLastD 0)
    (hU : ∀ l, U l ↔ S l ∨ T l) : Improves U st st'' := by
  rcases h₂ with ⟨hopt₂, hbal₂, hworse₂⟩ | ⟨hmem₂, hbal₂, hle₂, hbest₂⟩
  · rcases h₁ with ⟨hopt₁, hbal₁, hworse₁⟩ | ⟨hmem₁, hbal₁, hle₁, hbest₁⟩
    · refine .inl ⟨hopt₂.trans hopt₁, hbal₂.trans hbal₁, fun l hl => ?_⟩
      rcases (hU l).1 hl with hl | hl
      · exact hworse₁ l hl
      · exact hbal₁ ▸ hworse₂ l hl
    · refine .inr ⟨?_, ?_, ?_, fun l hl => ?_⟩
      · rw [hopt₂]
        exact (hU _).2 (.inl hmem₁)
      · rw [hbal₂, hopt₂, hbal₁]
      · rw [hbal₂]
        exact hle₁
      · rw [hbal₂, hopt₂]
        rcases (hU l).1 hl with hl | hl
        · exact hbest₁ l hl
        · have hlt := hworse₂ l hl
          exact ⟨hlt.le, fun heq => absurd heq (by omega)⟩
  · refine .inr ⟨(hU _).2 (.inr hmem₂), hbal₂, hle₂.trans h₁.curbal_le, fun l hl => ?_⟩
    rcases (hU l).1 hl with hl | hl
    · refine ⟨?_, fun _ => horder l _ hl hmem₂⟩
      rcases h₁ with ⟨-, hbal₁, hworse₁⟩ | ⟨-, -, -, hbest₁⟩
      · have hlt := hworse₁ l hl
        omega
      · exact hle₂.trans (hbest₁ l hl).1
    · exact hbest₂ l hl

end

/-! ### Lists and divisors -/

section

variable {k n lo f : Nat} {tail front l divs rest : List Nat}

theorem LeafOf.pow_le (h : LeafOf k n lo tail front l) : lo ^ k ≤ n := by
  rw [← h.length, ← h.prod]
  exact pow_card_le_prod _ _ h.least

theorem LeafOf.le_head (h : LeafOf (k + 1) n lo tail front l) : lo ≤ l.headD 0 := by
  cases front with
  | nil => exact absurd h.length (by simp)
  | cons y ys =>
    rw [h.eq]
    exact h.least y (mem_cons_self ..)

theorem LeafOf.split (h : LeafOf (k + 1) n lo tail front l) (hlo : 0 < lo) :
    ∃ f front', front = front' ++ [f] ∧ lo ≤ f ∧ f ∣ n ∧
      LeafOf k (n / f) f (f :: tail) front' l := by
  rcases eq_nil_or_concat' front with rfl | ⟨front', f, rfl⟩
  · exact absurd h.length (by simp)
  · have hf : lo ≤ f := h.least f (by simp)
    have hprod : front'.prod * f = n := by simpa using h.prod
    have hpos : 0 < f := lt_of_lt_of_le hlo hf
    have hpair := pairwise_append.1 h.sorted
    refine ⟨f, front', rfl, hf, ⟨front'.prod, by rw [← hprod, Nat.mul_comm]⟩, ?_⟩
    exact {
      length := by simpa using h.length
      prod := by rw [← hprod, Nat.mul_div_cancel _ hpos]
      sorted := hpair.1
      least := fun y hy => hpair.2.2 y hy f (mem_singleton_self f)
      eq := by rw [h.eq, append_assoc]; rfl }

theorem LeafOf.join (h : LeafOf k (n / f) f (f :: tail) front l) (hlo : lo ≤ f) (hdvd : f ∣ n) :
    LeafOf (k + 1) n lo tail (front ++ [f]) l where
  length := by rw [length_append, h.length]; rfl
  prod := by
    rw [prod_append, h.prod, prod_singleton]
    exact Nat.div_mul_cancel hdvd
  sorted := pairwise_append.2 ⟨h.sorted, pairwise_singleton _ _, fun y hy z hz => by
    rw [mem_singleton.1 hz]
    exact h.least y hy⟩
  least y hy := by
    rcases mem_append.1 hy with hy | hy
    · exact hlo.trans (h.least y hy)
    · rw [mem_singleton.1 hy]
      exact hlo
  eq := by rw [h.eq, append_assoc]; rfl

theorem LeafOf.mem_divs_of_dvd {q : Nat} (h : LeafOf (k + 2) q f tail front l) (hf : lo ≤ f)
    (hlo : 0 < lo) (hc : Covers divs n lo) (hq : q ∣ n) (hqn : q ≤ n) :
    ∃ y ∈ divs, y ∣ q ∧ ∃ front', front = front' ++ [y] ∧
      LeafOf (k + 1) (q / y) y (y :: tail) front' l := by
  obtain ⟨y, front', hfront, hy, hdvd, h'⟩ := h.split (lt_of_lt_of_le hlo hf)
  have hpos : 0 < y := lt_of_lt_of_le (lt_of_lt_of_le hlo hf) hy
  have hle : y ≤ q / y := le_trans (Nat.le_self_pow (by omega) y) h'.pow_le
  have hsq : y * y ≤ q := (Nat.le_div_iff_mul_le hpos).1 hle
  exact ⟨y, hc.complete y (hdvd.trans hq) (hf.trans hy) (hsq.trans hqn), hdvd, front', hfront, h'⟩

theorem LeafOf.mem_divs (h : LeafOf (k + 2) n lo tail front l) (hlo : 0 < lo)
    (hc : Covers divs n lo) :
    ∃ f ∈ divs, ∃ front', front = front' ++ [f] ∧
      LeafOf (k + 1) (n / f) f (f :: tail) front' l := by
  obtain ⟨f, hf, -, h'⟩ := h.mem_divs_of_dvd le_rfl hlo hc dvd_rfl le_rfl
  exact ⟨f, hf, h'⟩

theorem Covers.le_of_mem (hc : Covers (f :: rest) n lo) {g : Nat} (hg : g ∈ f :: rest) :
    f ≤ g := by
  rcases mem_cons.1 hg with rfl | hg
  · exact le_rfl
  · exact ((pairwise_cons.1 hc.sorted).1 g hg).le

theorem Covers.of_cons (hc : Covers (f :: rest) n lo) : Covers rest n (f + 1) where
  sorted := (pairwise_cons.1 hc.sorted).2
  sound g hg := ⟨(hc.sound g (mem_cons_of_mem _ hg)).1,
    (pairwise_cons.1 hc.sorted).1 g hg⟩
  complete g hdvd hle hsq := by
    have hlo := (hc.sound f (mem_cons_self ..)).2
    rcases mem_cons.1 (hc.complete g hdvd (by omega) hsq) with rfl | hg
    · omega
    · exact hg

theorem Leaf.false_of_nil (hc : Covers [] n lo) (hlo : 0 < lo) (h : Leaf (k + 2) n lo tail l) :
    False := by
  obtain ⟨front, h⟩ := h
  obtain ⟨f, hf, -⟩ := h.mem_divs hlo hc
  cases hf

theorem leaf_cons_iff (hc : Covers (f :: rest) n lo) (hlo : 0 < lo) :
    Leaf (k + 2) n lo tail l ↔
      Leaf (k + 1) (n / f) f (f :: tail) l ∨ Leaf (k + 2) n (f + 1) tail l := by
  obtain ⟨hdvd, hf⟩ := hc.sound f (mem_cons_self ..)
  constructor
  · rintro ⟨front, h⟩
    obtain ⟨g, hg, front', rfl, h'⟩ := h.mem_divs hlo hc
    rcases mem_cons.1 hg with rfl | hg
    · exact .inl ⟨front', h'⟩
    · have hlt : f + 1 ≤ g := (pairwise_cons.1 hc.sorted).1 g hg
      exact .inr ⟨_, h'.join hlt (hc.sound g (mem_cons_of_mem _ hg)).1⟩
  · rintro (⟨front, h⟩ | ⟨front, h⟩)
    · exact ⟨_, h.join hf hdvd⟩
    · refine ⟨front, h.length, h.prod, h.sorted, fun y hy => ?_, h.eq⟩
      have hle := h.least y hy
      omega

theorem smallestFactor_le {q sf : Nat} {newdivs : List Nat}
    (hsf : smallestFactor q f rest = some (sf, newdivs)) (hc : Covers (f :: rest) n lo)
    (hq : q ∣ n) (hqn : q ≤ n) (hlo : 0 < lo) (h : Leaf (k + 2) q f tail l) :
    Leaf (k + 2) q sf tail l := by
  obtain ⟨front, h⟩ := h
  obtain ⟨-, hf⟩ := hc.sound f (mem_cons_self ..)
  unfold smallestFactor at hsf
  split at hsf
  · obtain ⟨rfl, -⟩ := Prod.mk.inj (Option.some.inj hsf)
    exact ⟨front, h⟩
  · next hnot =>
    obtain ⟨y, hmem, hdvd, front', rfl, h'⟩ := h.mem_divs_of_dvd hf hlo hc hq hqn
    have hne : y ≠ f := by
      rintro rfl
      exact hnot (Nat.mod_eq_zero_of_dvd hdvd)
    have hyrest : y ∈ rest := (mem_cons.1 hmem).resolve_left hne
    cases rest with
    | nil => cases hyrest
    | cons g rest =>
      obtain ⟨rfl, -⟩ := Prod.mk.inj (Option.some.inj hsf)
      have hgy := hc.of_cons.le_of_mem hyrest
      refine ⟨_, h.length, h.prod, h.sorted, fun z hz => ?_, h.eq⟩
      rcases mem_append.1 hz with hz | hz
      · exact hgy.trans (h'.least z hz)
      · rw [mem_singleton.1 hz]
        exact hgy

theorem le_smallestFactor {q sf : Nat} {newdivs : List Nat}
    (hsf : smallestFactor q f rest = some (sf, newdivs)) (hc : Covers (f :: rest) n lo) :
    f ≤ sf := by
  unfold smallestFactor at hsf
  split at hsf
  · exact (Prod.mk.inj (Option.some.inj hsf)).1.le
  · cases rest with
    | nil => cases hsf
    | cons g rest =>
      rw [← (Prod.mk.inj (Option.some.inj hsf)).1]
      exact hc.le_of_mem (by simp)

theorem smallestFactor_le_of_mem {q sf y : Nat} {newdivs : List Nat}
    (hsf : smallestFactor q f rest = some (sf, newdivs)) (hc : Covers (f :: rest) n lo)
    (hy : y ∈ rest) : sf ≤ y := by
  unfold smallestFactor at hsf
  split at hsf
  · obtain ⟨rfl, -⟩ := Prod.mk.inj (Option.some.inj hsf)
    exact ((pairwise_cons.1 hc.sorted).1 y hy).le
  · cases rest with
    | nil => cases hy
    | cons g rest =>
      obtain ⟨rfl, -⟩ := Prod.mk.inj (Option.some.inj hsf)
      exact hc.of_cons.le_of_mem hy

/-! ### The divisors of what is left -/

theorem scanDivs_sublist (q : Nat) (divs : List Nat) : (scanDivs q divs).Sublist divs := by
  induction divs with
  | nil => exact List.Sublist.slnil
  | cons f rest ih =>
    rw [scanDivs]
    split
    · exact nil_sublist _
    · split
      · exact ih.cons_cons f
      · exact ih.cons f

theorem dvd_of_mem_scanDivs {q g : Nat} (h : g ∈ scanDivs q divs) : g ∣ q := by
  induction divs with
  | nil => cases h
  | cons f rest ih =>
    rw [scanDivs] at h
    split at h
    · cases h
    · split at h
      · next hmod =>
        rcases mem_cons.1 h with rfl | h
        · exact Nat.dvd_of_mod_eq_zero hmod
        · exact ih h
      · exact ih h

theorem mem_scanDivs {q g : Nat} (hq : q ≤ intMax) (hsorted : divs.Pairwise (· < ·))
    (hg : g ∈ divs) (hdvd : g ∣ q) (hsq : g * g ≤ q) : g ∈ scanDivs q divs := by
  induction divs with
  | nil => cases hg
  | cons f rest ih =>
    obtain ⟨hhead, htail⟩ := pairwise_cons.1 hsorted
    have hfg : f ≤ g := by
      rcases mem_cons.1 hg with rfl | hg
      · exact le_rfl
      · exact (hhead g hg).le
    have hff : f * f ≤ q := (Nat.mul_le_mul hfg hfg).trans hsq
    rw [scanDivs, mulWrap_of_le (hff.trans hq), if_neg (by omega)]
    rcases mem_cons.1 hg with rfl | hg
    · rw [if_pos (Nat.mod_eq_zero_of_dvd hdvd)]
      exact mem_cons_self ..
    · split
      · exact mem_cons_of_mem _ (ih htail hg)
      · exact ih htail hg

theorem smallestFactor_newdivs {q sf : Nat} {newdivs : List Nat}
    (hsf : smallestFactor q f rest = some (sf, newdivs)) :
    newdivs = if q % f = 0 then [f] else [] := by
  unfold smallestFactor at hsf
  split at hsf
  · next h => rw [if_pos h, ← (Prod.mk.inj (Option.some.inj hsf)).2]
  · next h =>
    rw [if_neg h]
    cases rest with
    | nil => cases hsf
    | cons g rest => exact (Prod.mk.inj (Option.some.inj hsf)).2.symm

theorem covers_newdivs {q sf : Nat} {newdivs : List Nat}
    (hsf : smallestFactor q f rest = some (sf, newdivs)) (hc : Covers (f :: rest) n lo)
    (hq : q ∣ n) (hqn : q ≤ n) (hqmax : q ≤ intMax) :
    Covers (newdivs ++ scanDivs q rest) q f := by
  obtain ⟨-, hf⟩ := hc.sound f (mem_cons_self ..)
  obtain ⟨hhead, htail⟩ := pairwise_cons.1 hc.sorted
  rw [smallestFactor_newdivs hsf]
  have hscan : ∀ g ∈ scanDivs q rest, f < g := fun g hg =>
    hhead g ((scanDivs_sublist q rest).subset hg)
  refine ⟨?_, fun g hg => ?_, fun g hdvd hle hsq => ?_⟩
  · refine pairwise_append.2 ⟨?_, htail.sublist (scanDivs_sublist q rest), fun g hg h hh => ?_⟩
    · split <;> simp
    · split at hg
      · rw [mem_singleton.1 hg]
        exact hscan h hh
      · cases hg
  · rcases mem_append.1 hg with hg | hg
    · split at hg
      · next hmod =>
        rw [mem_singleton.1 hg]
        exact ⟨Nat.dvd_of_mod_eq_zero hmod, le_rfl⟩
      · cases hg
    · exact ⟨dvd_of_mem_scanDivs hg, (hscan g hg).le⟩
  · rcases mem_cons.1 (hc.complete g (hdvd.trans hq) (hf.trans hle) (hsq.trans hqn))
      with rfl | hg
    · rw [if_pos (Nat.mod_eq_zero_of_dvd hdvd)]
      exact mem_append_left _ (mem_singleton_self g)
    · exact mem_append_right _ (mem_scanDivs hqmax htail hg hdvd hsq)

/-! ### The first two places -/

theorem pairLoop_spec {qprev : Int} (hn : 0 < n) (hc : ∀ g ∈ f :: rest, g ∣ n)
    (hsorted : (f :: rest).Pairwise (· < ·))
    (hq : qprev = -1 ∨ qprev = ((n / f : Nat) : Int) ∧ f ≤ n / f) :
    ∃ g ∈ f :: rest, ((pairLoop n f qprev rest).1 = g ∧
      (if (pairLoop n f qprev rest).2 > 0 then (pairLoop n f qprev rest).2
        else ((n / g : Nat) : Int)) = ((n / g : Nat) : Int)) ∧
      (g = f ∨ g ≤ n / g) ∧ ∀ y ∈ f :: rest, y * y ≤ n → y ≤ g := by
  induction rest generalizing f qprev with
  | nil =>
    refine ⟨f, mem_singleton_self f, ⟨rfl, ?_⟩, .inl rfl, fun y hy _ => ?_⟩
    · rw [pairLoop]
      rcases hq with rfl | ⟨rfl, -⟩
      · rfl
      · split <;> rfl
    · rw [mem_singleton.1 hy]
  | cons g rest ih =>
    obtain ⟨hhead, htail⟩ := pairwise_cons.1 hsorted
    have hg : g ∣ n := hc g (by simp)
    have hgpos : 0 < g := Nat.pos_of_dvd_of_pos hg hn
    rw [pairLoop]
    split
    · next hlt =>
      refine ⟨f, mem_cons_self .., ⟨rfl, ?_⟩, .inl rfl, fun y hy hsq => ?_⟩
      · rcases hq with rfl | ⟨rfl, -⟩
        · rfl
        · dsimp only
          split <;> rfl
      · rcases mem_cons.1 hy with rfl | hy
        · exact le_rfl
        · have hgy : g ≤ y := by
            rcases mem_cons.1 hy with rfl | hy
            · exact le_rfl
            · exact ((pairwise_cons.1 htail).1 y hy).le
          have hgg : g * g ≤ n := (Nat.mul_le_mul hgy hgy).trans hsq
          have := (Nat.le_div_iff_mul_le hgpos).2 hgg
          omega
    · next hle =>
      obtain ⟨x, hx, heq, hxor, hbest⟩ := ih (fun y hy => hc y (mem_cons_of_mem _ hy)) htail
        (.inr ⟨rfl, by omega⟩)
      refine ⟨x, mem_cons_of_mem _ hx, heq, .inr ?_, fun y hy hsq => ?_⟩
      · rcases hxor with rfl | hxor
        · omega
        · exact hxor
      · rcases mem_cons.1 hy with rfl | hy
        · have hyx : y < x := hhead x hx
          exact hyx.le
        · exact hbest y hy hsq

theorem getLastD_append (front : List Nat) (h : tail ≠ []) :
    (front ++ tail).getLastD 0 = tail.getLastD 0 := by
  rw [getLastD_eq_getLast?, getLastD_eq_getLast?, List.getLast?_append_of_ne_nil _ h]

theorem LeafOf.pair (h : LeafOf 2 n lo tail front l) (hlo : 0 < lo) (hc : Covers divs n lo) :
    ∃ y ∈ divs, y * y ≤ n ∧ l = n / y :: y :: tail := by
  obtain ⟨y, hy, front', rfl, h'⟩ := h.mem_divs hlo hc
  have hypos : 0 < y := lt_of_lt_of_le hlo (hc.sound y hy).2
  obtain ⟨x, rfl⟩ : ∃ x, front' = [x] := length_eq_one_iff.1 h'.length
  have hx : x = n / y := by simpa using h'.prod
  refine ⟨y, hy, ?_, by rw [h'.eq, hx]; rfl⟩
  have hle : y ≤ n / y := hx ▸ h'.least x (mem_singleton_self x)
  exact (Nat.le_div_iff_mul_le hypos).1 hle

theorem leaf_pair {g : Nat} (hlo : lo ≤ g) (hdvd : g ∣ n) (hle : g ≤ n / g) (tail : List Nat) :
    Leaf 2 n lo tail (n / g :: g :: tail) :=
  ⟨[n / g, g], rfl, by rw [prod_cons, prod_singleton, Nat.div_mul_cancel hdvd],
    pairwise_pair.2 hle, fun y hy => by
      rcases mem_pair.1 hy with rfl | rfl
      · exact hlo.trans hle
      · exact hlo, rfl⟩

theorem optPair_cases {nd : Nat} {min : Int} {st : Search} (hc : Covers divs n lo) (hlo : 0 < lo)
    (hn : 0 < n) :
    (optPair nd n min divs st = st ∧ ∀ tail l, ¬ Leaf 2 n lo tail l) ∨
    ∃ g, lo ≤ g ∧ g ∣ n ∧ g ≤ n / g ∧
      (∀ tail l, Leaf 2 n lo tail l → ∃ y, y ≤ g ∧ n / g ≤ n / y ∧ l = n / y :: y :: tail) ∧
      optPair nd n min divs st =
        if (if nd = 2 then ((n / g : Nat) : Int) - g else ((n / g : Nat) : Int) - min) ≤ st.curbal
        then { st with
          optdims := n / g :: g :: st.trydims.drop 2
          curbal := ((n / g : Nat) : Int) - min }
        else st := by
  cases divs with
  | nil =>
    exact .inl ⟨rfl, fun tail l h => h.false_of_nil hc hlo⟩
  | cons f rest =>
    obtain ⟨g, hg, ⟨hfst, hsnd⟩, hor, hbest⟩ := pairLoop_spec hn (fun y hy => (hc.sound y hy).1)
      hc.sorted (.inl rfl)
    obtain ⟨hdvd, hlog⟩ := hc.sound g hg
    have hopt : optPair nd n min (f :: rest) st =
        if ((n / g : Nat) : Int) < g then st
        else if (if nd = 2 then ((n / g : Nat) : Int) - g else ((n / g : Nat) : Int) - min)
            ≤ st.curbal then
          { st with
            optdims := n / g :: g :: st.trydims.drop 2
            curbal := ((n / g : Nat) : Int) - min }
        else st := by
      simp only [optPair, hfst, hsnd, Int.toNat_natCast]
    have hpair : ∀ tail l, Leaf 2 n lo tail l →
        ∃ y ∈ f :: rest, y * y ≤ n ∧ y ≤ g ∧ l = n / y :: y :: tail := by
      rintro tail l ⟨front, h⟩
      obtain ⟨y, hy, hsq, hl⟩ := h.pair hlo hc
      exact ⟨y, hy, hsq, hbest y hy hsq, hl⟩
    by_cases hlt : n / g < g
    · refine .inl ⟨by rw [hopt, if_pos (by omega)], fun tail l h => ?_⟩
      obtain ⟨y, hy, hsq, hyg, -⟩ := hpair tail l h
      have hgf : g = f := hor.resolve_right (by omega)
      have hfy := hc.le_of_mem hy
      have hgy : g * g ≤ n := by
        have : y = g := by omega
        rwa [← this]
      have hpos : 0 < g := lt_of_lt_of_le hlo hlog
      have := (Nat.le_div_iff_mul_le hpos).2 hgy
      omega
    · refine .inr ⟨g, hlog, hdvd, by omega, fun tail l h => ?_, by rw [hopt, if_neg (by omega)]⟩
      obtain ⟨y, hy, -, hyg, hl⟩ := hpair tail l h
      have hypos : 0 < y := lt_of_lt_of_le hlo (hc.sound y hy).2
      exact ⟨y, hyg, Nat.div_le_div_left hyg hypos, hl⟩

theorem optPair_spec {nd : Nat} {st : Search} (hnd : nd ≠ 2) (hc : Covers divs n lo) (hlo : 0 < lo)
    (hn : 0 < n) (htail : st.trydims.drop 2 ≠ []) :
    Improves (Leaf 2 n lo (st.trydims.drop 2)) st
        (optPair nd n ((st.trydims.drop 2).getLastD 0 : Nat) divs st) ∧
      (optPair nd n ((st.trydims.drop 2).getLastD 0 : Nat) divs st).trydims = st.trydims := by
  rcases @optPair_cases _ _ _ nd ((st.trydims.drop 2).getLastD 0 : Nat) st
    hc hlo hn with ⟨hopt, hnone⟩ | ⟨g, hlog, hdvd, hle, hall, hopt⟩
  · rw [hopt]
    exact ⟨.refl fun l hl => absurd hl (hnone _ l), rfl⟩
  · have hbal : ∀ y, bal (n / y :: y :: st.trydims.drop 2)
        = ((n / y : Nat) : Int) - ((st.trydims.drop 2).getLastD 0 : Nat) := fun y => by
      rw [bal, ← getLastD_append [n / y, y] htail]
      rfl
    have hlast : ∀ y, (n / y :: y :: st.trydims.drop 2).getLastD 0
        = (st.trydims.drop 2).getLastD 0 := fun y => getLastD_append [n / y, y] htail
    rw [hopt, if_neg hnd]
    split
    · next hbetter =>
      refine ⟨.inr ⟨leaf_pair hlog hdvd hle _, (hbal g).symm, hbetter, fun l hl => ?_⟩, rfl⟩
      obtain ⟨y, -, hqy, rfl⟩ := hall _ l hl
      refine ⟨?_, fun _ => ?_⟩
      · rw [hbal]
        dsimp only
        omega
      · rw [hlast]
        exact (hlast g).ge
    · next hworse =>
      refine ⟨.refl fun l hl => ?_, rfl⟩
      obtain ⟨y, -, hqy, rfl⟩ := hall _ l hl
      rw [hbal]
      omega

/-! ### The places behind the first two -/

theorem smallestFactor_none {q : Nat} (hsf : smallestFactor q f rest = none)
    (hc : Covers (f :: rest) n lo) (hlo : 0 < lo) (hq : q ∣ n) (hqn : q ≤ n) :
    rest = [] ∧ ¬ Leaf (k + 2) q f tail l := by
  unfold smallestFactor at hsf
  split at hsf
  · cases hsf
  · next hnot =>
    cases rest with
    | cons g rest => cases hsf
    | nil =>
      refine ⟨rfl, fun hl => hnot ?_⟩
      obtain ⟨front, h⟩ := hl
      obtain ⟨-, hf⟩ := hc.sound f (mem_singleton_self f)
      obtain ⟨y, hy, hdvd, -⟩ := h.mem_divs_of_dvd hf hlo hc hq hqn
      rw [mem_singleton.1 hy] at hdvd
      exact Nat.mod_eq_zero_of_dvd hdvd

theorem leaf_bounds {i sf : Nat} {newdivs : List Nat}
    (hsf : smallestFactor (n / f) f rest = some (sf, newdivs)) (hc : Covers (f :: rest) n lo)
    (hlo : 0 < lo) (h : Leaf (i + 3) n lo tail l) :
    sf ≤ l.headD 0 ∧ sf ^ (i + 2) ≤ n / f := by
  obtain ⟨hdvd, hf⟩ := hc.sound f (mem_cons_self ..)
  have hfpos : 0 < f := lt_of_lt_of_le hlo hf
  rcases (leaf_cons_iff (k := i + 1) hc hlo).1 h with h | h
  · have h' := smallestFactor_le hsf hc (Nat.div_dvd_of_dvd hdvd) (Nat.div_le_self n f) hlo h
    obtain ⟨front, hfront⟩ := h'
    exact ⟨hfront.le_head, hfront.pow_le⟩
  · obtain ⟨front, h⟩ := h
    obtain ⟨y, hy, front', -, hy'⟩ := h.mem_divs (Nat.succ_pos f) hc.of_cons
    have hsfy := smallestFactor_le_of_mem hsf hc hy
    have hfy : f ≤ y := hc.le_of_mem (mem_cons_of_mem _ hy)
    refine ⟨hsfy.trans hy'.le_head, ?_⟩
    calc sf ^ (i + 2) ≤ y ^ (i + 2) := Nat.pow_le_pow_left hsfy _
      _ ≤ n / y := hy'.pow_le
      _ ≤ n / f := Nat.div_le_div_left hfy hfpos

structure Kept (nd idx : Nat) (tail : List Nat) (st : Search) : Prop where
  length : st.trydims.length = nd
  drop : st.trydims.drop idx = tail

theorem Kept.set {nd idx : Nat} {st : Search} (h : Kept nd (idx + 1) tail st) (hidx : idx < nd)
    (f : Nat) : Kept nd idx (f :: tail) { st with trydims := st.trydims.set idx f } where
  length := by rw [length_set, h.length]
  drop := by
    have hlt : idx < (st.trydims.set idx f).length := by
      rw [length_set, h.length]
      exact hidx
    rw [drop_eq_getElem_cons hlt, getElem_set_self, drop_set_of_lt (by omega), h.drop]

theorem Kept.of_cons {nd idx : Nat} {st : Search} (h : Kept nd idx (f :: tail) st) :
    Kept nd (idx + 1) tail st where
  length := h.length
  drop := by rw [← drop_drop, h.drop, drop_one, tail_cons]

/-- What the search for the places before `idx` does, with the last factors `tail`. -/
def SearchSpec (nd idx : Nat) (search : Nat → List Nat → Search → Search) : Prop :=
  ∀ {q f divs tail st}, 0 < q → q ≤ intMax → 0 < f → Covers divs q f →
    Kept nd idx (f :: tail) st →
    Improves (Leaf idx q f (f :: tail)) st (search q divs st) ∧
      Kept nd idx (f :: tail) (search q divs st)

theorem optStep_spec {rec : Nat → List Nat → Search → Search} {nd i sf : Nat} {st : Search}
    {newdivs : List Nat} (hrec : SearchSpec nd (i + 2) rec)
    (hsf : smallestFactor (n / f) f rest = some (sf, newdivs)) (hc : Covers (f :: rest) n lo)
    (hlo : 0 < lo) (hn : 0 < n) (hmax : n ≤ intMax) (hst : Kept nd (i + 3) tail st)
    (hnd : i + 2 < nd) :
    ∃ st', (if newdivs ++ scanDivs (n / f) rest ≠ [] then
        rec (n / f) (newdivs ++ scanDivs (n / f) rest)
          { st with trydims := st.trydims.set (i + 2) f }
        else { st with trydims := st.trydims.set (i + 2) f }) = st' ∧
      Improves (Leaf (i + 2) (n / f) f (f :: tail)) st st' ∧ Kept nd (i + 3) tail st' := by
  obtain ⟨hdvd, hf⟩ := hc.sound f (mem_cons_self ..)
  have hfpos : 0 < f := lt_of_lt_of_le hlo hf
  have hcover := covers_newdivs hsf hc (Nat.div_dvd_of_dvd hdvd) (Nat.div_le_self n f)
    ((Nat.div_le_self n f).trans hmax)
  have hkept := hst.set hnd f
  refine ⟨_, rfl, ?_⟩
  split
  · obtain ⟨himp, hkept'⟩ := hrec (Nat.div_pos (Nat.le_of_dvd hn hdvd) hfpos)
      ((Nat.div_le_self n f).trans hmax) hfpos hcover hkept
    exact ⟨himp, hkept'.of_cons⟩
  · next hnil =>
    rw [not_not] at hnil
    rw [hnil] at hcover
    exact ⟨.inl ⟨rfl, rfl, fun l hl => absurd hl fun h => h.false_of_nil hcover hfpos⟩,
      hkept.of_cons⟩

theorem Leaf.getLastD (h : Leaf k n lo tail l) (hne : tail ≠ []) :
    l.getLastD 0 = tail.getLastD 0 := by
  obtain ⟨front, h⟩ := h
  rw [h.eq]
  exact getLastD_append front hne

theorem leaf_order {i : Nat} {l' : List Nat} (hl : Leaf k n f (f :: tail) l)
    (hl' : Leaf (i + 1) n' (f + 1) tail l') : l.getLastD 0 ≤ l'.getLastD 0 := by
  by_cases htail : tail = []
  · subst htail
    rw [hl.getLastD (cons_ne_nil _ _)]
    obtain ⟨front, h'⟩ := hl'
    obtain ⟨y, front', rfl, hy, -⟩ := h'.split (Nat.succ_pos f)
    rw [h'.eq, append_nil, getLastD_append front' (cons_ne_nil _ _)]
    exact (Nat.le_succ f).trans hy
  · rw [hl.getLastD (cons_ne_nil _ _), hl'.getLastD htail]
    rw [← getLastD_append [f] htail]
    rfl

theorem lt_bal {min curbal : Int} {nd i sf : Nat} (hlen : tail.length + (i + 3) = nd)
    (hmin : tail ≠ [] → min = (tail.getLastD 0 : Nat)) (h : Leaf (i + 3) n lo tail l)
    (hsf : sf ≤ l.headD 0) (hcut : i + 2 < nd - 1 ∧ (sf : Int) - min > curbal) : curbal < bal l := by
  have hne : tail ≠ [] := by
    rintro rfl
    have := hcut.1
    simp at hlen
    omega
  have hlt := hcut.2
  rw [hmin hne] at hlt
  rw [bal, h.getLastD hne]
  omega

theorem optLoop_spec {rec : Nat → List Nat → Search → Search} {nd i : Nat} {min curbal : Int}
    {st : Search} (hrec : SearchSpec nd (i + 2) rec) (hlen : tail.length + (i + 3) = nd)
    (hmin : tail ≠ [] → min = (tail.getLastD 0 : Nat)) (hc : Covers divs n lo) (hlo : 0 < lo)
    (hn : 0 < n) (hmax : n ≤ intMax) (hst : Kept nd (i + 3) tail st) (hcur : st.curbal ≤ curbal) :
    Improves (Leaf (i + 3) n lo tail) st (optLoop rec nd (i + 2) n min curbal divs st) ∧
      Kept nd (i + 3) tail (optLoop rec nd (i + 2) n min curbal divs st) := by
  induction divs generalizing lo st with
  | nil => exact ⟨.refl fun l hl => absurd hl fun h => h.false_of_nil hc hlo, hst⟩
  | cons f rest ih =>
    obtain ⟨hdvd, hf⟩ := hc.sound f (mem_cons_self ..)
    have hfpos : 0 < f := lt_of_lt_of_le hlo hf
    rw [optLoop]
    split
    · -- All lists have a first factor that is not smaller than `f`.
      next hcut =>
      refine ⟨.refl fun l hl => hcur.trans_lt (lt_bal hlen hmin hl ?_ hcut), hst⟩
      obtain ⟨front, h⟩ := hl
      obtain ⟨y, hy, front', -, h'⟩ := h.mem_divs hlo hc
      exact (hc.le_of_mem hy).trans h'.le_head
    · dsimp only
      cases hsf : smallestFactor (n / f) f rest with
      | none =>
        refine ⟨.refl fun l hl => absurd hl fun h => ?_, hst⟩
        obtain ⟨rfl, -⟩ := @smallestFactor_none i _ _ _ (f :: tail) l _ _ hsf hc hlo
          (Nat.div_dvd_of_dvd hdvd) (Nat.div_le_self n f)
        rcases (leaf_cons_iff (k := i + 1) hc hlo).1 h with h | h
        · exact (smallestFactor_none hsf hc hlo (Nat.div_dvd_of_dvd hdvd)
            (Nat.div_le_self n f)).2 h
        · exact h.false_of_nil hc.of_cons (Nat.succ_pos f)
      | some sfn =>
        obtain ⟨sf, newdivs⟩ := sfn
        dsimp only
        split
        · next hcut =>
          exact ⟨.refl fun l hl => hcur.trans_lt
            (lt_bal hlen hmin hl (leaf_bounds hsf hc hlo hl).1 hcut), hst⟩
        · split
          · next hpow =>
            -- The other factors would have a larger product than what is left.
            have hlt := lt_pow_of_powLoop (lt_of_lt_of_le hfpos (le_smallestFactor hsf hc))
              ((Nat.div_le_self n f).trans hmax)
              (square_or ((Nat.div_le_self n f).trans hmax)) hpow
            refine ⟨.refl fun l hl => absurd (leaf_bounds hsf hc hlo hl).2 ?_, hst⟩
            rw [Nat.add_comm] at hlt
            omega
          · obtain ⟨st', hst', himp, hkept⟩ := optStep_spec hrec hsf hc hlo hn hmax hst (by omega)
            rw [hst']
            obtain ⟨himp', hkept'⟩ := ih hc.of_cons (Nat.succ_pos f) hkept
              (himp.curbal_le.trans hcur)
            exact ⟨himp.trans himp' (fun l l' hl hl' => leaf_order hl hl')
              fun l => leaf_cons_iff hc hlo, hkept'⟩

theorem Kept.getD {nd idx : Nat} {st : Search} (h : Kept nd idx tail st) (hne : tail ≠ []) :
    st.trydims.getD (nd - 1) 0 = tail.getLastD 0 := by
  have hlast : st.trydims.getLastD 0 = tail.getLastD 0 := by
    rw [← getLastD_append (st.trydims.take idx) hne, ← h.drop, take_append_drop]
  rw [← hlast, getLastD_eq_getLast?, List.getLast?_eq_getElem?, h.length,
    getD_eq_getElem?_getD]

theorem optbalance_spec {nd : Nat} (hnd : nd ≠ 2) (i : Nat) :
    SearchSpec nd (i + 2) (optbalance nd (i + 1)) := by
  induction i with
  | zero =>
    intro q f divs tail st hq hmax hf hc hst
    have htail : st.trydims.drop 2 ≠ [] := by
      rw [hst.drop]
      exact cons_ne_nil _ _
    have hspec := @optPair_spec _ _ _ _ st hnd hc hf hq htail
    rw [hst.drop] at hspec
    rw [optbalance, hst.getD (cons_ne_nil _ _)]
    exact ⟨hspec.1, by rw [hspec.2]; exact hst.length, by rw [hspec.2]; exact hst.drop⟩
  | succ i ih =>
    intro q f divs tail st hq hmax hf hc hst
    have hlen : (f :: tail).length + (i + 3) = nd := by
      have hdrop := congrArg List.length hst.drop
      rw [length_drop, hst.length, length_cons] at hdrop
      rw [length_cons]
      omega
    exact optLoop_spec ih hlen (fun hne => by rw [hst.getD hne]) hc hf hq hmax hst le_rfl

theorem optbalance_three {nd n : Nat} {st : Search} (hnd : 3 ≤ nd) (hc : Covers divs n 2)
    (hn : 0 < n) (hmax : n ≤ intMax) (hst : st.trydims.length = nd) :
    Improves (Leaf nd n 2 []) st (optbalance nd (nd - 1) n divs st) := by
  obtain ⟨i, rfl⟩ : ∃ i, nd = i + 3 := ⟨nd - 3, by omega⟩
  have hkept : Kept (i + 3) (i + 3) [] st := ⟨hst, drop_eq_nil_of_le hst.le⟩
  exact (optLoop_spec (optbalance_spec (by omega) i) (by simp) (fun h => absurd rfl h) hc
    (by decide) hn hmax hkept le_rfl).1

theorem optbalance_best {nd n : Nat} {st : Search} (hnd : 2 ≤ nd) (hc : Covers divs n 2)
    (hn : 0 < n) (hmax : n ≤ intMax) (hst : st.trydims.length = nd) :
    ((optbalance nd (nd - 1) n divs st).optdims = st.optdims ∧
      ∀ l, Leaf nd n 2 [] l → st.curbal < bal l) ∨
    (Leaf nd n 2 [] (optbalance nd (nd - 1) n divs st).optdims ∧
      ∀ l, Leaf nd n 2 [] l → bal (optbalance nd (nd - 1) n divs st).optdims ≤ bal l ∧
        (bal l = bal (optbalance nd (nd - 1) n divs st).optdims →
          l.getLastD 0 ≤ (optbalance nd (nd - 1) n divs st).optdims.getLastD 0)) := by
  by_cases hthree : 3 ≤ nd
  · rcases optbalance_three hthree hc hn hmax hst with ⟨hopt, -, hworse⟩ | ⟨hmem, hbal, -, hbest⟩
    · exact .inl ⟨hopt, hworse⟩
    · exact .inr ⟨hmem, hbal ▸ hbest⟩
  · obtain rfl : nd = 2 := by omega
    have hnil : st.trydims.drop 2 = [] := drop_eq_nil_of_le hst.le
    rw [show (2 : Nat) - 1 = 1 from rfl, optbalance]
    rcases @optPair_cases _ _ _ 2 (st.trydims.getD 1 0 : Nat) st hc (by decide) hn
      with ⟨hopt, hnone⟩ | ⟨g, hlog, hdvd, hle, hall, hopt⟩
    · rw [hopt]
      exact .inl ⟨rfl, fun l hl => absurd hl (hnone [] l)⟩
    · rw [hopt, if_pos rfl, hnil]
      have hbal : ∀ y, bal [n / y, y] = ((n / y : Nat) : Int) - y := fun y => rfl
      split
      · refine .inr ⟨leaf_pair hlog hdvd hle [], fun l hl => ?_⟩
        obtain ⟨y, hyg, hqy, rfl⟩ := hall [] l hl
        rw [hbal, hbal]
        exact ⟨by omega, fun _ => hyg⟩
      · refine .inl ⟨rfl, fun l hl => ?_⟩
        obtain ⟨y, hyg, hqy, rfl⟩ := hall [] l hl
        rw [hbal]
        omega

end

end PsMpi.Dims
