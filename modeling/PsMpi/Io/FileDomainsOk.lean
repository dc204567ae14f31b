import PsMpi.Io.FileDomains
import Mathlib.Data.List.Forall2
import Mathlib.Tactic.Linarith
import Mathlib.Tactic.Ring

/-!
# File domains partition the range
-/

namespace PsMpi.Io

open PsMpi.Lib

/-! ## The range -/

section range

variable {a x : Int} {l st en : List Int}

theorem foldl_min_le_iff : l.foldl min a ≤ x ↔ a ≤ x ∨ ∃ s ∈ l, s ≤ x := by
  induction l generalizing a with
  | nil => simp
  | cons b l ih =>
    rw [List.foldl_cons, ih, min_le_iff, List.exists_mem_cons_iff, or_assoc]

theorem le_foldl_max_iff : x ≤ l.foldl max a ↔ x ≤ a ∨ ∃ e ∈ l, x ≤ e := by
  induction l generalizing a with
  | nil => simp
  | cons b l ih =>
    rw [List.foldl_cons, ih, le_max_iff, List.exists_mem_cons_iff, or_assoc]

theorem minStOffset_le_iff (hne : st ≠ []) : minStOffset st ≤ x ↔ ∃ s ∈ st, s ≤ x := by
  obtain ⟨a, l, rfl⟩ := List.exists_cons_of_ne_nil hne
  rw [List.exists_mem_cons_iff]
  exact foldl_min_le_iff

theorem le_maxEndOffset_iff (hne : en ≠ []) : x ≤ maxEndOffset en ↔ ∃ e ∈ en, x ≤ e := by
  obtain ⟨a, l, rfl⟩ := List.exists_cons_of_ne_nil hne
  rw [List.exists_mem_cons_iff]
  exact le_foldl_max_iff

def InRange (stOffsets endOffsets : List Int) (x : Int) : Prop :=
  (∃ s ∈ stOffsets, s ≤ x) ∧ ∃ e ∈ endOffsets, x ≤ e

end range

/-! ## Boundaries -/

/-- The boundaries of domains: the start and the end of the range, the size of a domain, the number
of domains, and the size of a stripe. -/
structure Bounds where
  lo : Int
  hi : Int
  fdSize : Int
  n : Nat
  unit : Nat

namespace Bounds

variable (b : Bounds)

def boundary (i : Nat) : Int :=
  if i = 0 then b.lo
  else if 0 < b.unit then nearest b.unit (b.lo + b.fdSize * i) else b.lo + b.fdSize * i

def cut (i : Nat) : Int :=
  if i = 0 then b.lo else if i = b.n then b.hi + 1 else min (b.boundary i) (b.hi + 1)

def domain (i : Nat) : Int × Int :=
  if b.hi < b.boundary i then (-1, -1) else (b.cut i, b.cut (i + 1) - 1)

structure Ok : Prop where
  lo_nonneg : 0 ≤ b.lo
  lo_le : b.lo ≤ b.hi
  fdSize_pos : 0 < b.fdSize
  n_pos : 0 < b.n
  hi_lt : b.hi < b.lo + b.fdSize * b.n

end Bounds

def Owns (d : Int × Int) (x : Int) : Prop := 0 ≤ d.1 ∧ d.1 ≤ x ∧ x ≤ d.2

section bounds

variable {b : Bounds} {u i j : Nat} {x y : Int}

theorem nearest_mono (hu : 0 < u) (h : x ≤ y) : nearest u x ≤ nearest u y := by
  have hx := Int.mul_ediv_add_emod x u
  have hy := Int.mul_ediv_add_emod y u
  have hx0 := Int.emod_nonneg x (show (u : Int) ≠ 0 by omega)
  have hy0 := Int.emod_nonneg y (show (u : Int) ≠ 0 by omega)
  have hxu := Int.emod_lt_of_pos x (show (0 : Int) < u by omega)
  have hyu := Int.emod_lt_of_pos y (show (0 : Int) < u by omega)
  have hq : x / u ≤ y / u := Int.ediv_le_ediv (by omega) h
  rcases hq.eq_or_lt with heq | hlt
  · rw [heq] at hx
    unfold nearest
    dsimp only
    split <;> split <;> omega
  · -- The multiples of the unit on both sides are ordered.
    have hmul : (u : Int) * (x / u + 1) ≤ u * (y / u) :=
      Int.mul_le_mul_of_nonneg_left (by omega) (by omega)
    rw [mul_add, mul_one] at hmul
    unfold nearest
    dsimp only
    split <;> split <;> omega

theorem nearest_nonneg (hu : 0 < u) (h : 0 ≤ x) : 0 ≤ nearest u x := by
  have hzero : nearest u 0 = 0 := by
    unfold nearest
    simp [hu]
  exact hzero ▸ nearest_mono hu h

namespace Bounds

theorem boundary_nonneg (hb : b.Ok) (i : Nat) : 0 ≤ b.boundary i := by
  have hlo := hb.lo_nonneg
  have hpos : 0 ≤ b.lo + b.fdSize * i := add_nonneg hlo (mul_nonneg hb.fdSize_pos.le (by omega))
  unfold boundary
  split
  · exact hlo
  · split
    · exact nearest_nonneg ‹_› hpos
    · exact hpos

theorem boundary_mono (hb : b.Ok) (hi : 0 < i) (hij : i ≤ j) : b.boundary i ≤ b.boundary j := by
  have hmul : b.fdSize * i ≤ b.fdSize * j :=
    Int.mul_le_mul_of_nonneg_left (by omega) hb.fdSize_pos.le
  rw [boundary, boundary, if_neg hi.ne', if_neg (hi.trans_le hij).ne']
  split
  · exact nearest_mono ‹_› (by omega)
  · omega

theorem cut_mono (hb : b.Ok) (i j : Nat) (hi : 0 < i) (hij : i ≤ j) (hj : j ≤ b.n) :
    b.cut i ≤ b.cut j := by
  have := boundary_mono hb hi hij
  rw [cut, cut, if_neg hi.ne', if_neg (hi.trans_le hij).ne']
  split
  · next h => rw [if_pos (by omega)]
  · split <;> omega

theorem cut_le (hb : b.Ok) (i : Nat) : b.cut i ≤ b.hi + 1 := by
  have := hb.lo_le
  unfold cut
  split
  · omega
  · split <;> omega

theorem cut_zero : b.cut 0 = b.lo := if_pos rfl

theorem cut_n (hb : b.Ok) : b.cut b.n = b.hi + 1 := by
  rw [cut, if_neg hb.n_pos.ne', if_pos rfl]

theorem cut_eq_boundary (hi : i < b.n) (h : b.boundary i ≤ b.hi) : b.cut i = b.boundary i := by
  unfold cut
  split
  · next h0 => rw [h0, boundary, if_pos rfl]
  · rw [if_neg hi.ne]
    omega

theorem owns_domain (hb : b.Ok) (hi : i < b.n) :
    Owns (b.domain i) x ↔ b.cut i ≤ x ∧ x < b.cut (i + 1) := by
  have hle := cut_le hb (i + 1)
  rw [domain, Owns]
  split
  · next h =>
    have hcut : b.cut i = b.hi + 1 := by
      have hne : i ≠ 0 := fun h0 => by
        rw [h0, boundary, if_pos rfl] at h
        exact absurd hb.lo_le (by omega)
      rw [cut, if_neg hne, if_neg hi.ne]
      omega
    exact ⟨fun h => by simp at h, fun h => by omega⟩
  · next h =>
    have hcut := cut_eq_boundary hi (not_lt.1 h)
    have := boundary_nonneg hb i
    simp only
    omega

theorem domain_snd_lt (hb : b.Ok) (hij : j < i) (hi : i < b.n) (hx : b.cut i ≤ x) (h0 : 0 ≤ x) :
    (b.domain j).2 < x := by
  have := cut_mono hb (j + 1) i (Nat.succ_pos j) hij hi.le
  unfold domain
  split
  · simp only
    omega
  · simp only
    omega

theorem cut_div (hb : b.Ok) (hu : b.unit = 0) (hlo : b.lo ≤ x) (hhi : x ≤ b.hi) :
    ((x - b.lo) / b.fdSize).toNat < b.n ∧ b.cut ((x - b.lo) / b.fdSize).toNat ≤ x ∧
      x < b.cut (((x - b.lo) / b.fdSize).toNat + 1) := by
  have hf := hb.fdSize_pos
  have hq : 0 ≤ (x - b.lo) / b.fdSize := Int.ediv_nonneg (by omega) hf.le
  obtain ⟨i, hi⟩ := Int.eq_ofNat_of_zero_le hq
  have hdiv := Int.mul_ediv_add_emod (x - b.lo) b.fdSize
  have hmod := Int.emod_nonneg (x - b.lo) hf.ne'
  have hmod' := Int.emod_lt_of_pos (x - b.lo) hf
  rw [hi] at hdiv ⊢
  rw [Int.toNat_natCast]
  have hbound : ∀ k : Nat, b.boundary k = b.lo + b.fdSize * k := fun k => by
    unfold boundary
    split
    · next h => rw [h, Nat.cast_zero, mul_zero, add_zero]
    · rw [if_neg (by omega)]
  have hsucc : b.fdSize * ((i + 1 : Nat) : Int) = b.fdSize * i + b.fdSize := by
    rw [Nat.cast_succ, mul_add, mul_one]
  have hin : i < b.n := by
    by_contra hn
    have hmul : b.fdSize * b.n ≤ b.fdSize * i :=
      Int.mul_le_mul_of_nonneg_left (by omega) hf.le
    have := hb.hi_lt
    omega
  refine ⟨hin, ?_, ?_⟩
  · rw [cut_eq_boundary hin (by rw [hbound]; omega), hbound]
    omega
  · rw [cut, if_neg (Nat.succ_ne_zero i)]
    split
    · omega
    · rw [hbound, hsucc]
      omega

end Bounds

end bounds

/-! ## Computing the domains -/

section compute

variable {b : Bounds} {i k : Nat} {x : Int} {l : List (Int × Int)}

structure Bounds.Fits (b : Bounds) : Prop where
  count : b.n * 2 ≤ intMax
  size : IsInt64 (b.lo + b.fdSize * b.n)
  nearest : 0 < b.unit → IsInt64 (nearest b.unit (b.lo + b.fdSize * b.n))

theorem boundary_succ_striped (hu : 0 < b.unit) (i : Nat) :
    b.boundary (i + 1) = nearest b.unit (b.lo + b.fdSize * (i + 1 : Nat)) := by
  rw [Bounds.boundary, if_neg (Nat.succ_ne_zero i), if_pos hu]

theorem boundary_succ_plain (hu : b.unit = 0) (i : Nat) :
    b.boundary (i + 1) = b.boundary i + b.fdSize := by
  have hnot : ¬ 0 < b.unit := by omega
  simp only [Bounds.boundary, if_neg (Nat.succ_ne_zero i), if_neg hnot]
  split
  · next h => rw [h]; simp
  · rw [Nat.cast_succ]; ring

theorem stripedDomains_eq (hb : b.Ok) (hu : 0 < b.unit) (hf : b.Fits) (hk : i + k ≤ b.n) :
    stripedDomains b.unit b.lo b.fdSize i k (b.boundary i) =
      some ((List.range' i k).map fun j => (b.boundary j, b.boundary (j + 1) - 1)) := by
  induction k generalizing i with
  | zero => rfl
  | succ k ih =>
    have hlo := hb.lo_nonneg
    have hpos : 0 ≤ b.fdSize * (i + 1) := mul_nonneg hb.fdSize_pos.le (by omega)
    have hmul : b.fdSize * ((i : Int) + 1) ≤ b.fdSize * b.n :=
      Int.mul_le_mul_of_nonneg_left (by omega) hb.fdSize_pos.le
    have h1 : IsInt64 (b.fdSize * (i + 1)) := hf.size.of_le hpos (by omega)
    have h2 : IsInt64 (b.lo + b.fdSize * (i + 1)) := hf.size.of_le (by omega) (by omega)
    have h3 : IsInt64 (nearest b.unit (b.lo + b.fdSize * (i + 1))) :=
      (hf.nearest hu).of_le (nearest_nonneg hu (by omega)) (nearest_mono hu (by omega))
    have hnext := boundary_succ_striped hu i
    rw [Nat.cast_succ] at hnext
    simp only [stripedDomains, Option.bind_eq_bind, fitInt64_of_fits h1, fitInt64_of_fits h2,
      fitInt64_of_fits h3, Option.bind_some]
    rw [← hnext, ih (by omega), Option.bind_some, List.range'_succ, List.map_cons]
    rfl

theorem plainDomains_eq (hb : b.Ok) (hu : b.unit = 0) (hf : b.Fits) (hk : i + k ≤ b.n) :
    plainDomains b.fdSize k (b.boundary i) =
      some ((List.range' i k).map fun j => (b.boundary j, b.boundary (j + 1) - 1)) := by
  induction k generalizing i with
  | zero => rfl
  | succ k ih =>
    have hnot : ¬ 0 < b.unit := by omega
    have hmul : b.fdSize * ((i + 1 : Nat) : Int) ≤ b.fdSize * b.n :=
      Int.mul_le_mul_of_nonneg_left (by omega) hb.fdSize_pos.le
    have hsucc : b.boundary (i + 1) = b.lo + b.fdSize * ((i + 1 : Nat) : Int) := by
      rw [Bounds.boundary, if_neg (Nat.succ_ne_zero i), if_neg hnot]
    have h1 : IsInt64 (b.boundary (i + 1)) :=
      hf.size.of_le (Bounds.boundary_nonneg hb _) (by omega)
    rw [plainDomains, ← boundary_succ_plain hu, fitInt64_of_fits h1, Option.bind_eq_bind,
      Option.bind_some, ih (by omega), Option.bind_eq_bind, Option.bind_some, List.range'_succ,
      List.map_cons]
    rfl

theorem setLastEnd_eq (e : Int) : setLastEnd e
    ((List.range' i (k + 1)).map fun j => (b.boundary j, b.boundary (j + 1) - 1)) =
      (List.range' i (k + 1)).map fun j =>
        (b.boundary j, if j = i + k then e else b.boundary (j + 1) - 1) := by
  induction k generalizing i with
  | zero => simp [setLastEnd]
  | succ k ih =>
    have hstep : ∀ j, (j = i + 1 + k) = (j = i + (k + 1)) := fun j => by
      rw [Nat.add_right_comm]
      rfl
    have htail := @ih (i + 1)
    simp only [hstep] at htail
    rw [List.range'_succ, List.map_cons, List.map_cons, if_neg (show ¬ i = i + (k + 1) by omega),
      ← htail, List.range'_succ, List.map_cons]
    rfl

theorem clip_eq (hb : b.Ok) (hi : i < b.n) : clipDomain b.hi
    (b.boundary i, if i + 1 = b.n ∧ 0 < b.unit then b.hi else b.boundary (i + 1) - 1) =
      b.domain i := by
  have hlt := hb.hi_lt
  have hcut := Bounds.cut_le hb (i + 1)
  unfold clipDomain Bounds.domain
  by_cases hs : b.hi < b.boundary i
  · rw [if_pos hs, if_pos hs]
  · have hfst := Bounds.cut_eq_boundary hi (not_lt.1 hs)
    have hsnd : b.cut (i + 1) - 1 = min
        (if i + 1 = b.n ∧ 0 < b.unit then b.hi else b.boundary (i + 1) - 1) b.hi := by
      by_cases hn : i + 1 = b.n
      · rw [hn, Bounds.cut_n hb]
        by_cases hu : 0 < b.unit
        · rw [if_pos ⟨rfl, hu⟩]
          omega
        · have hlast : b.boundary b.n = b.lo + b.fdSize * b.n := by
            rw [Bounds.boundary, if_neg hb.n_pos.ne', if_neg hu]
          rw [if_neg fun h => hu h.2, hlast]
          omega
      · rw [if_neg fun h => hn h.1, Bounds.cut, if_neg (Nat.succ_ne_zero i), if_neg hn]
        omega
    rw [if_neg hs, if_neg hs, hfst, hsnd]
    generalize (if i + 1 = b.n ∧ 0 < b.unit then b.hi else b.boundary (i + 1) - 1) = e
    simp only
    split
    · next h => rw [min_eq_right h.le]
    · next h => rw [min_eq_left (not_lt.1 h)]

theorem domains_eq (hb : b.Ok) (hf : b.Fits) :
    (allDomains b.n b.unit b.lo b.hi b.fdSize).map (fun l => l.map (clipDomain b.hi)) =
      some ((List.range b.n).map b.domain) := by
  rw [allDomains, if_neg (not_lt.2 hf.count)]
  have hzero : b.lo = b.boundary 0 := by rw [Bounds.boundary, if_pos rfl]
  have hclip : ∀ i ∈ List.range b.n, clipDomain b.hi
      (b.boundary i, if i + 1 = b.n ∧ 0 < b.unit then b.hi else b.boundary (i + 1) - 1) =
        b.domain i := fun i hi => clip_eq hb (List.mem_range.1 hi)
  by_cases hu : 0 < b.unit
  · obtain ⟨k, hk⟩ := Nat.exists_eq_succ_of_ne_zero hb.n_pos.ne'
    have hstriped := @stripedDomains_eq b 0 b.n hb hu hf (Nat.zero_add _).le
    rw [← hzero] at hstriped
    rw [if_pos hu, hstriped, Option.map_some, Option.map_some]
    refine congrArg some ?_
    have hlast : ∀ j, (j + 1 = b.n ∧ 0 < b.unit) = (j = 0 + k) := fun j => by
      simp only [hu, and_true, hk, Nat.zero_add, Nat.succ_eq_add_one, Nat.add_right_cancel_iff]
    simp only [hlast] at hclip
    have hset := @setLastEnd_eq b 0 k b.hi
    rw [hk] at hclip ⊢
    rw [hset, ← List.range_eq_range', List.map_map]
    exact List.map_congr_left hclip
  · have hplain := @plainDomains_eq b 0 b.n hb (by omega) hf (Nat.zero_add _).le
    rw [← hzero] at hplain
    rw [if_neg hu, hplain, Option.map_some, ← List.range_eq_range', List.map_map]
    have hlast : ∀ j, ¬ (j + 1 = b.n ∧ 0 < b.unit) := fun j h => hu h.2
    simp only [if_neg (hlast _)] at hclip
    exact congrArg some (List.map_congr_left hclip)

theorem striped_fits (h : stripedDomains b.unit b.lo b.fdSize i (k + 1) x = some l) :
    IsInt64 (b.lo + b.fdSize * (i + k + 1 : Nat)) ∧
      IsInt64 (nearest b.unit (b.lo + b.fdSize * (i + k + 1 : Nat))) := by
  induction k generalizing i x l with
  | zero =>
    simp only [stripedDomains, Option.bind_eq_bind, Option.bind_eq_some_iff, fitInt64_eq_some] at h
    obtain ⟨_, ⟨-, rfl⟩, _, ⟨h1, rfl⟩, _, ⟨h2, rfl⟩, -⟩ := h
    exact ⟨h1, h2⟩
  | succ k ih =>
    rw [stripedDomains] at h
    simp only [Option.bind_eq_bind, Option.bind_eq_some_iff] at h
    obtain ⟨_, -, _, -, _, -, rest, h, -⟩ := h
    have := ih h
    rwa [Nat.add_right_comm i 1 k] at this

theorem plain_fits (h : plainDomains b.fdSize (k + 1) x = some l) :
    IsInt64 (x + b.fdSize * (k + 1 : Nat)) := by
  induction k generalizing x l with
  | zero =>
    simp only [plainDomains, Option.bind_eq_bind, Option.bind_eq_some_iff, fitInt64_eq_some] at h
    obtain ⟨_, ⟨h1, rfl⟩, -⟩ := h
    simpa using h1
  | succ k ih =>
    rw [plainDomains] at h
    simp only [Option.bind_eq_bind, Option.bind_eq_some_iff, fitInt64_eq_some] at h
    obtain ⟨_, ⟨-, rfl⟩, rest, h, -⟩ := h
    have := ih h
    rwa [show x + b.fdSize * (k + 1 + 1 : Nat) = x + b.fdSize + b.fdSize * (k + 1 : Nat) by
      rw [Nat.cast_succ (k + 1)]; ring]

end compute

/-! ## Aggregators -/

section aggregator

variable {b : Bounds} {ranklist : List Nat} {off len : Int}

theorem scanDomains_eq {l : List (Int × Int)} {i : Nat} {d : Int × Int} (hd : l[i]? = some d)
    (hle : off ≤ d.2) (hlt : ∀ j < i, ∀ d', l[j]? = some d' → d'.2 < off) :
    scanDomains off l = some i := by
  induction l generalizing i with
  | nil => cases hd
  | cons a l ih =>
    cases i with
    | zero =>
      obtain rfl : a = d := by simpa using hd
      exact if_neg (not_lt.2 hle)
    | succ i =>
      have ha : a.2 < off := hlt 0 (Nat.succ_pos i) a rfl
      rw [scanDomains, if_pos ha, ih (by simpa using hd)
        (fun j hj d' hd' => hlt (j + 1) (Nat.succ_lt_succ hj) d' (by simpa using hd')),
        Option.map_some]

def Bounds.domains (b : Bounds) : Domains := ⟨b.lo, (List.range b.n).map b.domain, b.fdSize⟩

theorem domains_getElem? {i : Nat} (hi : i < b.n) : b.domains.domains[i]? = some (b.domain i) := by
  rw [Bounds.domains, List.getElem?_map, List.getElem?_range hi, Option.map_some]

theorem calcAggregator_eq (hb : b.Ok) (hfit : IsInt64 (b.hi - b.lo + b.fdSize))
    (hend : IsInt64 (b.hi + 1)) (hn : b.n * 2 ≤ intMax) (hrl : ranklist.length = b.n)
    (hlo : b.lo ≤ off) (hhi : off ≤ b.hi) :
    ∃ i r, i < b.n ∧ ranklist[i]? = some r ∧ b.cut i ≤ off ∧ off < b.cut (i + 1) ∧
      calcAggregator ranklist b.unit b.domains off len =
        some (r, min len (b.cut (i + 1) - off)) := by
  have hlo0 := hb.lo_nonneg
  have hf := hb.fdSize_pos
  obtain ⟨i, hin, hcut, hnext, hidx⟩ : ∃ i, i < b.n ∧ b.cut i ≤ off ∧ off < b.cut (i + 1) ∧
      rankIndex b.unit b.domains off = some ((i : Nat) : Int) := by
    have hsum : IsInt64 (off - b.domains.minSt + b.domains.fdSize) :=
      hfit.of_le (add_nonneg (sub_nonneg.2 hlo) hf.le)
        (Int.add_le_add_right (Int.sub_le_sub_right hhi b.lo) b.fdSize)
    rw [rankIndex, fitInt64_of_fits hsum, Option.bind_eq_bind, Option.bind_some]
    by_cases hu : 0 < b.unit
    · obtain ⟨i, -, hin, hcut, hnext⟩ := exists_cut (Nat.zero_le b.n)
        (show b.cut 0 ≤ off by rwa [Bounds.cut_zero]) (show off < b.cut b.n by
          rw [Bounds.cut_n hb]; omega)
      have howns := (Bounds.owns_domain hb hin).2 ⟨hcut, hnext⟩
      refine ⟨i, hin, hcut, hnext, ?_⟩
      rw [if_pos hu, scanDomains_eq (domains_getElem? hin) howns.2.2, Option.map_some]
      intro j hj d' hd'
      rw [domains_getElem? (hj.trans hin)] at hd'
      cases hd'
      exact Bounds.domain_snd_lt hb hj hin hcut (hlo0.trans hlo)
    · obtain ⟨hin, hcut, hnext⟩ := Bounds.cut_div hb (by omega) hlo hhi
      refine ⟨_, hin, hcut, hnext, ?_⟩
      change (if 0 < b.unit then _ else some (wrapInt ((off - b.lo + b.fdSize) / b.fdSize - 1))) = _
      have hq : 0 ≤ (off - b.lo) / b.fdSize := Int.ediv_nonneg (by omega) hf.le
      have hdiv : (off - b.lo + b.fdSize) / b.fdSize - 1 = (off - b.lo) / b.fdSize := by
        rw [Int.add_ediv_of_dvd_right (dvd_refl _), Int.ediv_self hf.ne']
        omega
      have hsmall : (off - b.lo) / b.fdSize < 2 ^ 31 := by
        unfold intMax at hn
        omega
      rw [if_neg hu, hdiv, wrapInt_of_lt hq hsmall, Int.toNat_of_nonneg hq]
  have hle := Bounds.cut_le hb (i + 1)
  have howns := (Bounds.owns_domain hb hin).2 ⟨hcut, hnext⟩
  have hdom : (b.domain i).2 + 1 = b.cut (i + 1) := by
    unfold Bounds.domain at howns ⊢
    split
    · next h => simp [if_pos h, Owns] at howns
    · simp
  have hfdEnd : IsInt64 (b.cut (i + 1)) := hend.of_le (by omega) (by omega)
  have hbad : ¬ ((ranklist.length : Int) ≤ (i : Int) ∨ (i : Int) < 0) := by omega
  obtain ⟨r, hrank⟩ : ∃ r, ranklist[i]? = some r :=
    ⟨_, List.getElem?_eq_getElem (show i < ranklist.length from hrl ▸ hin)⟩
  refine ⟨i, r, hin, hrank, hcut, hnext, ?_⟩
  have hmin : (if b.cut (i + 1) - off < len then b.cut (i + 1) - off else len) =
      min len (b.cut (i + 1) - off) := by
    split <;> omega
  simp only [calcAggregator, hidx, Option.bind_eq_bind, Option.bind_some, if_neg hbad,
    Int.toNat_natCast, domains_getElem? hin, hdom, fitInt64_of_fits hfdEnd, hrank, hmin]
  rfl

end aggregator

/-! ## Requests -/

section requests

def InDomain (d : Domains) (ranklist : List Nat) (p : Piece) : Prop :=
  ∃ (i : Nat) (di : Int × Int), d.domains[i]? = some di ∧ ranklist[i]? = some p.1 ∧
    Owns di p.2.1 ∧ Owns di (p.2.1 + p.2.2 - 1)

def Aggregates (d : Domains) (ranklist : List Nat) (unit : Nat) (lo hi : Int) : Prop :=
  ∀ off len, lo ≤ off → off ≤ hi → 0 < len → ∃ r len',
    calcAggregator ranklist unit d off len = some (r, len') ∧ 0 < len' ∧ len' ≤ len ∧
      InDomain d ranklist (r, off, len')

variable {d : Domains} {ranklist : List Nat} {unit nprocs : Nat} {lo hi off len : Int}

theorem accessLoop_eq (h : Aggregates d ranklist unit lo hi) {fuel : Nat} (hpos : 0 < len)
    (hfuel : len < fuel) (hlo : lo ≤ off) (hhi : off + len - 1 ≤ hi) :
    ∃ ps : List Piece, Tiles off len (ps.map Prod.snd) ∧ (∀ p ∈ ps, InDomain d ranklist p) ∧
      ∀ (σ : Type) (upd : σ → Piece → Option σ) (s : σ),
        accessLoop ranklist unit d upd fuel off len s = ps.foldlM upd s := by
  induction fuel generalizing off len with
  | zero => exact absurd hfuel (by omega)
  | succ fuel ih =>
    obtain ⟨r, len', hcalc, h0, hle, hin⟩ := h off len hlo (by omega) hpos
    by_cases hrem : len - len' = 0
    · refine ⟨[(r, off, len')], ⟨rfl, h0, hle, hrem⟩, fun p hp => ?_, fun σ upd s => ?_⟩
      · rwa [List.mem_singleton.1 hp]
      · simp only [accessLoop, hcalc, hrem, Option.bind_eq_bind, Option.bind_some, List.foldlM_cons,
          List.foldlM_nil]
        rfl
    · obtain ⟨ps, htiles, hps, hloop⟩ := @ih (off + len') (len - len') (by omega) (by omega)
        (by omega) (by omega)
      refine ⟨(r, off, len') :: ps, ⟨rfl, h0, hle, htiles⟩, fun p hp => ?_, fun σ upd s => ?_⟩
      · rcases List.mem_cons.1 hp with rfl | hp
        · exact hin
        · exact hps p hp
      · simp only [accessLoop, hcalc, ne_eq, hrem, not_false_eq_true, if_true, Option.bind_eq_bind,
          Option.bind_some, List.foldlM_cons, hloop]

theorem accessesLoop_eq (h : Aggregates d ranklist unit lo hi) {accesses : List (Int × Int)}
    (hacc : ∀ a ∈ accesses, 0 ≤ a.2 ∧ (0 < a.2 → lo ≤ a.1 ∧ a.1 + a.2 - 1 ≤ hi)) :
    ∃ pss : List (List Piece),
      List.Forall₂ (fun a ps => Tiles a.1 a.2 (ps.map Prod.snd)) accesses pss ∧
      (∀ p ∈ pss.flatten, InDomain d ranklist p) ∧
      ∀ (σ : Type) (upd : σ → Piece → Option σ) (s : σ),
        accessesLoop ranklist unit d upd accesses s = pss.flatten.foldlM upd s := by
  induction accesses with
  | nil => exact ⟨[], .nil, nofun, fun _ _ _ => rfl⟩
  | cons a accesses ih =>
    obtain ⟨off, len⟩ := a
    obtain ⟨pss, htiles, hps, hloop⟩ := ih fun a ha => hacc a (List.mem_cons_of_mem _ ha)
    obtain ⟨h0, hin⟩ := hacc _ List.mem_cons_self
    by_cases hlen : len = 0
    · refine ⟨[] :: pss, .cons hlen htiles, hps, fun σ upd s => ?_⟩
      rw [accessesLoop, if_pos hlen, hloop, List.flatten_cons, List.nil_append]
    · have hpos : 0 < len := lt_of_le_of_ne h0 (Ne.symm hlen)
      obtain ⟨hlo, hhi⟩ := hin hpos
      have hfuel : len < ((len.toNat + 1 : Nat) : Int) := by omega
      obtain ⟨ps, htile, hp, hacc'⟩ := accessLoop_eq h hpos hfuel hlo hhi
      refine ⟨ps :: pss, .cons htile htiles, fun p hmem => ?_, fun σ upd s => ?_⟩
      · rcases List.mem_append.1 hmem with hmem | hmem
        · exact hp p hmem
        · exact hps p hmem
      · rw [accessesLoop, if_neg hlen, hacc', List.flatten_cons, List.foldlM_append]
        exact congrArg _ (funext fun s => hloop σ upd s)

def piecesFor (ps : List Piece) (r : Nat) : List (Int × Int) :=
  (ps.filter fun p => p.1 = r).map Prod.snd

theorem piecesFor_cons (p : Piece) (ps : List Piece) (r : Nat) :
    piecesFor (p :: ps) r = if p.1 = r then p.2 :: piecesFor ps r else piecesFor ps r := by
  unfold piecesFor
  by_cases h : p.1 = r <;> simp [h]

theorem foldlM_countPiece {ps : List Piece} (h : ∀ p ∈ ps, p.1 < nprocs) (counts : Nat → Nat) :
    ps.foldlM (countPiece nprocs) counts =
      some fun r => counts r + (piecesFor ps r).length := by
  induction ps generalizing counts with
  | nil => rfl
  | cons p ps ih =>
    have hp : p.1 < nprocs := h p List.mem_cons_self
    rw [List.foldlM_cons, countPiece, if_pos hp, Option.bind_eq_bind, Option.bind_some,
      ih fun q hq => h q (List.mem_cons_of_mem p hq)]
    refine congrArg some (funext fun r => ?_)
    rw [piecesFor_cons]
    by_cases hr : p.1 = r
    · subst hr
      rw [Function.update_self, if_pos rfl, List.length_cons]
      omega
    · rw [Function.update_of_ne (Ne.symm hr), if_neg hr]

theorem foldlM_recordPiece {counts : Nat → Nat} {ps : List Piece} {s : MyReq}
    (h : ∀ r, (s.reqs r).length + (piecesFor ps r).length ≤ counts r) :
    ∃ s', ps.foldlM (recordPiece counts) s = some s' ∧
      ∀ r, s'.reqs r = s.reqs r ++ piecesFor ps r := by
  induction ps generalizing s with
  | nil => exact ⟨s, rfl, fun r => (List.append_nil _).symm⟩
  | cons p ps ih =>
    have hroom : (s.reqs p.1).length < counts p.1 := by
      have := h p.1
      rw [piecesFor_cons, if_pos rfl, List.length_cons] at this
      omega
    have hstep : ∀ r, Function.update s.reqs p.1 (s.reqs p.1 ++ [p.2]) r ++ piecesFor ps r =
        s.reqs r ++ piecesFor (p :: ps) r := fun r => by
      rw [piecesFor_cons]
      by_cases hr : p.1 = r
      · subst hr
        rw [Function.update_self, if_pos rfl, List.append_assoc, List.singleton_append]
      · rw [Function.update_of_ne (Ne.symm hr), if_neg hr]
    rw [List.foldlM_cons, recordPiece, if_pos hroom, Option.bind_eq_bind, Option.bind_some]
    obtain ⟨s', hs', hreqs⟩ := ih (s := ⟨Function.update s.reqs p.1 (s.reqs p.1 ++ [p.2]),
      if s.bufIdx p.1 = -1 then Function.update s.bufIdx p.1 s.currIdx else s.bufIdx,
      s.currIdx + p.2.2⟩) fun r => by
        rw [← List.length_append, hstep, List.length_append]
        exact h r
    exact ⟨s', hs', fun r => (hreqs r).trans (hstep r)⟩

end requests

/-! ## The whole computation -/

section whole

variable (stOffsets endOffsets : List Int) (n minFdSize unit : Nat) (ranklist : List Nat)
  (nprocs : Nat)

structure DomainsOk (d : Domains) : Prop where
  disjoint : ∀ (i j : Nat) (di dj : Int × Int) (x : Int), d.domains[i]? = some di →
    d.domains[j]? = some dj →
      Owns di x → Owns dj x → i = j
  cover : ∀ x, (∃ di ∈ d.domains, Owns di x) ↔ InRange stOffsets endOffsets x
  aggregator : ∀ off len, InRange stOffsets endOffsets off → 0 < len → ∃ r len',
    calcAggregator ranklist unit d off len = some (r, len') ∧ 0 < len' ∧ len' ≤ len ∧
      InDomain d ranklist (r, off, len')
  requests : ∀ accesses : List (Int × Int),
    (∀ a ∈ accesses, 0 ≤ a.2 ∧ (0 < a.2 → InRange stOffsets endOffsets a.1 ∧
      InRange stOffsets endOffsets (a.1 + a.2 - 1))) →
    ∃ req pss, calcMyReq nprocs ranklist unit d accesses = some req ∧
      List.Forall₂ (fun a ps => Tiles a.1 a.2 (ps.map Prod.snd)) accesses pss ∧
      (∀ p ∈ pss.flatten, InDomain d ranklist p) ∧
      ∀ r, req.myReq.reqs r = piecesFor pss.flatten r ∧
        (req.myReq.reqs r).length = req.countMyReqPerProc r

def callBounds : Bounds where
  lo := minStOffset stOffsets
  hi := maxEndOffset endOffsets
  fdSize := max ((maxEndOffset endOffsets - minStOffset stOffsets + 1 + n - 1) / n) minFdSize
  n := n
  unit := unit

structure Representable (b : Bounds) : Prop extends b.Fits where
  range : IsInt64 (b.hi - b.lo + 1 + b.n)
  last : IsInt64 (b.hi - b.lo + b.fdSize)

def StartsInside (b : Bounds) : Prop :=
  b.unit = 0 ∨ b.n = 1 ∨ b.lo ≤ nearest b.unit (b.lo + b.fdSize)

variable {stOffsets endOffsets n minFdSize unit ranklist nprocs}

section domains

variable {b : Bounds}

theorem Bounds.Ok.aggregates (hb : b.Ok) (hrep : Representable b) (hrl : ranklist.length = b.n) :
    Aggregates b.domains ranklist b.unit b.lo b.hi := by
  intro off len hlo hhi hpos
  have hlt := hb.hi_lt
  have hlo0 := hb.lo_nonneg
  have hrange := hb.lo_le
  have hend : IsInt64 (b.hi + 1) := hrep.size.of_le (by omega) hlt
  obtain ⟨i, r, hi, hrank, hcut, hnext, hcalc⟩ := @calcAggregator_eq b ranklist off len hb
    hrep.last hend hrep.count hrl hlo hhi
  refine ⟨r, _, hcalc, by omega, min_le_left _ _, i, b.domain i, domains_getElem? hi, hrank,
    (Bounds.owns_domain hb hi).2 ⟨hcut, hnext⟩, (Bounds.owns_domain hb hi).2 ?_⟩
  simp only
  omega

theorem mem_domains {i : Nat} {di : Int × Int} (h : b.domains.domains[i]? = some di) :
    i < b.n ∧ b.domain i = di := by
  rw [Bounds.domains, List.getElem?_map] at h
  obtain ⟨j, hj, rfl⟩ := Option.map_eq_some_iff.1 h
  obtain ⟨hi, hj⟩ := List.getElem?_eq_some_iff.1 hj
  rw [List.getElem_range] at hj
  rw [List.length_range] at hi
  exact ⟨hi, hj ▸ rfl⟩

theorem Bounds.Ok.disjoint (hb : b.Ok) {i j : Nat} {di dj : Int × Int} {x : Int}
    (hdi : b.domains.domains[i]? = some di) (hdj : b.domains.domains[j]? = some dj)
    (hxi : Owns di x) (hxj : Owns dj x) : i = j := by
  obtain ⟨hi, rfl⟩ := mem_domains hdi
  obtain ⟨hj, rfl⟩ := mem_domains hdj
  exact cut_unique (Bounds.cut_mono hb) hi hj ((Bounds.owns_domain hb hi).1 hxi)
    ((Bounds.owns_domain hb hj).1 hxj)

theorem owns_iff (hb : b.Ok) {x : Int} : (∃ di ∈ b.domains.domains, Owns di x) ↔
    ∃ i < b.n, b.cut i ≤ x ∧ x < b.cut (i + 1) := by
  constructor
  · rintro ⟨di, hdi, hx⟩
    obtain ⟨i, hget⟩ := List.getElem?_of_mem hdi
    obtain ⟨hi, rfl⟩ := mem_domains hget
    exact ⟨i, hi, (Bounds.owns_domain hb hi).1 hx⟩
  · rintro ⟨i, hi, hx⟩
    exact ⟨_, List.mem_of_getElem? (domains_getElem? hi), (Bounds.owns_domain hb hi).2 hx⟩

theorem Bounds.Ok.cover (hb : b.Ok) (hstart : StartsInside b) {x : Int} :
    (∃ di ∈ b.domains.domains, Owns di x) ↔ b.lo ≤ x ∧ x ≤ b.hi := by
  rw [owns_iff hb]
  constructor
  · rintro ⟨i, hi, hcut, hnext⟩
    have hle := Bounds.cut_le hb (i + 1)
    refine ⟨?_, by omega⟩
    rcases Nat.eq_zero_or_pos i with rfl | hpos
    · rwa [Bounds.cut_zero] at hcut
    · have hmono := Bounds.cut_mono hb 1 i Nat.one_pos hpos hi.le
      have hrange := hb.lo_le
      have hf := hb.fdSize_pos
      have hfirst : b.lo ≤ b.cut 1 := by
        rw [Bounds.cut, if_neg Nat.one_ne_zero]
        split
        · omega
        · refine le_min ?_ (by omega)
          rw [Bounds.boundary, if_neg Nat.one_ne_zero, Nat.cast_one, mul_one]
          split
          · rcases hstart with h | h | h
            · omega
            · omega
            · exact h
          · omega
      omega
  · rintro ⟨hlo, hhi⟩
    obtain ⟨i, -, hi, hx⟩ := exists_cut (Nat.zero_le b.n)
      (show b.cut 0 ≤ x by rwa [Bounds.cut_zero]) (show x < b.cut b.n by
        rw [Bounds.cut_n hb]; omega)
    exact ⟨i, hi, hx⟩

theorem Bounds.Ok.startsInside (hb : b.Ok)
    (h : ∀ x, (∃ di ∈ b.domains.domains, Owns di x) → b.lo ≤ x) : StartsInside b := by
  by_contra hnot
  rw [StartsInside, not_or, not_or, not_le] at hnot
  obtain ⟨hu, hn, hlt⟩ := hnot
  have hrange := hb.lo_le
  have hpos := hb.n_pos
  have hcut : b.cut 1 = nearest b.unit (b.lo + b.fdSize) := by
    rw [Bounds.cut, if_neg Nat.one_ne_zero, if_neg (Ne.symm hn), Bounds.boundary,
      if_neg Nat.one_ne_zero, if_pos (Nat.pos_of_ne_zero hu), Nat.cast_one, mul_one]
    exact min_eq_left (by omega)
  obtain ⟨i, -, hi, hx⟩ := exists_cut (show 1 ≤ b.n by omega) (le_refl (b.cut 1))
    (show b.cut 1 < b.cut b.n by rw [Bounds.cut_n hb]; omega)
  have := h _ ((owns_iff hb).2 ⟨i, hi, hx⟩)
  omega

theorem fits_of_calcAggregator {off len : Int} {r : Nat × Int}
    (h : calcAggregator ranklist b.unit b.domains off len = some r) :
    IsInt64 (off - b.lo + b.fdSize) := by
  rw [calcAggregator, Option.bind_eq_bind, Option.bind_eq_some_iff] at h
  obtain ⟨index, hindex, -⟩ := h
  rw [rankIndex, Option.bind_eq_bind, Option.bind_eq_some_iff] at hindex
  obtain ⟨_, hsum, -⟩ := hindex
  exact (fitInt64_eq_some.1 hsum).1

theorem requests_ok {d : Domains} {lo hi : Int} (h : Aggregates d ranklist unit lo hi)
    (hr : ∀ r ∈ ranklist, r < nprocs) {accesses : List (Int × Int)}
    (hacc : ∀ a ∈ accesses, 0 ≤ a.2 ∧ (0 < a.2 → lo ≤ a.1 ∧ a.1 + a.2 - 1 ≤ hi)) :
    ∃ req pss, calcMyReq nprocs ranklist unit d accesses = some req ∧
      List.Forall₂ (fun a ps => Tiles a.1 a.2 (ps.map Prod.snd)) accesses pss ∧
      (∀ p ∈ pss.flatten, InDomain d ranklist p) ∧
      ∀ r, req.myReq.reqs r = piecesFor pss.flatten r ∧
        (req.myReq.reqs r).length = req.countMyReqPerProc r := by
  obtain ⟨pss, htiles, hin, hloop⟩ := accessesLoop_eq h hacc
  have hlt : ∀ p ∈ pss.flatten, p.1 < nprocs := fun p hp => by
    obtain ⟨i, di, -, hrank, -⟩ := hin p hp
    exact hr _ (List.mem_of_getElem? hrank)
  have hcount := foldlM_countPiece hlt fun _ => 0
  simp only [Nat.zero_add] at hcount
  obtain ⟨s, hs, hreqs⟩ := @foldlM_recordPiece (fun r => (piecesFor pss.flatten r).length)
    pss.flatten ⟨fun _ => [], fun _ => -1, 0⟩ fun r => (Nat.zero_add _).le
  have hcalc : ∃ k, calcMyReq nprocs ranklist unit d accesses =
      some ⟨fun r => (piecesFor pss.flatten r).length, k, s⟩ := by
    rw [calcMyReq, hloop, hcount, Option.bind_eq_bind, Option.bind_some, hloop, hs]
    exact ⟨_, rfl⟩
  obtain ⟨k, hk⟩ := hcalc
  exact ⟨_, pss, hk, htiles, hin, fun r => ⟨hreqs r, congrArg List.length (hreqs r)⟩⟩

end domains

section inRange

variable {x : Int} (hne : stOffsets ≠ []) (hle : List.Forall₂ (· ≤ ·) stOffsets endOffsets)

include hne hle

theorem inRange_iff : InRange stOffsets endOffsets x ↔
    minStOffset stOffsets ≤ x ∧ x ≤ maxEndOffset endOffsets := by
  have hne' : endOffsets ≠ [] := fun h =>
    hne (List.forall₂_nil_right_iff.1 (h ▸ hle))
  rw [minStOffset_le_iff hne, le_maxEndOffset_iff hne', InRange]

theorem callBounds_ok (h0 : ∀ s ∈ stOffsets, 0 ≤ s) (hn : 0 < n) :
    (callBounds stOffsets endOffsets n minFdSize unit).Ok := by
  have hlo : 0 ≤ minStOffset stOffsets := by
    by_contra h
    obtain ⟨s, hs, hlt⟩ := (minStOffset_le_iff (x := -1) hne).1 (by omega)
    have := h0 s hs
    omega
  have hrange : minStOffset stOffsets ≤ maxEndOffset endOffsets := by
    cases hle with
    | nil => exact absurd rfl hne
    | @cons s e st en hse hle =>
      have h1 := (minStOffset_le_iff (x := s) hne).2 ⟨s, List.mem_cons_self, le_rfl⟩
      have h2 := (le_maxEndOffset_iff (x := e) (List.cons_ne_nil e en)).2
        ⟨e, List.mem_cons_self, le_rfl⟩
      omega
  have hdiv := Int.mul_ediv_add_emod
    (maxEndOffset endOffsets - minStOffset stOffsets + 1 + n - 1) n
  have hmod := Int.emod_lt_of_pos
    (maxEndOffset endOffsets - minStOffset stOffsets + 1 + n - 1) (show (0 : Int) < n by omega)
  have hceil : (0 : Int) < (maxEndOffset endOffsets - minStOffset stOffsets + 1 + n - 1) / n :=
    Int.le_ediv_of_mul_le (by omega) (by omega)
  refine ⟨hlo, hrange, lt_max_of_lt_left hceil, hn, ?_⟩
  have hmul : ((maxEndOffset endOffsets - minStOffset stOffsets + 1 + n - 1) / n) * (n : Int) ≤
      max ((maxEndOffset endOffsets - minStOffset stOffsets + 1 + n - 1) / n) minFdSize * n :=
    Int.mul_le_mul_of_nonneg_right (le_max_left _ _) (by omega)
  rw [mul_comm] at hmul
  change maxEndOffset endOffsets < minStOffset stOffsets +
    max ((maxEndOffset endOffsets - minStOffset stOffsets + 1 + n - 1) / n) minFdSize * n
  omega

end inRange

theorem calcFdSize_eq_some {lo hi f : Int} (hn : 0 < n) (hle : lo ≤ hi) :
    calcFdSize lo hi n minFdSize = some f ↔
      IsInt64 (hi - lo + 1 + n) ∧ max ((hi - lo + 1 + n - 1) / n) minFdSize = f := by
  have hmax : (if (hi - lo + 1 + n - 1) / (n : Int) < minFdSize then (minFdSize : Int)
      else (hi - lo + 1 + n - 1) / n) = max ((hi - lo + 1 + n - 1) / n) minFdSize := by
    split
    · next h => rw [max_eq_right h.le]
    · next h => rw [max_eq_left (not_lt.1 h)]
  simp only [calcFdSize, Option.bind_eq_bind, Option.bind_eq_some_iff, fitInt64_eq_some]
  constructor
  · rintro ⟨_, ⟨-, rfl⟩, _, ⟨hfit, rfl⟩, h⟩
    exact ⟨hfit, hmax ▸ Option.some.inj h⟩
  · rintro ⟨hfit, rfl⟩
    exact ⟨_, ⟨hfit.of_le (by omega) (by omega), rfl⟩, _, ⟨hfit, rfl⟩, congrArg some hmax⟩

theorem calcFileDomains_eq {d : Domains}
    (hb : (callBounds stOffsets endOffsets n minFdSize unit).Ok) :
    calcFileDomains stOffsets endOffsets n minFdSize unit = some d ↔
      IsInt64 (maxEndOffset endOffsets - minStOffset stOffsets + 1 + n) ∧
      (callBounds stOffsets endOffsets n minFdSize unit).Fits ∧
      (callBounds stOffsets endOffsets n minFdSize unit).domains = d := by
  have hsize := fun f => @calcFdSize_eq_some n minFdSize (minStOffset stOffsets)
    (maxEndOffset endOffsets) f hb.n_pos hb.lo_le
  simp only [calcFileDomains, Option.bind_eq_bind, Option.bind_eq_some_iff, hsize]
  constructor
  · rintro ⟨_, ⟨hrange, rfl⟩, l, hl, h⟩
    have hfits : (callBounds stOffsets endOffsets n minFdSize unit).Fits := by
      obtain ⟨k, hk⟩ := Nat.exists_eq_succ_of_ne_zero hb.n_pos.ne'
      obtain rfl : n = k + 1 := hk
      unfold allDomains at hl
      split at hl
      · cases hl
      · next hcount =>
        split at hl
        · next hu =>
          obtain ⟨l', hl', -⟩ := Option.map_eq_some_iff.1 hl
          have := @striped_fits (callBounds stOffsets endOffsets (k + 1) minFdSize unit) 0 k _ _ hl'
          rw [Nat.zero_add] at this
          exact ⟨not_lt.1 hcount, this.1, fun _ => this.2⟩
        · next hu =>
          have := @plain_fits (callBounds stOffsets endOffsets (k + 1) minFdSize unit) k _ _ hl
          exact ⟨not_lt.1 hcount, this, fun h => absurd h hu⟩
    refine ⟨hrange, hfits, ?_⟩
    have hdomains := domains_eq hb hfits
    have hmap := congrArg (Option.map fun l => l.map (clipDomain (maxEndOffset endOffsets))) hl
    rw [Bounds.domains, ← Option.some.inj (hmap.symm.trans hdomains)]
    exact Option.some.inj h
  · rintro ⟨hrange, hfits, rfl⟩
    obtain ⟨l, hl, hmap⟩ := Option.map_eq_some_iff.1 (domains_eq hb hfits)
    exact ⟨_, ⟨hrange, rfl⟩, l, hl, by rw [Bounds.domains, ← hmap]; rfl⟩

/-- The domains are what they are for if and only if no number leaves 64 bits and the second
boundary is not before the range. -/
theorem file_domains_ok (hne : stOffsets ≠ []) (hle : List.Forall₂ (· ≤ ·) stOffsets endOffsets)
    (h0 : ∀ s ∈ stOffsets, 0 ≤ s) (hn : 0 < n) (hrl : ranklist.length = n)
    (hr : ∀ r ∈ ranklist, r < nprocs) :
    (∃ d, calcFileDomains stOffsets endOffsets n minFdSize unit = some d ∧
      DomainsOk stOffsets endOffsets unit ranklist nprocs d) ↔
      Representable (callBounds stOffsets endOffsets n minFdSize unit) ∧
      StartsInside (callBounds stOffsets endOffsets n minFdSize unit) := by
  have hb := @callBounds_ok stOffsets endOffsets n minFdSize unit hne hle h0 hn
  have hin := fun x => @inRange_iff stOffsets endOffsets x hne hle
  have hcalc := fun d => @calcFileDomains_eq stOffsets endOffsets n minFdSize unit d hb
  constructor
  · rintro ⟨d, hd, hok⟩
    obtain ⟨hrange, hfits, rfl⟩ := (hcalc d).1 hd
    refine ⟨⟨hfits, hrange, ?_⟩, hb.startsInside fun x hx => ?_⟩
    · have hend : InRange stOffsets endOffsets (maxEndOffset endOffsets) :=
        (hin _).2 ⟨hb.lo_le, le_rfl⟩
      obtain ⟨r, len', hagg, -⟩ := hok.aggregator _ 1 hend Int.one_pos
      exact fits_of_calcAggregator hagg
    · exact ((hin x).1 ((hok.cover x).1 hx)).1
  · rintro ⟨hrep, hstart⟩
    have hagg := hb.aggregates hrep hrl
    refine ⟨_, (hcalc _).2 ⟨hrep.range, hrep.toFits, rfl⟩, ?_⟩
    constructor
    · exact fun i j di dj x hdi hdj => hb.disjoint hdi hdj
    · exact fun x => (hb.cover hstart).trans (hin x).symm
    · exact fun off len hoff hpos =>
        hagg off len ((hin off).1 hoff).1 ((hin off).1 hoff).2 hpos
    · exact fun accesses hacc => requests_ok hagg hr fun a ha => ⟨(hacc a ha).1, fun hpos =>
        ⟨((hin _).1 ((hacc a ha).2 hpos).1).1, ((hin _).1 ((hacc a ha).2 hpos).2).2⟩⟩

end whole

/-! ## Ranges that begin inside of a stripe -/

theorem file_domains_ok_two : ∃ d, calcFileDomains [10, 60] [59, 109] 2 0 32 = some d ∧
    DomainsOk [10, 60] [59, 109] 32 [0, 1] 2 d :=
  (@file_domains_ok [10, 60] [59, 109] 2 0 32 [0, 1] 2 (by decide)
    (.cons (by decide) (.cons (by decide) .nil)) (by decide) (by decide) rfl (by decide)).2
    ⟨⟨⟨by decide, by decide, fun _ => by decide⟩, by decide, by decide⟩, .inr (.inr (by decide))⟩

/-- The range from 5 to 24 at two aggregators with stripes of 100 bytes: the boundary at 15 is
rounded down to 0, and the second domain begins before the range. -/
theorem file_domains_before :
    calcFileDomains [5] [24] 2 0 100 = some ⟨5, [(5, -1), (0, 24)], 10⟩ ∧
      ¬ ∃ d, calcFileDomains [5] [24] 2 0 100 = some d ∧ DomainsOk [5] [24] 100 [0, 1] 2 d := by
  have hcalc : calcFileDomains [5] [24] 2 0 100 = some ⟨5, [(5, -1), (0, 24)], 10⟩ := by decide
  refine ⟨hcalc, ?_⟩
  rintro ⟨d, hd, hok⟩
  rw [hcalc] at hd
  cases hd
  obtain ⟨⟨s, hs, hle⟩, -⟩ := (hok.cover 0).1 ⟨(0, 24), by simp, by simp [Owns]⟩
  obtain rfl := List.mem_singleton.1 hs
  exact absurd hle (by decide)

end PsMpi.Io
