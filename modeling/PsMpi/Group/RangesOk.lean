import PsMpi.Group.Construct
import Mathlib.Data.List.Nodup
import Mathlib.Data.List.Perm.Subperm

/-!
# Ranks and ranges that are accepted
-/

namespace PsMpi.Groups

open PsMpi.Lib

/-- The last rank of a range can be computed: neither the difference of its ends nor the quotient
overflows. -/
def Range.Computes (r : Range) : Prop :=
  -2 ^ 31 ≤ r.last - r.first ∧ ¬ (r.last - r.first = -2 ^ 31 ∧ r.stride = -1)

/-- The counter of the loop over a range does not overflow behind its last rank. -/
def Range.Ends (r : Range) : Prop := r.first + r.stride * r.count < 2 ^ 31

/-- The check of a range and the loop over it do not overflow. -/
structure Range.Fits (r : Range) : Prop where
  computes : r.Computes
  ends : r.Ends

/-! ## Ranks -/

theorem length_le_of_nodup {size : Nat} {ranks : List Int} (hnd : ranks.Nodup)
    (hb : ∀ r ∈ ranks, 0 ≤ r ∧ r < size) : ranks.length ≤ size := by
  have hsub : ranks ⊆ (List.range size).map Int.ofNat := by
    intro r hr
    obtain ⟨h0, hlt⟩ := hb r hr
    exact List.mem_map.2 ⟨r.toNat, List.mem_range.2 (by omega), Int.toNat_of_nonneg h0⟩
  have hle := (hnd.subperm hsub).length_le
  simpa using hle

theorem checkRanksLoop_spec {size : Nat} (ranks pre : List Int) (flags : List Nat)
    (hb : ∀ r ∈ pre, 0 ≤ r ∧ r < size) (hlen : flags.length = size)
    (hzero : ∀ i, pre.length ≤ i → i < size → flags[i]? = some 0) :
    (checkRanksLoop size ranks pre.length flags = some true → ∀ r ∈ ranks, 0 ≤ r ∧ r < size) ∧
    ((pre ++ ranks).Nodup → checkRanksLoop size ranks pre.length flags ≠ none) := by
  induction ranks generalizing pre flags with
  | nil => exact ⟨fun _ r hr => absurd hr List.not_mem_nil, fun _ => nofun⟩
  | cons r ranks ih =>
    unfold checkRanksLoop
    by_cases hr : r < 0 ∨ (size : Int) ≤ r
    · rw [if_pos hr]
      exact ⟨nofun, fun _ => nofun⟩
    · rw [if_neg hr]
      have hb' : ∀ r' ∈ pre ++ [r], 0 ≤ r' ∧ r' < size := by
        intro r' hr'
        rcases List.mem_append.1 hr' with h | h
        · exact hb r' h
        · rw [List.mem_singleton.1 h]
          omega
      by_cases hi : pre.length < size
      · rw [hzero _ (Nat.le_refl _) hi]
        simp only [Option.bind_eq_bind, Option.bind_some, ne_eq, not_true, if_false]
        have hnext := ih (pre ++ [r]) (flags.set pre.length (pre.length + 1)) hb'
          (by rw [List.length_set, hlen]) (fun i hle hlt => by
            rw [List.length_append, List.length_singleton] at hle
            rw [List.getElem?_set_ne (by omega)]
            exact hzero i (by omega) hlt)
        rw [List.length_append, List.length_singleton, List.append_assoc] at hnext
        refine ⟨fun hok r' hr' => ?_, hnext.2⟩
        rcases List.mem_cons.1 hr' with rfl | hr'
        · omega
        · exact hnext.1 hok r' hr'
      · -- the flag is out of bounds: there are more ranks than the group has
        have hnone : flags[pre.length]? = none := List.getElem?_eq_none (by omega)
        rw [hnone]
        refine ⟨nofun, fun hnd => ?_⟩
        have hpre : (pre ++ [r]).Nodup := by
          refine hnd.sublist ?_
          rw [← List.singleton_append (l := ranks), ← List.append_assoc]
          exact List.sublist_append_left _ _
        have hle := length_le_of_nodup hpre hb'
        rw [List.length_append, List.length_singleton] at hle
        omega

theorem checkValidRanks_spec (g : MpiGroup) (ranks : List Int) :
    (checkValidRanks g ranks = some true → ∀ r ∈ ranks, 0 ≤ r ∧ r < g.size) ∧
    (ranks.Nodup → checkValidRanks g ranks ≠ none) := by
  refine checkRanksLoop_spec ranks [] (List.replicate g.size 0) (by simp) (by simp)
    fun i _ hi => ?_
  rw [List.getElem?_replicate, if_pos hi]

/-! ## Ranges -/

theorem rangeLoop_spec {fuel m : Nat} {j last stride : Int} (hf : m + 2 ≤ fuel)
    (hin : ∀ k : Nat, k ≤ m → (0 < stride ∧ j + stride * k ≤ last) ∨
      (stride ≤ 0 ∧ last ≤ j + stride * k))
    (hout : ¬ ((0 < stride ∧ j + stride * (m + 1 : Nat) ≤ last) ∨
      (stride ≤ 0 ∧ last ≤ j + stride * (m + 1 : Nat))))
    (hint : ∀ k : Nat, k ≤ m → IsInt (j + stride * k)) :
    rangeLoop fuel j last stride = ((List.range (m + 1)).map fun k : Nat => j + stride * k,
      !decide (IsInt (j + stride * (m + 1 : Nat)))) := by
  induction m generalizing fuel j with
  | zero =>
    obtain ⟨fuel, rfl⟩ := Nat.exists_eq_add_of_le' hf
    have h0 : (0 < stride ∧ j ≤ last) ∨ (stride ≤ 0 ∧ last ≤ j) := by
      simpa using hin 0 (Nat.le_refl _)
    have h2 : ¬ ((0 < stride ∧ j + stride ≤ last) ∨ (stride ≤ 0 ∧ last ≤ j + stride)) := by
      simpa using hout
    have hone : stride * ((0 + 1 : Nat) : Int) = stride := Int.mul_one _
    rw [rangeLoop, if_pos h0, hone]
    by_cases h1 : IsInt (j + stride)
    · have hstop : rangeLoop (fuel + 1) (j + stride) last stride = ([], false) := by
        rw [rangeLoop, if_neg h2]
      rw [if_pos h1, hstop, decide_eq_true h1]
      simp
    · rw [if_neg h1, decide_eq_false h1]
      simp
  | succ m ih =>
    obtain ⟨fuel, rfl⟩ := Nat.exists_eq_add_of_le' hf
    have hshift : ∀ k : Nat, j + stride + stride * k = j + stride * (k + 1 : Nat) := by
      intro k
      push_cast
      rw [Int.mul_add, Int.mul_one]
      omega
    have hrest : rangeLoop (fuel + m + 2) (j + stride) last stride = _ := ih (by omega)
      (fun k hk => by rw [hshift]; exact hin (k + 1) (by omega))
      (by rw [hshift]; exact hout) (fun k hk => by rw [hshift]; exact hint (k + 1) (by omega))
    have h0 : (0 < stride ∧ j ≤ last) ∨ (stride ≤ 0 ∧ last ≤ j) := by
      simpa using hin 0 (Nat.zero_le _)
    have h1 : IsInt (j + stride) := by simpa using hint 1 (by omega)
    show rangeLoop (fuel + m + 2 + 1) j last stride = _
    rw [rangeLoop, if_pos h0, if_pos h1, hrest, List.range_succ_eq_map (n := m + 1)]
    rw [List.map_cons, List.map_map, hshift]
    refine Prod.ext (congrArg₂ List.cons (by simp) ?_) rfl
    exact List.map_congr_left fun k _ => hshift k

section ranges

variable {r : Range} {size : Nat}

structure Range.Directed (r : Range) : Prop where
  stride : r.stride ≠ 0
  order : (0 < r.stride → r.first ≤ r.last) ∧ (r.stride < 0 → r.last ≤ r.first)

def Range.ranks (r : Range) : List Int :=
  (List.range r.count.toNat).map fun k : Nat => r.first + r.stride * k

structure Range.Ok (r : Range) (size : Nat) : Prop where
  directed : r.Directed
  members : ∀ j ∈ r.ranks, 0 ≤ j ∧ j < size

theorem Range.Directed.quotient (h : r.Directed) :
    ∃ q : Nat, (r.last - r.first).tdiv r.stride = q ∧ q ≤ (r.last - r.first).natAbs ∧
      ((0 < r.stride ∧ r.stride * q ≤ r.last - r.first ∧ r.last - r.first < r.stride * (q + 1 : Nat)) ∨
      (r.stride < 0 ∧ r.last - r.first ≤ r.stride * q ∧
        r.stride * (q + 1 : Nat) < r.last - r.first)) := by
  rcases Int.lt_or_gt_of_ne h.stride with hs | hs
  · have hd : 0 ≤ r.first - r.last := by have := h.order.2 hs; omega
    obtain ⟨d, hd'⟩ := Int.eq_ofNat_of_zero_le hd
    obtain ⟨s, hs'⟩ := Int.eq_ofNat_of_zero_le (show 0 ≤ -r.stride by omega)
    have hneg : r.last - r.first = -(d : Int) := by omega
    have hstride : r.stride = -(s : Int) := by omega
    have hpos : 0 < s := by omega
    refine ⟨d / s, ?_, ?_, .inr ⟨hs, ?_, ?_⟩⟩
    · rw [hneg, hstride, Int.neg_tdiv, Int.tdiv_neg, Int.neg_neg]
      rfl
    · rw [hneg, Int.natAbs_neg, Int.natAbs_natCast]
      exact Nat.div_le_self d s
    · have := Nat.mul_div_le d s
      rw [hneg, hstride, Int.neg_mul]
      have hcast : ((s * (d / s) : Nat) : Int) ≤ d := by exact_mod_cast this
      rw [Int.natCast_mul] at hcast
      omega
    · have := Nat.lt_mul_div_succ d hpos
      rw [hneg, hstride, Int.neg_mul]
      have hcast : (d : Int) < ((s * (d / s + 1) : Nat) : Int) := by exact_mod_cast this
      rw [Int.natCast_mul] at hcast
      omega
  · have hd : 0 ≤ r.last - r.first := by have := h.order.1 hs; omega
    obtain ⟨d, hd'⟩ := Int.eq_ofNat_of_zero_le hd
    obtain ⟨s, hs'⟩ := Int.eq_ofNat_of_zero_le (Int.le_of_lt hs)
    have hpos : 0 < s := by omega
    refine ⟨d / s, ?_, ?_, .inl ⟨hs, ?_, ?_⟩⟩
    · rw [hd', hs']
      rfl
    · rw [hd', Int.natAbs_natCast]
      exact Nat.div_le_self d s
    · have := Nat.mul_div_le d s
      rw [hd', hs', ← Int.natCast_mul]
      exact_mod_cast this
    · have := Nat.lt_mul_div_succ d hpos
      rw [hd', hs', ← Int.natCast_mul]
      exact_mod_cast this

theorem Range.Directed.count (h : r.Directed) : r.count = (r.ranks.length : Int) ∧ 0 < r.count := by
  obtain ⟨q, hq, -, -⟩ := h.quotient
  rw [Range.ranks, List.length_map, List.length_range, Range.count, hq]
  omega

theorem stride_mul_mono (stride : Int) {k l : Nat} (hkl : k ≤ l) :
    (0 < stride → stride * k ≤ stride * l) ∧ (stride < 0 → stride * l ≤ stride * k) :=
  ⟨fun hs => Int.mul_le_mul_of_nonneg_left (Int.ofNat_le.2 hkl) (Int.le_of_lt hs),
    fun hs => Int.mul_le_mul_of_nonpos_left (Int.le_of_lt hs) (Int.ofNat_le.2 hkl)⟩

theorem Range.Directed.nodup (h : r.Directed) : r.ranks.Nodup := by
  refine List.nodup_range.map_on fun k _ l _ hkl => ?_
  have hmul : r.stride * (k : Int) = r.stride * l := by omega
  exact_mod_cast Int.eq_of_mul_eq_mul_left h.stride hmul

theorem Range.Directed.ok_iff (h : r.Directed) :
    r.Ok size ↔ (0 ≤ r.first ∧ r.first < size) ∧
      0 ≤ r.first + r.stride * (r.last - r.first).tdiv r.stride ∧
      r.first + r.stride * (r.last - r.first).tdiv r.stride < size := by
  obtain ⟨q, hq, -, hrange⟩ := h.quotient
  have hcount : r.count.toNat = q + 1 := by
    rw [Range.count, hq]
    omega
  have hmem : ∀ k : Nat, k ≤ q → r.first + r.stride * k ∈ r.ranks := fun k hk =>
    List.mem_map.2 ⟨k, List.mem_range.2 (by omega), rfl⟩
  rw [hq]
  refine ⟨fun hok => ⟨?_, hok.members _ (hmem q (Nat.le_refl q))⟩, fun hends => ⟨h, fun j hj => ?_⟩⟩
  · have := hok.members _ (hmem 0 (Nat.zero_le q))
    rwa [Int.natCast_zero, Int.mul_zero, Int.add_zero] at this
  · obtain ⟨k, hk, rfl⟩ := List.mem_map.1 hj
    rw [List.mem_range, hcount] at hk
    have h0 := stride_mul_mono r.stride (Nat.zero_le k)
    have h1 := stride_mul_mono r.stride (Nat.le_of_lt_succ hk)
    rw [Int.natCast_zero, Int.mul_zero] at h0
    rcases hrange with ⟨hs, -⟩ | ⟨hs, -⟩
    · have := h0.1 hs
      have := h1.1 hs
      omega
    · have := h0.2 hs
      have := h1.2 hs
      omega

theorem Range.Ok.visit (h : r.Ok size) :
    r.visit = (r.ranks, !decide (IsInt (r.first + r.stride * r.count))) := by
  obtain ⟨q, hq, hle, hrange⟩ := h.directed.quotient
  have hcount : r.count = ((q + 1 : Nat) : Int) := by
    rw [Range.count, hq]
    omega
  have hfirst := (h.directed.ok_iff.1 h).1
  have hlast := r.last_int
  have hint := r.first_int
  unfold IsInt at hlast hint
  have hranks : r.ranks = (List.range (q + 1)).map fun k : Nat => r.first + r.stride * k := by
    rw [Range.ranks, hcount, Int.toNat_natCast]
  rw [hranks, hcount]
  refine rangeLoop_spec (by omega) (fun k hk => ?_) ?_ (fun k hk => ?_)
  · have := stride_mul_mono r.stride hk
    rcases hrange with ⟨hs, h1, -⟩ | ⟨hs, h1, -⟩
    · have := this.1 hs
      exact .inl ⟨hs, by omega⟩
    · have := this.2 hs
      exact .inr ⟨Int.le_of_lt hs, by omega⟩
  · rcases hrange with ⟨hs, -, h2⟩ | ⟨hs, -, h2⟩ <;> omega
  · have h0 := stride_mul_mono r.stride (Nat.zero_le k)
    have h1 := stride_mul_mono r.stride hk
    rw [Int.natCast_zero, Int.mul_zero] at h0
    unfold IsInt
    rcases hrange with ⟨hs, h2, -⟩ | ⟨hs, h2, -⟩
    · have := h0.1 hs
      have := h1.1 hs
      omega
    · have := h0.2 hs
      have := h1.2 hs
      omega

theorem Range.Ok.ends_iff (h : r.Ok size) : IsInt (r.first + r.stride * r.count) ↔ r.Ends := by
  refine ⟨And.right, fun hends => ⟨?_, hends⟩⟩
  obtain ⟨q, hq, -, hrange⟩ := h.directed.quotient
  have hends' := (h.directed.ok_iff.1 h).2.1
  have hstride := r.stride_int.1
  have hcount : r.stride * r.count = r.stride * (r.last - r.first).tdiv r.stride + r.stride := by
    rw [Range.count, Int.mul_add, Int.mul_one, Int.add_comm]
  omega

theorem mul_tdiv_between (d s : Int) :
    (0 ≤ d → 0 ≤ s * d.tdiv s ∧ s * d.tdiv s ≤ d) ∧ (d ≤ 0 → d ≤ s * d.tdiv s ∧ s * d.tdiv s ≤ 0) := by
  have hpos : ∀ n : Nat, 0 ≤ s * (n : Int).tdiv s ∧ s * (n : Int).tdiv s ≤ n := by
    intro n
    have hsum := Int.mul_tdiv_add_tmod n s
    have hmod := Int.tmod_nonneg s (Int.natCast_nonneg n)
    refine ⟨?_, by omega⟩
    have hle : (n : Int).tmod s ≤ n := by
      have := Int.natAbs_tmod n s
      have hm := Nat.mod_le (n : Int).natAbs s.natAbs
      omega
    omega
  constructor
  · intro hd
    obtain ⟨n, rfl⟩ := Int.eq_ofNat_of_zero_le hd
    exact hpos n
  · intro hd
    obtain ⟨n, hn⟩ := Int.eq_ofNat_of_zero_le (Int.neg_nonneg_of_nonpos hd)
    obtain rfl : d = -(n : Int) := by omega
    have := hpos n
    rw [Int.neg_tdiv, Int.mul_neg]
    omega

theorem Range.actLast_eq (hfirst : 0 ≤ r.first) (hs : r.stride ≠ 0) :
    (r.Computes → r.actLast = some (r.first + r.stride * (r.last - r.first).tdiv r.stride)) ∧
    (¬ r.Computes → r.actLast = none) := by
  have hf := r.first_int
  have hl := r.last_int
  unfold IsInt at hf hl
  unfold Range.actLast Range.Computes
  by_cases hd : IsInt (r.last - r.first)
  · rw [fitInt, if_pos hd]
    simp only [Option.bind_eq_bind, Option.bind_some]
    obtain ⟨hnn, hnp⟩ := mul_tdiv_between (r.last - r.first) r.stride
    have habs := Int.natAbs_tdiv_le_natAbs (r.last - r.first) r.stride
    unfold IsInt at hd
    by_cases hq : IsInt ((r.last - r.first).tdiv r.stride)
    · have hp : IsInt (r.stride * (r.last - r.first).tdiv r.stride) := by
        unfold IsInt
        omega
      have hsum : IsInt (r.first + r.stride * (r.last - r.first).tdiv r.stride) := by
        unfold IsInt
        omega
      rw [fitInt, if_pos hq, Option.bind_some, fitInt, if_pos hp, Option.bind_some, fitInt,
        if_pos hsum]
      refine ⟨fun _ => rfl, fun hno => absurd ⟨hd.1, fun hover => ?_⟩ hno⟩
      rw [hover.1, hover.2] at hq
      exact absurd hq (by decide)
    · rw [fitInt, if_neg hq]
      refine ⟨fun hc => absurd ?_ hc.2, fun _ => rfl⟩
      -- only the least `int` divided by minus one overflows
      unfold IsInt at hq
      have hmax : (r.last - r.first).tdiv r.stride = 2 ^ 31 := by omega
      have hmin : r.last - r.first = -2 ^ 31 := by omega
      have hbetween := hnp (by omega)
      rw [hmax] at hbetween
      exact ⟨hmin, by omega⟩
  · rw [fitInt, if_neg hd]
    unfold IsInt at hd
    exact ⟨fun hc => absurd ⟨hc.1, by omega⟩ hd, fun _ => rfl⟩

theorem markRanks_spec (js : List Int) (flags : List Bool)
    (hb : ∀ j ∈ js, 0 ≤ j ∧ j < flags.length) :
    ((js.Nodup ∧ ∀ j ∈ js, flags[j.toNat]? ≠ some true) →
      ∃ flags', markRanks flags js = some (some flags') ∧ flags'.length = flags.length ∧
        ∀ i : Nat, flags'[i]? = some true ↔ flags[i]? = some true ∨ (i : Int) ∈ js) ∧
    (¬ (js.Nodup ∧ ∀ j ∈ js, flags[j.toNat]? ≠ some true) → markRanks flags js = some none) := by
  induction js generalizing flags with
  | nil => exact ⟨fun _ => ⟨flags, rfl, rfl, by simp⟩, fun hno => absurd ⟨.nil, by simp⟩ hno⟩
  | cons j js ih =>
    obtain ⟨hj, hjs⟩ := List.forall_mem_cons.1 hb
    have hin : j.toNat < flags.length := by omega
    rw [markRanks, if_pos ⟨hj.1, hin⟩]
    by_cases hset : flags[j.toNat]? = some true
    · rw [if_pos hset]
      exact ⟨fun hno => absurd hset (hno.2 j List.mem_cons_self), fun _ => rfl⟩
    · rw [if_neg hset]
      obtain ⟨ih₁, ih₂⟩ := ih (flags.set j.toNat true) (by rwa [List.length_set])
      rw [List.length_set] at ih₁
      have hflag : ∀ i : Nat, (flags.set j.toNat true)[i]? = some true ↔
          flags[i]? = some true ∨ (i : Int) = j := by
        intro i
        by_cases heq : j.toNat = i
        · have hi : (i : Int) = j := by rw [← heq, Int.toNat_of_nonneg hj.1]
          rw [List.getElem?_set, if_pos heq, if_pos hin]
          exact iff_of_true rfl (.inr hi)
        · have hi : (i : Int) ≠ j := fun h => heq (by rw [← h, Int.toNat_natCast])
          rw [List.getElem?_set_ne heq]
          exact (or_iff_left hi).symm
      have hiff : ((j :: js).Nodup ∧ ∀ j' ∈ j :: js, flags[j'.toNat]? ≠ some true) ↔
          (js.Nodup ∧ ∀ j' ∈ js, (flags.set j.toNat true)[j'.toNat]? ≠ some true) := by
        rw [List.nodup_cons, List.forall_mem_cons]
        constructor
        · rintro ⟨⟨hnot, hnd⟩, -, hclear⟩
          refine ⟨hnd, fun j' hj' hno => ?_⟩
          rcases (hflag _).1 hno with hbefore | hnow
          · exact hclear j' hj' hbefore
          · rw [Int.toNat_of_nonneg (hjs j' hj').1] at hnow
            exact hnot (hnow ▸ hj')
        · rintro ⟨hnd, hclear⟩
          refine ⟨⟨fun hno => ?_, hnd⟩, hset, fun j' hj' hno => ?_⟩
          · exact hclear j hno ((hflag _).2 (.inr (Int.toNat_of_nonneg hj.1)))
          · exact hclear j' hj' ((hflag _).2 (.inl hno))
      rw [hiff]
      refine ⟨fun hok => ?_, ih₂⟩
      obtain ⟨flags', hrun, hlen, hflags⟩ := ih₁ hok
      refine ⟨flags', hrun, hlen, fun i => ?_⟩
      rw [hflags, hflag, List.mem_cons, or_assoc]

/-- Ranges that list ranks of a group, each at most once. -/
structure RangesOk (size : Nat) (ranges : List Range) : Prop where
  each : ∀ r ∈ ranges, r.Ok size
  nodup : (ranges.flatMap Range.ranks).Nodup

structure Marked (size : Nat) (ranges : List Range) (flags : List Bool) : Prop where
  ok : RangesOk size ranges
  length : flags.length = size
  flags : ∀ i : Nat, flags[i]? = some true ↔ (i : Int) ∈ ranges.flatMap Range.ranks

def Range.Safe (size : Nat) (pre : List Range) (r : Range) : Prop :=
  0 ≤ r.first → r.first < size → r.stride ≠ 0 →
    r.Computes ∧ (0 ≤ r.last → RangesOk size (pre ++ [r]) → r.Ends)

theorem RangesOk.of_append {pre post : List Range} (h : RangesOk size (pre ++ post)) :
    RangesOk size pre := by
  refine ⟨fun r hr => h.each r (List.mem_append_left _ hr), ?_⟩
  have := h.nodup
  rw [List.flatMap_append] at this
  exact this.of_append_left

theorem RangesOk.append_iff {pre : List Range} (h : RangesOk size pre) :
    RangesOk size (pre ++ [r]) ↔
      r.Ok size ∧ ∀ j ∈ r.ranks, j ∉ pre.flatMap Range.ranks := by
  have hflat : (pre ++ [r]).flatMap Range.ranks = pre.flatMap Range.ranks ++ r.ranks := by
    rw [List.flatMap_append, List.flatMap_singleton]
  constructor
  · intro hok
    refine ⟨hok.each r (List.mem_append_right _ List.mem_cons_self), fun j hj hno => ?_⟩
    have hnd := hok.nodup
    rw [hflat] at hnd
    exact (List.nodup_append'.1 hnd).2.2 hno hj
  · rintro ⟨hr, hdis⟩
    refine ⟨fun r' hr' => ?_, ?_⟩
    · rcases List.mem_append.1 hr' with hr' | hr'
      · exact h.each r' hr'
      · exact List.mem_singleton.1 hr' ▸ hr
    · rw [hflat]
      exact List.nodup_append'.2 ⟨h.nodup, hr.directed.nodup, fun j hj hj' => hdis j hj' hj⟩

theorem checkRangesLoop_cases {pre : List Range} {flags : List Bool} (h : Marked size pre flags)
    (r : Range) (rest : List Range) :
    (checkRangesLoop size (r :: rest) flags = some false ∧ r.Safe size pre ∧
      (0 ≤ r.last → ¬ RangesOk size (pre ++ [r]))) ∨
    (checkRangesLoop size (r :: rest) flags = none ∧ ¬ r.Safe size pre) ∨
    (0 ≤ r.last ∧ r.Safe size pre ∧ r.Ends ∧ ∃ flags', Marked size (pre ++ [r]) flags' ∧
      checkRangesLoop size (r :: rest) flags = checkRangesLoop size rest flags') := by
  rw [h.ok.append_iff, checkRangesLoop]
  by_cases h₁ : r.first < 0 ∨ (size : Int) ≤ r.first
  · rw [if_pos h₁]
    refine .inl ⟨rfl, fun h0 hlt => by omega, fun _ hno => ?_⟩
    have := (hno.1.directed.ok_iff.1 hno.1).1
    omega
  by_cases h₂ : r.stride = 0
  · rw [if_neg h₁, if_pos h₂]
    exact .inl ⟨rfl, fun _ _ hne => absurd h₂ hne, fun _ hno => hno.1.directed.stride h₂⟩
  rw [if_neg h₁, if_neg h₂]
  obtain ⟨hdone, hover⟩ := Range.actLast_eq (r := r) (by omega) h₂
  by_cases hcomp : r.Computes
  · rw [hdone hcomp]
    simp only [Option.bind_eq_bind, Option.bind_some]
    by_cases h₃ : r.last < 0 ∨
        (size : Int) ≤ r.first + r.stride * (r.last - r.first).tdiv r.stride
    · rw [if_pos h₃]
      have hnot : 0 ≤ r.last → ¬ r.Ok size := by
        intro h0 hno
        have := ((hno.directed.ok_iff.1 hno).2).2
        omega
      exact .inl ⟨rfl, fun _ _ _ => ⟨hcomp, fun h0 hno =>
        absurd (h.ok.append_iff.1 hno).1 (hnot h0)⟩, fun h0 hno => hnot h0 hno.1⟩
    by_cases h₄ : (0 < r.stride ∧ r.last < r.first) ∨ (r.stride < 0 ∧ r.first < r.last)
    · rw [if_neg h₃, if_pos h₄]
      have hnot : ¬ r.Ok size := by
        intro hno
        have := hno.directed.order
        omega
      exact .inl ⟨rfl, fun _ _ _ => ⟨hcomp, fun _ hno =>
        absurd (h.ok.append_iff.1 hno).1 hnot⟩, fun _ hno => hnot hno.1⟩
    rw [if_neg h₃, if_neg h₄]
    have hdir : r.Directed := ⟨h₂, by omega, by omega⟩
    have hact : 0 ≤ r.first + r.stride * (r.last - r.first).tdiv r.stride := by
      obtain ⟨q, hq, -, hrange⟩ := hdir.quotient
      rw [hq]
      have h0 := stride_mul_mono r.stride (Nat.zero_le q)
      rw [Int.natCast_zero, Int.mul_zero] at h0
      rcases hrange with ⟨hs, -⟩ | ⟨hs, hle, -⟩
      · have := h0.1 hs
        omega
      · omega
    have hok : r.Ok size := hdir.ok_iff.2 (by omega)
    obtain ⟨hmark, hdup⟩ := markRanks_spec r.ranks flags (h.length ▸ hok.members)
    have hclear : (∀ j ∈ r.ranks, flags[j.toNat]? ≠ some true) ↔
        ∀ j ∈ r.ranks, j ∉ pre.flatMap Range.ranks := by
      refine forall₂_congr fun j hj => ?_
      rw [ne_eq, h.flags, Int.toNat_of_nonneg (hok.members j hj).1]
    rw [hclear] at hmark hdup
    rw [hok.visit]
    by_cases hnew : ∀ j ∈ r.ranks, j ∉ pre.flatMap Range.ranks
    · obtain ⟨flags', hrun, hlen, hflags⟩ := hmark ⟨hdir.nodup, hnew⟩
      have hnext := h.ok.append_iff.2 ⟨hok, hnew⟩
      simp only [hrun]
      by_cases hends : r.Ends
      · rw [decide_eq_true (hok.ends_iff.2 hends)]
        refine .inr (.inr ⟨by omega, fun _ _ _ => ⟨hcomp, fun _ _ => hends⟩, hends, flags', ?_, rfl⟩)
        refine ⟨hnext, hlen.trans h.length, fun i => ?_⟩
        rw [hflags, h.flags, List.flatMap_append, List.flatMap_singleton, List.mem_append]
      · rw [decide_eq_false (mt hok.ends_iff.1 hends)]
        exact .inr (.inl ⟨rfl, fun hsafe =>
          hends ((hsafe (by omega) (by omega) h₂).2 (by omega) hnext)⟩)
    · rw [hdup fun hno => hnew hno.2]
      exact .inl ⟨rfl, fun _ _ _ => ⟨hcomp, fun _ hno => absurd (h.ok.append_iff.1 hno).2 hnew⟩,
        fun _ hno => hnew hno.2⟩
  · rw [hover hcomp]
    exact .inr (.inl ⟨rfl, fun hsafe => hcomp (hsafe (by omega) (by omega) h₂).1⟩)

end ranges

structure Visits (size : Nat) (ranges : List Range) : Prop where
  done : ∀ r ∈ ranges, r.visit.2 = false
  count : ((ranges.flatMap fun r => r.visit.1).length : Int) = (ranges.map Range.count).sum
  bound : ∀ j : Int, j ∈ (ranges.flatMap fun r => r.visit.1) → 0 ≤ j ∧ j < size
  nodup : (ranges.flatMap fun r => r.visit.1).Nodup

theorem RangesOk.visits {size : Nat} {ranges : List Range} (h : RangesOk size ranges)
    (hends : ∀ r ∈ ranges, r.Ends) : Visits size ranges := by
  have hvisit : ∀ r ∈ ranges, r.visit = (r.ranks, false) := by
    intro r hr
    rw [(h.each r hr).visit, decide_eq_true ((h.each r hr).ends_iff.2 (hends r hr))]
    rfl
  have hflat : (ranges.flatMap fun r => r.visit.1) = ranges.flatMap Range.ranks :=
    List.flatMap_congr fun r hr => congrArg Prod.fst (hvisit r hr)
  refine ⟨fun r hr => congrArg Prod.snd (hvisit r hr), ?_, fun j hj => ?_, hflat ▸ h.nodup⟩
  · rw [hflat, List.length_flatMap]
    have hcount := fun r hr => (h.each r hr).directed.count.1
    clear hvisit hflat hends h
    induction ranges with
    | nil => rfl
    | cons r ranges ih =>
      obtain ⟨hr, hrest⟩ := List.forall_mem_cons.1 hcount
      rw [List.map_cons, List.sum_cons, List.map_cons, List.sum_cons, Int.natCast_add,
        ih hrest, hr]
  · rw [hflat] at hj
    obtain ⟨r, hr, hj⟩ := List.mem_flatMap.1 hj
    exact (h.each r hr).members j hj

theorem checkRangesLoop_spec {size : Nat} {pre : List Range} {flags : List Bool}
    (ranges : List Range) (h : Marked size pre flags) (hfits : ∀ r ∈ ranges, r.Fits) :
    checkRangesLoop size ranges flags ≠ none ∧
    (checkRangesLoop size ranges flags = some true → RangesOk size (pre ++ ranges)) := by
  induction ranges generalizing pre flags with
  | nil => exact ⟨nofun, fun _ => (List.append_nil pre).symm ▸ h.ok⟩
  | cons r rest ih =>
    obtain ⟨hr, hrest⟩ := List.forall_mem_cons.1 hfits
    have hsafe : r.Safe size pre := fun _ _ _ => ⟨hr.computes, fun _ _ => hr.ends⟩
    rcases checkRangesLoop_cases h r rest with ⟨hrun, -⟩ | ⟨-, hno⟩ | ⟨-, -, -, flags', hm, hrun⟩
    · rw [hrun]
      exact ⟨nofun, nofun⟩
    · exact absurd hsafe hno
    · rw [hrun]
      have := ih hm hrest
      rwa [List.append_assoc] at this

theorem marked_nil (size : Nat) : Marked size [] (List.replicate size false) := by
  refine ⟨⟨fun _ hr => absurd hr List.not_mem_nil, List.nodup_nil⟩, List.length_replicate,
    fun i => iff_of_false (fun hno => ?_) List.not_mem_nil⟩
  rw [List.getElem?_replicate] at hno
  exact absurd (Option.ite_none_right_eq_some.1 hno).2 (by decide)

theorem checkValidRanges_spec (g : MpiGroup) {ranges : List Range} (hfits : ∀ r ∈ ranges, r.Fits) :
    checkValidRanges g ranges ≠ none ∧
    (checkValidRanges g ranges = some true → Visits g.size ranges) := by
  obtain ⟨hne, hok⟩ := checkRangesLoop_spec ranges (marked_nil g.size) hfits
  exact ⟨hne, fun h => (hok h).visits fun r hr => (hfits r hr).ends⟩

theorem Visits.visitAll {size : Nat} {ranges : List Range} (h : Visits size ranges) :
    visitAll ranges = some (ranges.flatMap fun r => r.visit.1) := by
  rw [Groups.visitAll, if_neg]
  rw [List.any_eq_true]
  rintro ⟨r, hr, hover⟩
  rw [h.done r hr] at hover
  cases hover

end PsMpi.Groups
