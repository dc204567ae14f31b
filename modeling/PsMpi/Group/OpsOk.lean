import PsMpi.Group.Construct
import PsMpi.Group.SortOk

/-!
# What the group operations compute
-/

open List Option

namespace PsMpi.Groups

open PsMpi.Lib

def MpiGroup.lpidAt (g : MpiGroup) (i : Nat) : Nat := g.lpids.getD i 0

def rankOf (me : Nat) (lpids : List Nat) : Int :=
  if me ∈ lpids then (lpids.idxOf me : Int) else undefined

/-- Following the links from the first one visits every index of the group once, with increasing
ids, and ends with `-1`. -/
def MpiGroup.InOrder (g : MpiGroup) : Prop :=
  ∃ l, Follows (links id g.lrankToLpid) g.idxOfFirstLpid l ∧ l.Perm (List.range g.size) ∧
    l.Pairwise fun i j => g.lpidAt i < g.lpidAt j

/-- A group that represents its members rightly: the ids are distinct, their order is right if it
has been set up, and the rank is that of the calling process. -/
structure MpiGroup.Wf (me : Nat) (g : MpiGroup) : Prop where
  nodup : g.lpids.Nodup
  order : g.idxOfFirstLpid ≠ -1 → g.InOrder
  rank : g.rank = rankOf me g.lpids

section entries

variable {g : MpiGroup} {me : Nat}

@[simp] theorem length_lpids : g.lpids.length = g.size := length_map _

theorem keyOf_lpidAt : KeyOf g.lrankToLpid g.lpidAt := by
  intro n e he
  rw [MpiGroup.lpidAt, MpiGroup.lpids, getD_eq_getElem?_getD, List.getElem?_map, he]
  rfl

theorem lpidAt_eq {i : Nat} (h : i < g.lpids.length) : g.lpidAt i = g.lpids[i] := by
  rw [MpiGroup.lpidAt, getD_eq_getElem?_getD, List.getElem?_eq_getElem h]
  rfl

theorem map_lpidAt_range : (List.range g.size).map g.lpidAt = g.lpids := by
  refine ext_getElem (by simp) fun i h₁ h₂ => ?_
  rw [getElem_map, getElem_range, lpidAt_eq h₂]

theorem lpidAt_mem {i : Nat} (h : i < g.size) : g.lpidAt i ∈ g.lpids := by
  rw [← map_lpidAt_range]
  exact mem_map_of_mem (mem_range.2 h)

theorem mem_map_lpidAt {l : List Nat} (h : l.Perm (List.range g.size)) (x : Nat) :
    x ∈ l.map g.lpidAt ↔ x ∈ g.lpids := by
  rw [(h.map g.lpidAt).mem_iff, map_lpidAt_range]

theorem MpiGroup.Wf.eq_rank_iff (h : g.Wf me) {i : Nat} (hi : i < g.size) :
    (i : Int) = g.rank ↔ g.lpidAt i = me := by
  have hlen : i < g.lpids.length := by rwa [length_lpids]
  have hat : g.lpidAt i = g.lpids[i] := lpidAt_eq hlen
  rw [h.rank, rankOf]
  constructor
  · intro heq
    split at heq
    · next hm =>
      obtain rfl : i = g.lpids.idxOf me := by exact_mod_cast heq
      rw [hat, getElem_idxOf]
    · unfold undefined at heq
      omega
  · intro heq
    have hm : me ∈ g.lpids := heq ▸ lpidAt_mem hi
    rw [if_pos hm, ← heq, hat, h.nodup.idxOf_getElem]

end entries

structure SameGroup (me : Nat) (g g' : MpiGroup) : Prop where
  wf : g'.Wf me
  lpids : g'.lpids = g.lpids
  dense : g'.isLocalDenseMonotonic = g.isLocalDenseMonotonic

theorem needLpidList_spec {g : MpiGroup} {me : Nat} (h : g.Wf me) :
    ∃ g', needLpidList g = some g' ∧ SameGroup me g g' ∧ g'.InOrder := by
  by_cases hidx : g.idxOfFirstLpid = -1
  · obtain ⟨a, first, hrun, hids, l, hfol, hperm, hsort⟩ :=
      mergesortLpidarray_spec (keyOf_lpidAt (g := g)) (Nat.le_add_right g.size 2)
    have hlen : a.length = g.size := by simpa [MpiGroup.size] using congrArg List.length hids
    have hat : ∀ i, MpiGroup.lpidAt { g with lrankToLpid := a, idxOfFirstLpid := first } i =
        g.lpidAt i := by
      intro i
      unfold MpiGroup.lpidAt MpiGroup.lpids
      rw [hids]
    have hord : MpiGroup.InOrder { g with lrankToLpid := a, idxOfFirstLpid := first } := by
      refine ⟨l, hfol, hperm, ?_⟩
      -- the ids are distinct, so that they ascend
      rw [hlen] at hperm
      have hnd : (l.map g.lpidAt).Nodup := by
        rw [(hperm.map g.lpidAt).nodup_iff, map_lpidAt_range]
        exact h.nodup
      simp only [hat]
      exact (hsort.and (pairwise_map.1 hnd)).imp fun h => Nat.lt_of_le_of_ne h.1 h.2
    have hids' : MpiGroup.lpids { g with lrankToLpid := a, idxOfFirstLpid := first } = g.lpids :=
      hids
    refine ⟨{ g with lrankToLpid := a, idxOfFirstLpid := first }, ?_,
      ⟨⟨hids' ▸ h.nodup, fun _ => hord, hids' ▸ h.rank⟩, hids', rfl⟩, hord⟩
    rw [needLpidList, if_pos (by omega), setupLpidList, if_pos hidx, hrun]
    rfl
  · have hord := h.order hidx
    obtain ⟨l, hfol, -⟩ := id hord
    refine ⟨g, if_neg ?_, ⟨h, rfl, rfl⟩, hord⟩
    intro hneg
    cases l with
    | nil => exact hidx hfol
    | cons n l => exact absurd (hfol.nonneg_iff.2 (cons_ne_nil _ _)) (Int.not_le.2 hneg)

theorem setupLpidPairs_spec {g₁ g₂ : MpiGroup} {me : Nat} (h₁ : g₁.Wf me) (h₂ : g₂.Wf me) :
    ∃ g₁' g₂', setupLpidPairs g₁ g₂ = some (g₁', g₂') ∧ SameGroup me g₁ g₁' ∧ SameGroup me g₂ g₂' ∧
      g₁'.InOrder ∧ g₂'.InOrder := by
  obtain ⟨g₁', hr₁, hs₁, ho₁⟩ := needLpidList_spec h₁
  obtain ⟨g₂', hr₂, hs₂, ho₂⟩ := needLpidList_spec h₂
  refine ⟨g₁', g₂', ?_, hs₁, hs₂, ho₁, ho₂⟩
  rw [setupLpidPairs, hr₁, hr₂]
  rfl

/-! ## The walks through two groups -/

section walks

variable {a₁ a₂ : List Pmap} {k₁ k₂ : Nat → Nat} {l₁ l₂ : List Nat} {idx1 idx2 : Int}

theorem setFlag_natCast {flags : List Bool} {n : Nat} (h : n < flags.length) :
    setFlag flags n = some (flags.set n true) := by
  rw [setFlag, Int.toNat_natCast, if_pos h]

theorem lt_of_head {k : Nat → Nat} {n i : Nat} {l : List Nat}
    (h : (n :: l).Pairwise fun i j => k i < k j) (hi : i ∈ n :: l) : k n ≤ k i := by
  rcases mem_cons.1 hi with rfl | hi
  · exact Nat.le_refl _
  · exact Nat.le_of_lt ((pairwise_cons.1 h).1 i hi)

theorem mem_map_cons_of_ne {k : Nat → Nat} {x n : Nat} {l : List Nat} (h : x ≠ k n) :
    x ∈ (n :: l).map k ↔ x ∈ l.map k := by
  rw [map_cons, mem_cons, or_iff_right h]

theorem commonLoop_spec (fuel : Nat) (flags : List Bool) (n : Nat) (hk₁ : KeyOf a₁ k₁) (hk₂ : KeyOf a₂ k₂)
    (h₁ : Follows (links id a₁) idx1 l₁) (h₂ : Follows (links id a₂) idx2 l₂)
    (hs₁ : l₁.Pairwise fun i j => k₁ i < k₁ j) (hs₂ : l₂.Pairwise fun i j => k₂ i < k₂ j)
    (hb : ∀ i ∈ l₁, i < flags.length) (hf : l₁.length + l₂.length < fuel) :
    ∃ flags', commonLoop fuel a₁ a₂ idx1 idx2 flags n =
        some (flags', n + (l₁.filter fun i => k₁ i ∈ l₂.map k₂).length) ∧
      flags'.length = flags.length ∧
      (∀ i, i < flags.length → (flags'[i]? = some true ↔
        flags[i]? = some true ∨ i ∈ l₁ ∧ k₁ i ∈ l₂.map k₂)) := by
  induction fuel generalizing idx1 idx2 l₁ l₂ flags n with
  | zero => omega
  | succ fuel ih =>
    unfold commonLoop
    match l₁, l₂ with
    | [], l₂ =>
      obtain rfl : idx1 = -1 := h₁
      rw [if_neg (by omega)]
      exact ⟨flags, rfl, rfl, fun i _ => by simp⟩
    | n₁ :: l₁, [] =>
      obtain rfl : idx2 = -1 := h₂
      rw [if_neg (by omega)]
      exact ⟨flags, by simp, rfl, fun i _ => by simp⟩
    | n₁ :: l₁, n₂ :: l₂ =>
      obtain ⟨e1, he1, -, hget1, hl1⟩ := entryAt_of_follows h₁
      obtain ⟨e2, he2, -, hget2, hl2⟩ := entryAt_of_follows h₂
      rw [if_pos ⟨h₁.nonneg_iff.2 (cons_ne_nil _ _), h₂.nonneg_iff.2 (cons_ne_nil _ _)⟩,
        he1, he2]
      simp only [Option.bind_eq_bind, Option.bind_some]
      rw [hk₁ n₁ e1 hget1, hk₂ n₂ e2 hget2]
      simp only [length_cons] at hf
      rcases Nat.lt_trichotomy (k₁ n₁) (k₂ n₂) with hlt | heq | hgt
      · -- the id of the first group is not in the second one
        have hno : k₁ n₁ ∉ (n₂ :: l₂).map k₂ := by
          intro hm
          obtain ⟨i, hi, heq⟩ := mem_map.1 hm
          have := lt_of_head hs₂ hi
          omega
        rw [if_pos hlt, filter_cons_of_neg (by simpa using hno)]
        obtain ⟨flags', hrun, hlen, hflags⟩ := ih flags n hl1 h₂ (pairwise_cons.1 hs₁).2 hs₂
          (fun i hi => hb i (mem_cons_of_mem _ hi)) (by simp only [length_cons]; omega)
        refine ⟨flags', hrun, hlen, fun i hi => (hflags i hi).trans (or_congr_right ?_)⟩
        refine and_congr_left fun hm => ⟨mem_cons_of_mem _, fun hi' => ?_⟩
        rcases mem_cons.1 hi' with rfl | hi'
        · exact absurd hm hno
        · exact hi'
      · rw [if_neg (by omega), if_neg (by omega), h₁.1, setFlag_natCast (hb n₁ mem_cons_self)]
        obtain ⟨flags', hrun, hlen, hflags⟩ := ih (flags.set n₁ true) (n + 1) hl1 hl2
          (pairwise_cons.1 hs₁).2 (pairwise_cons.1 hs₂).2
          (fun i hi => by rw [length_set]; exact hb i (mem_cons_of_mem _ hi)) (by omega)
        have hhead : k₁ n₁ ∈ (n₂ :: l₂).map k₂ := by
          rw [heq]
          exact mem_cons_self
        have hrest : ∀ i ∈ l₁, k₁ i ∈ l₂.map k₂ ↔ k₁ i ∈ (n₂ :: l₂).map k₂ := by
          intro i hi
          have := (pairwise_cons.1 hs₁).1 i hi
          exact (mem_map_cons_of_ne (by omega)).symm
        refine ⟨flags', ?_, by rw [hlen, length_set], fun i hi => ?_⟩
        · rw [filter_cons_of_pos (by simpa using hhead), length_cons,
            ← filter_congr fun i hi => decide_eq_decide.2 (hrest i hi)]
          refine hrun.trans ?_
          congr 2
          omega
        · rw [hflags i (by rwa [length_set]), List.getElem?_set]
          by_cases hin : n₁ = i
          · subst hin
            simp only [if_pos hi]
            exact iff_of_true (.inl rfl) (.inr ⟨mem_cons_self, hhead⟩)
          · rw [if_neg hin]
            refine or_congr_right ⟨fun ⟨hm, hk⟩ => ⟨mem_cons_of_mem _ hm, (hrest i hm).1 hk⟩,
              fun ⟨hm, hk⟩ => ?_⟩
            have hm := mem_of_ne_of_mem (Ne.symm hin) hm
            exact ⟨hm, (hrest i hm).2 hk⟩
      · have hrest : ∀ i ∈ n₁ :: l₁, k₁ i ∈ l₂.map k₂ ↔ k₁ i ∈ (n₂ :: l₂).map k₂ := by
          intro i hi
          have := lt_of_head hs₁ hi
          exact (mem_map_cons_of_ne (by omega)).symm
        rw [if_neg (by omega), if_pos hgt]
        obtain ⟨flags', hrun, hlen, hflags⟩ := ih flags n h₁ hl2 hs₁ (pairwise_cons.1 hs₂).2 hb
          (by simp only [length_cons]; omega)
        refine ⟨flags', ?_, hlen, fun i hi => (hflags i hi).trans (or_congr_right ?_)⟩
        · rw [← filter_congr fun i hi => decide_eq_decide.2 (hrest i hi)]
          exact hrun
        · exact and_congr_right fun hm => hrest i hm

theorem flagRest_spec (fuel : Nat) (flags : List Bool) (n : Nat)
    (h₂ : Follows (links id a₂) idx2 l₂) (hb : ∀ i ∈ l₂, i < flags.length) (hf : l₂.length < fuel) :
    ∃ flags', flagRest fuel a₂ idx2 flags n = some (flags', n + l₂.length) ∧
      flags'.length = flags.length ∧
      (∀ i, i < flags.length → (flags'[i]? = some true ↔ flags[i]? = some true ∨ i ∈ l₂)) := by
  induction l₂ generalizing fuel flags n idx2 with
  | nil =>
    obtain ⟨fuel, rfl⟩ := Nat.exists_eq_succ_of_ne_zero (Nat.ne_of_gt hf)
    obtain rfl : idx2 = -1 := h₂
    exact ⟨flags, rfl, rfl, fun i _ => by simp⟩
  | cons n₂ l₂ ih =>
    obtain ⟨fuel, rfl⟩ := Nat.exists_eq_succ_of_ne_zero (Nat.ne_of_gt (Nat.zero_lt_of_lt hf))
    obtain ⟨e2, he2, -, hget2, hl2⟩ := entryAt_of_follows h₂
    obtain ⟨flags', hrun, hlen, hflags⟩ := ih fuel (flags.set n₂ true) (n + 1) hl2
      (fun i hi => by rw [length_set]; exact hb i (mem_cons_of_mem _ hi))
      (Nat.lt_of_succ_lt_succ hf)
    refine ⟨flags', ?_, by rw [hlen, length_set], fun i hi => ?_⟩
    · rw [flagRest, if_pos (h₂.nonneg_iff.2 (cons_ne_nil _ _)), he2, h₂.1]
      simp only [Option.bind_eq_bind, Option.bind_some]
      rw [setFlag_natCast (hb n₂ mem_cons_self)]
      refine hrun.trans ?_
      rw [length_cons]
      congr 2
      omega
    · rw [hflags i (by rwa [length_set]), List.getElem?_set, mem_cons]
      by_cases hin : n₂ = i
      · subst hin
        simp only [if_pos hi]
        exact iff_of_true (.inl rfl) (.inr (.inl trivial))
      · rw [if_neg hin, or_iff_right (Ne.symm hin)]

theorem unionLoop_spec (fuel : Nat) (flags : List Bool) (n : Nat) (hk₁ : KeyOf a₁ k₁)
    (hk₂ : KeyOf a₂ k₂) (h₁ : Follows (links id a₁) idx1 l₁)
    (h₂ : Follows (links id a₂) idx2 l₂) (hs₁ : l₁.Pairwise fun i j => k₁ i < k₁ j)
    (hs₂ : l₂.Pairwise fun i j => k₂ i < k₂ j) (hb : ∀ i ∈ l₂, i < flags.length)
    (hf : l₁.length + l₂.length < fuel) :
    ∃ flags', unionLoop fuel a₁ a₂ idx1 idx2 flags n =
        some (flags', n + (l₂.filter fun i => k₂ i ∉ l₁.map k₁).length) ∧
      flags'.length = flags.length ∧
      (∀ i, i < flags.length → (flags'[i]? = some true ↔
        flags[i]? = some true ∨ i ∈ l₂ ∧ k₂ i ∉ l₁.map k₁)) := by
  induction fuel generalizing idx1 idx2 l₁ l₂ flags n with
  | zero => omega
  | succ fuel ih =>
    unfold unionLoop
    match l₁, l₂ with
    | [], l₂ =>
      obtain rfl : idx1 = -1 := h₁
      rw [if_neg (by omega)]
      obtain ⟨flags', hrun, hlen, hflags⟩ := flagRest_spec (fuel + 1) flags n h₂ hb (by simpa using hf)
      exact ⟨flags', by simpa using hrun, hlen, fun i hi => (hflags i hi).trans (by simp)⟩
    | n₁ :: l₁, [] =>
      obtain rfl : idx2 = -1 := h₂
      rw [if_neg (by omega)]
      exact ⟨flags, rfl, rfl, fun i _ => by simp⟩
    | n₁ :: l₁, n₂ :: l₂ =>
      obtain ⟨e1, he1, -, hget1, hl1⟩ := entryAt_of_follows h₁
      obtain ⟨e2, he2, -, hget2, hl2⟩ := entryAt_of_follows h₂
      rw [if_pos ⟨h₁.nonneg_iff.2 (cons_ne_nil _ _), h₂.nonneg_iff.2 (cons_ne_nil _ _)⟩,
        he1, he2]
      simp only [Option.bind_eq_bind, Option.bind_some]
      rw [hk₁ n₁ e1 hget1, hk₂ n₂ e2 hget2]
      simp only [length_cons] at hf
      rcases Nat.lt_trichotomy (k₁ n₁) (k₂ n₂) with hlt | heq | hgt
      · have hrest : ∀ i ∈ n₂ :: l₂, k₂ i ∉ l₁.map k₁ ↔ k₂ i ∉ (n₁ :: l₁).map k₁ := by
          intro i hi
          have := lt_of_head hs₂ hi
          exact not_congr (mem_map_cons_of_ne (by omega)).symm
        rw [if_neg (by omega), if_neg (by omega)]
        obtain ⟨flags', hrun, hlen, hflags⟩ := ih flags n hl1 h₂ (pairwise_cons.1 hs₁).2 hs₂ hb
          (by simp only [length_cons]; omega)
        refine ⟨flags', ?_, hlen, fun i hi => (hflags i hi).trans (or_congr_right ?_)⟩
        · rw [← filter_congr fun i hi => decide_eq_decide.2 (hrest i hi)]
          exact hrun
        · exact and_congr_right fun hm => hrest i hm
      · have hhead : ¬ k₂ n₂ ∉ (n₁ :: l₁).map k₁ := by
          rw [← heq]
          exact not_not.2 mem_cons_self
        have hrest : ∀ i ∈ l₂, k₂ i ∉ l₁.map k₁ ↔ k₂ i ∉ (n₁ :: l₁).map k₁ := by
          intro i hi
          have := (pairwise_cons.1 hs₂).1 i hi
          exact not_congr (mem_map_cons_of_ne (by omega)).symm
        rw [if_neg (by omega), if_pos heq]
        obtain ⟨flags', hrun, hlen, hflags⟩ := ih flags n hl1 hl2 (pairwise_cons.1 hs₁).2
          (pairwise_cons.1 hs₂).2 (fun i hi => hb i (mem_cons_of_mem _ hi)) (by omega)
        refine ⟨flags', ?_, hlen, fun i hi => (hflags i hi).trans (or_congr_right ?_)⟩
        · rw [filter_cons_of_neg (by simpa using hhead),
            ← filter_congr fun i hi => decide_eq_decide.2 (hrest i hi)]
          exact hrun
        · refine ⟨fun ⟨hm, hk⟩ => ⟨mem_cons_of_mem _ hm, (hrest i hm).1 hk⟩, fun ⟨hm, hk⟩ => ?_⟩
          rcases mem_cons.1 hm with rfl | hm
          · exact absurd hk hhead
          · exact ⟨hm, (hrest i hm).2 hk⟩
      · -- the id of the second group is not in the first one
        have hno : k₂ n₂ ∉ (n₁ :: l₁).map k₁ := by
          intro hm
          obtain ⟨i, hi, heq⟩ := mem_map.1 hm
          have := lt_of_head hs₁ hi
          omega
        rw [if_pos hgt, h₂.1, setFlag_natCast (hb n₂ mem_cons_self)]
        obtain ⟨flags', hrun, hlen, hflags⟩ := ih (flags.set n₂ true) (n + 1) h₁ hl2 hs₁
          (pairwise_cons.1 hs₂).2
          (fun i hi => by rw [length_set]; exact hb i (mem_cons_of_mem _ hi))
          (by simp only [length_cons]; omega)
        refine ⟨flags', ?_, by rw [hlen, length_set], fun i hi => ?_⟩
        · rw [filter_cons_of_pos (by simpa using hno), length_cons]
          refine hrun.trans ?_
          congr 2
          omega
        · rw [hflags i (by rwa [length_set]), List.getElem?_set]
          by_cases hin : n₂ = i
          · subst hin
            simp only [if_pos hi]
            exact iff_of_true (.inl rfl) (.inr ⟨mem_cons_self, hno⟩)
          · rw [if_neg hin]
            refine or_congr_right (and_congr_left fun _ => ⟨mem_cons_of_mem _, fun hm => ?_⟩)
            exact mem_of_ne_of_mem (Ne.symm hin) hm

theorem sameMembers_spec (fuel : Nat) (hk₁ : KeyOf a₁ k₁) (hk₂ : KeyOf a₂ k₂)
    (h₁ : Follows (links id a₁) idx1 l₁) (h₂ : Follows (links id a₂) idx2 l₂)
    (hlen : l₁.length = l₂.length) (hf : l₁.length < fuel) :
    sameMembers fuel a₁ a₂ idx1 idx2 = some (decide (l₁.map k₁ = l₂.map k₂)) := by
  induction l₁ generalizing fuel idx1 idx2 l₂ with
  | nil =>
    obtain ⟨fuel, rfl⟩ := Nat.exists_eq_succ_of_ne_zero (Nat.ne_of_gt hf)
    obtain rfl : l₂ = [] := length_eq_zero_iff.1 hlen.symm
    obtain rfl : idx1 = -1 := h₁
    rw [sameMembers, if_neg (by omega)]
    rfl
  | cons n₁ l₁ ih =>
    obtain ⟨fuel, rfl⟩ := Nat.exists_eq_succ_of_ne_zero (Nat.ne_of_gt (Nat.zero_lt_of_lt hf))
    obtain ⟨n₂, l₂, rfl⟩ := exists_cons_of_length_pos (by rw [← hlen]; exact Nat.succ_pos _)
    obtain ⟨e1, he1, -, hget1, hl1⟩ := entryAt_of_follows h₁
    obtain ⟨e2, he2, -, hget2, hl2⟩ := entryAt_of_follows h₂
    rw [sameMembers, if_pos ⟨h₁.nonneg_iff.2 (cons_ne_nil _ _),
      h₂.nonneg_iff.2 (cons_ne_nil _ _)⟩, he1, he2]
    simp only [Option.bind_eq_bind, Option.bind_some]
    rw [hk₁ n₁ e1 hget1, hk₂ n₂ e2 hget2]
    by_cases heq : k₁ n₁ = k₂ n₂
    · rw [if_neg (not_not.2 heq)]
      refine (ih fuel hl1 hl2 (Nat.succ.inj hlen) (Nat.lt_of_succ_lt_succ hf)).trans ?_
      simp [heq]
    · rw [if_pos heq]
      simp [heq]

end walks

/-! ## New groups -/

def fresh (me : Nat) (lpids : List Nat) : MpiGroup :=
  ⟨rankOf me lpids, -1, lpids.map (⟨·, 0⟩), false⟩

section fresh

variable {g : MpiGroup} {me : Nat} {lpids : List Nat}

@[simp] theorem fresh_lpids : (fresh me lpids).lpids = lpids := by
  rw [fresh, MpiGroup.lpids, List.map_map]
  exact List.map_id lpids

@[simp] theorem fresh_nil : fresh me [] = .empty := rfl

theorem fresh_wf (h : lpids.Nodup) : (fresh me lpids).Wf me :=
  ⟨by rwa [fresh_lpids], fun hne => absurd rfl hne, by rw [fresh_lpids]; rfl⟩

theorem groupCreate_eq (lpids : List Nat) (rank : Int) :
    groupCreate lpids.length lpids rank = some ⟨rank, -1, lpids.map (⟨·, 0⟩), false⟩ := by
  rw [groupCreate, if_pos (Nat.le_refl _), Nat.sub_self, replicate_zero, append_nil]

theorem copyRanks_spec (h : g.Wf me) {ranks : List Nat} (hb : ∀ r ∈ ranks, r < g.size)
    (hnd : (ranks.map g.lpidAt).Nodup) (k : Nat) (rank : Int) :
    copyRanks g ranks k rank = some (ranks.map g.lpidAt,
      if me ∈ ranks.map g.lpidAt then ((k + (ranks.map g.lpidAt).idxOf me : Nat) : Int)
      else rank) := by
  induction ranks generalizing k rank with
  | nil => rfl
  | cons r ranks ih =>
    have hr := hb r mem_cons_self
    obtain ⟨hrn, hnd⟩ := nodup_cons.1 hnd
    have hget : g.lrankToLpid[r]? = some g.lrankToLpid[r] := List.getElem?_eq_getElem hr
    rw [copyRanks, hget, ih (fun r' hr' => hb r' (mem_cons_of_mem _ hr')) hnd]
    simp only [Option.bind_eq_bind, Option.bind_some, Option.pure_def]
    rw [keyOf_lpidAt r _ hget, map_cons, idxOf_cons]
    by_cases hme : g.lpidAt r = me
    · rw [if_pos ((h.eq_rank_iff hr).2 hme), if_neg (hme ▸ hrn), if_pos (by simp [hme])]
      simp [hme]
    · rw [if_neg (mt (h.eq_rank_iff hr).1 hme)]
      have hmem : me ∈ g.lpidAt r :: ranks.map g.lpidAt ↔ me ∈ ranks.map g.lpidAt := by
        rw [mem_cons, or_iff_right (Ne.symm hme)]
      simp only [hmem, beq_eq_false_iff_ne.2 hme, cond_false]
      congr 3
      omega

theorem fromRanks_spec (h : g.Wf me) {ranks : List Nat} (hb : ∀ r ∈ ranks, r < g.size)
    (hnd : (ranks.map g.lpidAt).Nodup) :
    fromRanks g ranks.length ranks = some (fresh me (ranks.map g.lpidAt)) := by
  have hcreate := groupCreate_eq (ranks.map g.lpidAt) (rankOf me (ranks.map g.lpidAt))
  rw [length_map] at hcreate
  rw [fromRanks, copyRanks_spec h hb hnd]
  simp only [Option.bind_eq_bind, Option.bind_some, Nat.zero_add]
  exact hcreate

theorem map_lpidAt_filter (q : Nat → Bool) :
    ((List.range g.size).filter fun i => q (g.lpidAt i)).map g.lpidAt = g.lpids.filter q := by
  rw [← map_lpidAt_range (g := g), List.filter_map]
  rfl

theorem copyRanks_filter (h : g.Wf me) (q : Nat → Bool) :
    copyRanks g ((List.range g.size).filter fun i => q (g.lpidAt i)) 0 undefined =
      some (g.lpids.filter q, rankOf me (g.lpids.filter q)) := by
  have hnd : (((List.range g.size).filter fun i => q (g.lpidAt i)).map g.lpidAt).Nodup := by
    rw [map_lpidAt_filter]
    exact h.nodup.filter _
  have hcopy := copyRanks_spec h
    (fun r hr => mem_range.1 (mem_of_mem_filter hr)) hnd 0 undefined
  simp only [map_lpidAt_filter, Nat.zero_add] at hcopy
  exact hcopy

theorem fromRanks_filter (h : g.Wf me) (q : Nat → Bool) :
    fromRanks g (g.lpids.filter q).length
      ((List.range g.size).filter fun i => q (g.lpidAt i)) = some (fresh me (g.lpids.filter q)) := by
  rw [fromRanks, copyRanks_filter h]
  exact groupCreate_eq _ _

theorem flagged_eq {flags : List Bool} {n : Nat} {p : Nat → Bool} (hlen : flags.length = n)
    (h : ∀ i, i < n → (flags[i]? = some true ↔ p i = true)) :
    flagged flags true = (List.range n).filter p ∧
    flagged flags false = (List.range n).filter fun i => !p i := by
  constructor
  · rw [flagged, hlen]
    refine filter_congr fun i hi => ?_
    exact Bool.eq_iff_iff.2 (decide_eq_true_iff.trans (h i (mem_range.1 hi)))
  · rw [flagged, hlen]
    refine filter_congr fun i hi => ?_
    have hi := mem_range.1 hi
    have hp := h i hi
    rw [List.getElem?_eq_getElem (hlen ▸ hi)] at hp ⊢
    cases hb : flags[i] <;> simp_all

theorem commonMembers_spec {g₁ g₂ : MpiGroup} (ho₁ : g₁.InOrder) (ho₂ : g₂.InOrder) :
    ∃ flags, commonMembers g₁ g₂ =
        some (flags, (g₁.lpids.filter fun x => x ∈ g₂.lpids).length) ∧
      flagged flags true = (List.range g₁.size).filter (fun i => g₁.lpidAt i ∈ g₂.lpids) ∧
      flagged flags false = (List.range g₁.size).filter (fun i => !decide (g₁.lpidAt i ∈ g₂.lpids))
      := by
  obtain ⟨l₁, hf₁, hp₁, hs₁⟩ := ho₁
  obtain ⟨l₂, hf₂, hp₂, hs₂⟩ := ho₂
  have hl₁ : l₁.length = g₁.size := by simpa using hp₁.length_eq
  have hl₂ : l₂.length = g₂.size := by simpa using hp₂.length_eq
  obtain ⟨flags, hrun, hlen, hflags⟩ := commonLoop_spec (g₁.size + g₂.size + 1)
    (List.replicate g₁.size false) 0 keyOf_lpidAt keyOf_lpidAt hf₁ hf₂ hs₁ hs₂
    (fun i hi => by simpa using hp₁.mem_iff.1 hi) (by omega)
  rw [length_replicate] at hlen hflags
  have hcount : (l₁.filter fun i => g₁.lpidAt i ∈ l₂.map g₂.lpidAt).length =
      (g₁.lpids.filter fun x => x ∈ g₂.lpids).length := by
    rw [(hp₁.filter _).length_eq, ← map_lpidAt_filter, length_map]
    simp only [mem_map_lpidAt hp₂]
  refine ⟨flags, ?_, flagged_eq hlen fun i hi => ?_⟩
  · rw [commonMembers, hrun, hcount, Nat.zero_add]
  · rw [hflags i hi, mem_map_lpidAt hp₂, hp₁.mem_iff, decide_eq_true_iff]
    simp [hi]

end fresh

/-! ## The operations -/

section operations

variable {g₁ g₂ : MpiGroup} {me : Nat}

theorem differenceImpl_spec (h₁ : g₁.Wf me) (h₂ : g₂.Wf me) :
    ∃ g₁' g₂', differenceImpl g₁ g₂ =
        some (g₁', g₂', fresh me (g₁.lpids.filter fun x => x ∉ g₂.lpids)) ∧
      SameGroup me g₁ g₁' ∧ SameGroup me g₂ g₂' := by
  obtain ⟨g₁', g₂', hrun, hs₁, hs₂, ho₁, ho₂⟩ := setupLpidPairs_spec h₁ h₂
  obtain ⟨flags, hcommon, -, hflags⟩ := commonMembers_spec ho₁ ho₂
  refine ⟨g₁', g₂', ?_, hs₁, hs₂⟩
  have hcount : g₁'.size - (g₁'.lpids.filter fun x => x ∈ g₂'.lpids).length =
      (g₁'.lpids.filter fun x => !decide (x ∈ g₂'.lpids)).length := by
    have hsplit := length_eq_length_filter_add (l := g₁'.lpids) fun x => decide (x ∈ g₂'.lpids)
    rw [length_lpids] at hsplit
    omega
  rw [differenceImpl, hrun]
  simp only [Option.bind_eq_bind, Option.bind_some, hcommon, hcount, hflags]
  rw [fromRanks_filter hs₁.wf fun x => !decide (x ∈ g₂'.lpids), hs₁.lpids, hs₂.lpids]
  simp only [decide_not]
  split
  · next hz =>
    rw [length_eq_zero_iff.1 hz]
    rfl
  · rfl

theorem intersectionImpl_spec (proc : Process) (h₁ : g₁.Wf me) (h₂ : g₂.Wf me) :
    ∃ g₁' g₂' b, intersectionImpl proc g₁ g₂ = some (g₁', g₂',
        { fresh me (g₁.lpids.filter fun x => x ∈ g₂.lpids) with isLocalDenseMonotonic := b }) ∧
      SameGroup me g₁ g₁' ∧ SameGroup me g₂ g₂' ∧
      (b = true → followEachOther (g₁.lpids.filter fun x => x ∈ g₂.lpids) = true ∧
        ∀ x ∈ g₁.lpids.filter fun x => x ∈ g₂.lpids, x ≤ proc.size) := by
  obtain ⟨g₁', g₂', hrun, hs₁, hs₂, ho₁, ho₂⟩ := setupLpidPairs_spec h₁ h₂
  obtain ⟨flags, hcommon, hflags, -⟩ := commonMembers_spec ho₁ ho₂
  have hcopy := copyRanks_filter hs₁.wf fun x => decide (x ∈ g₂'.lpids)
  rw [hs₁.lpids, hs₂.lpids] at hcopy
  rw [hs₁.lpids, hs₂.lpids] at hcommon
  rw [hs₂.lpids] at hflags
  rw [intersectionImpl, hrun]
  simp only [Option.bind_eq_bind, Option.bind_some, hcommon, hflags, hcopy, groupCreate_eq]
  split
  · next hz =>
    rw [length_eq_zero_iff.1 hz]
    exact ⟨g₁', g₂', false, rfl, hs₁, hs₂, nofun⟩
  · refine ⟨g₁', g₂', _, rfl, hs₁, hs₂, fun hb => ?_⟩
    obtain ⟨hall, hfollow⟩ := Bool.and_eq_true_iff.1 hb
    exact ⟨hfollow, fun x hx => of_decide_eq_true (all_eq_true.1 hall x hx)⟩

theorem addMembers_spec (mylpid : Nat) {lpids : List Nat} {flags : List Bool}
    (hlen : flags.length = lpids.length) (q : Nat → Bool)
    (hq : ∀ (i : Nat) x, lpids[i]? = some x → flags[i]? = some (q x)) (hnd : lpids.Nodup)
    (k : Nat) (rank : Int) :
    addMembers mylpid (lpids.zip flags) k rank = (lpids.filter q,
      if rank = undefined ∧ mylpid ∈ lpids.filter q then
        ((k + (lpids.filter q).idxOf mylpid : Nat) : Int)
      else rank) := by
  induction lpids generalizing flags k rank with
  | nil => simp [addMembers]
  | cons x lpids ih =>
    obtain ⟨b, flags, rfl⟩ := exists_cons_of_length_pos (by rw [hlen]; exact Nat.succ_pos _)
    obtain rfl : b = q x := Option.some.inj (hq 0 x rfl)
    obtain ⟨hx, hnd⟩ := nodup_cons.1 hnd
    have hrest := ih (Nat.succ.inj hlen) (fun i y hy => hq (i + 1) y hy) hnd
    rw [zip_cons_cons, addMembers]
    cases hb : q x with
    | false =>
      rw [if_neg Bool.false_ne_true, hrest, filter_cons_of_neg (by simp [hb])]
    | true =>
      have hk : ((k : Nat) : Int) ≠ undefined := by
        unfold undefined
        omega
      simp only [if_pos, hrest, filter_cons_of_pos hb, idxOf_cons, mem_cons]
      by_cases hr : rank = undefined
      · by_cases hxm : x = mylpid
        · subst hxm
          simp [hr, hk]
        · simp only [hr, hxm, Ne.symm hxm, and_false, true_and, false_or, if_false,
            beq_eq_false_iff_ne.2 hxm, cond_false]
          congr 2
          omega
      · simp [hr]

theorem unionFlags_spec (ho₁ : g₁.InOrder) (ho₂ : g₂.InOrder) :
    ∃ flags, unionLoop (g₁.size + g₂.size + 1) g₁.lrankToLpid g₂.lrankToLpid g₁.idxOfFirstLpid
        g₂.idxOfFirstLpid (List.replicate g₂.size false) 0 =
        some (flags, (g₂.lpids.filter fun x => x ∉ g₁.lpids).length) ∧
      flags.length = g₂.lpids.length ∧
      ∀ (i : Nat) x, g₂.lpids[i]? = some x → flags[i]? = some (decide (x ∉ g₁.lpids)) := by
  obtain ⟨l₁, hf₁, hp₁, hs₁⟩ := ho₁
  obtain ⟨l₂, hf₂, hp₂, hs₂⟩ := ho₂
  have hl₁ : l₁.length = g₁.size := by simpa using hp₁.length_eq
  have hl₂ : l₂.length = g₂.size := by simpa using hp₂.length_eq
  obtain ⟨flags, hrun, hlen, hflags⟩ := unionLoop_spec (g₁.size + g₂.size + 1)
    (List.replicate g₂.size false) 0 keyOf_lpidAt keyOf_lpidAt hf₁ hf₂ hs₁ hs₂
    (fun i hi => by simpa using hp₂.mem_iff.1 hi) (by omega)
  rw [length_replicate] at hlen hflags
  have hcount : (l₂.filter fun i => g₂.lpidAt i ∉ l₁.map g₁.lpidAt).length =
      (g₂.lpids.filter fun x => x ∉ g₁.lpids).length := by
    rw [(hp₂.filter _).length_eq, ← map_lpidAt_filter, length_map]
    simp only [mem_map_lpidAt hp₁]
  refine ⟨flags, by rw [hrun, hcount, Nat.zero_add], by rw [hlen, length_lpids], fun i x hx => ?_⟩
  obtain ⟨hi, hx⟩ := List.getElem?_eq_some_iff.1 hx
  rw [length_lpids] at hi
  have hat : g₂.lpidAt i = x := (lpidAt_eq _).trans hx
  have hflag := hflags i hi
  rw [mem_map_lpidAt hp₁, hp₂.mem_iff, hat] at hflag
  rw [List.getElem?_eq_getElem (hlen.symm ▸ hi)] at hflag ⊢
  congr 1
  refine Bool.eq_iff_iff.2 ?_
  rw [decide_eq_true_iff, ← some_inj, hflag]
  simp [hi]

theorem rankOf_append {l₁ l₂ : List Nat} :
    rankOf me (l₁ ++ l₂) = if me ∈ l₁ then rankOf me l₁
      else if me ∈ l₂ then ((l₁.length + l₂.idxOf me : Nat) : Int) else undefined := by
  unfold rankOf
  by_cases hm₁ : me ∈ l₁
  · simp [hm₁, idxOf_append_of_mem hm₁]
  · by_cases hm₂ : me ∈ l₂
    · simp [hm₁, hm₂, idxOf_append_of_notMem hm₁]
    · simp [hm₁, hm₂]

theorem unionLpid_spec (h₁ : g₁.Wf me) (h₂ : g₂.Wf me) :
    ∃ mylpid, unionLpid g₁ g₂ = some mylpid ∧
      (me ∉ g₁.lpids → me ∈ g₂.lpids → mylpid = me) ∧
      (me ∉ g₁.lpids → me ∉ g₂.lpids → mylpid = 2 ^ 64 - 2) := by
  unfold unionLpid
  rw [h₁.rank, h₂.rank]
  unfold rankOf
  by_cases hm₁ : me ∈ g₁.lpids
  · refine ⟨2 ^ 64 - 2, if_neg fun h => ?_, fun h => absurd hm₁ h, fun h => absurd hm₁ h⟩
    rw [if_pos hm₁] at h
    unfold undefined at h
    omega
  · by_cases hm₂ : me ∈ g₂.lpids
    · refine ⟨me, ?_, fun _ _ => rfl, fun _ h => absurd hm₂ h⟩
      have hlt := idxOf_lt_length_iff.2 hm₂
      rw [if_neg hm₁, if_pos hm₂, if_pos ⟨rfl, Int.natCast_nonneg _⟩, Int.toNat_natCast,
        List.getElem?_eq_getElem hlt, getElem_idxOf]
    · refine ⟨2 ^ 64 - 2, if_neg fun h => ?_, fun _ h => absurd h hm₂, fun _ _ => rfl⟩
      rw [if_neg hm₂] at h
      unfold undefined at h
      omega

theorem unionImpl_spec (h₁ : g₁.Wf me) (h₂ : g₂.Wf me) :
    ∃ g₁' g₂' rank, unionImpl g₁ g₂ = some (g₁', g₂',
        { fresh me (g₁.lpids ++ g₂.lpids.filter fun x => x ∉ g₁.lpids) with rank := rank }) ∧
      SameGroup me g₁ g₁' ∧ SameGroup me g₂ g₂' ∧
      ((me ∉ g₁.lpids → me ∉ g₂.lpids → 2 ^ 64 - 2 ∈ g₂.lpids → 2 ^ 64 - 2 ∈ g₁.lpids) →
        rank = rankOf me (g₁.lpids ++ g₂.lpids.filter fun x => x ∉ g₁.lpids)) := by
  obtain ⟨g₁', g₂', hrun, hs₁, hs₂, ho₁, ho₂⟩ := setupLpidPairs_spec h₁ h₂
  obtain ⟨flags, hloop, hlen, hflags⟩ := unionFlags_spec ho₁ ho₂
  obtain ⟨mylpid, hmy, hown, hnone⟩ := unionLpid_spec hs₁.wf hs₂.wf
  have hadd := addMembers_spec mylpid hlen (fun x => decide (x ∉ g₁'.lpids)) hflags
    hs₂.wf.nodup g₁'.size g₁'.rank
  rw [← hs₁.lpids, ← hs₂.lpids, unionImpl, hrun]
  have hsum : g₁'.size + (g₂'.lpids.filter fun x => x ∉ g₁'.lpids).length =
      (g₁'.lpids ++ g₂'.lpids.filter fun x => x ∉ g₁'.lpids).length := by
    rw [length_append, length_lpids]
  simp only [Option.bind_eq_bind, Option.bind_some, hloop, hmy, hadd, hsum, groupCreate_eq]
  split
  · next hz =>
    rw [length_eq_zero_iff.1 hz]
    exact ⟨g₁', g₂', undefined, rfl, hs₁, hs₂, fun _ => rfl⟩
  · refine ⟨g₁', g₂', _, rfl, hs₁, hs₂, fun hreserved => ?_⟩
    rw [rankOf_append, length_lpids]
    by_cases hm₁ : me ∈ g₁'.lpids
    · have hrank : g₁'.rank ≠ undefined := by
        rw [hs₁.wf.rank, rankOf, if_pos hm₁]
        unfold undefined
        omega
      rw [if_pos hm₁, if_neg fun h => hrank h.1, hs₁.wf.rank]
    · have hrank : g₁'.rank = undefined := by rw [hs₁.wf.rank, rankOf, if_neg hm₁]
      rw [if_neg hm₁, hrank]
      by_cases hm₂ : me ∈ g₂'.lpids
      · obtain rfl := hown hm₁ hm₂
        simp only [true_and]
      · obtain rfl := hnone hm₁ hm₂
        have hno : 2 ^ 64 - 2 ∉ g₂'.lpids.filter fun x => x ∉ g₁'.lpids := by
          rw [mem_filter, decide_eq_true_iff]
          exact fun h => h.2 (hreserved hm₁ hm₂ h.1)
        rw [if_neg fun h => hno h.2, if_neg fun h => hm₂ (mem_of_mem_filter h)]

theorem compareImpl_spec (h₁ : g₁.Wf me) (h₂ : g₂.Wf me) :
    ∃ g₁' g₂' result, compareImpl g₁ g₂ = some (g₁', g₂', result) ∧
      SameGroup me g₁ g₁' ∧ SameGroup me g₂ g₂' ∧
      (result = .ident ↔ g₁.lpids = g₂.lpids) ∧
      (result = .similar ↔ g₁.lpids ≠ g₂.lpids ∧ g₁.lpids.Perm g₂.lpids) ∧
      (result = .unequal ↔ ¬ g₁.lpids.Perm g₂.lpids) := by
  unfold compareImpl
  by_cases hsize : g₁.size = g₂.size
  · obtain ⟨g₁', hr₁, hs₁, l₁, hf₁, hp₁, hsort₁⟩ := needLpidList_spec h₁
    obtain ⟨g₂', hr₂, hs₂, l₂, hf₂, hp₂, hsort₂⟩ := needLpidList_spec h₂
    have hsize₁ : g₁'.size = g₁.size := by rw [← length_lpids, hs₁.lpids, length_lpids]
    have hsize₂ : g₂'.size = g₂.size := by rw [← length_lpids, hs₂.lpids, length_lpids]
    have hl₁ : l₁.length = g₁'.size := by simpa using hp₁.length_eq
    have hl₂ : l₂.length = g₂'.size := by simpa using hp₂.length_eq
    have hsame := sameMembers_spec (g₁'.size + 1) keyOf_lpidAt keyOf_lpidAt hf₁ hf₂
      (by omega) (by omega)
    -- the ids in order are equal if and only if the ids are permutations of each other
    have hperm₁ : (l₁.map g₁'.lpidAt).Perm g₁'.lpids := by
      rw [← map_lpidAt_range]
      exact hp₁.map _
    have hperm₂ : (l₂.map g₂'.lpidAt).Perm g₂'.lpids := by
      rw [← map_lpidAt_range]
      exact hp₂.map _
    have hiff : l₁.map g₁'.lpidAt = l₂.map g₂'.lpidAt ↔ g₁'.lpids.Perm g₂'.lpids := by
      constructor
      · intro heq
        exact hperm₁.symm.trans (heq ▸ hperm₂)
      · intro hperm
        have hlt₁ : (l₁.map g₁'.lpidAt).Pairwise (· < ·) := pairwise_map.2 hsort₁
        have hlt₂ : (l₂.map g₂'.lpidAt).Pairwise (· < ·) := pairwise_map.2 hsort₂
        exact (hperm₁.trans (hperm.trans hperm₂.symm)).eq_of_pairwise
          (fun a b _ _ hab hba => absurd hab (Nat.lt_asymm hba)) hlt₁ hlt₂
    rw [if_neg (not_not.2 hsize), hr₁, hr₂]
    simp only [Option.bind_eq_bind, Option.bind_some, hsame, hiff]
    rw [hs₁.lpids, hs₂.lpids]
    by_cases hperm : g₁.lpids.Perm g₂.lpids
    · by_cases heq : g₁.lpids = g₂.lpids
      · exact ⟨g₁', g₂', .ident, by simp [heq], hs₁, hs₂, by simp [heq]⟩
      · exact ⟨g₁', g₂', .similar, by simp [heq, hperm], hs₁, hs₂, by simp [heq, hperm]⟩
    · have heq : g₁.lpids ≠ g₂.lpids := fun h => hperm (h ▸ .refl _)
      exact ⟨g₁', g₂', .unequal, by simp [hperm], hs₁, hs₂, by simp [heq, hperm]⟩
  · have hperm : ¬ g₁.lpids.Perm g₂.lpids := by
      intro h
      exact hsize (by simpa using h.length_eq)
    have heq : g₁.lpids ≠ g₂.lpids := fun h => hperm (h ▸ .refl _)
    exact ⟨g₁, g₂, .unequal, if_pos hsize, ⟨h₁, rfl, rfl⟩, ⟨h₂, rfl, rfl⟩, by simp [heq, hperm]⟩

end operations

/-- The operations on two groups whose ids are distinct, in any order: the members of the results,
their order and the rank of the calling process, and the comparison. The rank in a union is right
unless the calling process is in neither group and a member that only the second one has has the id
that stands for none. -/
theorem group_operations (proc : Process) {me : Nat} {g₁ g₂ : MpiGroup} (h₁ : g₁.Wf me)
    (h₂ : g₂.Wf me) :
    (∃ g₁' g₂' g, unionImpl g₁ g₂ = some (g₁', g₂', g) ∧ SameGroup me g₁ g₁' ∧
      SameGroup me g₂ g₂' ∧ g.lpids = g₁.lpids ++ g₂.lpids.filter (fun x => x ∉ g₁.lpids) ∧
      ((me ∉ g₁.lpids → me ∉ g₂.lpids → 2 ^ 64 - 2 ∈ g₂.lpids → 2 ^ 64 - 2 ∈ g₁.lpids) →
        g.rank = rankOf me g.lpids)) ∧
    (∃ g₁' g₂' g, intersectionImpl proc g₁ g₂ = some (g₁', g₂', g) ∧ SameGroup me g₁ g₁' ∧
      SameGroup me g₂ g₂' ∧ g.lpids = g₁.lpids.filter (fun x => x ∈ g₂.lpids) ∧
      g.rank = rankOf me g.lpids) ∧
    (∃ g₁' g₂' g, differenceImpl g₁ g₂ = some (g₁', g₂', g) ∧ SameGroup me g₁ g₁' ∧
      SameGroup me g₂ g₂' ∧ g.lpids = g₁.lpids.filter (fun x => x ∉ g₂.lpids) ∧
      g.rank = rankOf me g.lpids) ∧
    (∃ g₁' g₂' result, compareImpl g₁ g₂ = some (g₁', g₂', result) ∧ SameGroup me g₁ g₁' ∧
      SameGroup me g₂ g₂' ∧ (result = .ident ↔ g₁.lpids = g₂.lpids) ∧
      (result = .similar ↔ g₁.lpids ≠ g₂.lpids ∧ g₁.lpids.Perm g₂.lpids) ∧
      (result = .unequal ↔ ¬ g₁.lpids.Perm g₂.lpids)) := by
  refine ⟨?_, ?_, ?_, compareImpl_spec h₁ h₂⟩
  · obtain ⟨g₁', g₂', rank, hrun, hs₁, hs₂, hrank⟩ := unionImpl_spec h₁ h₂
    have hlpids := @fresh_lpids me (g₁.lpids ++ g₂.lpids.filter fun x => x ∉ g₁.lpids)
    exact ⟨g₁', g₂', _, hrun, hs₁, hs₂, hlpids,
      fun h => (hrank h).trans (congrArg (rankOf me) hlpids.symm)⟩
  · obtain ⟨g₁', g₂', b, hrun, hs₁, hs₂, -⟩ := intersectionImpl_spec proc h₁ h₂
    exact ⟨g₁', g₂', _, hrun, hs₁, hs₂, @fresh_lpids me _, (fresh_wf (h₁.nodup.filter _)).rank⟩
  · obtain ⟨g₁', g₂', hrun, hs₁, hs₂⟩ := differenceImpl_spec h₁ h₂
    exact ⟨g₁', g₂', _, hrun, hs₁, hs₂, fresh_lpids, (fresh_wf (h₁.nodup.filter _)).rank⟩

theorem group_operations_union : ∃ g₁' g₂' g,
    unionImpl (fresh 3 [4, 1, 3]) (fresh 3 [5, 1]) = some (g₁', g₂', g) ∧ g.lpids = [4, 1, 3, 5] ∧
      g.rank = 2 := by
  have hwf₁ : (fresh 3 [4, 1, 3]).Wf 3 := fresh_wf (by decide)
  have hwf₂ : (fresh 3 [5, 1]).Wf 3 := fresh_wf (by decide)
  obtain ⟨⟨g₁', g₂', g, hrun, -, -, hlpids, hrank⟩, -⟩ :=
    group_operations ⟨8, 3, by decide, by decide⟩ hwf₁ hwf₂
  have hlpids' : g.lpids = [4, 1, 3, 5] := hlpids
  refine ⟨g₁', g₂', g, hrun, hlpids', ?_⟩
  rw [hrank (by decide), hlpids']
  decide

/-- The calling process is in neither group, but gets the rank of the member whose id stands for
none. -/
theorem union_rank_of_reserved_lpid : ¬ ∀ (me : Nat) (g₁ g₂ : MpiGroup), g₁.Wf me → g₂.Wf me →
    ∃ g₁' g₂' g, unionImpl g₁ g₂ = some (g₁', g₂', g) ∧ g.rank = rankOf me g.lpids := by
  intro h
  obtain ⟨g₁', g₂', g, hrun, hrank⟩ := h 3 (fresh 3 [1]) (fresh 3 [2 ^ 64 - 2])
    (fresh_wf (by decide)) (fresh_wf (by decide))
  have hresult : unionImpl (fresh 3 [1]) (fresh 3 [2 ^ 64 - 2]) = some
      (⟨undefined, 0, [⟨1, -1⟩], false⟩, ⟨undefined, 0, [⟨2 ^ 64 - 2, -1⟩], false⟩,
        ⟨1, -1, [⟨1, 0⟩, ⟨2 ^ 64 - 2, 0⟩], false⟩) := by decide
  rw [hresult] at hrun
  obtain rfl := (Prod.mk.inj (Prod.mk.inj (Option.some.inj hrun)).2).2
  revert hrank
  decide

end PsMpi.Groups
