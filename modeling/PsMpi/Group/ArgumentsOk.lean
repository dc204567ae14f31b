import PsMpi.Group.OpsOk
import PsMpi.Group.RangesOk

/-!
# The checks of ranks and ranges

See `MPIR_Group_check_valid_ranks` and `MPIR_Group_check_valid_ranges`
(`mpich2/src/mpi/group/grouputil.c:228`).
-/

open List

namespace PsMpi.Groups

open PsMpi.Lib

/-! ## Ranks -/

structure RanksOk (size : Nat) (ranks : List Int) : Prop where
  each : ∀ r ∈ ranks, 0 ≤ r ∧ r < size
  nodup : ranks.Nodup

/-- The ranks are distinct, or one of those that have a flag and the one behind them is no rank of
the group. -/
def RanksChecked (size : Nat) (ranks : List Int) : Prop :=
  ranks.Nodup ∨ ∃ r ∈ ranks.take (size + 1), ¬ (0 ≤ r ∧ r < size)

theorem checkRanksLoop_cases {size : Nat} (ranks : List Int) (i : Nat) (flags : List Nat)
    (hi : i ≤ size) (hlen : flags.length = size) (hzero : ∀ j, i ≤ j → j < size → flags[j]? = some 0) :
    ((∃ r ∈ ranks.take (size + 1 - i), ¬ (0 ≤ r ∧ r < size)) →
      checkRanksLoop size ranks i flags = some false) ∧
    ((∀ r ∈ ranks.take (size + 1 - i), 0 ≤ r ∧ r < size) →
      checkRanksLoop size ranks i flags = if i + ranks.length ≤ size then some true else none) := by
  induction ranks generalizing i flags with
  | nil => exact ⟨fun ⟨r, hr, _⟩ => absurd hr (by simp), fun _ => (if_pos (by simpa using hi)).symm⟩
  | cons r ranks ih =>
    have htake : (r :: ranks).take (size + 1 - i) = r :: ranks.take (size - i) := by
      rw [show size + 1 - i = size - i + 1 by omega, take_succ_cons]
    rw [htake, checkRanksLoop]
    simp only [forall_mem_cons, exists_mem_cons_iff, length_cons]
    by_cases hr : r < 0 ∨ (size : Int) ≤ r
    · rw [if_pos hr]
      exact ⟨fun _ => rfl, fun hno => by omega⟩
    rw [if_neg hr]
    rcases Nat.lt_or_ge i size with hlt | hge
    · rw [hzero i (Nat.le_refl i) hlt]
      simp only [Option.bind_eq_bind, Option.bind_some, ne_eq, not_true, if_false]
      obtain ⟨ih₁, ih₂⟩ := ih (i + 1) (flags.set i (i + 1)) hlt (by rw [length_set, hlen])
        fun j hj hjs => by
          rw [List.getElem?_set_ne (by omega)]
          exact hzero j (by omega) hjs
      rw [show size + 1 - (i + 1) = size - i by omega] at ih₁ ih₂
      refine ⟨fun hbad => ih₁ (hbad.resolve_left (by omega)), fun hok => ?_⟩
      rw [ih₂ hok.2, Nat.add_assoc, Nat.add_comm 1]
    · -- there is no flag for this rank
      have hz : size - i = 0 := by omega
      rw [List.getElem?_eq_none (by omega), hz, take_zero]
      refine ⟨fun hbad => absurd hbad ?_, fun _ => (if_neg (by omega)).symm⟩
      rintro (hno | ⟨_, hno, -⟩)
      · omega
      · cases hno

theorem checkValidRanks_exact (g : MpiGroup) (ranks : List Int) :
    (∃ ok, checkValidRanks g ranks = some ok ∧ (ok = true ↔ RanksOk g.size ranks)) ↔
      RanksChecked g.size ranks := by
  obtain ⟨hbad, hgood⟩ := @checkRanksLoop_cases g.size ranks 0 (List.replicate g.size 0)
    (Nat.zero_le _) length_replicate fun j _ hj => by
      rw [List.getElem?_replicate, if_pos hj]
  rw [Nat.sub_zero] at hbad hgood
  rw [Nat.zero_add] at hgood
  rw [checkValidRanks, RanksChecked]
  by_cases hex : ∃ r ∈ ranks.take (g.size + 1), ¬ (0 ≤ r ∧ r < g.size)
  · refine iff_of_true ⟨false, hbad hex, iff_of_false nofun fun hno => ?_⟩ (.inr hex)
    obtain ⟨r, hr, hout⟩ := hex
    exact hout (hno.each r (mem_of_mem_take hr))
  · have hall : ∀ r ∈ ranks.take (g.size + 1), 0 ≤ r ∧ r < g.size := fun r hr =>
      Decidable.byContradiction fun hno => hex ⟨r, hr, hno⟩
    rw [hgood hall, or_iff_left hex]
    by_cases hlen : ranks.length ≤ g.size
    · rw [if_pos hlen]
      rw [take_of_length_le (Nat.le_succ_of_le hlen)] at hall
      simp only [Option.some.injEq]
      exact ⟨fun ⟨_, hok, hiff⟩ => (hiff.1 hok.symm).nodup,
        fun hnd => ⟨true, rfl, iff_of_true rfl ⟨hall, hnd⟩⟩⟩
    · rw [if_neg hlen]
      refine iff_of_false (fun ⟨_, hno, _⟩ => nomatch hno) fun hnd => ?_
      -- more distinct ranks than the group has
      have hle := length_le_of_nodup (hnd.sublist (take_sublist _ _)) hall
      rw [length_take] at hle
      omega

/-! ## Ranges -/

/-- The check of no range that it gets to overflows; and if the ranges list distinct ranks of the
group, then no range ends below zero. -/
structure RangesChecked (size : Nat) (pre ranges : List Range) : Prop where
  safe : ∀ mid (r : Range) post, ranges = mid ++ r :: post → (∀ r' ∈ mid, 0 ≤ r'.last) →
    RangesOk size (pre ++ mid) → r.Safe size (pre ++ mid)
  last : RangesOk size (pre ++ ranges) → ∀ r ∈ ranges, 0 ≤ r.last

section ranges

variable {size : Nat} {pre : List Range} {r : Range} {rest : List Range}

theorem RangesChecked.cons_iff (hlast : 0 ≤ r.last) (hsafe : r.Safe size pre) :
    RangesChecked size pre (r :: rest) ↔ RangesChecked size (pre ++ [r]) rest := by
  have happ : ∀ l : List Range, pre ++ [r] ++ l = pre ++ r :: l := fun l => by
    rw [append_assoc, singleton_append]
  constructor
  · intro h
    refine ⟨fun mid r' post heq hmid hoks => ?_, fun hoks => ?_⟩
    · rw [happ] at hoks ⊢
      exact h.safe (r :: mid) r' post (by rw [heq]; rfl) (forall_mem_cons.2 ⟨hlast, hmid⟩) hoks
    · exact (forall_mem_cons.1 (h.last (happ rest ▸ hoks))).2
  · intro h
    refine ⟨fun mid r' post heq hmid hoks => ?_, fun hoks => ?_⟩
    · cases mid with
      | nil =>
        obtain ⟨rfl, -⟩ := List.cons.inj heq
        rwa [append_nil]
      | cons r₀ mid =>
        obtain ⟨rfl, hrest⟩ := List.cons.inj heq
        rw [← happ] at hoks ⊢
        exact h.safe mid r' post hrest (forall_mem_cons.1 hmid).2 hoks
    · exact forall_mem_cons.2 ⟨hlast, h.last (happ rest ▸ hoks)⟩

theorem checkRangesLoop_exact {flags : List Bool} (ranges : List Range) (h : Marked size pre flags) :
    (∃ ok, checkRangesLoop size ranges flags = some ok ∧
      (ok = true ↔ RangesOk size (pre ++ ranges))) ↔ RangesChecked size pre ranges := by
  induction ranges generalizing pre flags with
  | nil =>
    rw [append_nil]
    refine iff_of_true ⟨true, rfl, iff_of_true rfl h.ok⟩ ⟨fun mid r post heq => ?_, fun _ _ hr => ?_⟩
    · exact absurd heq (append_ne_nil_of_right_ne_nil mid (cons_ne_nil r post)).symm
    · exact absurd hr not_mem_nil
  | cons r rest ih =>
    have happ : pre ++ [r] ++ rest = pre ++ r :: rest := by
      rw [append_assoc, singleton_append]
    rcases checkRangesLoop_cases h r rest with ⟨hrun, hsafe, hbad⟩ | ⟨hrun, hno⟩ |
      ⟨hlast, hsafe, -, flags', hm, hrun⟩
    · rw [hrun]
      have hfirst : (∀ r' ∈ r :: rest, 0 ≤ r'.last) → ¬ RangesOk size (pre ++ r :: rest) :=
        fun hall hoks => hbad (hall r mem_cons_self) (happ ▸ hoks).of_append
      constructor
      · rintro ⟨ok, hok, hiff⟩
        cases hok
        refine ⟨fun mid r' post heq hmid hoks => ?_, fun hoks => absurd (hiff.2 hoks) (by decide)⟩
        cases mid with
        | nil =>
          obtain ⟨rfl, -⟩ := List.cons.inj heq
          rwa [append_nil]
        | cons r₀ mid =>
          -- no range behind the one that is rejected is checked
          obtain ⟨rfl, -⟩ := List.cons.inj heq
          rw [← singleton_append, ← append_assoc] at hoks
          exact absurd hoks.of_append (hbad (forall_mem_cons.1 hmid).1)
      · intro hc
        exact ⟨false, rfl, iff_of_false nofun fun hoks => hfirst (hc.last hoks) hoks⟩
    · rw [hrun]
      refine iff_of_false (fun ⟨_, hok, _⟩ => nomatch hok) fun hc => hno ?_
      have := hc.safe [] r rest rfl (fun _ hr => absurd hr not_mem_nil)
        ((append_nil pre).symm ▸ h.ok)
      rwa [append_nil] at this
    · rw [hrun, RangesChecked.cons_iff hlast hsafe, ← ih hm, happ]

end ranges

/-- The checks accept exactly the valid arguments, without overflow and within the array of flags, if
and only if the conditions are met. -/
theorem check_arguments (g : MpiGroup) (ranks : List Int) (ranges : List Range) :
    ((∃ ok, checkValidRanks g ranks = some ok ∧ (ok = true ↔ RanksOk g.size ranks)) ↔
      RanksChecked g.size ranks) ∧
    ((∃ ok, checkValidRanges g ranges = some ok ∧ (ok = true ↔ RangesOk g.size ranges)) ↔
      RangesChecked g.size [] ranges) :=
  ⟨checkValidRanks_exact g ranks, checkRangesLoop_exact ranges (marked_nil g.size)⟩

/-- In a group of four processes: a rank twice is accepted, and five ranks leave the array of flags;
a range whose ranks are three and zero is rejected since its end is below zero; and the counter of
the loop over a range of one rank overflows, as does the difference of the ends of a range. -/
theorem check_arguments_fails :
    checkValidRanks (fresh 1 [0, 1, 2, 3]) [0, 0] = some true ∧ ¬ RanksOk 4 [0, 0] ∧
    checkValidRanks (fresh 1 [0, 1, 2, 3]) [0, 0, 0, 0, 0] = none ∧
    (∃ r : Range, (r.first, r.last, r.stride) = (3, -1, -3) ∧
      checkValidRanges (fresh 1 [0, 1, 2, 3]) [r] = some false ∧ RangesOk 4 [r]) ∧
    (∃ r : Range, (r.first, r.last, r.stride) = (1, 1, 2 ^ 31 - 1) ∧
      checkValidRanges (fresh 1 [0, 1, 2, 3]) [r] = none) ∧
    (∃ r : Range, (r.first, r.last, r.stride) = (1, -2 ^ 31, 1) ∧
      checkValidRanges (fresh 1 [0, 1, 2, 3]) [r] = none) := by
  refine ⟨by decide, fun h => absurd h.nodup (by decide), by decide, ?_, ?_, ?_⟩
  · refine ⟨⟨3, -1, -3, by decide, by decide, by decide⟩, rfl, by decide, ?_, by decide⟩
    intro r hr
    obtain rfl := mem_singleton.1 hr
    exact ⟨⟨by decide, by decide⟩, by decide⟩
  · exact ⟨⟨1, 1, 2 ^ 31 - 1, by decide, by decide, by decide⟩, rfl, by decide⟩
  · exact ⟨⟨1, -2 ^ 31, 1, by decide, by decide, by decide⟩, rfl, by decide⟩

end PsMpi.Groups
