import Mathlib.Data.List.Range
import Mathlib.Data.Nat.Find

/-!
# Classes of numbers with the same key

The numbers below some bound fall into classes by a key.
-/

namespace PsMpi.Lib

variable {α : Type} [DecidableEq α] {key : Nat → α} {i j n : Nat}

def IsLeader (key : Nat → α) (i : Nat) : Prop := ∀ j < i, key j ≠ key i

instance : Decidable (IsLeader key i) := inferInstanceAs (Decidable (∀ j < i, key j ≠ key i))

def leaders (key : Nat → α) (n : Nat) : List Nat := (List.range n).filter (IsLeader key)

def leader (key : Nat → α) (i : Nat) : Nat := Nat.find (⟨i, rfl⟩ : ∃ j, key j = key i)

def classIndex (key : Nat → α) (i : Nat) : Nat := (leaders key (leader key i)).length

theorem key_leader : key (leader key i) = key i := Nat.find_spec (⟨i, rfl⟩ : ∃ j, key j = key i)

theorem leader_le (h : key j = key i) : leader key i ≤ j := Nat.find_min' _ h

theorem leader_congr (h : key i = key j) : leader key i = leader key j :=
  Nat.le_antisymm (leader_le (key_leader.trans h.symm)) (leader_le (key_leader.trans h))

theorem isLeader_leader : IsLeader key (leader key i) := by
  intro j hj h
  exact absurd (leader_le (h.trans key_leader)) (Nat.not_le.2 hj)

theorem IsLeader.leader_eq (h : IsLeader key i) : leader key i = i := by
  refine Nat.le_antisymm (leader_le rfl) (Nat.le_of_not_lt fun hlt => ?_)
  exact h _ hlt key_leader

theorem exists_of_not_isLeader (h : ¬ IsLeader key i) : ∃ j < i, key j = key i := by
  simpa [IsLeader] using h

/-! ## The order of the leaders -/

theorem leaders_succ : leaders key (n + 1) =
    leaders key n ++ if IsLeader key n then [n] else [] := by
  rw [leaders, List.range_succ, List.filter_append, List.filter_singleton, ← leaders]
  by_cases h : IsLeader key n
  · rw [if_pos h, decide_eq_true h]
    rfl
  · rw [if_neg h, decide_eq_false h]
    rfl

theorem leaders_succ_of_isLeader (h : IsLeader key n) :
    leaders key (n + 1) = leaders key n ++ [n] := by
  rw [leaders_succ, if_pos h]

theorem leaders_succ_of_not (h : ¬ IsLeader key n) : leaders key (n + 1) = leaders key n := by
  rw [leaders_succ, if_neg h, List.append_nil]

theorem leaders_prefix (h : i ≤ n) : leaders key i <+: leaders key n := by
  induction n, h using Nat.le_induction with
  | base => exact List.prefix_refl _
  | succ n _ ih =>
    rw [leaders_succ]
    exact ih.trans (List.prefix_append _ _)

theorem leaders_classIndex (h : i < n) :
    (leaders key n)[classIndex key i]? = some (leader key i) := by
  have hle : leader key i + 1 ≤ n := (leader_le rfl).trans_lt h
  obtain ⟨rest, hrest⟩ : leaders key (leader key i + 1) <+: leaders key n := leaders_prefix hle
  rw [leaders_succ_of_isLeader isLeader_leader] at hrest
  rw [← hrest, classIndex, List.append_assoc, List.getElem?_append_right (Nat.le_refl _),
    Nat.sub_self]
  rfl

theorem classIndex_lt (h : i < n) : classIndex key i < (leaders key n).length :=
  (List.getElem?_eq_some_iff.1 (leaders_classIndex h)).1

theorem classIndex_congr (h : key i = key j) : classIndex key i = classIndex key j := by
  rw [classIndex, classIndex, leader_congr h]

theorem IsLeader.classIndex_eq (h : IsLeader key i) :
    classIndex key i = (leaders key i).length := by
  rw [classIndex, h.leader_eq]

theorem classIndex_inj : classIndex key i = classIndex key j ↔ key i = key j := by
  refine ⟨fun h => ?_, classIndex_congr⟩
  have hi : (leaders key (max i j + 1))[classIndex key i]? = some (leader key i) :=
    leaders_classIndex (Nat.lt_succ_of_le (Nat.le_max_left i j))
  have hj : (leaders key (max i j + 1))[classIndex key j]? = some (leader key j) :=
    leaders_classIndex (Nat.lt_succ_of_le (Nat.le_max_right i j))
  rw [h, hj] at hi
  calc key i = key (leader key i) := key_leader.symm
    _ = key (leader key j) := by rw [Option.some.inj hi]
    _ = key j := key_leader

theorem classIndex_lt_of_not_isLeader (h : ¬ IsLeader key i) :
    classIndex key i < (leaders key i).length := by
  obtain ⟨j, hj, hkey⟩ := exists_of_not_isLeader h
  rw [← classIndex_congr hkey]
  exact classIndex_lt hj

theorem length_leaders_eq : (leaders key n).length = n ↔
    ∀ i < n, ∀ j < i, key j ≠ key i := by
  have h := List.length_filter_eq_length_iff (l := List.range n)
    (p := fun i => decide (IsLeader key i))
  rw [List.length_range] at h
  rw [leaders, h]
  simp only [List.mem_range, decide_eq_true_iff]
  rfl

/-! ## Intervals -/

def Contiguous (key : Nat → α) (n : Nat) : Prop :=
  ∀ i j k, i < j → j < k → k < n → key i = key k → key j = key i

theorem contiguous_iff : Contiguous key n ↔
    ∀ i, i + 1 < n → key (i + 1) = key i ∨ IsLeader key (i + 1) := by
  constructor
  · intro h i hi
    by_cases hl : IsLeader key (i + 1)
    · exact .inr hl
    obtain ⟨j, hj, hkey⟩ := exists_of_not_isLeader hl
    rcases Nat.lt_succ_iff_lt_or_eq.1 hj with hlt | rfl
    · exact .inl ((h j i (i + 1) hlt (Nat.lt_succ_self i) hi hkey).trans hkey).symm
    · exact .inl hkey.symm
  · intro h i j k hij hjk hk hkey
    -- go back from `k`: the number before one with the key of `i` has it, too
    have hback : ∀ d, j + d ≤ k → key (k - d) = key i := by
      intro d
      induction d with
      | zero => exact fun _ => hkey.symm
      | succ d ih =>
        intro hd
        have hprev := ih (by omega)
        have hsucc : k - d = k - (d + 1) + 1 := by omega
        rw [hsucc] at hprev
        rcases h (k - (d + 1)) (by omega) with heq | hl
        · exact heq.symm.trans hprev
        · exact absurd hprev.symm (hl i (by omega))
    have hj := hback (k - j) (by omega)
    rwa [show k - (k - j) = j by omega] at hj

end PsMpi.Lib
