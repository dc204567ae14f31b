import Mathlib.Algebra.Order.Ring.Int

/-!
# Cuts of a range
-/

namespace PsMpi.Lib

section cuts

variable {c : Nat → Int} {m n i j : Nat} {x : Int}

theorem exists_cut (hmn : m ≤ n) (hlo : c m ≤ x) (hhi : x < c n) :
    ∃ i, m ≤ i ∧ i < n ∧ c i ≤ x ∧ x < c (i + 1) := by
  induction n, hmn using Nat.le_induction with
  | base => exact absurd hhi (not_lt.2 hlo)
  | succ n hmn ih =>
    rcases lt_or_ge x (c n) with hlt | hge
    · obtain ⟨i, hmi, hi, hx⟩ := ih hlt
      exact ⟨i, hmi, Nat.lt_succ_of_lt hi, hx⟩
    · exact ⟨n, hmn, Nat.lt_succ_self n, hge, hhi⟩

theorem cut_unique (hc : ∀ i j, 0 < i → i ≤ j → j ≤ n → c i ≤ c j) (hi : i < n) (hj : j < n)
    (hxi : c i ≤ x ∧ x < c (i + 1)) (hxj : c j ≤ x ∧ x < c (j + 1)) : i = j := by
  by_contra hne
  rcases Nat.lt_or_gt_of_ne hne with hlt | hlt
  · have := hc (i + 1) j (Nat.succ_pos i) hlt hj.le
    omega
  · have := hc (j + 1) i (Nat.succ_pos j) hlt hi.le
    omega

end cuts

/-- Pieces, each with its place and its length, that tile an access in order. -/
def Tiles : Int → Int → List (Int × Int) → Prop
  | _, len, [] => len = 0
  | off, len, p :: ps => p.1 = off ∧ 0 < p.2 ∧ p.2 ≤ len ∧ Tiles (off + p.2) (len - p.2) ps

end PsMpi.Lib
