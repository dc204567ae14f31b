import Mathlib.Data.List.Basic

/-!
# Orders through links
-/

namespace PsMpi.Lib

def Follows (next : Nat → Option Int) : Int → List Nat → Prop
  | i, [] => i = -1
  | i, n :: l => i = n ∧ ∃ j, next n = some j ∧ Follows next j l

namespace Follows

variable {next next' : Nat → Option Int} {i : Int} {l : List Nat}

theorem congr (h : Follows next i l) (hn : ∀ n ∈ l, next' n = next n) : Follows next' i l := by
  induction l generalizing i with
  | nil => exact h
  | cons n l ih =>
    obtain ⟨hi, j, hj, hl⟩ := h
    refine ⟨hi, j, ?_, ih hl fun m hm => hn m (List.mem_cons_of_mem _ hm)⟩
    rw [hn n List.mem_cons_self, hj]

theorem nonneg_iff (h : Follows next i l) : 0 ≤ i ↔ l ≠ [] := by
  cases l with
  | nil =>
    obtain rfl : i = -1 := h
    simp
  | cons n l =>
    obtain ⟨rfl, -⟩ := h
    simp

end Follows

/-! ## Pointers -/

def ListFrom {α : Type*} (next : α → Option α) : Option α → List α → Prop
  | head, [] => head = none
  | head, a :: l => head = some a ∧ ListFrom next (next a) l

namespace ListFrom

variable {α : Type*} {next next' : α → Option α} {head : Option α} {l : List α}

theorem congr (h : ListFrom next head l) (hn : ∀ a ∈ l, next' a = next a) :
    ListFrom next' head l := by
  induction l generalizing head with
  | nil => exact h
  | cons a l ih =>
    obtain ⟨hhead, hl⟩ := h
    refine ⟨hhead, ?_⟩
    rw [hn a List.mem_cons_self]
    exact ih hl fun b hb => hn b (List.mem_cons_of_mem _ hb)

theorem of_block {mk : Nat → α} {n : Nat} (k m : Nat) (hkm : k + m = n)
    (hn : ∀ i < n, next (mk i) = if i + 1 = n then none else some (mk (i + 1))) :
    ListFrom next (if k = n then none else some (mk k)) ((List.range' k m).map mk) := by
  induction m generalizing k with
  | zero => exact if_pos hkm
  | succ m ih =>
    refine ⟨if_neg (by omega), ?_⟩
    rw [hn k (by omega)]
    exact ih (k + 1) (by omega)

end ListFrom

end PsMpi.Lib
