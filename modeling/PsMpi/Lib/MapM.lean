import Mathlib.Data.List.Forall2

/-!
# Lists of partial results

A function that may fail is applied to all elements of a list (`List.mapM` of `Option`).
-/

open List Option

namespace PsMpi.Lib

variable {α β : Type} {f : α → Option β} {l : List α}

theorem mapM_eq_some {g : α → β} (h : ∀ a ∈ l, f a = some (g a)) : l.mapM f = some (l.map g) := by
  induction l with
  | nil => rfl
  | cons a l ih =>
    rw [List.mapM_cons, h a mem_cons_self, ih fun b hb => h b (mem_cons_of_mem _ hb)]
    rfl

theorem mapM_eq_some_iff {l' : List β} :
    l.mapM f = some l' ↔ List.Forall₂ (fun a b => f a = some b) l l' := by
  induction l generalizing l' with
  | nil => simp [eq_comm]
  | cons a l ih =>
    rw [List.mapM_cons, List.forall₂_cons_left_iff]
    simp only [Option.bind_eq_bind, Option.bind_eq_some_iff, ih, Option.pure_def,
      Option.some.injEq]
    constructor
    · rintro ⟨b, hb, l₁, hl, rfl⟩
      exact ⟨b, l₁, hb, hl, rfl⟩
    · rintro ⟨b, l₁, hb, hl, rfl⟩
      exact ⟨b, hb, l₁, hl, rfl⟩

theorem mem_of_mapM {ys : List β} {y : β} (h : l.mapM f = some ys) (hy : y ∈ ys) :
    ∃ x ∈ l, f x = some y := by
  induction l generalizing ys with
  | nil =>
    obtain rfl : [] = ys := by simpa using h
    cases hy
  | cons x l ih =>
    rw [List.mapM_cons] at h
    obtain ⟨z, hz, h⟩ := Option.bind_eq_some_iff.1 h
    obtain ⟨zs, hzs, h⟩ := Option.bind_eq_some_iff.1 h
    cases h
    rcases mem_cons.1 hy with rfl | hy
    · exact ⟨x, mem_cons_self, hz⟩
    · obtain ⟨x', hx', hfx⟩ := ih hzs hy
      exact ⟨x', mem_cons_of_mem _ hx', hfx⟩

end PsMpi.Lib
