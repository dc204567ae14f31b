import Mathlib.Data.List.Nodup

/-!
# Tables

A table is a list whose elements have a key, given by a function `κ`.
-/

open List

namespace PsMpi.Lib.Table

variable {α C : Type*} [DecidableEq C] (κ : α → C)

def find (c : C) (l : List α) : Option α := l.find? fun a => κ a = c

def updateFirst (c : C) (f : α → α) : List α → List α
  | [] => []
  | a :: l => if κ a = c then f a :: l else a :: updateFirst c f l

def erase (c : C) (l : List α) : List α := l.eraseP fun a => κ a = c

def Distinct (l : List α) : Prop := (l.map κ).Nodup

variable {κ} {l : List α} {a : α} {c c' : C} {f : α → α}

theorem find_eq_none : find κ c l = none ↔ c ∉ l.map κ := by
  simp only [find, List.find?_eq_none, decide_eq_true_eq, mem_map, not_exists, not_and]

theorem find_some (h : find κ c l = some a) : a ∈ l ∧ κ a = c := by
  unfold find at h
  have hkey := List.find?_some h
  exact ⟨mem_of_find?_eq_some h, of_decide_eq_true hkey⟩

theorem find_append : find κ c (l ++ [a]) = (find κ c l).or (if κ a = c then some a else none) := by
  rw [find, List.find?_append, List.find?_singleton, find]
  simp only [decide_eq_true_eq]

theorem find_cons : find κ c (a :: l) = if κ a = c then some a else find κ c l := by
  rw [find, List.find?_cons]
  split
  · next h => rw [if_pos (of_decide_eq_true h)]
  · next h => rw [if_neg (of_decide_eq_false h), find]

theorem Distinct.find_of_mem (hd : Distinct κ l) (h : a ∈ l) : find κ (κ a) l = some a := by
  induction l with
  | nil => cases h
  | cons b l ih =>
    rw [Distinct, map_cons, nodup_cons] at hd
    rw [find_cons]
    rcases mem_cons.1 h with rfl | h
    · exact if_pos rfl
    · have hne : κ b ≠ κ a := fun heq => hd.1 (heq ▸ mem_map_of_mem h)
      rw [if_neg hne]
      exact ih hd.2 h

theorem map_updateFirst (hf : ∀ a, κ (f a) = κ a) : (updateFirst κ c f l).map κ = l.map κ := by
  induction l with
  | nil => rfl
  | cons a l ih =>
    rw [updateFirst]
    split
    · rw [map_cons, hf, map_cons]
    · rw [map_cons, ih, map_cons]

theorem find_updateFirst (hf : ∀ a, κ (f a) = κ a) : find κ c' (updateFirst κ c f l) =
    if c' = c then (find κ c l).map f else find κ c' l := by
  induction l with
  | nil => simp [find, updateFirst]
  | cons a l ih =>
    rw [updateFirst]
    split
    · next h =>
      rw [find_cons, find_cons, if_pos h, find_cons, hf]
      by_cases hc : c' = c
      · rw [if_pos hc, if_pos (h.trans hc.symm), Option.map_some]
      · rw [if_neg hc, if_neg fun heq => hc (heq.symm.trans h), if_neg fun heq => hc (heq.symm.trans h)]
    · next h =>
      rw [find_cons, ih, find_cons, if_neg h, find_cons]
      by_cases hc : c' = c
      · rw [if_pos hc, if_pos hc, if_neg fun heq => h (heq.trans hc)]
      · rw [if_neg hc, if_neg hc]

theorem erase_cons : erase κ c (a :: l) = if κ a = c then l else a :: erase κ c l := by
  by_cases h : κ a = c <;> simp [erase, h]

theorem Distinct.find_erase (hd : Distinct κ l) :
    find κ c' (erase κ c l) = if c' = c then none else find κ c' l := by
  induction l with
  | nil => simp [find, erase]
  | cons a l ih =>
    rw [Distinct, map_cons, nodup_cons] at hd
    rw [erase_cons, find_cons]
    split
    · next h =>
      by_cases hc : c' = c
      · rw [if_pos hc, find_eq_none, hc, ← h]
        exact hd.1
      · rw [if_neg hc, if_neg fun heq => hc (heq.symm.trans h)]
    · next h =>
      rw [find_cons, ih hd.2]
      by_cases hc : c' = c
      · rw [if_pos hc, if_pos hc, if_neg fun heq => h (heq.trans hc)]
      · rw [if_neg hc, if_neg hc]

theorem Distinct.append (hd : Distinct κ l) (h : find κ (κ a) l = none) : Distinct κ (l ++ [a]) := by
  rw [find_eq_none] at h
  rw [Distinct, map_append]
  refine List.Nodup.append hd (nodup_singleton _) ?_
  rw [map_singleton, disjoint_singleton]
  exact h

theorem Distinct.updateFirst (hd : Distinct κ l) (hf : ∀ a, κ (f a) = κ a) :
    Distinct κ (updateFirst κ c f l) := by
  rw [Distinct, map_updateFirst hf]
  exact hd

theorem Distinct.erase (hd : Distinct κ l) : Distinct κ (erase κ c l) :=
  hd.sublist (eraseP_sublist.map κ)

theorem Distinct.countP (hd : Distinct κ l) :
    l.countP (fun a => κ a = c) = if (find κ c l).isSome then 1 else 0 := by
  have hcount : l.countP (fun a => κ a = c) = (l.map κ).count c := by
    rw [List.count, countP_map]
    rfl
  rw [hcount, List.Nodup.count hd]
  have hiff : c ∈ l.map κ ↔ (find κ c l).isSome = true := by
    rw [← Option.ne_none_iff_isSome, Ne, find_eq_none, not_not]
  simp only [hiff]

end PsMpi.Lib.Table
