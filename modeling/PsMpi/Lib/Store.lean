import Mathlib.Algebra.GroupWithZero.Nat
import Mathlib.Algebra.Ring.Int.Defs
import Mathlib.Algebra.BigOperators.Group.List.Basic

/-!
# Stores of objects
-/

open List

namespace PsMpi.Lib

structure Store (α : Type*) where
  cells : List (Option α)

namespace Store

variable {α : Type*} {s : Store α} {i j : Nat} {a : α} {f : α → Nat}

def empty : Store α := ⟨[]⟩

def get (s : Store α) (i : Nat) : Option α := s.cells[i]?.join

def size (s : Store α) : Nat := s.cells.length

def alloc (s : Store α) (a : α) : Store α := ⟨s.cells ++ [some a]⟩

def put (s : Store α) (i : Nat) (x : Option α) : Store α := ⟨s.cells.set i x⟩

def weight (f : α → Nat) (x : Option α) : Nat := (x.map f).getD 0

def sum (f : α → Nat) (s : Store α) : Nat := (s.cells.map (weight f)).sum

@[simp] theorem get_empty : (empty : Store α).get i = none := rfl

@[simp] theorem sum_empty : (empty : Store α).sum f = 0 := rfl

theorem lt_size (h : s.get i = some a) : i < s.size := by
  by_contra hle
  rw [get, List.getElem?_eq_none (Nat.le_of_not_lt hle)] at h
  cases h

theorem get_put (h : i < s.size) (x : Option α) :
    (s.put i x).get j = if j = i then x else s.get j := by
  unfold get put
  rw [List.getElem?_set]
  by_cases hij : i = j
  · subst hij
    rw [if_pos rfl, if_pos (show i < s.cells.length from h), if_pos rfl]
    rfl
  · rw [if_neg hij, if_neg (Ne.symm hij)]

theorem get_alloc : (s.alloc a).get j = if j = s.size then some a else s.get j := by
  unfold get alloc size
  rw [List.getElem?_append]
  split
  · next h => rw [if_neg (Nat.ne_of_lt h)]
  · next h =>
    by_cases hj : j = s.cells.length
    · subst hj
      simp
    · rw [if_neg hj, List.getElem?_eq_none (by simp; omega), List.getElem?_eq_none (by omega)]

theorem sum_alloc : (s.alloc a).sum f = s.sum f + f a := by
  unfold sum alloc
  rw [map_append, sum_append]
  rfl

theorem sum_put (h : s.get i = some a) (x : Option α) :
    (s.put i x).sum f + f a = s.sum f + weight f x := by
  obtain ⟨cells⟩ := s
  unfold sum put get at *
  induction cells generalizing i with
  | nil => simp at h
  | cons c cells ih =>
    cases i with
    | zero =>
      obtain rfl : c = some a := by simpa using h
      simp only [set_cons_zero, map_cons, sum_cons]
      show _ + f a = f a + _ + _
      omega
    | succ i =>
      have := ih (i := i) (by simpa using h)
      simp only [set_cons_succ, map_cons, sum_cons] at this ⊢
      omega

theorem sum_pos : 0 < s.sum f ↔ ∃ i a, s.get i = some a ∧ 0 < f a := by
  constructor
  · intro hpos
    by_contra hno
    have hall : ∀ x ∈ s.cells.map (weight f), x = 0 := by
      intro x hx
      obtain ⟨c, hc, rfl⟩ := mem_map.1 hx
      obtain ⟨i, hi⟩ := mem_iff_getElem?.1 hc
      cases c with
      | none => rfl
      | some a =>
        refine Nat.eq_zero_of_not_pos fun hfa => hno ⟨i, a, ?_, hfa⟩
        rw [get, hi]
        rfl
    rw [sum, sum_eq_zero hall] at hpos
    exact Nat.lt_irrefl _ hpos
  · rintro ⟨i, a, hi, ha⟩
    have hput := sum_put (f := f) hi none
    simp only [weight, Option.map_none, Option.getD_none] at hput
    omega

end Store

end PsMpi.Lib
