import Mathlib.Order.Bounds.Basic
import Mathlib.Order.Nat
import Mathlib.Algebra.Order.Ring.Int

/-!
# Displacements
-/

open List

namespace PsMpi.Lib

variable {n : Nat} {s a b : Int} {l l' : List Int}

def steps (n : Nat) (s : Int) : List Int := (List.range n).map fun i : Nat => (i : Int) * s

@[simp] theorem steps_length (n : Nat) (s : Int) : (steps n s).length = n := by simp [steps]

def low (n s : Int) : Int := if 0 ≤ s then 0 else s * (n - 1)

def high (n s : Int) : Int := if 0 ≤ s then s * (n - 1) else 0

theorem mem_steps {x : Int} : x ∈ steps n s ↔ ∃ i < n, x = (i : Int) * s := by
  simp only [steps, mem_map, mem_range]
  constructor
  · rintro ⟨i, hi, rfl⟩
    exact ⟨i, hi, rfl⟩
  · rintro ⟨i, hi, rfl⟩
    exact ⟨i, hi, rfl⟩

theorem steps_least (hn : 0 < n) (s : Int) : IsLeast {x | x ∈ steps n s} (low n s) := by
  have hlast : ((n - 1 : Nat) : Int) = n - 1 := by omega
  unfold low
  constructor
  · refine mem_steps.2 ?_
    split
    · exact ⟨0, hn, by simp⟩
    · exact ⟨n - 1, by omega, by rw [hlast, Int.mul_comm]⟩
  · intro x hx
    obtain ⟨i, hi, rfl⟩ := mem_steps.1 hx
    split
    · next h => exact Int.mul_nonneg (Int.natCast_nonneg i) h
    · next h =>
      rw [Int.mul_comm (i : Int)]
      exact Int.mul_le_mul_of_nonpos_left (by omega) (by omega)

theorem steps_greatest (hn : 0 < n) (s : Int) : IsGreatest {x | x ∈ steps n s} (high n s) := by
  have hlast : ((n - 1 : Nat) : Int) = n - 1 := by omega
  unfold high
  constructor
  · refine mem_steps.2 ?_
    split
    · exact ⟨n - 1, by omega, by rw [hlast, Int.mul_comm]⟩
    · exact ⟨0, hn, by simp⟩
  · intro x hx
    obtain ⟨i, hi, rfl⟩ := mem_steps.1 hx
    rw [Int.mul_comm (i : Int)]
    split
    · next h => exact Int.mul_le_mul_of_nonneg_left (by omega) h
    · next h => exact Int.mul_nonpos_of_nonpos_of_nonneg (by omega) (Int.natCast_nonneg i)

def sums (l l' : List Int) : List Int := l.flatMap fun x => l'.map (x + ·)

theorem mem_sums {x : Int} : x ∈ sums l l' ↔ ∃ y ∈ l, ∃ z ∈ l', x = y + z := by
  simp only [sums, mem_flatMap, mem_map]
  constructor
  · rintro ⟨y, hy, z, hz, rfl⟩
    exact ⟨y, hy, z, hz, rfl⟩
  · rintro ⟨y, hy, z, hz, rfl⟩
    exact ⟨y, hy, z, hz, rfl⟩

theorem sums_length (l l' : List Int) : (sums l l').length = l.length * l'.length := by
  induction l with
  | nil => simp [sums]
  | cons x l ih =>
    have hcons : sums (x :: l) l' = l'.map (x + ·) ++ sums l l' := rfl
    rw [hcons, length_append, length_map, ih, length_cons, Nat.succ_mul,
      Nat.add_comm]

theorem sums_least (hl : IsLeast {x | x ∈ l} a) (hl' : IsLeast {x | x ∈ l'} b) :
    IsLeast {x | x ∈ sums l l'} (a + b) := by
  refine ⟨mem_sums.2 ⟨a, hl.1, b, hl'.1, rfl⟩, fun x hx => ?_⟩
  obtain ⟨y, hy, z, hz, rfl⟩ := mem_sums.1 hx
  exact Int.add_le_add (hl.2 hy) (hl'.2 hz)

theorem sums_greatest (hl : IsGreatest {x | x ∈ l} a) (hl' : IsGreatest {x | x ∈ l'} b) :
    IsGreatest {x | x ∈ sums l l'} (a + b) := by
  refine ⟨mem_sums.2 ⟨a, hl.1, b, hl'.1, rfl⟩, fun x hx => ?_⟩
  obtain ⟨y, hy, z, hz, rfl⟩ := mem_sums.1 hx
  exact Int.add_le_add (hl.2 hy) (hl'.2 hz)

theorem append_least (hl : IsLeast {x | x ∈ l} a) (hl' : IsLeast {x | x ∈ l'} b) :
    IsLeast {x | x ∈ l ++ l'} (if b < a then b else a) := by
  constructor
  · refine mem_append.2 ?_
    split
    · exact .inr hl'.1
    · exact .inl hl.1
  · intro x hx
    have := (mem_append.1 hx).imp (fun h => hl.2 h) (fun h => hl'.2 h)
    split <;> omega

theorem append_greatest (hl : IsGreatest {x | x ∈ l} a) (hl' : IsGreatest {x | x ∈ l'} b) :
    IsGreatest {x | x ∈ l ++ l'} (if b > a then b else a) := by
  constructor
  · refine mem_append.2 ?_
    split
    · exact .inr hl'.1
    · exact .inl hl.1
  · intro x hx
    have := (mem_append.1 hx).imp (fun h => hl.2 h) (fun h => hl'.2 h)
    split <;> omega

theorem singleton_least (a : Int) : IsLeast {x | x ∈ [a]} a :=
  ⟨mem_singleton.2 rfl, fun _ hx => (mem_singleton.1 hx).ge⟩

theorem singleton_greatest (a : Int) : IsGreatest {x | x ∈ [a]} a :=
  ⟨mem_singleton.2 rfl, fun _ hx => (mem_singleton.1 hx).le⟩

theorem min?_getD {l : List Int} {x : Int} (h : IsLeast {y | y ∈ l} x) : l.min?.getD 0 = x := by
  rw [List.min?_eq_some_iff.2 ⟨h.1, fun y hy => h.2 hy⟩, Option.getD_some]

theorem max?_getD {l : List Int} {x : Int} (h : IsGreatest {y | y ∈ l} x) : l.max?.getD 0 = x := by
  rw [List.max?_eq_some_iff.2 ⟨h.1, fun y hy => h.2 hy⟩, Option.getD_some]

theorem shift_eq (ds : List Int) (x : Int) : ds.map (· + x) = sums ds [x] := by
  rw [sums]
  induction ds with
  | nil => rfl
  | cons d ds ih => rw [map_cons, flatMap_cons, ih]; rfl

theorem map_succ_greatest {l : List Int} {a : Int} (h : IsGreatest {x | x ∈ l} (a - 1)) :
    IsGreatest {x | x ∈ l.map (· + 1)} a := by
  refine ⟨mem_map.2 ⟨a - 1, h.1, by omega⟩, fun x hx => ?_⟩
  obtain ⟨y, hy, rfl⟩ := mem_map.1 hx
  have : y ≤ a - 1 := h.2 hy
  change y + 1 ≤ a
  omega

theorem of_map_succ_greatest {l : List Int} {a : Int} (h : IsGreatest {x | x ∈ l.map (· + 1)} a) :
    IsGreatest {x | x ∈ l} (a - 1) := by
  obtain ⟨y, hy, rfl⟩ := mem_map.1 h.1
  refine ⟨by simpa using hy, fun x hx => ?_⟩
  have : x + 1 ≤ y + 1 := h.2 (mem_map.2 ⟨x, hx, rfl⟩)
  change x ≤ y + 1 - 1
  omega

end PsMpi.Lib
