import Mathlib.Data.List.Basic
import Mathlib.Tactic.Ring

/-!
# Elements of a range by quotients and remainders
-/

open List

namespace PsMpi.Lib

variable {g s b c k : Nat}

theorem range_shift_filter (n m : Nat) (p : Nat → Bool) :
    (List.range (n + m)).filter p =
      (List.range n).filter p ++ ((List.range m).filter fun x => p (n + x)).map (n + ·) := by
  rw [range_add, filter_append, filter_map]
  rfl

theorem filter_range_mul (g s : Nat) (p q : Nat → Bool) :
    (List.range (g * s)).filter (fun e => p (e / s) && q (e % s)) =
      ((List.range g).filter p).flatMap fun i =>
        ((List.range s).filter q).map fun x => i * s + x := by
  induction g with
  | zero => simp
  | succ g ih =>
    have hrow : (List.range s).filter (fun x => p ((g * s + x) / s) && q ((g * s + x) % s)) =
        if p g then (List.range s).filter q else [] := by
      have hdm : ∀ x ∈ List.range s, (g * s + x) / s = g ∧ (g * s + x) % s = x := fun x hx => by
        have hx := mem_range.1 hx
        constructor
        · rw [Nat.mul_comm, Nat.mul_add_div (by omega), Nat.div_eq_of_lt hx, Nat.add_zero]
        · rw [Nat.mul_comm, Nat.mul_add_mod, Nat.mod_eq_of_lt hx]
      rw [filter_congr fun x hx => by rw [(hdm x hx).1, (hdm x hx).2]]
      cases p g <;> simp
    rw [Nat.succ_mul, range_shift_filter, ih, hrow, range_succ, filter_append,
      flatMap_append, filter_singleton]
    congr 1
    cases p g <;> simp

theorem filter_block (hb : 0 < b) (g c : Nat) :
    (List.range g).filter (fun i => decide (i / b = c)) =
      (List.range (min b (g - b * c))).map (b * c + ·) := by
  have hiff : ∀ i, i / b = c ↔ b * c ≤ i ∧ i < b * c + b := fun i => by
    rw [Nat.div_eq_iff hb, Nat.mul_comm]
    omega
  rcases Nat.le_total g (b * c) with hle | hle
  · rw [Nat.sub_eq_zero_of_le hle, Nat.min_zero]
    refine filter_eq_nil_iff.2 fun i hi => ?_
    have := mem_range.1 hi
    rw [decide_eq_true_eq, hiff]
    omega
  · obtain ⟨r, rfl⟩ := Nat.exists_eq_add_of_le hle
    rw [range_shift_filter, Nat.add_sub_cancel_left]
    have hbefore : (List.range (b * c)).filter (fun i => decide (i / b = c)) = [] := by
      refine filter_eq_nil_iff.2 fun i hi => ?_
      have := mem_range.1 hi
      rw [decide_eq_true_eq, hiff]
      omega
    rw [hbefore, nil_append]
    congr 1
    have hinside : (List.range r).filter (fun x => decide ((b * c + x) / b = c)) =
        (List.range r).filter fun x => decide (x < b) :=
      filter_congr fun x _ => by
        rw [decide_eq_decide, hiff]
        omega
    rw [hinside]
    rcases Nat.le_total r b with hr | hr
    · rw [Nat.min_eq_right hr]
      exact filter_eq_self.2 fun x hx => by
        have := mem_range.1 hx
        simp only [decide_eq_true_eq]
        omega
    · rw [Nat.min_eq_left hr]
      obtain ⟨t, rfl⟩ := Nat.exists_eq_add_of_le hr
      rw [range_shift_filter]
      have h1 : (List.range b).filter (fun x => decide (x < b)) = List.range b :=
        filter_eq_self.2 fun x hx => by simpa using hx
      have h2 : (List.range t).filter (fun x => decide (b + x < b)) = [] :=
        filter_eq_nil_iff.2 fun x _ => by simp
      rw [h1, h2, map_nil, append_nil]

theorem filter_cyclic (hb : 0 < b) (hc : c < k) (g : Nat) :
    (List.range g).filter (fun i => decide (i / b % k = c)) =
      ((List.range (g / (k * b))).flatMap fun j =>
        (List.range b).map fun x => j * (k * b) + (b * c + x)) ++
      (List.range (min b (g % (k * b) - b * c))).map
        fun x => g / (k * b) * (k * b) + (b * c + x) := by
  have hcycle : ∀ j x, x < k * b → (j * (k * b) + x) / b % k = x / b := fun j x hx => by
    have hrw : j * (k * b) + x = b * (j * k) + x := by ring
    rw [hrw, Nat.mul_add_div hb, Nat.mul_comm j k, Nat.mul_add_mod]
    exact Nat.mod_eq_of_lt (Nat.div_lt_of_lt_mul (by rwa [Nat.mul_comm]))
  have hk : 0 < k * b := Nat.mul_pos (by omega) hb
  have hsplit : g = g / (k * b) * (k * b) + g % (k * b) := by
    rw [Nat.mul_comm]
    exact (Nat.div_add_mod g (k * b)).symm
  have hfull : min b (k * b - b * c) = b := by
    have : b * (c + 1) ≤ b * k := Nat.mul_le_mul_left b hc
    rw [Nat.mul_succ, Nat.mul_comm b k] at this
    omega
  conv_lhs => rw [hsplit]
  rw [range_shift_filter]
  congr 1
  · -- whole cycles
    have hcongr : (List.range (g / (k * b) * (k * b))).filter (fun i => decide (i / b % k = c)) =
        (List.range (g / (k * b) * (k * b))).filter
          fun i => (fun _ => true) (i / (k * b)) && decide (i % (k * b) / b = c) :=
      filter_congr fun i _ => by
        have := hcycle (i / (k * b)) (i % (k * b)) (Nat.mod_lt i hk)
        rw [Nat.mul_comm (i / (k * b)), Nat.div_add_mod] at this
        rw [Bool.true_and, this]
    rw [hcongr, filter_range_mul _ _ (fun _ => true) fun x => decide (x / b = c),
      filter_block hb, hfull]
    simp only [filter_true, map_map]
    rfl
  · have hcongr : (List.range (g % (k * b))).filter
        (fun x => decide ((g / (k * b) * (k * b) + x) / b % k = c)) =
        (List.range (g % (k * b))).filter fun x => decide (x / b = c) :=
      filter_congr fun x hx => by
        have hx := mem_range.1 hx
        rw [hcycle _ x (hx.trans (Nat.mod_lt g hk))]
    rw [hcongr, filter_block hb, map_map]
    rfl

end PsMpi.Lib
