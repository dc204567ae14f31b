import Mathlib.Data.Nat.Bitwise
import Mathlib.Tactic.Ring

/-!
# Reductions along the dimensions of a hypercube
-/

namespace PsMpi.Lib.Hypercube

/-! ## Reductions -/

section seg

variable {α : Type*}

def seg (op : α → α → α) (v : Nat → α) (lo : Nat) : Nat → α
  | 0 => v lo
  | k + 1 => op (seg op v lo k) (v (lo + k + 1))

variable {op : α → α → α} {v w : Nat → α}

theorem seg_append (ha : ∀ x y z, op (op x y) z = op x (op y z)) (lo k m : Nat) :
    op (seg op v lo k) (seg op v (lo + k + 1) m) = seg op v lo (k + m + 1) := by
  induction m with
  | zero => rfl
  | succ m ih =>
    have hplace : lo + k + 1 + m + 1 = lo + (k + m + 1) + 1 := by omega
    rw [seg, ← ha, ih, hplace]
    rfl

theorem seg_congr {lo k : Nat} (h : ∀ i, lo ≤ i → i ≤ lo + k → v i = w i) :
    seg op v lo k = seg op w lo k := by
  induction k with
  | zero => exact h lo (Nat.le_refl _) (Nat.le_refl _)
  | succ k ih =>
    rw [seg, seg, ih fun i h₁ h₂ => h i h₁ (by omega), h (lo + k + 1) (by omega) (by omega)]

theorem seg_regroup (ha : ∀ x y z, op (op x y) z = op x (op y z)) {e : Nat → Nat}
    (hinc : ∀ j, e j < e (j + 1)) (h0 : w 0 = seg op v 0 (e 0)) (k : Nat)
    (hw : ∀ j, j < k → w (j + 1) = seg op v (e j + 1) (e (j + 1) - e j - 1)) :
    seg op w 0 k = seg op v 0 (e k) := by
  induction k with
  | zero => exact h0
  | succ k ih =>
    have hlast := hw k (Nat.lt_succ_self k)
    have hlen : e k + (e (k + 1) - e k - 1) + 1 = e (k + 1) := by
      have := hinc k
      omega
    have happ := seg_append (v := v) ha 0 (e k) (e (k + 1) - e k - 1)
    rw [Nat.zero_add, hlen] at happ
    rw [seg, ih fun j hj => hw j (Nat.lt_succ_of_lt hj), Nat.zero_add, hlast]
    exact happ

def pairs (op : α → α → α) (rem : Nat) (v : Nat → α) (j : Nat) : α :=
  if j < rem then op (v (2 * j)) (v (2 * j + 1)) else v (j + rem)

theorem seg_pairs (ha : ∀ x y z, op (op x y) z = op x (op y z)) (rem : Nat) (v : Nat → α) (k : Nat) :
    seg op (pairs op rem v) 0 k = seg op v 0 (if k < rem then k * 2 + 1 else k + rem) := by
  refine seg_regroup (e := fun k => if k < rem then k * 2 + 1 else k + rem) ha (fun j => ?_) ?_ k
    fun j _ => ?_
  · split <;> split <;> omega
  · unfold pairs
    split
    · rfl
    · obtain rfl : rem = 0 := by omega
      rfl
  · unfold pairs
    by_cases h₁ : j + 1 < rem
    · have h₂ : j < rem := by omega
      have hlen : (j + 1) * 2 + 1 - (j * 2 + 1) - 1 = 1 := by omega
      have hlo : j * 2 + 1 + 1 = 2 * (j + 1) := by omega
      simp only [if_pos h₁, if_pos h₂]
      rw [hlen, hlo]
      rfl
    · by_cases h₂ : j < rem
      · have hlen : j + 1 + rem - (j * 2 + 1) - 1 = 0 := by omega
        have hlo : j * 2 + 1 + 1 = j + 1 + rem := by omega
        simp only [if_neg h₁, if_pos h₂]
        rw [hlen, hlo]
        rfl
      · have hlen : j + 1 + rem - (j + rem) - 1 = 0 := by omega
        have hlo : j + rem + 1 = j + 1 + rem := by omega
        simp only [if_neg h₁, if_neg h₂]
        rw [hlen, hlo]
        rfl

def block (op : α → α → α) (v : Nat → α) (i b : Nat) : α := seg op v (b * 2 ^ i) (2 ^ i - 1)

theorem block_zero (b : Nat) : block op v 0 b = v b := by
  rw [block, Nat.pow_zero, Nat.mul_one]
  rfl

theorem block_succ (ha : ∀ x y z, op (op x y) z = op x (op y z)) (i b : Nat) :
    op (block op v i (2 * b)) (block op v i (2 * b + 1)) = block op v (i + 1) b := by
  have hpos := Nat.two_pow_pos i
  have hlo : 2 * b * 2 ^ i = b * 2 ^ (i + 1) := by ring
  have hmid : (2 * b + 1) * 2 ^ i = b * 2 ^ (i + 1) + (2 ^ i - 1) + 1 := by
    rw [Nat.add_assoc, Nat.sub_add_cancel hpos]
    ring
  have hlen : 2 ^ i - 1 + (2 ^ i - 1) + 1 = 2 ^ (i + 1) - 1 := by
    rw [Nat.pow_succ]
    omega
  rw [block, block, block, hlo, hmid, seg_append ha, hlen]

end seg

/-! ## Partners -/

section partners

variable {L i j t : Nat}

theorem xor_lt (hj : j < 2 ^ L) (hi : i < L) : j ^^^ 2 ^ i < 2 ^ L :=
  Nat.xor_lt_two_pow hj (Nat.pow_lt_pow_right (Nat.le_refl 2) hi)

theorem xor_xor (j i : Nat) : j ^^^ 2 ^ i ^^^ 2 ^ i = j := by
  rw [Nat.xor_assoc, Nat.xor_self, Nat.xor_zero]

theorem xor_div (j i : Nat) : (j ^^^ 2 ^ i) / 2 ^ i = (j / 2 ^ i) ^^^ 1 := by
  rw [← Nat.shiftRight_eq_div_pow, ← Nat.shiftRight_eq_div_pow, Nat.shiftRight_xor_distrib,
    Nat.shiftRight_eq_div_pow (2 ^ i), Nat.div_self (Nat.two_pow_pos i)]

theorem xor_one (b : Nat) : b ^^^ 1 = if b % 2 = 0 then b + 1 else b - 1 := by
  have hdiv : (b ^^^ 1) / 2 = b / 2 := by
    rw [Nat.xor_div_two, Nat.xor_zero]
  have hmod : (b ^^^ 1) % 2 = (b + 1) % 2 := Nat.xor_mod_two_eq
  split <;> omega

theorem xor_ne (j i : Nat) : j ^^^ 2 ^ i ≠ j := by
  intro heq
  have hdiv := xor_div j i
  rw [heq, xor_one] at hdiv
  generalize j / 2 ^ i = b at hdiv
  split at hdiv <;> omega

theorem lt_xor_iff (j i : Nat) : j < j ^^^ 2 ^ i ↔ j / 2 ^ i % 2 = 0 := by
  have hdiv := xor_div j i
  rw [xor_one] at hdiv
  by_cases h0 : j / 2 ^ i % 2 = 0
  · rw [if_pos h0] at hdiv
    exact iff_of_true (Nat.lt_of_div_lt_div (by rw [hdiv]; exact Nat.lt_succ_self _)) h0
  · rw [if_neg h0] at hdiv
    have hlt : (j ^^^ 2 ^ i) / 2 ^ i < j / 2 ^ i := by
      rw [hdiv]
      generalize j / 2 ^ i = b at h0
      omega
    exact iff_of_false (Nat.lt_asymm (Nat.lt_of_div_lt_div hlt)) h0

theorem block_exchange {α : Type*} {op : α → α → α} {v : Nat → α}
    (ha : ∀ x y z, op (op x y) z = op x (op y z)) (i j : Nat) :
    (if j < j ^^^ 2 ^ i then op (block op v i (j / 2 ^ i)) (block op v i ((j ^^^ 2 ^ i) / 2 ^ i))
      else op (block op v i ((j ^^^ 2 ^ i) / 2 ^ i)) (block op v i (j / 2 ^ i))) =
      block op v (i + 1) (j / 2 ^ (i + 1)) := by
  rw [xor_div, xor_one, Nat.pow_succ, ← Nat.div_div_eq_div_mul, ← block_succ ha]
  by_cases h0 : j / 2 ^ i % 2 = 0
  · have hb : 2 * (j / 2 ^ i / 2) = j / 2 ^ i := by omega
    rw [if_pos ((lt_xor_iff j i).2 h0), if_pos h0, hb]
  · have hb : 2 * (j / 2 ^ i / 2) = j / 2 ^ i - 1 := by omega
    have hb' : 2 * (j / 2 ^ i / 2) + 1 = j / 2 ^ i := by omega
    rw [if_neg fun hlt => h0 ((lt_xor_iff j i).1 hlt), if_neg h0, hb', hb]

/-! ## Halves -/

/-- The first of the places that `j` keeps after the dimensions below `i`, if the places are halved
in each dimension. -/
def lower (L : Nat) : Nat → Nat → Nat
  | 0, _ => 0
  | i + 1, j => lower L i j + if j / 2 ^ i % 2 = 0 then 0 else 2 ^ (L - 1 - i)

theorem lower_xor (h : t ≤ i) : lower L t (j ^^^ 2 ^ i) = lower L t j := by
  induction t with
  | zero => rfl
  | succ t ih =>
    have hbit : (j ^^^ 2 ^ i) / 2 ^ t % 2 = j / 2 ^ t % 2 := by
      have hne : i ≠ t := by omega
      have := congrArg Bool.toNat (Nat.testBit_xor j (2 ^ i) t)
      rw [Nat.testBit_two_pow_of_ne hne, Bool.xor_false, Nat.toNat_testBit, Nat.toNat_testBit]
        at this
      exact this
    rw [lower, lower, ih (by omega), hbit]

theorem lower_add_le (h : i ≤ L) : lower L i j + 2 ^ (L - i) ≤ 2 ^ L := by
  induction i with
  | zero => exact Nat.le_of_eq (Nat.zero_add _)
  | succ i ih =>
    have hhalf : 2 ^ (L - i) = 2 ^ (L - 1 - i) + 2 ^ (L - 1 - i) := by
      have : L - i = L - 1 - i + 1 := by omega
      rw [this, Nat.pow_succ]
      omega
    have hrest : L - (i + 1) = L - 1 - i := by omega
    have := ih (by omega)
    have hpos := Nat.two_pow_pos (L - 1 - i)
    rw [lower, hrest]
    split <;> omega

end partners

end PsMpi.Lib.Hypercube
