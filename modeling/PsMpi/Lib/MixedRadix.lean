import Mathlib.Data.List.Forall2
import Mathlib.Algebra.Order.BigOperators.GroupWithZero.List
import Mathlib.Tactic.Ring

/-!
# Mixed radix numbers
-/

open List

namespace PsMpi.Lib.MixedRadix

/-! ## Digits -/

def value : Nat → List Nat → List Nat → Nat
  | acc, d :: ds, p :: ps => value (acc * d + p) ds ps
  | acc, _, _ => acc

def digits : Nat → Nat → List Nat → List Nat
  | _, _, [] => []
  | n, r, d :: ds => r / (n / d) :: digits (n / d) (r % (n / d)) ds

section digits

variable {acc r : Nat} {ds ps : List Nat}

theorem value_eq (h : List.Forall₂ (fun d p => p < d) ds ps) :
    value acc ds ps = acc * ds.prod + value 0 ds ps := by
  induction h generalizing acc with
  | nil => simp [value]
  | @cons d p ds ps _ _ ih =>
    rw [value, value, ih, @ih (0 * d + p), prod_cons]
    ring

theorem value_lt (h : List.Forall₂ (fun d p => p < d) ds ps) : value 0 ds ps < ds.prod := by
  induction h with
  | nil => exact Nat.zero_lt_one
  | @cons d p ds ps hp h ih =>
    rw [value, value_eq h, prod_cons, Nat.zero_mul, Nat.zero_add]
    calc p * ds.prod + value 0 ds ps < p * ds.prod + ds.prod := Nat.add_lt_add_left ih _
      _ = (p + 1) * ds.prod := (Nat.succ_mul p _).symm
      _ ≤ d * ds.prod := Nat.mul_le_mul_right _ hp

theorem prod_pos_of_digits (h : List.Forall₂ (fun d p => p < d) ds ps) : 0 < ds.prod :=
  Nat.zero_lt_of_lt (value_lt h)

theorem digits_value (h : List.Forall₂ (fun d p => p < d) ds ps) :
    digits ds.prod (value 0 ds ps) ds = ps := by
  induction h with
  | nil => rfl
  | @cons d p ds ps hp h ih =>
    have hpos : 0 < ds.prod := prod_pos_of_digits h
    have hlt : value 0 ds ps < ds.prod := value_lt h
    have hdiv : d * ds.prod / d = ds.prod := Nat.mul_div_cancel_left _ (Nat.zero_lt_of_lt hp)
    rw [digits, prod_cons, hdiv, value, value_eq h, Nat.zero_mul, Nat.zero_add,
      Nat.mul_comm p, Nat.mul_add_div hpos, Nat.mul_add_mod, Nat.div_eq_of_lt hlt,
      Nat.mod_eq_of_lt hlt, ih, Nat.add_zero]

theorem digits_lt (hds : ∀ d ∈ ds, 0 < d) (hr : r < ds.prod) :
    List.Forall₂ (fun d p => p < d) ds (digits ds.prod r ds) := by
  induction ds generalizing r with
  | nil => exact .nil
  | cons d ds ih =>
    have hd : 0 < d := hds d mem_cons_self
    have hpos : 0 < ds.prod := prod_pos fun e he => hds e (mem_cons_of_mem _ he)
    rw [prod_cons] at hr
    rw [digits, prod_cons, Nat.mul_div_cancel_left _ hd]
    refine .cons ?_ (ih (fun e he => hds e (mem_cons_of_mem _ he)) (Nat.mod_lt _ hpos))
    exact (Nat.div_lt_iff_lt_mul hpos).2 hr

theorem value_digits (hds : ∀ d ∈ ds, 0 < d) (hr : r < ds.prod) :
    value 0 ds (digits ds.prod r ds) = r := by
  induction ds generalizing r with
  | nil => exact (Nat.lt_one_iff.1 hr).symm
  | cons d ds ih =>
    have hd : 0 < d := hds d mem_cons_self
    have hds' : ∀ e ∈ ds, 0 < e := fun e he => hds e (mem_cons_of_mem _ he)
    have hmod : r % ds.prod < ds.prod := Nat.mod_lt _ (prod_pos hds')
    rw [digits, prod_cons, Nat.mul_div_cancel_left _ hd, value,
      value_eq (digits_lt hds' hmod), ih hds' hmod, Nat.zero_mul, Nat.zero_add, Nat.mul_comm]
    exact Nat.div_add_mod r _

theorem length_digits {n : Nat} : (digits n r ds).length = ds.length := by
  induction ds generalizing n r with
  | nil => rfl
  | cons d ds ih => rw [digits, length_cons, length_cons, ih]

theorem digits_inj {q : Nat} (hds : ∀ d ∈ ds, 0 < d) (hq : q < ds.prod) (hr : r < ds.prod) :
    digits ds.prod q ds = digits ds.prod r ds ↔ q = r := by
  refine ⟨fun h => ?_, congrArg (digits ds.prod · ds)⟩
  rw [← value_digits hds hq, h, value_digits hds hr]

end digits

/-! ## Masks -/

def keep {α : Type} : List Bool → List α → List α
  | true :: bs, x :: xs => x :: keep bs xs
  | false :: bs, _ :: xs => keep bs xs
  | _, _ => []

def merge {α : Type} : List Bool → List α → List α → List α
  | true :: bs, x :: xs, ys => x :: merge bs xs ys
  | false :: bs, xs, y :: ys => y :: merge bs xs ys
  | _, _, _ => []

section masks

variable {α : Type} {bs : List Bool} {xs ys : List α} {ds ps qs : List Nat}

theorem merge_keep (h : bs.length = xs.length) :
    merge bs (keep bs xs) (keep (bs.map not) xs) = xs := by
  induction bs generalizing xs with
  | nil => exact (length_eq_zero_iff.1 h.symm).symm
  | cons b bs ih =>
    obtain ⟨x, xs, rfl⟩ := exists_cons_of_length_eq_add_one h.symm
    have htail := ih (Nat.succ.inj h)
    cases b with
    | true => rw [map_cons, keep, Bool.not_true, keep, merge, htail]
    | false => rw [map_cons, keep, Bool.not_false, keep, merge, htail]

theorem forall₂_keep (h : List.Forall₂ (fun d p => p < d) ds ps) :
    List.Forall₂ (fun d p => p < d) (keep bs ds) (keep bs ps) := by
  induction h generalizing bs with
  | nil => cases bs with
    | nil => exact .nil
    | cons b bs => cases b <;> exact .nil
  | cons hp h ih =>
    cases bs with
    | nil => exact .nil
    | cons b bs =>
      cases b with
      | true => exact .cons hp ih
      | false => exact ih

theorem forall₂_merge (hlen : bs.length = ds.length)
    (hp : List.Forall₂ (fun d p => p < d) (keep bs ds) ps)
    (hq : List.Forall₂ (fun d p => p < d) (keep (bs.map not) ds) qs) :
    List.Forall₂ (fun d p => p < d) ds (merge bs ps qs) ∧ keep bs (merge bs ps qs) = ps ∧
      keep (bs.map not) (merge bs ps qs) = qs := by
  induction bs generalizing ds ps qs with
  | nil =>
    obtain rfl := length_eq_zero_iff.1 hlen.symm
    cases hp
    cases hq
    exact ⟨.nil, rfl, rfl⟩
  | cons b bs ih =>
    obtain ⟨d, ds, rfl⟩ := exists_cons_of_length_eq_add_one hlen.symm
    cases b with
    | true =>
      cases hp with
      | @cons _ p _ ps hlt hp =>
        obtain ⟨h₁, h₂, h₃⟩ := ih (Nat.succ.inj hlen) hp hq
        exact ⟨.cons hlt h₁, congrArg (p :: ·) h₂, h₃⟩
    | false =>
      cases hq with
      | @cons _ q _ qs hlt hq =>
        obtain ⟨h₁, h₂, h₃⟩ := ih (Nat.succ.inj hlen) hp hq
        exact ⟨.cons hlt h₁, h₂, congrArg (q :: ·) h₃⟩

theorem prod_keep_mul (h : bs.length = ds.length) :
    (keep bs ds).prod * (keep (bs.map not) ds).prod = ds.prod := by
  induction bs generalizing ds with
  | nil =>
    obtain rfl := length_eq_zero_iff.1 h.symm
    rfl
  | cons b bs ih =>
    obtain ⟨d, ds, rfl⟩ := exists_cons_of_length_eq_add_one h.symm
    have htail := ih (Nat.succ.inj h)
    cases b with
    | true => rw [map_cons, keep, Bool.not_true, keep, prod_cons, prod_cons,
        Nat.mul_assoc, htail]
    | false => rw [map_cons, keep, Bool.not_false, keep, prod_cons, prod_cons,
        Nat.mul_left_comm, htail]

theorem mem_keep {x : α} (h : x ∈ keep bs xs) : x ∈ xs := by
  induction bs generalizing xs with
  | nil => cases h
  | cons b bs ih =>
    cases xs with
    | nil => cases b <;> cases h
    | cons y ys =>
      cases b with
      | true =>
        rcases mem_cons.1 h with rfl | h
        · exact mem_cons_self
        · exact mem_cons_of_mem _ (ih h)
      | false => exact mem_cons_of_mem _ (ih h)

end masks

end PsMpi.Lib.MixedRadix
