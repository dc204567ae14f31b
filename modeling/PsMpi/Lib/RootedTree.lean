import Mathlib.Logic.Relation
import Mathlib.Data.List.Nodup
import Mathlib.Data.List.Count

/-!
# Trees of numbers
-/

namespace PsMpi.Lib

structure IsTree (n root : Nat) (parent : Nat → Option Nat) (children : Nat → List Nat) : Prop where
  parent_none : ∀ x < n, parent x = none ↔ x = root
  parent_lt : ∀ x < n, ∀ y, parent x = some y → y < n
  child_lt : ∀ x < n, ∀ c ∈ children x, c < n
  count : ∀ x < n, ∀ c < n, (children x).count c = if parent c = some x then 1 else 0
  reaches : ∀ x < n, Relation.ReflTransGen (fun a b => parent a = some b) x root

/-- The numbers below `n` form a tree with the root 0 whose parents are smaller than their children. -/
structure Ordered (n : Nat) (parent : Nat → Option Nat) (children : Nat → List Nat) : Prop where
  zero : parent 0 = none
  lt : ∀ x, 0 < x → x < n → ∃ y < x, parent x = some y
  nodup : ∀ x < n, (children x).Nodup
  mem : ∀ x < n, ∀ c, c ∈ children x ↔ c < n ∧ parent c = some x

/-! ## Shifts -/

def unshift (n root r : Nat) : Nat := (r + (n - root)) % n

def shift (n root x : Nat) : Nat := (x + root) % n

section shift

variable {n root x y r : Nat}

theorem shift_lt (hx : x < n) : shift n root x < n := Nat.mod_lt _ (Nat.zero_lt_of_lt hx)

theorem unshift_lt (hr : r < n) : unshift n root r < n := Nat.mod_lt _ (Nat.zero_lt_of_lt hr)

theorem unshift_shift (hroot : root < n) (hx : x < n) : unshift n root (shift n root x) = x := by
  unfold unshift shift
  rw [Nat.mod_add_mod, show x + root + (n - root) = x + n by omega, Nat.add_mod_right,
    Nat.mod_eq_of_lt hx]

theorem shift_unshift (hroot : root < n) (hr : r < n) : shift n root (unshift n root r) = r := by
  unfold unshift shift
  rw [Nat.mod_add_mod, show r + (n - root) + root = r + n by omega, Nat.add_mod_right,
    Nat.mod_eq_of_lt hr]

theorem shift_inj (hroot : root < n) (hx : x < n) (hy : y < n)
    (h : shift n root x = shift n root y) : x = y := by
  rw [← unshift_shift hroot hx, h, unshift_shift hroot hy]

theorem shift_zero (hroot : root < n) : shift n root 0 = root := by
  rw [shift, Nat.zero_add, Nat.mod_eq_of_lt hroot]

theorem unshift_root (hroot : root < n) : unshift n root root = 0 := by
  rw [unshift, show root + (n - root) = n by omega, Nat.mod_self]

end shift

section tree

variable {n root : Nat} {parent : Nat → Option Nat} {children : Nat → List Nat}

theorem Ordered.parent_lt (h : Ordered n parent children) {x y : Nat} (hx : x < n)
    (hp : parent x = some y) : y < x := by
  rcases Nat.eq_zero_or_pos x with rfl | hpos
  · rw [h.zero] at hp
    cases hp
  · obtain ⟨z, hz, hpz⟩ := h.lt x hpos hx
    rw [hp] at hpz
    rwa [Option.some.inj hpz]

theorem Ordered.last_mem (h : Ordered n parent children) (hn : 1 < n) :
    ∃ x < n, n - 1 ∈ children x := by
  obtain ⟨y, hy, hp⟩ := h.lt (n - 1) (by omega) (by omega)
  exact ⟨y, by omega, (h.mem y (by omega) _).2 ⟨by omega, hp⟩⟩

theorem Ordered.isTree (h : Ordered n parent children) (hroot : root < n) :
    IsTree n root (fun r => (parent (unshift n root r)).map (shift n root))
      fun r => (children (unshift n root r)).map (shift n root) := by
  have hparent : ∀ x < n, ∀ y < n, (parent (unshift n root x)).map (shift n root) = some y ↔
      parent (unshift n root x) = some (unshift n root y) := by
    intro x hx y hy
    rw [Option.map_eq_some_iff]
    constructor
    · rintro ⟨z, hz, rfl⟩
      have hzn := Nat.lt_trans (h.parent_lt (unshift_lt hx) hz) (unshift_lt hx)
      rw [unshift_shift hroot hzn, hz]
    · intro hz
      exact ⟨_, hz, shift_unshift hroot hy⟩
  refine ⟨fun x hx => ?_, fun x hx y hy => ?_, fun x hx c hc => ?_, fun x hx c hc => ?_,
    fun x hx => ?_⟩
  · rw [Option.map_eq_none_iff]
    constructor
    · intro hnone
      have hzero : unshift n root x = 0 := by
        by_contra hne
        obtain ⟨y, -, hy⟩ := h.lt _ (Nat.pos_of_ne_zero hne) (unshift_lt hx)
        rw [hnone] at hy
        cases hy
      rw [← shift_unshift hroot hx, hzero, shift_zero hroot]
    · rintro rfl
      rw [unshift_root hroot, h.zero]
  · obtain ⟨z, hz, rfl⟩ := Option.map_eq_some_iff.1 hy
    exact shift_lt (Nat.lt_trans (h.parent_lt (unshift_lt hx) hz) (unshift_lt hx))
  · obtain ⟨z, hz, rfl⟩ := List.mem_map.1 hc
    exact shift_lt ((h.mem _ (unshift_lt hx) z).1 hz).1
  · have hnodup : ((children (unshift n root x)).map (shift n root)).Nodup := by
      refine List.Nodup.map_on (fun a ha b hb hab => ?_) (h.nodup _ (unshift_lt hx))
      exact shift_inj hroot ((h.mem _ (unshift_lt hx) a).1 ha).1
        ((h.mem _ (unshift_lt hx) b).1 hb).1 hab
    have hmem : c ∈ (children (unshift n root x)).map (shift n root) ↔
        parent (unshift n root c) = some (unshift n root x) := by
      rw [List.mem_map]
      constructor
      · rintro ⟨z, hz, rfl⟩
        obtain ⟨hzn, hp⟩ := (h.mem _ (unshift_lt hx) z).1 hz
        rwa [unshift_shift hroot hzn]
      · intro hp
        exact ⟨_, (h.mem _ (unshift_lt hx) _).2 ⟨unshift_lt hc, hp⟩, shift_unshift hroot hc⟩
    by_cases hp : parent (unshift n root c) = some (unshift n root x)
    · rw [if_pos ((hparent c hc x hx).2 hp)]
      exact List.count_eq_one_of_mem hnodup (hmem.2 hp)
    · rw [if_neg fun hp' => hp ((hparent c hc x hx).1 hp')]
      exact List.count_eq_zero.2 fun hc' => hp (hmem.1 hc')
  · -- the places get smaller on the way to the root
    obtain ⟨k, hk⟩ : ∃ k, unshift n root x = k := ⟨_, rfl⟩
    induction k using Nat.strongRecOn generalizing x with
    | ind k ih =>
      rcases Nat.eq_zero_or_pos k with rfl | hpos
      · rw [← shift_unshift hroot hx, hk, shift_zero hroot]
      · obtain ⟨y, hy, hp⟩ := h.lt k hpos (hk ▸ unshift_lt hx)
        have hyn : y < n := Nat.lt_trans hy (hk ▸ unshift_lt hx)
        refine .head ?_ (ih y hy (shift n root y) (shift_lt hyn) (unshift_shift hroot hyn))
        rw [hk, hp]
        rfl

end tree

end PsMpi.Lib
