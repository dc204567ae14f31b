import Mathlib.Data.List.Perm.Subperm
import Mathlib.Data.Set.Insert

/-!
# Blocks that tile a range
-/

namespace PsMpi.Lib

structure Tiling (len : Nat → Nat) (lo hi : Nat) (S : Set Nat) : Prop where
  pos : ∀ b ∈ S, 0 < len b
  inside : ∀ b ∈ S, lo ≤ b ∧ b + len b ≤ hi
  disj : ∀ b ∈ S, ∀ c ∈ S, b < c → b + len b ≤ c
  cover : ∀ x, lo ≤ x → x < hi → ∃ b ∈ S, b ≤ x ∧ x < b + len b

namespace Tiling

variable {len len' : Nat → Nat} {lo hi p n : Nat} {S : Set Nat}

theorem empty : Tiling len lo lo ∅ where
  pos := fun _ hb => absurd hb (Set.notMem_empty _)
  inside := fun _ hb => absurd hb (Set.notMem_empty _)
  disj := fun _ hb => absurd hb (Set.notMem_empty _)
  cover := fun _ hlo hhi => absurd hhi (Nat.not_lt.2 hlo)

theorem singleton (hp : 0 < len p) : Tiling len p (p + len p) {p} where
  pos := by
    rintro b rfl
    exact hp
  inside := by
    rintro b rfl
    exact ⟨le_rfl, le_rfl⟩
  disj := by
    rintro b rfl c rfl hlt
    exact absurd hlt (Nat.lt_irrefl _)
  cover := fun x hlo hhi => ⟨p, rfl, hlo, hhi⟩

theorem congr (h : Tiling len lo hi S) (hl : ∀ b ∈ S, len' b = len b) : Tiling len' lo hi S where
  pos := fun b hb => hl b hb ▸ h.pos b hb
  inside := fun b hb => hl b hb ▸ h.inside b hb
  disj := fun b hb => hl b hb ▸ h.disj b hb
  cover := by
    intro x hlo hhi
    obtain ⟨b, hb, hx⟩ := h.cover x hlo hhi
    exact ⟨b, hb, (hl b hb).symm ▸ hx⟩

theorem notMem_of_lt (h : Tiling len lo hi S) (hp : p ∈ S) (hn : 0 < n) (hlt : n < len p) :
    p + n ∉ S := by
  intro hm
  have := h.disj p hp (p + n) hm (by omega)
  omega

theorem split (h : Tiling len lo hi S) (hp : p ∈ S) (hn : 0 < n) (hlt : n < len p)
    (hp' : len' p = n) (hn' : len' (p + n) = len p - n)
    (hl : ∀ b, b ≠ p → b ≠ p + n → len' b = len b) : Tiling len' lo hi (insert (p + n) S) := by
  have hfresh := h.notMem_of_lt hp hn hlt
  have hpin := h.inside p hp
  have hrest : ∀ b ∈ S, b ≠ p → len' b = len b ∧ (b + len b ≤ p ∨ p + len p ≤ b) := by
    intro b hb hbp
    refine ⟨hl b hbp fun hbn => hfresh (hbn ▸ hb), ?_⟩
    rcases Nat.lt_or_gt_of_ne hbp with hlt | hgt
    · exact .inl (h.disj b hb p hp hlt)
    · exact .inr (h.disj p hp b hb hgt)
  refine ⟨fun b hb => ?_, fun b hb => ?_, fun b hb c hc hbc => ?_, fun x hlo hhi => ?_⟩
  · rcases Set.mem_insert_iff.1 hb with rfl | hb
    · omega
    · by_cases hbp : b = p
      · subst hbp; omega
      · rw [(hrest b hb hbp).1]; exact h.pos b hb
  · rcases Set.mem_insert_iff.1 hb with rfl | hb
    · omega
    · by_cases hbp : b = p
      · subst hbp; omega
      · rw [(hrest b hb hbp).1]; exact h.inside b hb
  · have hpos : ∀ b ∈ S, 0 < len b := h.pos
    rcases Set.mem_insert_iff.1 hb with rfl | hb <;> rcases Set.mem_insert_iff.1 hc with rfl | hc
    · omega
    · by_cases hcp : c = p
      · omega
      · have := hpos c hc
        rcases (hrest c hc hcp).2 with h1 | h1 <;> omega
    · by_cases hbp : b = p
      · subst hbp; omega
      · have := hpos b hb
        rw [(hrest b hb hbp).1]
        rcases (hrest b hb hbp).2 with h1 | h1 <;> omega
    · have hold := h.disj b hb c hc hbc
      by_cases hbp : b = p
      · subst hbp; omega
      · rw [(hrest b hb hbp).1]; exact hold
  · obtain ⟨b, hb, hbx⟩ := h.cover x hlo hhi
    by_cases hbp : b = p
    · subst hbp
      by_cases hx : x < b + n
      · exact ⟨b, Set.mem_insert_of_mem _ hb, by omega⟩
      · exact ⟨b + n, Set.mem_insert _ _, by omega⟩
    · exact ⟨b, Set.mem_insert_of_mem _ hb, by rw [(hrest b hb hbp).1]; exact hbx⟩

theorem merge (h : Tiling len lo hi S) (hp : p ∈ S) (hn : p + len p ∈ S)
    (hp' : len' p = len p + len (p + len p)) (hl : ∀ b, b ≠ p → len' b = len b) :
    Tiling len' lo hi (S \ {p + len p}) := by
  have hposp := h.pos p hp
  have hinn := h.inside _ hn
  refine ⟨fun b hb => ?_, fun b hb => ?_, fun b hb c hc hbc => ?_, fun x hlo hhi => ?_⟩
  · by_cases hbp : b = p
    · subst hbp; omega
    · rw [hl b hbp]; exact h.pos b hb.1
  · by_cases hbp : b = p
    · subst hbp
      have := h.inside b hp
      omega
    · rw [hl b hbp]; exact h.inside b hb.1
  · by_cases hbp : b = p
    · subst hbp
      have h1 := h.disj b hp c hc.1 hbc
      have hne : c ≠ b + len b := hc.2
      have h2 := h.disj _ hn c hc.1 (by omega)
      omega
    · rw [hl b hbp]; exact h.disj b hb.1 c hc.1 hbc
  · obtain ⟨b, hb, hbx⟩ := h.cover x hlo hhi
    by_cases hbn : b = p + len p
    · subst hbn
      exact ⟨p, ⟨hp, fun heq => by simp only [Set.mem_singleton_iff] at heq; omega⟩, by omega⟩
    · by_cases hbp : b = p
      · subst hbp
        exact ⟨b, ⟨hb, hbn⟩, by omega⟩
      · exact ⟨b, ⟨hb, hbn⟩, by rw [hl b hbp]; exact hbx⟩

theorem length_le {l : List Nat} (h : Tiling len lo hi S) (hl : l.Nodup) (hS : ∀ b ∈ l, b ∈ S) :
    l.length ≤ hi - lo := by
  have hsub : l ⊆ List.range' lo (hi - lo) := by
    intro b hb
    have hin := h.inside b (hS b hb)
    have hpos := h.pos b (hS b hb)
    rw [List.mem_range'_1]
    omega
  have hle := (List.subperm_of_subset hl hsub).length_le
  rwa [List.length_range'] at hle

end Tiling

end PsMpi.Lib
