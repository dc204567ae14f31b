import PsMpi.Coll.AllreduceGroup
import PsMpi.Lib.Hypercube

/-!
# Parts of a vector in a reduce-scatter

A vector is cut into `2 ^ L` parts, whose numbers of elements are in a list.
-/

open List Option

namespace PsMpi.Coll

open PsMpi.Lib.Hypercube

section parts

variable {cnts : List Nat} {L i j k : Nat}

def partDisp (cnts : List Nat) (k : Nat) : Nat := (cnts.take k).sum

theorem partDisp_mono {lo hi : Nat} (h : lo ≤ hi) : partDisp cnts lo ≤ partDisp cnts hi := by
  have hsplit := sum_take_add_sum_drop (cnts.take hi) lo
  rw [take_take, Nat.min_eq_left h] at hsplit
  unfold partDisp
  omega

theorem sumCnts_eq {lo hi : Nat} (hlo : lo ≤ hi) (hhi : hi ≤ cnts.length) :
    sumCnts cnts lo hi = some (partDisp cnts hi - partDisp cnts lo) := by
  rw [sumCnts, if_pos hhi]
  have hsplit := sum_take_add_sum_drop (cnts.take hi) lo
  rw [take_take, Nat.min_eq_left hlo] at hsplit
  congr 1
  unfold partDisp
  omega

theorem getElem?_dispsOf {disp : Nat} (h : k < cnts.length) :
    (dispsOf disp cnts)[k]? = some (disp + (cnts.take k).sum) := by
  induction cnts generalizing k disp with
  | nil => exact absurd h (Nat.not_lt_zero _)
  | cons cnt cnts ih =>
    cases k with
    | zero => rfl
    | succ k =>
      rw [dispsOf, List.getElem?_cons_succ, ih (Nat.lt_of_succ_lt_succ h), take_succ_cons,
        sum_cons, Nat.add_assoc]

theorem getElem?_disps (h : k < cnts.length) :
    (dispsOf 0 cnts)[k]? = some (partDisp cnts k) := by
  rw [getElem?_dispsOf h, Nat.zero_add, partDisp]

/-- The parts that the number `j` keeps after the dimensions below `i`: where they begin and how many
elements they have. -/
def keptLo (cnts : List Nat) (L i j : Nat) : Nat := partDisp cnts (lower L i j)

/-- See see `keptLo`. -/
def keptCnt (cnts : List Nat) (L i j : Nat) : Nat :=
  partDisp cnts (lower L i j + 2 ^ (L - i)) - partDisp cnts (lower L i j)

/-- In the reduce-scatter a number receives what it keeps and sends what its partner keeps. -/
def scatterKept (cnts : List Nat) (L i j : Nat) : Piece :=
  ⟨keptLo cnts L (i + 1) (j ^^^ 2 ^ i), keptCnt cnts L (i + 1) (j ^^^ 2 ^ i),
    keptLo cnts L (i + 1) j, keptCnt cnts L (i + 1) j⟩

def gatherKept (cnts : List Nat) (L i j : Nat) : Piece :=
  ⟨keptLo cnts L (i + 1) j, keptCnt cnts L (i + 1) j,
    keptLo cnts L (i + 1) (j ^^^ 2 ^ i), keptCnt cnts L (i + 1) (j ^^^ 2 ^ i)⟩

/-- The cursors before the step `i` of the reduce-scatter. The last one is not moved in the last
step. -/
def cursorAt (L i j : Nat) : Cursor :=
  ⟨lower L i j, lower L i j,
    if i < L then lower L i j + 2 ^ (L - i) else lower L (L - 1) j + 2 ^ (L - (L - 1))⟩

theorem pow_div_mask (hi : i < L) : 2 ^ L / (2 ^ i * 2) = 2 ^ (L - (i + 1)) := by
  rw [← Nat.pow_succ, Nat.pow_div hi Nat.two_pos]

theorem two_halves (hi : i < L) : 2 ^ (L - i) = 2 ^ (L - (i + 1)) + 2 ^ (L - (i + 1)) := by
  have h : L - i = L - (i + 1) + 1 := by omega
  rw [h, Nat.pow_succ]
  omega

theorem lower_succ (i j : Nat) :
    lower L (i + 1) j = if j < j ^^^ 2 ^ i then lower L i j else lower L i j + 2 ^ (L - (i + 1)) := by
  have h : L - 1 - i = L - (i + 1) := by omega
  rw [lower, h]
  by_cases hlt : j < j ^^^ 2 ^ i
  · rw [if_pos hlt, if_pos ((lt_xor_iff j i).1 hlt)]
    rfl
  · rw [if_neg hlt, if_neg fun h0 => hlt ((lt_xor_iff j i).2 h0)]

theorem lower_succ_partner (i j : Nat) :
    lower L (i + 1) (j ^^^ 2 ^ i) =
      if j < j ^^^ 2 ^ i then lower L i j + 2 ^ (L - (i + 1)) else lower L i j := by
  have hne := xor_ne j i
  rw [lower_succ, xor_xor, lower_xor (Nat.le_refl i)]
  by_cases hlt : j < j ^^^ 2 ^ i
  · rw [if_pos hlt, if_neg (Nat.lt_asymm hlt)]
  · rw [if_neg hlt, if_pos (Nat.lt_of_le_of_ne (Nat.le_of_not_lt hlt) hne)]

theorem shiftLeft_pow (i : Nat) : 2 ^ i <<< 1 = 2 ^ (i + 1) := by
  rw [Nat.shiftLeft_eq, Nat.pow_one, Nat.pow_succ]

theorem shiftRight_pow (i : Nat) : 2 ^ (i + 1) >>> 1 = 2 ^ i := by
  rw [Nat.shiftRight_eq_div_pow, Nat.pow_one, Nat.pow_succ, Nat.mul_div_cancel _ Nat.two_pos]

theorem scatterPiece_kept (hlen : cnts.length = 2 ^ L) (hi : i < L) :
    scatterPiece cnts (2 ^ L) j (j ^^^ 2 ^ i) (2 ^ i) (cursorAt L i j) =
      some (scatterKept cnts L i j, cursorAt L (i + 1) j) := by
  have hcursor : (if 2 ^ (i + 1) < 2 ^ L then lower L (i + 1) j + 2 ^ L / 2 ^ (i + 1)
      else lower L i j + 2 ^ (L - i)) = (cursorAt L (i + 1) j).lastIdx := by
    unfold cursorAt
    by_cases hlast : i + 1 < L
    · rw [if_pos (Nat.pow_lt_pow_right (Nat.le_refl 2) hlast), if_pos hlast,
        Nat.pow_div hi Nat.two_pos]
    · obtain rfl : L = i + 1 := by omega
      rw [if_neg (Nat.lt_irrefl _), if_neg (Nat.lt_irrefl _), Nat.add_sub_cancel]
  have hsum : lower L i j + 2 ^ (L - i) ≤ cnts.length := hlen ▸ lower_add_le (Nat.le_of_lt hi)
  have hhalf := two_halves hi
  have hpos := Nat.two_pow_pos (L - (i + 1))
  have hself := lower_succ (L := L) i j
  have hpartner := lower_succ_partner (L := L) i j
  have hend : lower L i j + 2 ^ (L - (i + 1)) + 2 ^ (L - (i + 1)) = lower L i j + 2 ^ (L - i) := by
    omega
  rw [scatterPiece]
  simp only [cursorAt, if_pos hi, pow_div_mask hi, shiftLeft_pow, decide_eq_true_eq] at hcursor ⊢
  by_cases hlt : j < j ^^^ 2 ^ i
  · simp only [if_pos hlt] at hself hpartner ⊢
    rw [sumCnts_eq (by omega) hsum, sumCnts_eq (by omega) (by omega),
      getElem?_disps (by omega), getElem?_disps (by omega)]
    simp only [Option.bind_eq_bind, Option.bind_some, Option.pure_def]
    rw [← hcursor, scatterKept, keptLo, keptCnt, keptLo, keptCnt, hself, hpartner, hend]
  · simp only [if_neg hlt] at hself hpartner ⊢
    rw [sumCnts_eq (by omega) (by omega), sumCnts_eq (by omega) hsum,
      getElem?_disps (by omega), getElem?_disps (by omega)]
    simp only [Option.bind_eq_bind, Option.bind_some, Option.pure_def]
    rw [← hcursor, scatterKept, keptLo, keptCnt, keptLo, keptCnt, hself, hpartner, hend]

theorem gatherPiece_kept {r : Nat} (hlen : cnts.length = 2 ^ L) (hi : i < L) :
    ∃ r', gatherPiece cnts (2 ^ L) j (j ^^^ 2 ^ i) (2 ^ i)
        ⟨lower L (i + 1) j, r, (cursorAt L (i + 1) j).lastIdx⟩ =
      some (gatherKept cnts L i j, ⟨lower L i j, r', (cursorAt L i j).lastIdx⟩) := by
  have hsum : lower L i j + 2 ^ (L - i) ≤ cnts.length := hlen ▸ lower_add_le (Nat.le_of_lt hi)
  have hhalf := two_halves hi
  have hpos := Nat.two_pow_pos (L - (i + 1))
  have hself := lower_succ (L := L) i j
  have hpartner := lower_succ_partner (L := L) i j
  have hend : lower L i j + 2 ^ (L - (i + 1)) + 2 ^ (L - (i + 1)) = lower L i j + 2 ^ (L - i) := by
    omega
  have hne := xor_ne j i
  -- the first step is the only one that finds the last cursor where it has to be
  have hlastIdx : (if j < j ^^^ 2 ^ i ∧ 2 ^ i ≠ 2 ^ L / 2 then
      (cursorAt L (i + 1) j).lastIdx + 2 ^ (L - (i + 1)) else (cursorAt L (i + 1) j).lastIdx) =
      lower L i j + 2 ^ (L - i) := by
    by_cases hlast : i + 1 < L
    · have hmask : 2 ^ i ≠ 2 ^ L / 2 := by
        have hdiv := Nat.pow_div (x := 2) (Nat.succ_le_of_lt (Nat.zero_lt_of_lt hlast)) Nat.two_pos
        rw [Nat.pow_one] at hdiv
        rw [hdiv]
        exact Nat.ne_of_lt (Nat.pow_lt_pow_right (Nat.le_refl 2) (by omega))
      simp only [cursorAt, if_pos hlast, hself]
      by_cases hlt : j < j ^^^ 2 ^ i
      · rw [if_pos ⟨hlt, hmask⟩, if_pos hlt, hend]
      · rw [if_neg fun h => hlt h.1, if_neg hlt, hend]
    · obtain rfl : L = i + 1 := by omega
      have hmask : 2 ^ i = 2 ^ (i + 1) / 2 := by
        rw [Nat.pow_succ, Nat.mul_div_cancel _ Nat.two_pos]
      rw [if_neg fun h => h.2 hmask, cursorAt, if_neg (Nat.lt_irrefl _), Nat.add_sub_cancel]
  refine ⟨lower L (i + 1) (j ^^^ 2 ^ i), ?_⟩
  rw [gatherPiece]
  simp only [pow_div_mask hi, decide_eq_true_eq, hlastIdx]
  by_cases hlt : j < j ^^^ 2 ^ i
  · simp only [if_pos hlt] at hself hpartner ⊢
    simp only [Option.bind_eq_bind, Option.bind_some, hself]
    rw [sumCnts_eq (by omega) (by omega), sumCnts_eq (by omega) hsum,
      getElem?_disps (by omega), getElem?_disps (by omega)]
    simp only [Option.bind_some, Option.pure_def, if_neg (Nat.lt_asymm hlt), cursorAt, if_pos hi]
    rw [gatherKept, keptLo, keptCnt, keptLo, keptCnt, hself, hpartner, hend]
  · simp only [if_neg hlt] at hself hpartner ⊢
    have hge : j ^^^ 2 ^ i < j := by omega
    have hle : 2 ^ (L - (i + 1)) ≤ lower L i j + 2 ^ (L - (i + 1)) := Nat.le_add_left _ _
    simp only [Option.bind_eq_bind, hself, if_pos hle, Option.bind_some, Nat.add_sub_cancel]
    rw [sumCnts_eq (by omega) hsum, sumCnts_eq (by omega) (by omega),
      getElem?_disps (by omega), getElem?_disps (by omega)]
    simp only [Option.bind_some, Option.pure_def, if_pos hge, cursorAt, if_pos hi]
    rw [gatherKept, keptLo, keptCnt, keptLo, keptCnt, hself, hpartner, hend]

/-! ## Elements -/

/-- An element is in the parts that the number `j` keeps after the dimensions below `i`. -/
def InKept (cnts : List Nat) (L i j e : Nat) : Prop :=
  keptLo cnts L i j ≤ e ∧ e < keptLo cnts L i j + keptCnt cnts L i j

theorem inKept_iff {e : Nat} : InKept cnts L i j e ↔
    partDisp cnts (lower L i j) ≤ e ∧ e < partDisp cnts (lower L i j + 2 ^ (L - i)) := by
  have := @partDisp_mono cnts _ _ (Nat.le_add_right (lower L i j) (2 ^ (L - i)))
  unfold InKept keptLo keptCnt
  rw [Nat.add_sub_cancel' this]

theorem inKept_zero {e : Nat} (hlen : cnts.length = 2 ^ L) :
    InKept cnts L 0 j e ↔ e < cnts.sum := by
  rw [inKept_iff, lower, Nat.zero_add, Nat.sub_zero, partDisp, partDisp, ← hlen, take_length,
    take_zero, sum_nil]
  exact and_iff_right (Nat.zero_le e)

theorem inKept_xor {e : Nat} : InKept cnts L i (j ^^^ 2 ^ i) e ↔ InKept cnts L i j e := by
  rw [inKept_iff, inKept_iff, lower_xor (Nat.le_refl i)]

theorem inKept_of_succ {e : Nat} (hi : i < L) (h : InKept cnts L (i + 1) j e) :
    InKept cnts L i j e := by
  rw [inKept_iff] at h ⊢
  have hhalf := two_halves hi
  have hself := lower_succ (L := L) i j
  have hpos := Nat.two_pow_pos (L - (i + 1))
  refine ⟨Nat.le_trans (partDisp_mono ?_) h.1, Nat.lt_of_lt_of_le h.2 (partDisp_mono ?_)⟩
  · split at hself <;> omega
  · split at hself <;> omega

theorem inKept_split {e : Nat} (hi : i < L) (h : InKept cnts L i j e) :
    InKept cnts L (i + 1) j e ∨ InKept cnts L (i + 1) (j ^^^ 2 ^ i) e := by
  rw [inKept_iff] at h
  have hend : lower L i j + 2 ^ (L - (i + 1)) + 2 ^ (L - (i + 1)) = lower L i j + 2 ^ (L - i) := by
    have := two_halves hi
    omega
  rw [inKept_iff, inKept_iff, lower_succ, lower_succ_partner]
  by_cases hmid : e < partDisp cnts (lower L i j + 2 ^ (L - (i + 1)))
  · split
    · exact .inl ⟨h.1, hmid⟩
    · exact .inr ⟨h.1, hmid⟩
  · split
    · exact .inr ⟨Nat.le_of_not_lt hmid, by rw [hend]; exact h.2⟩
    · exact .inl ⟨Nat.le_of_not_lt hmid, by rw [hend]; exact h.2⟩

end parts

end PsMpi.Coll
