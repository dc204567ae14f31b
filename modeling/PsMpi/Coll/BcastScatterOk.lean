import PsMpi.Coll.BcastScatter
import PsMpi.Coll.ReduceScatterDoubling

/-!
# The scatter of a broadcast

Processes are numbered from the root on (`rankOf`, `numOf`).
-/

open List Option

namespace PsMpi.Coll

open PsMpi.Lib PsMpi.Lib.Network PsMpi.Lib.Hypercube

/-! ## Numbers -/

namespace BcastCall

variable (call : BcastCall) {L i j k g : Nat}

/-- The rank that has a number; numbers without a process stand for themselves. -/
def rankOf (j : Nat) : Nat :=
  if j < call.commSize then (j + call.root) % call.commSize else j

def numOf (L g : Nat) : Option Nat :=
  if g < call.commSize then some (call.relativeRank g)
  else if g < 2 ^ L then some g else none

variable {call}

theorem numOf_eq (hg : g < call.commSize) : call.numOf L g = some (call.relativeRank g) :=
  if_pos hg

section numbering

variable (hroot : call.root < call.commSize)
include hroot

theorem rankOf_eq (hj : j < call.commSize) : call.rankOf j =
    if j + call.root < call.commSize then j + call.root else j + call.root - call.commSize := by
  rw [rankOf, if_pos hj]
  split
  · next h => exact Nat.mod_eq_of_lt h
  · next h => rw [Nat.mod_eq_sub_mod (Nat.le_of_not_lt h), Nat.mod_eq_of_lt (by omega)]

theorem relativeRank_lt (hg : g < call.commSize) : call.relativeRank g < call.commSize := by
  unfold relativeRank
  split <;> omega

theorem rankOf_lt (hj : j < call.commSize) : call.rankOf j < call.commSize := by
  rw [rankOf_eq hroot hj]
  split <;> omega

theorem relativeRank_rankOf (hj : j < call.commSize) :
    call.relativeRank (call.rankOf j) = j := by
  rw [rankOf_eq hroot hj, relativeRank]
  split <;> split <;> omega

theorem rankOf_relativeRank (hg : g < call.commSize) : call.rankOf (call.relativeRank g) = g := by
  rw [rankOf_eq hroot (relativeRank_lt hroot hg), relativeRank]
  split <;> split <;> omega

theorem numOf_rankOf (hj : j < call.commSize) : call.numOf L (call.rankOf j) = some j := by
  rw [numOf_eq (rankOf_lt hroot hj), relativeRank_rankOf hroot hj]

theorem rankOf_zero : call.rankOf 0 = call.root := by
  rw [rankOf_eq hroot (Nat.zero_lt_of_lt hroot), Nat.zero_add, if_pos hroot]

theorem numbering (hL : call.commSize ≤ 2 ^ L) :
    Numbering L (call.numOf L) call.rankOf := by
  constructor
  · intro j hj
    by_cases hlt : j < call.commSize
    · exact numOf_rankOf hroot hlt
    · rw [rankOf, if_neg hlt, numOf, if_neg hlt, if_pos hj]
  · intro g j h
    unfold numOf at h
    split at h
    · next hg =>
      cases h
      exact ⟨(relativeRank_lt hroot hg).trans_le hL, rankOf_relativeRank hroot hg⟩
    · next hg =>
      obtain ⟨hlt, h⟩ := ite_none_right_eq_some.1 h
      cases h
      exact ⟨hlt, if_neg hg⟩

end numbering

/-! ## Blocks -/

theorem nbytes_le (hroot : call.root < call.commSize) :
    call.nbytes ≤ call.commSize * call.scatterSize := by
  have hpos : 0 < call.commSize := Nat.zero_lt_of_lt hroot
  have hdiv := Nat.div_add_mod (call.nbytes + call.commSize - 1) call.commSize
  have hmod := Nat.mod_lt (call.nbytes + call.commSize - 1) hpos
  unfold scatterSize
  omega

variable (call) in
/-- The bytes of `2 ^ k` blocks, from that of the number `j` on, as far as there are any. -/
def span (k j : Nat) : Nat := min (call.nbytes - j * call.scatterSize) (2 ^ k * call.scatterSize)

theorem blockSize_eq (j : Nat) : call.blockSize j = call.span 0 j := by
  unfold blockSize span
  omega

theorem span_zero (hroot : call.root < call.commSize) (hL : call.commSize ≤ 2 ^ L) :
    call.span L 0 = call.nbytes := by
  have h1 := nbytes_le hroot
  have h2 := Nat.mul_le_mul_right call.scatterSize hL
  unfold span
  omega

theorem span_succ (i j : Nat) : call.span (i + 1) j = call.span i j + call.span i (j + 2 ^ i) := by
  have h : (j + 2 ^ i) * call.scatterSize = j * call.scatterSize + 2 ^ i * call.scatterSize :=
    Nat.add_mul ..
  have h2 : 2 ^ (i + 1) * call.scatterSize = 2 ^ i * call.scatterSize * 2 := by
    rw [Nat.pow_succ, Nat.mul_right_comm]
  unfold span
  omega

theorem span_pos (hpos : 0 < call.nbytes) (hroot : call.root < call.commSize) (i j : Nat) :
    0 < call.span i j ↔ j * call.scatterSize < call.nbytes := by
  have hss : 0 < call.scatterSize := by
    by_contra h
    have := nbytes_le hroot
    rw [Nat.eq_zero_of_not_pos h, Nat.mul_zero] at this
    omega
  have hpow := Nat.mul_pos (Nat.two_pow_pos i) hss
  unfold span
  omega

end BcastCall

/-! ## Phases -/

section scatter

variable {α : Type} (call : BcastCall) (L i : Nat)

def sendsDown (j : Nat) : Bool :=
  decide (j % 2 ^ (i + 1) = 0 ∧ j + 2 ^ i < call.commSize ∧
    (j + 2 ^ i) * call.scatterSize < call.nbytes)

def downSize (s : BcastBufs α) : Int := s.currSize - call.scatterSize * (2 ^ i : Nat)

def downPhase : Phase Nat (BcastBufs α) (List α) :=
  cubePhase (call.numOf L) call.rankOf i (sendsDown call i)
    (fun j s => slice s.tmpBuf (call.scatterSize * (j + 2 ^ i)) (downSize call i s).toNat)
    fun j => .recvFirst (j * call.scatterSize) ((call.nbytes : Int) - j * call.scatterSize).toNat

def downCalcs (g : Nat) : List (BcastBufs α → BcastBufs α) :=
  match call.numOf L g with
  | none => []
  | some j =>
    if sendsDown call i j then [fun s => s.setCurr (s.currSize - downSize call i s)]
    else if j < call.commSize ∧ j % 2 ^ (i + 1) = 2 ^ i ∧ call.nbytes ≤ j * call.scatterSize then
      [.setCurr 0]
    else []

def downPhases : List (Phase Nat (BcastBufs α) (List α)) :=
  [downPhase call L i, .calc (downCalcs call L i)]

def scatterPhases (k : Nat) : List (Phase Nat (BcastBufs α) (List α)) :=
  (List.range k).reverse.flatMap (downPhases call L)

variable {call L i} {j g : Nat}

theorem xor_mod_succ (i j : Nat) : (j ^^^ 2 ^ i) % 2 ^ (i + 1) =
    if j < j ^^^ 2 ^ i then j % 2 ^ i + 2 ^ i else j % 2 ^ i := by
  have hne := xor_ne j i
  rw [mod_succ, xor_xor, xor_mod]
  split <;> split <;> omega

theorem sendsDown_child (h : j % 2 ^ (i + 1) = 0) : sendsDown call i (j ^^^ 2 ^ i) = false := by
  have hpow := Nat.two_pow_pos i
  have hj := mod_succ i j
  have hx := xor_mod_succ i j
  rw [sendsDown, decide_eq_false_iff_not]
  rintro ⟨h0, -⟩
  split at hj
  · next hlt =>
    rw [if_pos hlt] at hx
    omega
  · omega

theorem parent_eq (h : j % 2 ^ (i + 1) = 2 ^ i) :
    (j ^^^ 2 ^ i) + 2 ^ i = j ∧ (j ^^^ 2 ^ i) % 2 ^ (i + 1) = 0 := by
  have hlow := Nat.mod_lt j (Nat.two_pow_pos i)
  have hj := mod_succ i j
  have hx := xor_mod_succ i j
  have heq := xor_eq i j
  split at hj
  · omega
  · next hlt =>
    have hle := le_rootOf hlt
    have := rootOf_le i j
    rw [if_neg hlt] at heq hx
    omega

theorem sendsDown_parent (h : j % 2 ^ (i + 1) = 2 ^ i) : sendsDown call i (j ^^^ 2 ^ i) = true ↔
    j < call.commSize ∧ j * call.scatterSize < call.nbytes := by
  obtain ⟨hsum, hmod⟩ := parent_eq h
  rw [sendsDown, decide_eq_true_iff, hsum]
  exact ⟨fun h => h.2, fun h => ⟨hmod, h⟩⟩

theorem sendsDown_other (h : j % 2 ^ i ≠ 0) :
    sendsDown call i j = false ∧ sendsDown call i (j ^^^ 2 ^ i) = false := by
  have hj := mod_succ i j
  have hx := xor_mod_succ i j
  constructor
  · rw [sendsDown, decide_eq_false_iff_not]
    rintro ⟨h0, -⟩
    split at hj <;> omega
  · rw [sendsDown, decide_eq_false_iff_not]
    rintro ⟨h0, -⟩
    split at hx <;> omega

theorem parent_or_child (h : j % 2 ^ i = 0) : j % 2 ^ (i + 1) = 0 ∨ j % 2 ^ (i + 1) = 2 ^ i := by
  have hj := mod_succ i j
  split at hj
  · exact .inl (hj.trans h)
  · exact .inr (by omega)

/-- The states of a broadcast in which nothing has gone wrong yet. -/
structure Intact (buf : Nat → Nat → α) (S : Nat → BcastBufs α) : Prop where
  buffer : ∀ g, (S g).buffer = buf g
  truncated : ∀ g, (S g).truncated = false
  sizeMismatch : ∀ g, (S g).sizeMismatch = false

/-- Before the dimensions below `k`, the multiples of `2 ^ k` have the bytes of their subtrees. -/
structure Spread (call : BcastCall) (data : Nat → α) (k : Nat) (S : Nat → BcastBufs α) : Prop where
  size : ∀ j < call.commSize, j % 2 ^ k = 0 → (S (call.rankOf j)).currSize = call.span k j
  bytes : ∀ j < call.commSize, j % 2 ^ k = 0 → ∀ e, j * call.scatterSize ≤ e →
    e < j * call.scatterSize + call.span k j → (S (call.rankOf j)).tmpBuf e = data e

section step

variable {S : Nat → BcastBufs α} {buf : Nat → Nat → α} {data : Nat → α}

theorem downCalcs_rankOf (hroot : call.root < call.commSize) (hj : j < call.commSize) :
    (downCalcs call L i (call.rankOf j) : List (BcastBufs α → BcastBufs α)) =
      if sendsDown call i j then [fun s => s.setCurr (s.currSize - downSize call i s)]
      else if j % 2 ^ (i + 1) = 2 ^ i ∧ call.nbytes ≤ j * call.scatterSize then [.setCurr 0]
      else [] := by
  simp only [downCalcs, call.numOf_rankOf hroot hj, hj, true_and]

theorem down_parent (hroot : call.root < call.commSize) (hj : j < call.commSize)
    (hmod : j % 2 ^ (i + 1) = 0) :
    afterAll (downPhases call L i) S (call.rankOf j) =
      if sendsDown call i j then
        (S (call.rankOf j)).setCurr
          ((S (call.rankOf j)).currSize - downSize call i (S (call.rankOf j)))
      else S (call.rankOf j) := by
  have hquiet : (downPhase call L i).after S (call.rankOf j) = S (call.rankOf j) :=
    cubePhase_after_quiet (call.numOf_rankOf hroot hj) (sendsDown_child hmod)
  have hpow := Nat.two_pow_pos i
  rw [downPhases, afterAll_cons, afterAll_cons, afterAll_nil, calc_after, hquiet,
    downCalcs_rankOf hroot hj]
  split
  · rfl
  · rw [if_neg fun h => by omega]
    rfl

theorem down_child (hroot : call.root < call.commSize) (hL : call.commSize ≤ 2 ^ L) (hi : i < L)
    (hj : j < call.commSize) (hmod : j % 2 ^ (i + 1) = 2 ^ i) :
    afterAll (downPhases call L i) S (call.rankOf j) =
      if j * call.scatterSize < call.nbytes then
        (S (call.rankOf j)).recvFirst (j * call.scatterSize)
          ((call.nbytes : Int) - j * call.scatterSize).toNat
          (slice (S (call.rankOf (j ^^^ 2 ^ i))).tmpBuf (call.scatterSize * j)
            (downSize call i (S (call.rankOf (j ^^^ 2 ^ i)))).toNat)
      else (S (call.rankOf j)).setCurr 0 := by
  have hpow := Nat.two_pow_pos i
  have hnot : sendsDown call i j = false := by
    rw [sendsDown, decide_eq_false_iff_not]
    rintro ⟨h0, -⟩
    omega
  rw [downPhases, afterAll_cons, afterAll_cons, afterAll_nil, calc_after,
    downCalcs_rankOf hroot hj, if_neg (by rw [hnot]; decide)]
  by_cases hlt : j * call.scatterSize < call.nbytes
  · have hsends := (sendsDown_parent hmod).2 ⟨hj, hlt⟩
    rw [if_pos hlt, if_neg fun h => by omega, downPhase,
      cubePhase_after (call.numbering hroot hL) hi (hj.trans_le hL) hsends, (parent_eq hmod).1]
    rfl
  · have hquiet : (downPhase call L i).after S (call.rankOf j) = S (call.rankOf j) :=
      cubePhase_after_quiet (call.numOf_rankOf hroot hj)
        (by rw [← Bool.not_eq_true, sendsDown_parent hmod]; exact fun h => hlt h.2)
    rw [if_neg hlt, if_pos ⟨hmod, Nat.le_of_not_lt hlt⟩, hquiet]
    rfl

theorem lt_commSize (hroot : call.root < call.commSize) (h : j * call.scatterSize < call.nbytes) :
    j < call.commSize := by
  by_contra hj
  have := Nat.mul_le_mul_right call.scatterSize (Nat.le_of_not_lt hj)
  have := call.nbytes_le hroot
  omega

theorem downSize_eq {p : Nat} {s : BcastBufs α} (hsize : s.currSize = call.span (i + 1) p)
    (hlt : (p + 2 ^ i) * call.scatterSize < call.nbytes) :
    downSize call i s = call.span i (p + 2 ^ i) ∧ call.scatterSize * 2 ^ i = call.span i p := by
  have hsum : (p + 2 ^ i) * call.scatterSize = p * call.scatterSize + 2 ^ i * call.scatterSize :=
    Nat.add_mul ..
  have hfull : call.span i p = 2 ^ i * call.scatterSize := by
    unfold BcastCall.span
    omega
  have hcomm : call.scatterSize * 2 ^ i = call.span i p := by rw [hfull, Nat.mul_comm]
  refine ⟨?_, hcomm⟩
  rw [downSize, hsize, call.span_succ, ← Nat.cast_mul, hcomm]
  omega

theorem writeAt_slice_of_le {buf src : Nat → α} {disp len cnt e : Nat} (h : len ≤ cnt) :
    writeAt buf disp cnt (slice src disp len) e =
      if disp ≤ e ∧ e < disp + len then src e else buf e := by
  unfold writeAt
  by_cases he : disp ≤ e ∧ e < disp + len
  · have hlt : e - disp < len := by omega
    have hplace : disp + (e - disp) = e := by omega
    rw [if_pos he, if_pos ⟨he.1, by omega⟩, slice, List.getElem?_map, List.getElem?_range hlt,
      map_some, getD_some, hplace]
  · rw [if_neg he]
    split
    · next hin =>
      have hout : (slice src disp len).length ≤ e - disp := by
        rw [length_slice]
        omega
      rw [List.getElem?_eq_none hout]
      rfl
    · rfl

theorem Spread.down (hpos : 0 < call.nbytes) (hroot : call.root < call.commSize)
    (hL : call.commSize ≤ 2 ^ L) (hi : i < L) (h : Spread call data (i + 1) S) :
    Spread call data i (afterAll (downPhases call L i) S) := by
  have hchild : ∀ j < call.commSize, j % 2 ^ (i + 1) = 2 ^ i →
      j * call.scatterSize < call.nbytes →
      downSize call i (S (call.rankOf (j ^^^ 2 ^ i))) = call.span i j ∧
      ∀ e, j * call.scatterSize ≤ e → e < j * call.scatterSize + call.span i j →
        (S (call.rankOf (j ^^^ 2 ^ i))).tmpBuf e = data e := by
    intro j hj hmod hlt
    obtain ⟨hsum, hpar⟩ := parent_eq hmod
    have hp : (j ^^^ 2 ^ i) < call.commSize := by omega
    obtain ⟨hsize, hspan⟩ := downSize_eq (h.size _ hp hpar) (hsum.symm ▸ hlt)
    rw [hsum] at hsize
    refine ⟨hsize, fun e hlo hhi => h.bytes _ hp hpar e ?_ ?_⟩
    · have := Nat.mul_le_mul_right call.scatterSize (show (j ^^^ 2 ^ i) ≤ j by omega)
      omega
    · have hmul : j * call.scatterSize =
          (j ^^^ 2 ^ i) * call.scatterSize + call.span i (j ^^^ 2 ^ i) := by
        rw [← hspan, Nat.mul_comm call.scatterSize, ← Nat.add_mul, hsum]
      rw [call.span_succ, hsum]
      omega
  constructor
  · intro j hj hmod
    rcases parent_or_child hmod with hpar | hch
    · rw [down_parent hroot hj hpar]
      have hsize := h.size j hj hpar
      have hsucc := call.span_succ i j
      have hnext := call.span_pos hpos hroot i (j + 2 ^ i)
      split
      · next hs =>
        obtain ⟨-, -, hlt⟩ := of_decide_eq_true hs
        obtain ⟨hdown, -⟩ := downSize_eq hsize hlt
        simp only [BcastBufs.setCurr, hdown, hsize]
        omega
      · next hs =>
        have hno : ¬ (j + 2 ^ i) * call.scatterSize < call.nbytes := fun hlt =>
          hs (decide_eq_true ⟨hpar, lt_commSize hroot hlt, hlt⟩)
        rw [hsize]
        omega
    · rw [down_child hroot hL hi hj hch]
      split
      · next hlt =>
        simp only [BcastBufs.recvFirst, length_slice, (hchild j hj hch hlt).1]
        omega
      · next hlt =>
        have := call.span_pos hpos hroot i j
        simp only [BcastBufs.setCurr]
        omega
  · intro j hj hmod e hlo hhi
    rcases parent_or_child hmod with hpar | hch
    · rw [down_parent hroot hj hpar]
      have hsucc := call.span_succ i j
      have hdata := h.bytes j hj hpar e hlo (by omega)
      split
      · exact hdata
      · exact hdata
    · rw [down_child hroot hL hi hj hch]
      have hlt : j * call.scatterSize < call.nbytes := (call.span_pos hpos hroot i j).1 (by omega)
      obtain ⟨hsize, hdata⟩ := hchild j hj hch hlt
      rw [if_pos hlt]
      simp only [BcastBufs.recvFirst, BcastBufs.recv, hsize, Int.toNat_natCast]
      rw [Nat.mul_comm call.scatterSize j, writeAt_slice_of_le, if_pos ⟨hlo, hhi⟩]
      · exact hdata e hlo hhi
      · unfold BcastCall.span
        omega

theorem downPhases_other (hroot : call.root < call.commSize) (hj : j < call.commSize)
    (hmod : j % 2 ^ i ≠ 0) {a : Phase Nat (BcastBufs α) (List α)} (ha : a ∈ downPhases call L i) :
    a.instrs (call.rankOf j) = [] ∧ ∀ S, a.after S (call.rankOf j) = S (call.rankOf j) := by
  have hnum := call.numOf_rankOf (L := L) hroot hj
  obtain ⟨hs, hr⟩ := @sendsDown_other call i j hmod
  have hcalc : (downCalcs call L i (call.rankOf j) : List (BcastBufs α → BcastBufs α)) = [] := by
    have hne : ¬ (j % 2 ^ (i + 1) = 2 ^ i ∧ call.nbytes ≤ j * call.scatterSize) := by
      rintro ⟨h, -⟩
      have hlt := Nat.mod_lt j (Nat.two_pow_pos i)
      have hsucc := mod_succ i j
      split at hsucc <;> omega
    rw [downCalcs_rankOf hroot hj, if_neg (by rw [hs]; decide), if_neg hne]
  rcases mem_cons.1 ha with rfl | ha
  · exact ⟨cubePhase_instrs_quiet hnum hs hr, fun S => cubePhase_after_quiet hnum hr⟩
  · obtain rfl := mem_singleton.1 ha
    exact ⟨by rw [calc_instrs, hcalc]; rfl, fun S => by rw [calc_after, hcalc]; rfl⟩

theorem downPhases_out (hg : call.commSize ≤ g) {a : Phase Nat (BcastBufs α) (List α)}
    (ha : a ∈ downPhases call L i) : a.instrs g = [] ∧ ∀ S, a.after S g = S g := by
  have hno : ∀ j, call.commSize ≤ j → sendsDown call i j = false ∧
      sendsDown call i (j ^^^ 2 ^ i) = false := by
    intro j hj
    by_cases hmod : j % 2 ^ i = 0
    · rcases parent_or_child hmod with hpar | hch
      · refine ⟨?_, sendsDown_child hpar⟩
        rw [sendsDown, decide_eq_false_iff_not]
        omega
      · constructor
        · have := Nat.two_pow_pos i
          rw [sendsDown, decide_eq_false_iff_not]
          omega
        · rw [← Bool.not_eq_true, sendsDown_parent hch]
          omega
    · exact sendsDown_other hmod
  cases hnum : call.numOf L g with
  | none =>
    rcases mem_cons.1 ha with rfl | ha
    · exact ⟨cubePhase_instrs_none hnum, fun S => cubePhase_after_none hnum⟩
    · obtain rfl := mem_singleton.1 ha
      have hcalc : (downCalcs call L i g : List (BcastBufs α → BcastBufs α)) = [] := by
        rw [downCalcs, hnum]
      exact ⟨by rw [calc_instrs, hcalc]; rfl, fun S => by rw [calc_after, hcalc]; rfl⟩
  | some j =>
    have hj : call.commSize ≤ j := by
      rw [BcastCall.numOf, if_neg (Nat.not_lt.2 hg)] at hnum
      obtain rfl := Option.some.inj (ite_none_right_eq_some.1 hnum).2
      exact hg
    obtain ⟨hs, hr⟩ := hno j hj
    rcases mem_cons.1 ha with rfl | ha
    · exact ⟨cubePhase_instrs_quiet hnum hs hr, fun S => cubePhase_after_quiet hnum hr⟩
    · obtain rfl := mem_singleton.1 ha
      have hcalc : (downCalcs call L i g : List (BcastBufs α → BcastBufs α)) = [] := by
        simp only [downCalcs, hnum, hs]
        rw [if_neg (by decide), if_neg fun h => by omega]
      exact ⟨by rw [calc_instrs, hcalc]; rfl, fun S => by rw [calc_after, hcalc]; rfl⟩

theorem Intact.down (hroot : call.root < call.commSize) (hL : call.commSize ≤ 2 ^ L) (hi : i < L)
    (hspread : Spread call data (i + 1) S) (h : Intact buf S) :
    Intact buf (afterAll (downPhases call L i) S) := by
  have key : ∀ g, (afterAll (downPhases call L i) S g).buffer = buf g ∧
      (afterAll (downPhases call L i) S g).truncated = false ∧
      (afterAll (downPhases call L i) S g).sizeMismatch = false := by
    intro g
    have hsame : ∀ s : BcastBufs α, s.buffer = (S g).buffer → s.truncated = (S g).truncated →
        s.sizeMismatch = (S g).sizeMismatch →
        s.buffer = buf g ∧ s.truncated = false ∧ s.sizeMismatch = false := fun s h1 h2 h3 =>
      ⟨h1.trans (h.buffer g), h2.trans (h.truncated g), h3.trans (h.sizeMismatch g)⟩
    have hquiet : (∀ a ∈ downPhases call L i, ∀ S : Nat → BcastBufs α, a.after S g = S g) →
        afterAll (downPhases call L i) S g = S g := fun hall => by
      rw [downPhases, afterAll_cons, afterAll_cons, afterAll_nil,
        hall _ (mem_cons_of_mem _ (mem_singleton_self _)), hall _ mem_cons_self]
    by_cases hg : g < call.commSize
    · obtain ⟨j, hj, rfl⟩ : ∃ j < call.commSize, call.rankOf j = g :=
        ⟨_, call.relativeRank_lt hroot hg, call.rankOf_relativeRank hroot hg⟩
      by_cases hmod : j % 2 ^ i = 0
      · rcases parent_or_child hmod with hpar | hch
        · rw [down_parent hroot hj hpar]
          split
          · exact hsame _ rfl rfl rfl
          · exact hsame _ rfl rfl rfl
        · rw [down_child hroot hL hi hj hch]
          split
          · next hlt =>
            obtain ⟨hsum, hp⟩ := parent_eq hch
            obtain ⟨hsize, -⟩ := downSize_eq (hspread.size _ (by omega) hp) (hsum.symm ▸ hlt)
            rw [hsum] at hsize
            refine hsame _ rfl ?_ rfl
            simp only [BcastBufs.recvFirst, BcastBufs.recv, length_slice, hsize, Int.toNat_natCast]
            rw [Bool.or_eq_left_iff_imp.2]
            intro hlong
            have := of_decide_eq_true hlong
            unfold BcastCall.span at this
            omega
          · exact hsame _ rfl rfl rfl
      · rw [hquiet fun a ha => (downPhases_other hroot hj hmod ha).2]
        exact hsame _ rfl rfl rfl
    · rw [hquiet fun a ha => (downPhases_out (Nat.le_of_not_lt hg) ha).2]
      exact hsame _ rfl rfl rfl
  exact ⟨fun g => (key g).1, fun g => (key g).2.1, fun g => (key g).2.2⟩

theorem after_scatterPhases (hpos : 0 < call.nbytes) (hroot : call.root < call.commSize)
    (hL : call.commSize ≤ 2 ^ L) (h : Spread call data L S) (hintact : Intact buf S) :
    Spread call data 0 (afterAll (scatterPhases call L L) S) ∧
      Intact buf (afterAll (scatterPhases call L L) S) :=
  afterAll_reverse_flatMap (P := fun k S => Spread call data k S ∧ Intact buf S)
    (fun _ _ hi hP => ⟨hP.1.down hpos hroot hL hi, hP.2.down hroot hL hi hP.1⟩) le_rfl
    ⟨h, hintact⟩

/-! ## Programs -/

theorem scatterPhases_succ (k : Nat) : (scatterPhases call L (k + 1) :
    List (Phase Nat (BcastBufs α) (List α))) =
      downPhase call L k :: .calc (downCalcs call L k) :: scatterPhases call L k := by
  rw [scatterPhases, range_succ, reverse_concat, flatMap_cons]
  rfl

theorem child_rank (hroot : call.root < call.commSize) (hmod : j % 2 ^ (i + 1) = 0)
    (hlt : j + 2 ^ i < call.commSize) : call.rankOf (j ^^^ 2 ^ i) =
      if call.commSize ≤ call.rankOf j + 2 ^ i then call.rankOf j + 2 ^ i - call.commSize
      else call.rankOf j + 2 ^ i := by
  have hpow := Nat.two_pow_pos i
  have hxor : j ^^^ 2 ^ i = j + 2 ^ i := by
    have heq := xor_eq i j
    have hsucc := mod_succ i j
    split at hsucc
    · next h => rwa [if_pos h] at heq
    · omega
  rw [hxor, BcastCall.rankOf_eq hroot hlt, BcastCall.rankOf_eq hroot (by omega)]
  split <;> split <;> split <;> omega

theorem parent_rank (hroot : call.root < call.commSize) (hj : j < call.commSize)
    (hmod : j % 2 ^ (i + 1) = 2 ^ i) : call.rankOf (j ^^^ 2 ^ i) =
      if call.rankOf j < 2 ^ i then call.rankOf j + call.commSize - 2 ^ i
      else call.rankOf j - 2 ^ i := by
  have hpow := Nat.two_pow_pos i
  obtain ⟨hsum, -⟩ := parent_eq hmod
  rw [BcastCall.rankOf_eq hroot hj, BcastCall.rankOf_eq hroot (by omega)]
  split <;> split <;> split <;> omega

theorem scatterSend_follows (hpos : 0 < call.nbytes) (hroot : call.root < call.commSize)
    (hL : call.commSize ≤ 2 ^ L) (hj : j < call.commSize) {k fuel : Nat} (hk : k ≤ L)
    (hfuel : k < fuel) (hmod : j % 2 ^ k = 0) :
    ∃ code, scatterSend call (call.rankOf j) fuel (2 ^ k >>> 1) = some code ∧
      ∀ {S : Nat → BcastBufs α}, Spread call data k S →
        code.Follows (call.rankOf j) (scatterPhases call L k) S := by
  induction k generalizing fuel with
  | zero =>
    obtain ⟨fuel, rfl⟩ : ∃ m, fuel = m + 1 := ⟨fuel - 1, by omega⟩
    exact ⟨.done, rfl, fun _ => rfl⟩
  | succ k ih =>
    obtain ⟨fuel, rfl⟩ : ∃ m, fuel = m + 1 := ⟨fuel - 1, by omega⟩
    have hmod' : j % 2 ^ k = 0 := by
      rw [← Nat.mod_mod_of_dvd j (pow_dvd_pow 2 (Nat.le_succ k)), hmod, Nat.zero_mod]
    obtain ⟨rest, hrest, hfollows⟩ := @ih fuel (Nat.le_of_succ_le hk) (by omega) hmod'
    have hnum := call.numOf_rankOf (L := L) hroot hj
    have hquiet := @sendsDown_child call k j hmod
    have hcalcs := @downCalcs_rankOf α call L k j hroot hj
    have hpow := Nat.two_pow_pos k
    rw [scatterSend, shiftRight_pow, if_pos hpow, hrest, bind_eq_bind, bind_some,
      call.relativeRank_rankOf hroot hj]
    -- what follows the step is the same whether the number sends or not
    have hidle : sendsDown call k j = false → ∀ {S : Nat → BcastBufs α},
        Spread call data (k + 1) S →
          rest.Follows (call.rankOf j) (scatterPhases call L (k + 1)) S := by
      intro hs S hS
      have hcalc : (downCalcs call L k (call.rankOf j) :
          List (BcastBufs α → BcastBufs α)) = [] := by
        rw [hcalcs, if_neg (by rw [hs]; decide), if_neg fun h => by omega]
      rw [scatterPhases_succ]
      refine Code.follows_idle (cubePhase_instrs_quiet hnum hs hquiet) ?_
      refine Code.follows_idle (by rw [calc_instrs, hcalc]; rfl) ?_
      exact hfollows (hS.down hpos hroot hL (Nat.lt_of_succ_le hk))
    by_cases hlt : j + 2 ^ k < call.commSize
    · rw [if_pos hlt]
      refine ⟨_, rfl, fun {S} hS => Code.follows_branch ?_⟩
      have hsize := hS.size j hj hmod
      by_cases hdata : (j + 2 ^ k) * call.scatterSize < call.nbytes
      · have hs : sendsDown call k j = true := decide_eq_true ⟨hmod, hlt, hdata⟩
        have hdown := (downSize_eq hsize hdata).1
        have hcond : decide (0 < downSize call k (S (call.rankOf j))) = true := by
          rw [decide_eq_true_iff, hdown, Int.natCast_pos]
          exact (call.span_pos hpos hroot k _).2 hdata
        have hcalc : (downCalcs call L k (call.rankOf j) : List (BcastBufs α → BcastBufs α)) =
            [fun s => s.setCurr (s.currSize - downSize call k s)] := by
          rw [hcalcs, if_pos hs]
        have hsend : (downPhase call L k : Phase Nat (BcastBufs α) (List α)).instrs
            (call.rankOf j) = _ := cubePhase_instrs_send hnum hs hquiet
        have hone : (Phase.calc (downCalcs call L k) : Phase Nat (BcastBufs α) (List α)).instrs
            (call.rankOf j) =
              [.compute fun s => s.setCurr (s.currSize - downSize call k s)] := by
          rw [calc_instrs, hcalc]
          rfl
        rw [child_rank hroot hmod hlt] at hsend
        have hcode := Code.follows_cons (p := call.rankOf j) (S := S) (a := downPhase call L k)
          (Code.follows_cons (a := .calc (downCalcs call L k))
            (hfollows (hS.down hpos hroot hL (Nat.lt_of_succ_le hk))))
        rw [hsend, hone, ← Code.ofList_append, ← scatterPhases_succ] at hcode
        exact Eq.mpr (congrArg (Code.Follows _ _ S) (if_pos hcond)) hcode
      · have hcond : ¬ decide (0 < downSize call k (S (call.rankOf j))) = true := by
          have hnone := mt (call.span_pos hpos hroot k (j + 2 ^ k)).1 hdata
          have hle : call.span k j ≤ 2 ^ k * call.scatterSize := Nat.min_le_right _ _
          rw [decide_eq_true_iff, downSize, hsize, call.span_succ, ← Nat.cast_mul, Nat.mul_comm]
          omega
        refine Eq.mpr (congrArg (Code.Follows _ _ S) (if_neg hcond)) ?_
        exact hidle (decide_eq_false fun h => hdata h.2.2) hS
    · rw [if_neg hlt]
      exact ⟨rest, rfl, hidle (decide_eq_false fun h => hlt h.2.1)⟩

theorem and_mask (hmod : j % 2 ^ i = 0) : j &&& 2 ^ i ≠ 0 ↔ j % 2 ^ (i + 1) = 2 ^ i := by
  have hpow := Nat.two_pow_pos i
  have hlt := lt_xor_iff j i
  have hsucc := mod_succ i j
  rw [Nat.and_two_pow, Nat.testBit_eq_decide_div_mod_eq]
  by_cases hbit : j / 2 ^ i % 2 = 1
  · rw [if_neg fun h => by have := hlt.1 h; omega] at hsucc
    simp only [hbit, decide_true, Bool.toNat_true, Nat.one_mul]
    omega
  · rw [if_pos (hlt.2 (by omega))] at hsucc
    simp only [hbit, decide_false, Bool.toNat_false, Nat.zero_mul]
    omega

variable (call) in
def recvInstrs (j i : Nat) : List (BcastInstr α) :=
  if (call.nbytes : Int) - j * call.scatterSize ≤ 0 then [.compute (.setCurr 0)]
  else recvFrom (call.rankOf (j ^^^ 2 ^ i))
    (.recvFirst (j * call.scatterSize) ((call.nbytes : Int) - j * call.scatterSize).toNat)

theorem scatterRecv_eq (hroot : call.root < call.commSize) (hj : j < call.commSize)
    (hmin : ∀ t < L, 2 ^ t < call.commSize) (hL : call.commSize ≤ 2 ^ L) {d fuel : Nat}
    (hi : i + d = L) (hfuel : d < fuel) (hmod : j % 2 ^ i = 0) :
    ∃ t, ∃ is : List (BcastInstr α), j % 2 ^ t = 0 ∧
      scatterRecv call (call.rankOf j) fuel (2 ^ i) = some (is, 2 ^ t) ∧
      ((t = L ∧ is = []) ∨ (t < L ∧ j % 2 ^ (t + 1) = 2 ^ t ∧ is = recvInstrs call j t)) := by
  induction d generalizing i fuel with
  | zero =>
    obtain ⟨fuel, rfl⟩ : ∃ m, fuel = m + 1 := ⟨fuel - 1, by omega⟩
    obtain rfl : i = L := hi
    exact ⟨i, [], hmod, by rw [scatterRecv, if_neg (Nat.not_lt.2 hL)], .inl ⟨rfl, rfl⟩⟩
  | succ d ih =>
    obtain ⟨fuel, rfl⟩ : ∃ m, fuel = m + 1 := ⟨fuel - 1, by omega⟩
    have hlt : i < L := by omega
    have hstep : (scatterRecv call (call.rankOf j) (fuel + 1) (2 ^ i) :
        Option (List (BcastInstr α) × Nat)) =
          if j % 2 ^ (i + 1) = 2 ^ i then some (recvInstrs call j i, 2 ^ i)
          else scatterRecv call (call.rankOf j) fuel (2 ^ (i + 1)) := by
      rw [scatterRecv, if_pos (hmin i hlt)]
      simp only [call.relativeRank_rankOf hroot hj]
      by_cases hbit : j % 2 ^ (i + 1) = 2 ^ i
      · rw [if_pos ((and_mask hmod).2 hbit), if_pos hbit, ← parent_rank hroot hj hbit, recvInstrs]
        split <;> rfl
      · rw [if_neg (mt (and_mask hmod).1 hbit), if_neg hbit, shiftLeft_pow]
    rw [hstep]
    by_cases hbit : j % 2 ^ (i + 1) = 2 ^ i
    · rw [if_pos hbit]
      exact ⟨i, _, hmod, rfl, .inr ⟨hlt, hbit, rfl⟩⟩
    · rw [if_neg hbit]
      exact @ih (i + 1) fuel (by omega) (by omega) ((parent_or_child hmod).resolve_right hbit)

theorem recv_follows (hpos : 0 < call.nbytes) (hroot : call.root < call.commSize)
    (hL : call.commSize ≤ 2 ^ L) (hj : j < call.commSize) {t m : Nat} {code : BcastCode α}
    (htm : t < m) (hm : m ≤ L) (hbit : j % 2 ^ (t + 1) = 2 ^ t)
    (hcode : ∀ {S : Nat → BcastBufs α}, Spread call data t S →
      code.Follows (call.rankOf j) (scatterPhases call L t) S)
    {S : Nat → BcastBufs α} (hS : Spread call data m S) :
    (Code.ofList (recvInstrs call j t) code).Follows (call.rankOf j)
      (scatterPhases call L m) S := by
  have hpow := Nat.two_pow_pos t
  have hnum := call.numOf_rankOf (L := L) hroot hj
  induction m generalizing S with
  | zero => exact absurd htm (Nat.not_lt_zero t)
  | succ m ih =>
    have hdown := hS.down hpos hroot hL hm
    rw [scatterPhases_succ]
    rcases Nat.lt_or_eq_of_le (Nat.lt_succ_iff.1 htm) with hlt | rfl
    · -- the bits above the lowest one do not matter
      have hmod : j % 2 ^ m ≠ 0 := fun h => by
        have := Nat.mod_mod_of_dvd j (pow_dvd_pow 2 (Nat.succ_le_of_lt hlt))
        rw [h, Nat.zero_mod, hbit] at this
        omega
      have hother := fun a ha => (downPhases_other (α := α) (L := L) hroot hj hmod (a := a) ha).1
      refine Code.follows_idle (hother _ mem_cons_self) ?_
      refine Code.follows_idle (hother _ (mem_cons_of_mem _ (mem_singleton_self _))) ?_
      exact ih hlt (Nat.le_of_succ_le hm) hdown
    · have hs : sendsDown call t j = false := by
        rw [sendsDown, decide_eq_false_iff_not]
        omega
      have hcalcs := @downCalcs_rankOf α call L t j hroot hj
      rw [if_neg (by rw [hs]; decide)] at hcalcs
      by_cases hdata : j * call.scatterSize < call.nbytes
      · have hr := (sendsDown_parent hbit).2 ⟨hj, hdata⟩
        have hrecv : (downPhase call L t : Phase Nat (BcastBufs α) (List α)).instrs
            (call.rankOf j) = _ := cubePhase_instrs_recv hnum hs hr
        have hcalc : (downCalcs call L t (call.rankOf j) :
            List (BcastBufs α → BcastBufs α)) = [] := by
          rw [hcalcs, if_neg fun h => by omega]
        rw [recvInstrs, if_neg (by omega), ← hrecv]
        refine Code.follows_cons (Code.follows_idle (by rw [calc_instrs, hcalc]; rfl) ?_)
        exact hcode hdown
      · have hr : sendsDown call t (j ^^^ 2 ^ t) = false := by
          rw [← Bool.not_eq_true, sendsDown_parent hbit]
          exact fun h => hdata h.2
        have hone : (Phase.calc (downCalcs call L t) : Phase Nat (BcastBufs α) (List α)).instrs
            (call.rankOf j) = [.compute (.setCurr 0)] := by
          rw [calc_instrs, hcalcs, if_pos ⟨hbit, Nat.le_of_not_lt hdata⟩]
          rfl
        rw [recvInstrs, if_pos (by omega), ← hone]
        exact Code.follows_idle (cubePhase_instrs_quiet hnum hs hr)
          (Code.follows_cons (hcode hdown))

theorem scatterForBcast_follows (hpos : 0 < call.nbytes) (hroot : call.root < call.commSize)
    (hL : call.commSize ≤ 2 ^ L) (hmin : ∀ t < L, 2 ^ t < call.commSize)
    (hj : j < call.commSize) :
    ∃ code, scatterForBcast call (call.rankOf j) = some (.instr (.compute
        (.setCurr (if call.rankOf j = call.root then call.nbytes else 0))) code) ∧
      ∀ {S : Nat → BcastBufs α}, Spread call data L S →
        code.Follows (call.rankOf j) (scatterPhases call L L) S := by
  have hfuel : L < call.commSize + 1 := by
    cases L with
    | zero => exact Nat.succ_pos _
    | succ t =>
      have := hmin t (Nat.lt_add_one t)
      have := @Nat.lt_two_pow_self t
      omega
  obtain ⟨t, is, hmod, hrecv, hcases⟩ := @scatterRecv_eq α call L 0 j hroot hj hmin hL L
    (call.commSize + 1) (Nat.zero_add L) hfuel (Nat.mod_one j)
  rw [Nat.pow_zero] at hrecv
  have ht : t ≤ L := by
    rcases hcases with ⟨rfl, -⟩ | ⟨hlt, -⟩
    · exact le_rfl
    · exact hlt.le
  have hfuel' : t < 2 ^ t + 1 := Nat.lt_succ_of_lt Nat.lt_two_pow_self
  obtain ⟨code, hsend, hfollows⟩ : ∃ code : BcastCode α,
      scatterSend call (call.rankOf j) (2 ^ t + 1) (2 ^ t >>> 1) = some code ∧
        ∀ {S : Nat → BcastBufs α}, Spread call data t S →
          code.Follows (call.rankOf j) (scatterPhases call L t) S :=
    scatterSend_follows hpos hroot hL hj ht hfuel' hmod
  refine ⟨.ofList is code, ?_, ?_⟩
  · rw [scatterForBcast, hrecv, bind_eq_bind, bind_some]
    simp only [hsend]
    rfl
  · rcases hcases with ⟨rfl, rfl⟩ | ⟨hlt, hbit, rfl⟩
    · exact hfollows
    · exact recv_follows hpos hroot hL hj hlt le_rfl hbit hfollows

theorem scatterPhases_matched (hroot : call.root < call.commSize) (hL : call.commSize ≤ 2 ^ L)
    {a : Phase Nat (BcastBufs α) (List α)} (ha : a ∈ scatterPhases call L L) : a.Matched := by
  obtain ⟨i, hi, ha⟩ := mem_flatMap.1 ha
  rcases mem_cons.1 ha with rfl | ha
  · exact cubePhase_matched (call.numbering hroot hL) (mem_range.1 (mem_reverse.1 hi))
  · obtain rfl := mem_singleton.1 ha
    exact calc_matched _

end step

end scatter

end PsMpi.Coll
