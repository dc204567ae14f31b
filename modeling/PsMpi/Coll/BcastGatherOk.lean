import PsMpi.Coll.BcastScatterOk
import Mathlib.Algebra.BigOperators.Intervals

/-!
# The allgather of a broadcast
-/

namespace PsMpi.Coll

open PsMpi.Lib PsMpi.Lib.Network PsMpi.Lib.Hypercube

/-! ## Sizes -/

theorem mod_of_lt_two {a n : Nat} (h : a < 2 * n) : a % n = if a < n then a else a - n := by
  split
  · next hlt => exact Nat.mod_eq_of_lt hlt
  · next hge => rw [Nat.mod_eq_sub_mod (Nat.le_of_not_lt hge), Nat.mod_eq_of_lt (by omega)]

/-- Two steps back. -/
theorem sub_mod_sub {a b n x : Nat} (ha : a ≤ x + n) (hb : b ≤ n) :
    ((x + n - a) % n + n - b) % n = (x + 2 * n - (a + b)) % n := by
  rw [show (x + n - a) % n + n - b = (x + n - a) % n + (n - b) by omega, Nat.mod_add_mod]
  congr 1
  omega

theorem left_right {g n : Nat} (hg : g < n) : (n + (g + 1) % n - 1) % n = g := by
  rw [Nat.add_comm, Nat.add_sub_assoc (by omega), Nat.mod_add_mod,
    show g + 1 + (n - 1) = g + n by omega, Nat.add_mod_right, Nat.mod_eq_of_lt hg]

theorem right_left {g n : Nat} (hg : g < n) : ((n + g - 1) % n + 1) % n = g := by
  rw [Nat.mod_add_mod, Nat.sub_add_cancel (by omega), Nat.add_mod_left, Nat.mod_eq_of_lt hg]

namespace BcastCall

variable {call : BcastCall} {i j k m g e : Nat}

theorem span_cases (hhi : e < j * call.scatterSize + call.span (i + 1) j) :
    e < j * call.scatterSize + call.span i j ∨
      ((j + 2 ^ i) * call.scatterSize ≤ e ∧
        e < (j + 2 ^ i) * call.scatterSize + call.span i (j + 2 ^ i)) := by
  have hsum : (j + 2 ^ i) * call.scatterSize = j * call.scatterSize + 2 ^ i * call.scatterSize :=
    Nat.add_mul ..
  have hpow : 2 ^ (i + 1) * call.scatterSize = 2 ^ i * call.scatterSize * 2 := by
    rw [Nat.pow_succ, Nat.mul_right_comm]
  unfold span at *
  omega

theorem exists_block (hroot : call.root < call.commSize) (he : e < call.nbytes) :
    ∃ b < call.commSize, b * call.scatterSize ≤ e ∧ e < b * call.scatterSize + call.span 0 b := by
  have hle := call.nbytes_le hroot
  have hss : 0 < call.scatterSize := by
    by_contra h
    rw [Nat.eq_zero_of_not_pos h, Nat.mul_zero] at hle
    omega
  have hdiv := Nat.div_add_mod e call.scatterSize
  have hmod := Nat.mod_lt e hss
  rw [Nat.mul_comm] at hdiv
  have hlt : e / call.scatterSize < call.commSize := by
    rw [Nat.div_lt_iff_lt_mul hss]
    omega
  refine ⟨e / call.scatterSize, hlt, by omega, ?_⟩
  unfold span
  omega

theorem sum_span (hroot : call.root < call.commSize) :
    ∑ b ∈ Finset.range call.commSize, call.span 0 b = call.nbytes := by
  have key : ∀ k, ∑ b ∈ Finset.range k, call.span 0 b = min call.nbytes (k * call.scatterSize) := by
    intro k
    induction k with
    | zero => simp
    | succ k ih =>
      rw [Finset.sum_range_succ, ih, Nat.succ_mul]
      unfold span
      omega
  rw [key]
  exact Nat.min_eq_left (call.nbytes_le hroot)

/-! ## Going round -/

variable (call) in
def back (m g : Nat) : Nat := (call.relativeRank g + call.commSize - m) % call.commSize

theorem back_zero (hroot : call.root < call.commSize) (hg : g < call.commSize) :
    call.back 0 g = call.relativeRank g := by
  have := call.relativeRank_lt hroot hg
  rw [back, mod_of_lt_two (by omega), if_neg (by omega)]
  omega

theorem back_lt (hroot : call.root < call.commSize) : call.back m g < call.commSize :=
  Nat.mod_lt _ (Nat.zero_lt_of_lt hroot)

theorem mod_relativeRank (hroot : call.root < call.commSize) (hg : g < call.commSize) :
    (g + call.commSize - call.root) % call.commSize = call.relativeRank g := by
  rw [mod_of_lt_two (by omega), relativeRank]
  split <;> split <;> omega

theorem back_eq (hroot : call.root < call.commSize) (hg : g < call.commSize)
    (hm : m ≤ call.commSize) :
    call.back m g = (g + 2 * call.commSize - (call.root + m)) % call.commSize := by
  rw [back, ← mod_relativeRank hroot hg, sub_mod_sub (by omega) hm]

theorem back_left (hroot : call.root < call.commSize) (hg : g < call.commSize)
    (hm : m + 1 < call.commSize) :
    call.back m ((call.commSize + g - 1) % call.commSize) = call.back (m + 1) g := by
  rw [back_eq hroot (Nat.mod_lt _ (Nat.zero_lt_of_lt hg)) (by omega), back_eq hroot hg hm.le,
    Nat.add_sub_assoc (by omega), Nat.mod_add_mod,
    show call.commSize + g - 1 + (2 * call.commSize - (call.root + m)) =
      g + 2 * call.commSize - (call.root + (m + 1)) + call.commSize by omega, Nat.add_mod_right]

theorem back_back (hroot : call.root < call.commSize) (hg : g < call.commSize)
    (hm : m < call.commSize) : call.back (call.back m g) g = m := by
  have hrel := call.relativeRank_lt hroot hg
  have hback : call.back m g = _ := mod_of_lt_two (by omega)
  rw [hback, back]
  split
  · rw [show call.relativeRank g + call.commSize - (call.relativeRank g + call.commSize - m) = m by
      omega, Nat.mod_eq_of_lt hm]
  · rw [show call.relativeRank g + call.commSize -
      (call.relativeRank g + call.commSize - m - call.commSize) = m + call.commSize by omega,
      Nat.add_mod_right, Nat.mod_eq_of_lt hm]

theorem sum_back (hroot : call.root < call.commSize) (hg : g < call.commSize) :
    ∑ k ∈ Finset.range call.commSize, call.span 0 (call.back k g) = call.nbytes := by
  rw [← sum_span hroot]
  refine Finset.sum_nbij' (fun k => call.back k g) (fun k => call.back k g) ?_ ?_ ?_ ?_ ?_
  · exact fun k _ => Finset.mem_range.2 (back_lt hroot)
  · exact fun k _ => Finset.mem_range.2 (back_lt hroot)
  · exact fun k hk => back_back hroot hg (Finset.mem_range.1 hk)
  · exact fun k hk => back_back hroot hg (Finset.mem_range.1 hk)
  · exact fun _ _ => rfl

end BcastCall

section gather

variable {α : Type} {call : BcastCall} {L i j g m : Nat} {S : Nat → BcastBufs α}
  {buf : Nat → Nat → α} {data : Nat → α}

structure Complete (call : BcastCall) (data : Nat → α) (S : Nat → BcastBufs α) : Prop where
  size : ∀ g < call.commSize, (S g).currSize = call.nbytes
  bytes : ∀ g < call.commSize, ∀ e < call.nbytes, (S g).tmpBuf e = data e

theorem truncated_recvMore {s : BcastBufs α} {src : Nat → α} {disp len cnt d : Nat} (h : len ≤ cnt)
    (hs : s.truncated = false) : (s.recvMore disp cnt (slice src d len)).truncated = false := by
  simp only [BcastBufs.recvMore, BcastBufs.recv, hs, length_slice, Bool.false_or,
    decide_eq_false_iff_not]
  omega

theorem bytes_recvMore {s : BcastBufs α} {src : Nat → α} {disp len cnt e : Nat} (h : len ≤ cnt)
    (hsrc : ∀ e, disp ≤ e → e < disp + len → src e = data e)
    (he : s.tmpBuf e = data e ∨ (disp ≤ e ∧ e < disp + len)) :
    (s.recvMore disp cnt (slice src disp len)).tmpBuf e = data e := by
  refine (writeAt_slice_of_le h).trans ?_
  split
  · next hin => exact hsrc e hin.1 hin.2
  · next hout => exact he.resolve_right hout

/-! ## Ring -/

variable (call m) in
def ringSends (g : Nat) : Option (Nat × (BcastBufs α → List α)) :=
  if g < call.commSize then
    some ((g + 1) % call.commSize,
      fun s => slice s.tmpBuf (call.back m g * call.scatterSize) (call.blockSize (call.back m g)))
  else none

variable (call m) in
def ringRecvs (g : Nat) : Option (Nat × (BcastBufs α → List α → BcastBufs α)) :=
  if g < call.commSize then
    some ((call.commSize + g - 1) % call.commSize,
      .recvMore (call.back (m + 1) g * call.scatterSize) (call.blockSize (call.back (m + 1) g)))
  else none

variable (call m) in
def ringPhase : Phase Nat (BcastBufs α) (List α) := .single (ringSends call m) (ringRecvs call m)

theorem ringPhase_matched : (ringPhase call m : Phase Nat (BcastBufs α) (List α)).Matched := by
  refine single_ite_matched fun p q => ⟨?_, ?_⟩
  · rintro ⟨hp, rfl⟩
    exact ⟨Nat.mod_lt _ (Nat.zero_lt_of_lt hp), left_right hp⟩
  · rintro ⟨hq, rfl⟩
    exact ⟨Nat.mod_lt _ (Nat.zero_lt_of_lt hq), right_left hq⟩

theorem ringPhase_out (hg : call.commSize ≤ g) :
    (ringPhase call m : Phase Nat (BcastBufs α) (List α)).instrs g = [] :=
  single_instrs_none (if_neg (Nat.not_lt.2 hg)) (if_neg (Nat.not_lt.2 hg))

theorem ringPhase_after_out (hg : call.commSize ≤ g) : (ringPhase call m).after S g = S g :=
  single_after_none (if_neg (Nat.not_lt.2 hg))

theorem ringPhase_after (hroot : call.root < call.commSize) (hg : g < call.commSize)
    (hm : m + 1 < call.commSize) : (ringPhase call m).after S g =
      (S g).recvMore (call.back (m + 1) g * call.scatterSize)
        (call.blockSize (call.back (m + 1) g))
        (slice (S ((call.commSize + g - 1) % call.commSize)).tmpBuf
          (call.back (m + 1) g * call.scatterSize) (call.span 0 (call.back (m + 1) g))) := by
  have hleft : (call.commSize + g - 1) % call.commSize < call.commSize :=
    Nat.mod_lt _ (Nat.zero_lt_of_lt hroot)
  have hdst : (ringSends call m ((call.commSize + g - 1) % call.commSize) :
      Option (Nat × (BcastBufs α → List α))) = some (g, fun s => slice s.tmpBuf
        (call.back (m + 1) g * call.scatterSize) (call.span 0 (call.back (m + 1) g))) := by
    rw [ringSends, if_pos hleft, right_left hg, BcastCall.back_left hroot hg hm, BcastCall.blockSize_eq]
  have hsrc : (ringRecvs call m g : Option (Nat × (BcastBufs α → List α → BcastBufs α))) = _ :=
    if_pos hg
  exact (single_after hsrc hdst).trans rfl

structure Collected (call : BcastCall) (data : Nat → α) (m : Nat) (S : Nat → BcastBufs α) :
    Prop where
  size : ∀ g < call.commSize,
    (S g).currSize = ((∑ k ∈ Finset.range (m + 1), call.span 0 (call.back k g) : Nat) : Int)
  bytes : ∀ g < call.commSize, ∀ k ≤ m, ∀ e, call.back k g * call.scatterSize ≤ e →
    e < call.back k g * call.scatterSize + call.span 0 (call.back k g) → (S g).tmpBuf e = data e

theorem Collected.step (hroot : call.root < call.commSize) (hm : m + 1 < call.commSize)
    (h : Collected call data m S) : Collected call data (m + 1) ((ringPhase call m).after S) := by
  have hdata : ∀ g < call.commSize, ∀ e, call.back (m + 1) g * call.scatterSize ≤ e →
      e < call.back (m + 1) g * call.scatterSize + call.span 0 (call.back (m + 1) g) →
      (S ((call.commSize + g - 1) % call.commSize)).tmpBuf e = data e := by
    intro g hg e hlo hhi
    refine h.bytes _ (Nat.mod_lt _ (Nat.zero_lt_of_lt hroot)) m le_rfl e ?_ ?_
    · rwa [BcastCall.back_left hroot hg hm]
    · rwa [BcastCall.back_left hroot hg hm]
  constructor
  · intro g hg
    rw [ringPhase_after hroot hg hm, Finset.sum_range_succ]
    simp only [BcastBufs.recvMore, length_slice, h.size g hg, Nat.cast_add]
  · intro g hg k hk e hlo hhi
    rw [ringPhase_after hroot hg hm]
    refine bytes_recvMore (by rw [call.blockSize_eq]) (hdata g hg) ?_
    rcases Nat.lt_or_eq_of_le hk with hlt | rfl
    · exact .inl (h.bytes g hg k (Nat.lt_succ_iff.1 hlt) e hlo hhi)
    · exact .inr ⟨hlo, hhi⟩

theorem Intact.ring (hroot : call.root < call.commSize) (hm : m + 1 < call.commSize)
    (h : Intact buf S) : Intact buf ((ringPhase call m).after S) := by
  have key : ∀ g, ((ringPhase call m).after S g).buffer = (S g).buffer ∧
      ((ringPhase call m).after S g).truncated = false ∧
      ((ringPhase call m).after S g).sizeMismatch = (S g).sizeMismatch := by
    intro g
    by_cases hg : g < call.commSize
    · rw [ringPhase_after hroot hg hm]
      exact ⟨rfl, truncated_recvMore (by rw [call.blockSize_eq]) (h.truncated g), rfl⟩
    · rw [ringPhase_after_out (Nat.le_of_not_lt hg)]
      exact ⟨rfl, h.truncated g, rfl⟩
  exact ⟨fun g => (key g).1.trans (h.buffer g), fun g => (key g).2.1,
    fun g => (key g).2.2.trans (h.sizeMismatch g)⟩

theorem after_ring (hroot : call.root < call.commSize) (h : Collected call data 0 S)
    (hintact : Intact buf S) :
    Complete call data (afterAll ((List.range (call.commSize - 1)).map (ringPhase call)) S) ∧
      Intact buf (afterAll ((List.range (call.commSize - 1)).map (ringPhase call)) S) := by
  have hsteps := afterAll_range (L := call.commSize - 1) (f := ringPhase call)
    (P := fun m S => Collected call data m S ∧ Intact buf S)
    (fun i S hi hP => ⟨hP.1.step hroot (by omega), hP.2.ring hroot (by omega)⟩) ⟨h, hintact⟩ le_rfl
  refine ⟨⟨fun g hg => ?_, fun g hg e he => ?_⟩, hsteps.2⟩
  · rw [hsteps.1.size g hg, Nat.sub_add_cancel (Nat.one_le_of_lt hroot),
      BcastCall.sum_back hroot hg]
  · obtain ⟨b, hb, hlo, hhi⟩ := BcastCall.exists_block hroot he
    have hbb := BcastCall.back_back hroot hg hb
    have hlt := @BcastCall.back_lt call b g hroot
    exact hsteps.1.bytes g hg (call.back b g) (by omega) e (by rwa [hbb]) (by rwa [hbb])

theorem rel_back (hroot : call.root < call.commSize) (hg : g < call.commSize)
    (hm : m < call.commSize) :
    ((g + call.commSize - m) % call.commSize + call.commSize - call.root) % call.commSize =
      call.back m g := by
  rw [sub_mod_sub (by omega) hroot.le, Nat.add_comm m, BcastCall.back_eq hroot hg hm.le]

theorem ringLoop_eq (hroot : call.root < call.commSize) (hg : g < call.commSize) {k : Nat}
    (hk : m + k + 1 = call.commSize) :
    (ringLoop call g k ((g + call.commSize - m) % call.commSize)
      ((g + call.commSize - (m + 1)) % call.commSize) : List (BcastInstr α)) =
      ((List.range' m k).map (ringPhase call)).flatMap fun a => a.instrs g := by
  induction k generalizing m with
  | zero => rfl
  | succ k ih =>
    have hnext : (call.commSize + (g + call.commSize - (m + 1)) % call.commSize - 1) %
        call.commSize = (g + call.commSize - (m + 1 + 1)) % call.commSize := by
      rw [Nat.add_comm call.commSize, sub_mod_sub (by omega) (by omega),
        show g + 2 * call.commSize - (m + 1 + 1) =
          g + call.commSize - (m + 1 + 1) + call.commSize by omega, Nat.add_mod_right]
    have hphase : (ringPhase call m : Phase Nat (BcastBufs α) (List α)).instrs g = _ :=
      single_instrs (if_pos hg) (if_pos hg)
    rw [List.range'_succ, List.map_cons, List.flatMap_cons, ← ih (by omega), hphase, ringLoop]
    simp only [rel_back hroot hg (show m < call.commSize by omega),
      rel_back hroot hg (show m + 1 < call.commSize by omega), hnext]

/-! ## Recursive doubling -/

variable (call L i) in
def doublePhase : Phase Nat (BcastBufs α) (List α) :=
  cubePhase (call.numOf L) call.rankOf i (fun _ => true)
    (fun j s => slice s.tmpBuf (rootOf i j * call.scatterSize) s.currSize.toNat)
    fun j => .recvMore (rootOf i (j ^^^ 2 ^ i) * call.scatterSize)
      (call.nbytes - rootOf i (j ^^^ 2 ^ i) * call.scatterSize)

structure Doubled (call : BcastCall) (data : Nat → α) (i : Nat) (S : Nat → BcastBufs α) : Prop where
  size : ∀ j < call.commSize, (S (call.rankOf j)).currSize = call.span i (rootOf i j)
  bytes : ∀ j < call.commSize, ∀ e, rootOf i j * call.scatterSize ≤ e →
    e < rootOf i j * call.scatterSize + call.span i (rootOf i j) →
      (S (call.rankOf j)).tmpBuf e = data e

theorem doublePhase_after (hroot : call.root < call.commSize) (hL : call.commSize = 2 ^ L)
    (hi : i < L) (hj : j < call.commSize) (h : Doubled call data i S) :
    (doublePhase call L i).after S (call.rankOf j) =
      (S (call.rankOf j)).recvMore (rootOf i (j ^^^ 2 ^ i) * call.scatterSize)
        (call.nbytes - rootOf i (j ^^^ 2 ^ i) * call.scatterSize)
        (slice (S (call.rankOf (j ^^^ 2 ^ i))).tmpBuf
          (rootOf i (j ^^^ 2 ^ i) * call.scatterSize) (call.span i (rootOf i (j ^^^ 2 ^ i)))) := by
  have hpeer : (j ^^^ 2 ^ i) < call.commSize := by
    rw [hL] at hj ⊢
    exact xor_lt hj hi
  rw [doublePhase, cubePhase_after (call.numbering hroot hL.le) hi (hL ▸ hj) rfl,
    h.size _ hpeer, Int.toNat_natCast]

theorem span_pair (i j : Nat) : call.span (i + 1) (rootOf (i + 1) j) =
    call.span i (rootOf i j) + call.span i (rootOf i (j ^^^ 2 ^ i)) := by
  rw [rootOf_succ, rootOf_xor, call.span_succ]
  split
  · rfl
  · next h =>
    rw [Nat.sub_add_cancel (le_rootOf h), Nat.add_comm]

theorem span_pair_cases {e : Nat} (hlo : rootOf (i + 1) j * call.scatterSize ≤ e)
    (hhi : e < rootOf (i + 1) j * call.scatterSize + call.span (i + 1) (rootOf (i + 1) j)) :
    (rootOf i j * call.scatterSize ≤ e ∧
      e < rootOf i j * call.scatterSize + call.span i (rootOf i j)) ∨
    (rootOf i (j ^^^ 2 ^ i) * call.scatterSize ≤ e ∧ e <
      rootOf i (j ^^^ 2 ^ i) * call.scatterSize + call.span i (rootOf i (j ^^^ 2 ^ i))) := by
  have hcases := BcastCall.span_cases hhi
  rw [rootOf_succ] at hlo hcases
  rw [rootOf_xor]
  split at hlo
  · next h =>
    rw [if_pos h] at hcases ⊢
    exact hcases.imp (fun hlt => ⟨hlo, hlt⟩) id
  · next h =>
    rw [if_neg h] at hcases ⊢
    rw [Nat.sub_add_cancel (le_rootOf h)] at hcases
    exact hcases.symm.imp id fun hlt => ⟨hlo, hlt⟩

theorem Doubled.step (hroot : call.root < call.commSize) (hL : call.commSize = 2 ^ L) (hi : i < L)
    (h : Doubled call data i S) : Doubled call data (i + 1) ((doublePhase call L i).after S) := by
  constructor
  · intro j hj
    rw [doublePhase_after hroot hL hi hj h, span_pair]
    simp only [BcastBufs.recvMore, length_slice, h.size j hj, Nat.cast_add]
  · intro j hj e hlo hhi
    have hpeer : (j ^^^ 2 ^ i) < call.commSize := by
      rw [hL] at hj ⊢
      exact xor_lt hj hi
    rw [doublePhase_after hroot hL hi hj h]
    refine bytes_recvMore (Nat.min_le_left _ _) (h.bytes _ hpeer) ?_
    exact (span_pair_cases hlo hhi).imp (fun hin => h.bytes j hj e hin.1 hin.2) id

theorem Intact.double (hroot : call.root < call.commSize) (hL : call.commSize = 2 ^ L) (hi : i < L)
    (hdouble : Doubled call data i S) (h : Intact buf S) :
    Intact buf ((doublePhase call L i).after S) := by
  have key : ∀ g, ((doublePhase call L i).after S g).buffer = (S g).buffer ∧
      ((doublePhase call L i).after S g).truncated = false ∧
      ((doublePhase call L i).after S g).sizeMismatch = (S g).sizeMismatch := by
    intro g
    cases hnum : call.numOf L g with
    | none =>
      rw [doublePhase, cubePhase_after_none hnum]
      exact ⟨rfl, h.truncated g, rfl⟩
    | some j =>
      obtain ⟨hj, rfl⟩ := (call.numbering hroot hL.le).of_num g j hnum
      rw [doublePhase_after hroot hL hi (hL ▸ hj) hdouble]
      exact ⟨rfl, truncated_recvMore (Nat.min_le_left _ _) (h.truncated _), rfl⟩
  exact ⟨fun g => (key g).1.trans (h.buffer g), fun g => (key g).2.1,
    fun g => (key g).2.2.trans (h.sizeMismatch g)⟩

theorem after_double (hroot : call.root < call.commSize) (hL : call.commSize = 2 ^ L)
    (h : Doubled call data 0 S) (hintact : Intact buf S) :
    Complete call data (afterAll ((List.range L).map (doublePhase call L)) S) ∧
      Intact buf (afterAll ((List.range L).map (doublePhase call L)) S) := by
  have hsteps := afterAll_range (L := L) (f := doublePhase call L)
    (P := fun i S => Doubled call data i S ∧ Intact buf S)
    (fun i S hi hP => ⟨hP.1.step hroot hL hi, hP.2.double hroot hL hi hP.1⟩) ⟨h, hintact⟩ le_rfl
  have hzero : ∀ j < call.commSize, rootOf L j = 0 := fun j hj => by
    rw [rootOf, Nat.div_eq_of_lt (hL ▸ hj), Nat.zero_mul]
  refine ⟨⟨fun g hg => ?_, fun g hg e he => ?_⟩, hsteps.2⟩
  · have hj := call.relativeRank_lt hroot hg
    have hsize := hsteps.1.size _ hj
    rwa [call.rankOf_relativeRank hroot hg, hzero _ hj, call.span_zero hroot hL.le] at hsize
  · have hj := call.relativeRank_lt hroot hg
    have hbytes := hsteps.1.bytes _ hj e
    rw [call.rankOf_relativeRank hroot hg, hzero _ hj, call.span_zero hroot hL.le] at hbytes
    exact hbytes (by omega) (by omega)

end gather

end PsMpi.Coll
