import PsMpi.Lib.Network
import PsMpi.Lib.Hypercube

/-!
# Phases along the dimensions of a hypercube

Some processes have numbers below `2 ^ L` (`Numbering`).
-/

open List Option

namespace PsMpi.Lib.Network

open PsMpi.Lib.Hypercube

variable {ι σ μ : Type*}

/-- The processes that have numbers below `2 ^ L`, and the process that has a number. -/
structure Numbering (L : Nat) (num : ι → Option Nat) (rank : Nat → ι) : Prop where
  num_rank : ∀ j, j < 2 ^ L → num (rank j) = some j
  of_num : ∀ g j, num g = some j → j < 2 ^ L ∧ rank j = g

def cubePhase (num : ι → Option Nat) (rank : Nat → ι) (i : Nat) (sends : Nat → Bool)
    (msg : Nat → σ → μ) (upd : Nat → σ → μ → σ) : Phase ι σ μ :=
  .single (fun g => (num g).bind fun j =>
      if sends j then some (rank (j ^^^ 2 ^ i), msg j) else none)
    fun g => (num g).bind fun j =>
      if sends (j ^^^ 2 ^ i) then some (rank (j ^^^ 2 ^ i), upd j) else none

section cube

variable {L i j : Nat} {num : ι → Option Nat} {rank : Nat → ι} {sends : Nat → Bool}
  {msg : Nat → σ → μ} {upd : Nat → σ → μ → σ} {S : ι → σ} {g : ι}

theorem cubePhase_matched (h : Numbering L num rank) (hi : i < L) :
    (cubePhase num rank i sends msg upd).Matched := by
  refine single_matched fun p q => ?_
  have hsend : ((num p).bind fun j =>
      if sends j then some (rank (j ^^^ 2 ^ i), msg j) else none).map Prod.fst = some q ↔
      ∃ j, j < 2 ^ L ∧ sends j = true ∧ rank j = p ∧ rank (j ^^^ 2 ^ i) = q := by
    constructor
    · intro hdst
      obtain ⟨x, hx, rfl⟩ := map_eq_some_iff.1 hdst
      obtain ⟨j, hj, hx⟩ := bind_eq_some_iff.1 hx
      obtain ⟨hs, hx⟩ := ite_none_right_eq_some.1 hx
      cases hx
      obtain ⟨hlt, hrank⟩ := h.of_num p j hj
      exact ⟨j, hlt, hs, hrank, rfl⟩
    · rintro ⟨j, hlt, hs, rfl, rfl⟩
      rw [h.num_rank j hlt, bind_some, if_pos hs]
      rfl
  have hrecv : ((num q).bind fun j =>
      if sends (j ^^^ 2 ^ i) then some (rank (j ^^^ 2 ^ i), upd j) else none).map Prod.fst =
      some p ↔ ∃ j, j < 2 ^ L ∧ sends j = true ∧ rank j = p ∧ rank (j ^^^ 2 ^ i) = q := by
    constructor
    · intro hdst
      obtain ⟨x, hx, rfl⟩ := map_eq_some_iff.1 hdst
      obtain ⟨j, hj, hx⟩ := bind_eq_some_iff.1 hx
      obtain ⟨hs, hx⟩ := ite_none_right_eq_some.1 hx
      cases hx
      obtain ⟨hlt, hrank⟩ := h.of_num q j hj
      exact ⟨j ^^^ 2 ^ i, xor_lt hlt hi, hs, rfl, by rw [xor_xor, hrank]⟩
    · rintro ⟨j, hlt, hs, rfl, rfl⟩
      rw [h.num_rank _ (xor_lt hlt hi), bind_some, xor_xor, if_pos hs]
      rfl
  rw [hsend, hrecv]

theorem cubePhase_instrs_none (h : num g = none) :
    (cubePhase num rank i sends msg upd).instrs g = [] :=
  single_instrs_none (by rw [h]; rfl) (by rw [h]; rfl)

theorem cubePhase_instrs_quiet (h : num g = some j) (hs : sends j = false)
    (hr : sends (j ^^^ 2 ^ i) = false) : (cubePhase num rank i sends msg upd).instrs g = [] :=
  single_instrs_none (by rw [h, bind_some, hs]; rfl) (by rw [h, bind_some, hr]; rfl)

theorem cubePhase_instrs_send (h : num g = some j) (hs : sends j = true)
    (hr : sends (j ^^^ 2 ^ i) = false) :
    (cubePhase num rank i sends msg upd).instrs g = sendTo (rank (j ^^^ 2 ^ i)) (msg j) :=
  single_instrs_send (by rw [h, bind_some, hs]; rfl) (by rw [h, bind_some, hr]; rfl)

theorem cubePhase_instrs_recv (h : num g = some j) (hs : sends j = false)
    (hr : sends (j ^^^ 2 ^ i) = true) :
    (cubePhase num rank i sends msg upd).instrs g = recvFrom (rank (j ^^^ 2 ^ i)) (upd j) :=
  single_instrs_recv (by rw [h, bind_some, hs]; rfl) (by rw [h, bind_some, hr]; rfl)

theorem cubePhase_instrs (h : num g = some j) (hs : sends j = true)
    (hr : sends (j ^^^ 2 ^ i) = true) : (cubePhase num rank i sends msg upd).instrs g =
      sendRecv (rank (j ^^^ 2 ^ i)) (msg j) (rank (j ^^^ 2 ^ i)) (upd j) :=
  single_instrs (by rw [h, bind_some, hs]; rfl) (by rw [h, bind_some, hr]; rfl)

variable [DecidableEq ι]

theorem cubePhase_after_none (h : num g = none) :
    (cubePhase num rank i sends msg upd).after S g = S g :=
  single_after_none (by rw [h]; rfl)

theorem cubePhase_after_quiet (h : num g = some j) (hr : sends (j ^^^ 2 ^ i) = false) :
    (cubePhase num rank i sends msg upd).after S g = S g :=
  single_after_none (by rw [h, bind_some, hr]; rfl)

theorem cubePhase_after (h : Numbering L num rank) (hi : i < L) (hj : j < 2 ^ L)
    (hr : sends (j ^^^ 2 ^ i) = true) : (cubePhase num rank i sends msg upd).after S (rank j) =
      upd j (S (rank j)) (msg (j ^^^ 2 ^ i) (S (rank (j ^^^ 2 ^ i)))) :=
  single_after (by rw [h.num_rank j hj, bind_some, hr]; rfl)
    (by rw [h.num_rank _ (xor_lt hj hi), bind_some, hr, xor_xor]; rfl)

theorem cubePhase_all {P : σ → Prop} (h : Numbering L num rank) (hi : i < L)
    (hupd : ∀ j s s', P s → P (upd j s (msg (j ^^^ 2 ^ i) s'))) (hS : ∀ g, P (S g)) (g : ι) :
    P ((cubePhase num rank i sends msg upd).after S g) := by
  cases hnum : num g with
  | none =>
    rw [cubePhase_after_none hnum]
    exact hS g
  | some j =>
    obtain ⟨hj, rfl⟩ := h.of_num g j hnum
    cases hr : sends (j ^^^ 2 ^ i) with
    | false =>
      rw [cubePhase_after_quiet hnum hr]
      exact hS _
    | true =>
      rw [cubePhase_after h hi hj hr]
      exact hupd _ _ _ (hS _)

theorem cubePhase_frame {β : Type*} {f : σ → β} (h : Numbering L num rank) (hi : i < L)
    (hupd : ∀ j s m, f (upd j s m) = f s) (g : ι) :
    f ((cubePhase num rank i sends msg upd).after S g) = f (S g) := by
  cases hnum : num g with
  | none => rw [cubePhase_after_none hnum]
  | some j =>
    obtain ⟨hj, rfl⟩ := h.of_num g j hnum
    cases hr : sends (j ^^^ 2 ^ i) with
    | false => rw [cubePhase_after_quiet hnum hr]
    | true => rw [cubePhase_after h hi hj hr, hupd]

end cube

/-! ## Phases one after the other -/

section all

variable [DecidableEq ι] {S : ι → σ} {f : Nat → Phase ι σ μ} {L : Nat}

theorem afterAll_append (as bs : List (Phase ι σ μ)) (S : ι → σ) :
    afterAll (as ++ bs) S = afterAll bs (afterAll as S) := foldl_append

@[simp] theorem afterAll_cons (a : Phase ι σ μ) (as : List (Phase ι σ μ)) (S : ι → σ) :
    afterAll (a :: as) S = afterAll as (a.after S) := rfl

@[simp] theorem afterAll_nil (S : ι → σ) : afterAll ([] : List (Phase ι σ μ)) S = S := rfl

theorem afterAll_range {P : Nat → (ι → σ) → Prop}
    (hstep : ∀ i S, i < L → P i S → P (i + 1) ((f i).after S)) (h : P 0 S) {k : Nat} (hk : k ≤ L) :
    P k (afterAll ((List.range k).map f) S) := by
  induction k with
  | zero => exact h
  | succ k ih =>
    rw [range_succ, map_append, afterAll_append]
    exact hstep k _ hk (ih (Nat.le_of_succ_le hk))

theorem afterAll_flatMap {f : Nat → List (Phase ι σ μ)} {P : Nat → (ι → σ) → Prop}
    (hstep : ∀ i S, i < L → P i S → P (i + 1) (afterAll (f i) S)) (h : P 0 S) {k : Nat}
    (hk : k ≤ L) : P k (afterAll ((List.range k).flatMap f) S) := by
  induction k with
  | zero => exact h
  | succ k ih =>
    rw [range_succ, flatMap_append, flatMap_singleton, afterAll_append]
    exact hstep k _ hk (ih (Nat.le_of_succ_le hk))

theorem afterAll_reverse {P : Nat → (ι → σ) → Prop}
    (hstep : ∀ i S, i < L → P (i + 1) S → P i ((f i).after S)) {k : Nat} (hk : k ≤ L) (h : P k S) :
    P 0 (afterAll ((List.range k).reverse.map f) S) := by
  induction k generalizing S with
  | zero => exact h
  | succ k ih =>
    rw [range_succ, reverse_concat, map_cons, afterAll_cons]
    exact ih (Nat.le_of_succ_le hk) (hstep k S hk h)

theorem afterAll_reverse_flatMap {f : Nat → List (Phase ι σ μ)} {P : Nat → (ι → σ) → Prop}
    (hstep : ∀ i S, i < L → P (i + 1) S → P i (afterAll (f i) S)) {k : Nat} (hk : k ≤ L)
    (h : P k S) : P 0 (afterAll ((List.range k).reverse.flatMap f) S) := by
  induction k generalizing S with
  | zero => exact h
  | succ k ih =>
    rw [range_succ, reverse_concat, flatMap_cons, afterAll_append]
    exact ih (Nat.le_of_succ_le hk) (hstep k S hk h)

end all

end PsMpi.Lib.Network
