import Mathlib.Data.List.Nodup

/-!
# Reading and writing at lists of addresses

A memory is a function from addresses to values.
-/

open List Function

namespace PsMpi.Lib

variable {α β : Type*} [DecidableEq α] {m : α → β} {ps : List α} {bs : List β} {p : α} {b : β}

def gather (m : α → β) (ps : List α) : List β := ps.map m

def scatter (m : α → β) : List α → List β → α → β
  | p :: ps, b :: bs => scatter (Function.update m p b) ps bs
  | _, _ => m

omit [DecidableEq α] in
@[simp] theorem gather_length (m : α → β) (ps : List α) : (gather m ps).length = ps.length := by
  simp [gather]

@[simp] theorem scatter_nil (m : α → β) (ps : List α) : scatter m ps [] = m := by
  cases ps <;> rfl

theorem scatter_frame (h : p ∉ ps.take bs.length) : scatter m ps bs p = m p := by
  induction ps generalizing m bs with
  | nil => rfl
  | cons q ps ih =>
    cases bs with
    | nil => rfl
    | cons b bs =>
      simp only [length_cons, take_succ_cons, mem_cons, not_or] at h
      rw [scatter, ih h.2, update_of_ne h.1]

theorem scatter_get (hnd : ps.Nodup) {i : Nat} (hp : ps[i]? = some p) (hb : bs[i]? = some b) :
    scatter m ps bs p = b := by
  induction ps generalizing m bs i with
  | nil => simp at hp
  | cons q ps ih =>
    obtain ⟨hq, hnd⟩ := nodup_cons.1 hnd
    cases bs with
    | nil => simp at hb
    | cons c bs =>
      cases i with
      | zero =>
        obtain rfl : q = p := by simpa using hp
        obtain rfl : c = b := by simpa using hb
        rw [scatter, scatter_frame fun h => hq (mem_of_mem_take h), update_self]
      | succ i =>
        rw [List.getElem?_cons_succ] at hp hb
        exact ih hnd hp hb

theorem scatter_take (m : α → β) (ps : List α) (bs : List β) {n : Nat} (h : ps.length ≤ n) :
    scatter m ps (bs.take n) = scatter m ps bs := by
  induction ps generalizing m bs n with
  | nil => rfl
  | cons p ps ih =>
    cases bs with
    | nil => simp
    | cons b bs =>
      cases n with
      | zero => simp at h
      | succ n =>
        rw [take_succ_cons, scatter, scatter, ih _ _ (by simpa using h)]

theorem scatter_take_left (m : α → β) (ps : List α) (bs : List β) {n : Nat} (h : bs.length ≤ n) :
    scatter m (ps.take n) bs = scatter m ps bs := by
  induction ps generalizing m bs n with
  | nil => simp
  | cons p ps ih =>
    cases bs with
    | nil => simp
    | cons b bs =>
      cases n with
      | zero => simp at h
      | succ n =>
        rw [take_succ_cons, scatter, scatter, ih _ _ (by simpa using h)]

theorem scatter_append (m : α → β) {ps qs : List α} {bs cs : List β} (h : ps.length = bs.length) :
    scatter m (ps ++ qs) (bs ++ cs) = scatter (scatter m ps bs) qs cs := by
  induction ps generalizing m bs with
  | nil =>
    obtain rfl := length_eq_zero_iff.1 h.symm
    simp [scatter]
  | cons p ps ih =>
    cases bs with
    | nil => cases h
    | cons b bs => exact ih _ (by simpa using h)

theorem gather_scatter {rs : List α} (h : ∀ r ∈ rs, r ∉ ps) :
    gather (scatter m ps bs) rs = gather m rs :=
  map_congr_left fun r hr => scatter_frame fun hp => h r hr (mem_of_mem_take hp)

end PsMpi.Lib
