import Mathlib.Algebra.Order.Ring.Int

/-!
# 64-bit integers

`MPI_Aint`, `MPI_Count` and `ADIO_Offset` have 64 bits.
-/

namespace PsMpi.Lib

def IsInt64 (x : Int) : Prop := -2 ^ 63 ≤ x ∧ x < 2 ^ 63

instance (x : Int) : Decidable (IsInt64 x) := inferInstanceAs (Decidable (_ ∧ _))

def fitInt64 (x : Int) : Option Int := if IsInt64 x then some x else none

variable {x y : Int}

theorem fitInt64_eq_some : fitInt64 x = some y ↔ IsInt64 x ∧ x = y := by
  rw [fitInt64, Option.ite_none_right_eq_some, Option.some.injEq]

theorem fitInt64_of_fits (h : IsInt64 x) : fitInt64 x = some x := if_pos h

theorem IsInt64.of_le (h : IsInt64 y) (h0 : 0 ≤ x) (hle : x ≤ y) : IsInt64 x :=
  ⟨by omega, lt_of_le_of_lt hle h.2⟩

end PsMpi.Lib
