import Mathlib.Algebra.GroupWithZero.Nat
import Mathlib.Algebra.Ring.Int.Defs
import Mathlib.Data.Nat.Log

/-!
# Products of ints

Products and sums of non-negative `int`s, and values of either sign.
-/

namespace PsMpi.Lib

def intMax : Nat := 2 ^ 31 - 1

def mulInt (a b : Nat) : Option Nat := if a * b ≤ intMax then some (a * b) else none

def addInt (a b : Nat) : Option Nat := if a + b ≤ intMax then some (a + b) else none

def IsInt (x : Int) : Prop := -2 ^ 31 ≤ x ∧ x < 2 ^ 31

instance (x : Int) : Decidable (IsInt x) := inferInstanceAs (Decidable (_ ∧ _))

def fitInt (x : Int) : Option Int := if IsInt x then some x else none

variable {a b c : Nat}

theorem mulInt_eq_some : mulInt a b = some c ↔ a * b ≤ intMax ∧ a * b = c := by
  rw [mulInt, Option.ite_none_right_eq_some, Option.some.injEq]

theorem mulInt_of_le (h : a * b ≤ intMax) : mulInt a b = some (a * b) := if_pos h

theorem addInt_eq_some : addInt a b = some c ↔ a + b ≤ intMax ∧ a + b = c := by
  rw [addInt, Option.ite_none_right_eq_some, Option.some.injEq]

theorem addInt_of_le (h : a + b ≤ intMax) : addInt a b = some (a + b) := if_pos h

theorem lt_of_pow_le_intMax (ha : 2 ≤ a) (h : a ^ b ≤ intMax) : b < 31 := by
  by_contra hb
  have h₁ : 2 ^ 31 ≤ 2 ^ b := Nat.pow_le_pow_right (by decide) (Nat.le_of_not_lt hb)
  have h₂ : 2 ^ b ≤ a ^ b := Nat.pow_le_pow_left ha b
  have h₃ : 2 ^ 31 ≤ 2 ^ 31 - 1 := (h₁.trans h₂).trans h
  exact absurd h₃ (by decide)

end PsMpi.Lib
