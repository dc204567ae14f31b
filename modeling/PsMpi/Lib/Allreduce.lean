import Mathlib.Data.List.Infix

/-!
# Collective reductions in rounds
-/

namespace PsMpi.Lib

section
variable {ι α : Type*}

def RoundReady (members : List ι) (c : ι → List α) (r : Nat) : Prop :=
  ∀ q ∈ members, r < (c q).length

def roundResult (op : α → α → α) (e : α) (members : List ι) (c : ι → List α) (r : Nat) : α :=
  members.foldr (fun q acc => op ((c q).getD r e) acc) e

instance (members : List ι) (c : ι → List α) (r : Nat) : Decidable (RoundReady members c r) :=
  inferInstanceAs (Decidable (∀ q ∈ members, r < (c q).length))

variable {op : α → α → α} {e : α} {members : List ι} {c c' : ι → List α} {r : Nat}

theorem RoundReady.of_prefix (h : RoundReady members c r) (hp : ∀ q ∈ members, c q <+: c' q) :
    RoundReady members c' r := fun q hq => Nat.lt_of_lt_of_le (h q hq) (hp q hq).length_le

theorem getD_eq_of_initial {l l' : List α} (hp : l <+: l') (hr : r < l.length) :
    l'.getD r e = l.getD r e := by
  obtain ⟨t, rfl⟩ := hp
  rw [List.getD_eq_getElem?_getD, List.getD_eq_getElem?_getD, List.getElem?_append_left hr]

theorem roundResult_of_prefix (h : RoundReady members c r) (hp : ∀ q ∈ members, c q <+: c' q) :
    roundResult op e members c' r = roundResult op e members c r := by
  induction members with
  | nil => rfl
  | cons q members ih =>
    have hq : q ∈ q :: members := List.mem_cons_self
    have hrest := ih (fun q' hq' => h q' (List.mem_cons_of_mem _ hq'))
      fun q' hq' => hp q' (List.mem_cons_of_mem _ hq')
    show op ((c' q).getD r e) (roundResult op e members c' r) = _
    rw [getD_eq_of_initial (hp q hq) (h q hq), hrest]
    rfl

theorem roundResult_mem {P : α → Prop} (hop : ∀ a b, P (op a b) → P a ∧ P b)
    (h : P (roundResult op e members c r)) {q : ι} (hq : q ∈ members) : P ((c q).getD r e) := by
  induction members with
  | nil => cases hq
  | cons q' members ih =>
    obtain ⟨h1, h2⟩ := hop _ _ h
    rcases List.mem_cons.1 hq with rfl | hq
    · exact h1
    · exact ih h2 hq

end

end PsMpi.Lib
