import PsMpi.Coll.Parts
import Mathlib.Data.List.Nodup

/-!
# The communication of a reduction over a group
-/

open List Option Function

namespace PsMpi.Coll

open PsMpi.Lib.Rounds PsMpi.Lib.Hypercube PsMpi.Groups

/-! ## Ranks -/

/-- What a member of the group knows: both groups are right, and the ids of the group are those of
its members in the communicator. -/
structure View.Ok (members : List Nat) (c : Nat) (v : View) : Prop where
  group : v.group.Wf (v.localGroup.lpidAt c)
  localGroup : v.localGroup.Wf (v.localGroup.lpidAt c)
  dense : v.localGroup.Dense
  mem : ∀ m ∈ members, m < v.localGroup.size
  lpids : v.group.lpids = members.map v.localGroup.lpidAt
  bound : ∀ x ∈ v.localGroup.lpids, x < noLpid

def member (members : List Nat) (g : Nat) : Nat := members.getD g 0

section ranks

variable {members : List Nat} {c g : Nat} {v : View}

theorem View.Ok.size (h : v.Ok members c) : v.group.size = members.length := by
  rw [← length_lpids, h.lpids, length_map]

theorem View.Ok.lpidAt (h : v.Ok members c) (hg : g < members.length) :
    v.group.lpidAt g = v.localGroup.lpidAt (member members g) := by
  rw [MpiGroup.lpidAt, h.lpids, getD_eq_getElem _ _ (by rwa [length_map]),
    getElem_map, member, getD_eq_getElem _ _ hg]

theorem View.Ok.rank (h : v.Ok members (member members g)) (hg : g < members.length) :
    v.group.rank = g :=
  ((h.group.eq_rank_iff (h.size ▸ hg)).2 (h.lpidAt hg)).symm

end ranks

/-! ## Parts of the vector -/

section parts

variable {L count : Nat}

variable {i j : Nat}

end parts

/-! ## Loops -/

section loops

variable {α : Type} (call : Call α)

theorem realRank_lt {L rem j : Nat} (hj : j < 2 ^ L) :
    realRank rem j < 2 ^ L + rem := by
  unfold realRank
  split <;> omega

variable {call} {v : View} {members : List Nat} {c L rem j : Nat} (hv : v.Ok members c)
  (hsize : members.length = 2 ^ L + rem) (hj : j < 2 ^ L)

include hv hsize hj

end loops

/-! ## Rounds -/

section rounds

variable {α : Type} (call : Call α) (L rem : Nat)

variable {call L rem} {v : View} {members : List Nat} {c g : Nat}

theorem realRank_newrank {j : Nat} (h : newrank g rem = some j) : realRank rem j = g := by
  unfold newrank at h
  unfold realRank
  split at h
  · split at h
    · cases h
    · cases h
      rw [if_pos (by omega)]
      omega
  · cases h
    rw [if_neg (by omega)]
    omega

@[simp] theorem newrank_realRank (j : Nat) : newrank (realRank rem j) rem = some j := by
  unfold newrank realRank
  split
  · rw [if_pos (by omega), if_neg (by omega)]
    congr 1
    omega
  · rw [if_neg (by omega)]
    congr 1
    omega

theorem newrank_lt {j : Nat} (hg : g < 2 ^ L + rem) (hrem : rem < 2 ^ L)
    (h : newrank g rem = some j) : j < 2 ^ L := by
  have := realRank_newrank h
  unfold realRank at this
  split at this <;> omega

end rounds

end PsMpi.Coll
