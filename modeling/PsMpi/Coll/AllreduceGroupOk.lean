import PsMpi.Coll.AllreduceLoops

/-!
# All members get the reduction in the order of their ranks
-/

namespace PsMpi.Coll

open PsMpi.Lib PsMpi.Lib.Rounds PsMpi.Lib.Hypercube PsMpi.Groups

variable {α : Type} {call : Call α} {L rem : Nat}

/-! ## Messages match -/

section matching

end matching

/-! ## Buffers -/

section bufs

variable {buf src : Nat → α} {disp cnt e : Nat}

@[simp] theorem length_slice : (slice buf disp cnt).length = cnt := by
  rw [slice, List.length_map, List.length_range]

theorem writeAt_slice : writeAt buf disp cnt (slice src disp cnt) e =
    if disp ≤ e ∧ e < disp + cnt then src e else buf e := by
  unfold writeAt
  split
  · next h =>
    have hlt : e - disp < cnt := by omega
    have hplace : disp + (e - disp) = e := by omega
    rw [slice, List.getElem?_map, List.getElem?_range hlt, Option.map_some, Option.getD_some, hplace]
  · rfl

variable {s s' : Bufs α}

theorem recvbuf_reduceTmp (op : α → α → α) (h : disp ≤ e ∧ e < disp + cnt) :
    ((s.recvTmp disp cnt (slice src disp cnt)).reduceTmp op disp cnt).recvbuf e =
      op (src e) (s.recvbuf e) := by
  show (if disp ≤ e ∧ e < disp + cnt then
    op (writeAt s.tmpBuf disp cnt (slice src disp cnt) e) (s.recvbuf e) else s.recvbuf e) = _
  rw [if_pos h, writeAt_slice, if_pos h]

end bufs

/-! ## Values -/

section values

variable {S : Nat → Bufs α} {i j : Nat}

def Fits (S : Nat → Bufs α) : Prop := ∀ g, (S g).truncated = false

variable (call) in
/-- The values that the numbers begin with: one vector, or the reduction of two. -/
def pairValue (rem : Nat) (v : Nat → α) (j : Nat) : α :=
  if j < rem then call.op (v (2 * j)) (v (2 * j + 1)) else v (j + rem)

end values

/-! ## Parts -/

section spans

variable {count i j e : Nat}

end spans

/-! ## Rounds -/

section phases

variable {S : Nat → Bufs α} {v : Nat → Nat → α} {i : Nat}
  (ha : ∀ x y z, call.op (call.op x y) z = call.op x (call.op y z))

def after (rs : List (Round Nat (Bufs α) (List α))) (S : Nat → Bufs α) : Nat → Bufs α :=
  rs.foldl (fun S a => round a S) S

variable (call L rem v) in
/-- Every number has the reduction of its block, for the elements in its part. -/
def HasBlock (part : Nat → Nat → Prop) (i : Nat) (S : Nat → Bufs α) : Prop :=
  ∀ j < 2 ^ L, ∀ e, part j e → (S (realRank rem j)).recvbuf e =
    block call.op (pairValue call rem fun g => v g e) i (j / 2 ^ i)

include ha

omit ha

include ha

omit ha

include ha

end phases

/-! ## All members -/

section main

variable {members : List Nat} {view : Nat → View}

end main

end PsMpi.Coll
