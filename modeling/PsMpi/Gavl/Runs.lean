import PsMpi.Gavl.Deletion
import PsMpi.Lib.Trans

/-!
# Runs of a tree

A tree is created and then used by insertions and deletions.
-/

open PsMpi.Lib PsMpi.Lib.PtrTree

namespace PsMpi.Gavl

inductive Call (β : Type) where
  | insert (addr len : Nat) (val : β) (memory : Bool)
  | deleteRange (addr len : Nat)
  | deleteStartAddr (addr : Nat)

def Call.target {β : Type} : Call β → Option (Nat × Nat × Mode)
  | .insert .. => none
  | .deleteRange addr len => some (addr, len, .intersection)
  | .deleteStartAddr addr => some (addr, 0, .startAddr)

structure Use (β : Type) where
  tree : GavlTree β
  inserted : List β

section runs

variable {β : Type}

def Use.step (u : Use β) : Call β → Option (Use β)
  | .insert addr len val memory => do
    let (t, success) ← insert u.tree addr len val memory
    return ⟨t, if success then u.inserted ++ [val] else u.inserted⟩
  | .deleteRange addr len => do
    let t ← deleteRange u.tree addr len
    return { u with tree := t }
  | .deleteStartAddr addr => do
    let t ← deleteStartAddr u.tree addr
    return { u with tree := t }

def gavlSys (β : Type) (freeFn : Bool) : Sys (Use β) (Call β) := ⟨⟨create freeFn, []⟩, Use.step⟩

def contents (H : Heap (Info β)) : Nat → Option Nat → List (Range β)
  | _, none => []
  | 0, some _ => []
  | todo + 1, some p =>
    match H p with
    | none => []
    | some n => contents H todo n.left ++ n.info.range :: contents H todo n.right

/-- The ranges of a list of removed nodes. The first argument bounds the length. -/
def listed (H : Heap (Info β)) : Nat → Option Nat → List (Range β)
  | _, none => []
  | 0, some _ => []
  | todo + 1, some p =>
    match H p with
    | none => []
    | some n => n.info.range :: listed H todo n.parent

def inTree (st : GavlTree β) : List (Range β) := contents st.heap st.fresh st.root

def onList (st : GavlTree β) : List (Range β) := listed st.heap st.fresh st.removeList

variable {st : GavlTree β} {t : PTree (Info β)} {L : List (Nat × Info β)} {H : Heap (Info β)}
  {u u' : Use β} {call : Call β}

theorem contents_eq {par : Option Nat} {todo : Nat} (h : Rep H par t)
    (htodo : t.ptrs.length ≤ todo) : contents H todo t.ptr = ranges t := by
  induction t generalizing par todo with
  | nil => cases todo <;> rfl
  | node p a l r ihl ihr =>
    obtain ⟨hp, hl, hr⟩ := h
    rw [PTree.ptrs, List.length_cons, List.length_append] at htodo
    obtain ⟨todo, rfl⟩ : ∃ n, todo = n + 1 := ⟨todo - 1, by omega⟩
    have hcl : contents H todo l.ptr = ranges l := ihl hl (by omega)
    have hcr : contents H todo r.ptr = ranges r := ihr hr (by omega)
    simp only [show (PTree.node p a l r).ptr = some p from rfl, contents, hp, hcl, hcr, ranges,
      rangesOf, PTree.infos, List.map_append, List.map_cons]

theorem listed_eq {x : Option Nat} {todo : Nat} (h : Removed H x L) (htodo : L.length ≤ todo) :
    listed H todo x = rangesOf (L.map Prod.snd) := by
  induction L generalizing x todo with
  | nil =>
    obtain rfl : x = none := h
    cases todo <;> rfl
  | cons e L ih =>
    obtain ⟨rfl, n, hn, hinfo, htail⟩ := h
    rw [List.length_cons] at htodo
    obtain ⟨todo, rfl⟩ : ∃ n, todo = n + 1 := ⟨todo - 1, by omega⟩
    simp only [listed, hn, hinfo]
    rw [ih htail (by omega)]
    rfl

theorem Holds.inTree (h : Holds st t L) : inTree st = ranges t := by
  have := h.length_le
  rw [Gavl.inTree, h.root, contents_eq h.rep (by omega)]

theorem Holds.onList (h : Holds st t L) : onList st = rangesOf (L.map Prod.snd) := by
  have := h.length_le
  rw [Gavl.onList, listed_eq h.list (by omega)]

theorem create_holds (freeFn : Bool) : Holds (create freeFn : GavlTree β) .nil [] :=
  ⟨trivial, rfl, rfl, List.nodup_nil, nofun⟩

theorem Use.step_spec (h : Holds u.tree t L) (hstep : u.step call = some u') :
    (∃ addr len val memory st₁ t₁ L₁, call = .insert addr len val memory ∧
      Inserts u.tree t L addr len val memory st₁ t₁ L₁ u'.tree ∧
        u'.inserted = if memory then u.inserted ++ [val] else u.inserted) ∨
    ∃ addr len mode st₁ t₁ L₁, call.target = some (addr, len, mode) ∧
      Deletes u.tree t L addr len mode st₁ t₁ L₁ u'.tree ∧ u'.inserted = u.inserted := by
  cases call with
  | insert addr len val memory =>
    obtain ⟨⟨st', ok⟩, hrun, hstep⟩ := Option.bind_eq_some_iff.1 hstep
    cases hstep
    obtain ⟨rfl, st₁, t₁, L₁, hins⟩ := insert_spec h hrun
    exact .inl ⟨_, _, _, _, st₁, t₁, L₁, rfl, hins, rfl⟩
  | deleteRange addr len =>
    obtain ⟨st', hrun, hstep⟩ := Option.bind_eq_some_iff.1 hstep
    cases hstep
    obtain ⟨st₁, t₁, L₁, hdel⟩ := delete_spec h hrun
    exact .inr ⟨_, _, _, st₁, t₁, L₁, rfl, hdel, rfl⟩
  | deleteStartAddr addr =>
    obtain ⟨st', hrun, hstep⟩ := Option.bind_eq_some_iff.1 hstep
    cases hstep
    obtain ⟨st₁, t₁, L₁, hdel⟩ := delete_spec h hrun
    exact .inr ⟨_, _, _, st₁, t₁, L₁, rfl, hdel, rfl⟩

theorem Inserts.holds' {st st₁ st' : GavlTree β} {t₁ : PTree (Info β)} {L₁ : List (Nat × Info β)}
    {addr len : Nat} {val : β} {memory : Bool}
    (h : Inserts st t L addr len val memory st₁ t₁ L₁ st') : ∃ t', Holds st' t' L₁ := by
  cases memory with
  | false =>
    obtain rfl : st' = st₁ := h.linked
    exact ⟨t₁, h.holds⟩
  | true =>
    obtain ⟨D, t', -, h', -⟩ := h.ranges
    exact ⟨t', h'⟩

theorem reach_holds {freeFn : Bool} {C : Use β → Call β → Prop}
    (h : (gavlSys β freeFn).ReachWhen C u) : ∃ t L, Holds u.tree t L := by
  refine Sys.ReachWhen.inv (I := fun u => ∃ t L, Holds u.tree t L)
    ⟨.nil, [], create_holds freeFn⟩ ?_ h
  rintro u call u' - ⟨t, L, hu⟩ - hstep
  rcases Use.step_spec hu hstep with ⟨_, _, _, _, st₁, t₁, L₁, -, hins, -⟩ |
    ⟨_, _, _, st₁, t₁, L₁, -, hdel, -⟩
  · obtain ⟨t', h'⟩ := hins.holds'
    exact ⟨t', L₁, h'⟩
  · exact ⟨t₁, _, hdel.rest⟩

end runs

end PsMpi.Gavl
