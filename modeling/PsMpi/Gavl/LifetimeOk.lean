import PsMpi.Gavl.Runs

/-!
# Lifetime of the buffer objects
-/

open PsMpi.Lib PsMpi.Lib.PtrTree List Option

namespace PsMpi.Gavl

section lifetime

variable {β : Type} {st st' : GavlTree β} {t t' l r : PTree (Info β)} {L : List (Nat × Info β)}
  {C : List (Frame (Info β))} {p : Nat} {a : Info β} {u : Use β}

def objects (l : List (Range β)) : List β := l.map Range.val

/-! ## Destruction of a tree -/

def cost : PTree (Info β) → Nat
  | .nil => 0
  | .node _ _ l r => cost l + cost r + 2

def freeOrder : PTree (Info β) → List β
  | .nil => []
  | .node _ a l r => freeOrder l ++ freeOrder r ++ [a.val]

theorem cost_eq : cost t = 2 * t.ptrs.length := by
  induction t with
  | nil => rfl
  | node p a l r ihl ihr =>
    rw [cost, ihl, ihr, PTree.ptrs, length_cons, length_append]
    omega

theorem freeOrder_perm : (freeOrder t).Perm (objects (ranges t)) := by
  induction t with
  | nil => exact List.Perm.refl _
  | node p a l r ihl ihr =>
    have hright : (freeOrder r ++ [a.val]).Perm (a.val :: objects (ranges r)) :=
      perm_append_comm.trans (ihr.cons a.val)
    rw [freeOrder, append_assoc]
    refine (ihl.append hright).trans (List.Perm.of_eq ?_)
    simp only [objects, ranges, rangesOf, PTree.infos, map_append, map_cons]
    rfl

structure Freed (st : GavlTree β) (C : List (Frame (Info β))) (t : PTree (Info β))
    (st' : GavlTree β) : Prop where
  rep : Rep st'.heap none (plug C .nil)
  freed : st'.freed = if st.gavlFreeFn then st.freed ++ freeOrder t else st.freed
  freeFn : st'.gavlFreeFn = st.gavlFreeFn

theorem freeNode_of {n : Node (Info β)} (h : st.heap p = some n) : freeNode st p = some { st with
    heap := Function.update st.heap p none
    freed := if st.gavlFreeFn then st.freed ++ [n.info.val] else st.freed } := by
  rw [freeNode, h]
  rfl

theorem destroy_leaf (h : Rep st.heap none (plug C (.node p a .nil .nil)))
    (hnodup : (plug C (.node p a .nil .nil)).ptrs.Nodup) :
    ∃ st', Freed st C (.node p a .nil .nil) st' ∧
      ∀ todo, destroyLoop (todo + 1) st (some p) = destroyLoop todo st' (above C) := by
  have hnode := (rep_plug.1 h).1.1
  obtain ⟨H₁, H₂, hH₁, hH₂, hrep, hkeep⟩ := unlink_links h hnodup
  obtain rfl : H₁ = H₂ := Option.some.inj hH₂
  have hp : p ∉ (plug C .nil).ptrs :=
    (nodup_cons.1 ((Removal.unlink (C := C) (p := p) (a := a)).perm.nodup_iff.2 hnodup)).1
  have hp₁ : H₁ p = some ⟨above C, none, none, a⟩ := (hkeep p hp).trans hnode
  have hfree : freeNode { st with heap := H₁ } p = some _ := freeNode_of hp₁
  refine ⟨{ st with
    heap := Function.update H₁ p none
    freed := if st.gavlFreeFn then st.freed ++ [a.val] else st.freed },
    ⟨hrep.congr fun q hq => Function.update_of_ne ?_ _ _, rfl, rfl⟩, fun todo => ?_⟩
  · rintro rfl
    exact hp hq
  · rw [destroyLoop, hnode]
    simp only [bind, bind_some, PTree.ptr]
    rw [show replaceChild? st.heap (above C) p none = some H₁ from hH₁, bind_some, hfree]
    rfl

theorem destroyLoop_left {n : Node (Info β)} {q : Nat} (h : st.heap p = some n)
    (hl : n.left = some q) (todo : Nat) :
    destroyLoop (todo + 1) st (some p) = destroyLoop todo st (some q) := by
  rw [destroyLoop, h]
  simp only [bind, bind_some, hl]

theorem destroyLoop_right {n : Node (Info β)} {q : Nat} (h : st.heap p = some n)
    (hl : n.left = none) (hr : n.right = some q) (todo : Nat) :
    destroyLoop (todo + 1) st (some p) = destroyLoop todo st (some q) := by
  rw [destroyLoop, h]
  simp only [bind, bind_some, hl, hr]

theorem cost_node : cost (.node p a l r) - 1 = 1 + cost r + cost l := by
  rw [cost]
  omega

theorem destroy_subtree (h : Rep st.heap none (plug C t)) (hnodup : (plug C t).ptrs.Nodup)
    (hp : t.ptr = some p) : ∃ st', Freed st C t st' ∧
      ∀ todo, destroyLoop (todo + (cost t - 1)) st (some p) = destroyLoop todo st' (above C) := by
  induction t generalizing C st p with
  | nil => cases hp
  | node q a l r ihl ihr =>
    cases hp
    -- the left subtree is freed first
    obtain ⟨st₁, h₁, hrun₁⟩ : ∃ st₁, Freed st (⟨.left, q, a, r⟩ :: C) l st₁ ∧
        ∀ todo, destroyLoop (todo + cost l) st (some q) = destroyLoop todo st₁ (some q) := by
      cases l with
      | nil => exact ⟨st, ⟨h, by rw [freeOrder, append_nil, ite_self], rfl⟩, fun _ => rfl⟩
      | node w b x y =>
        obtain ⟨st₁, h₁, hrun⟩ := ihl (C := ⟨.left, q, a, r⟩ :: C) h hnodup rfl
        refine ⟨st₁, h₁, fun todo => ?_⟩
        rw [show todo + cost (.node w b x y) = todo + (cost (.node w b x y) - 1) + 1 from rfl,
          destroyLoop_left (rep_plug.1 h).1.1 rfl, hrun]
        rfl
    have hnodup₁ : (plug (⟨.left, q, a, r⟩ :: C) .nil).ptrs.Nodup :=
      nodup_of_plug (C := ⟨.left, q, a, r⟩ :: C) (t := l) hnodup
    -- then the right one
    obtain ⟨st₂, h₂, hrun₂⟩ : ∃ st₂, Freed st₁ (⟨.right, q, a, .nil⟩ :: C) r st₂ ∧
        ∀ todo, destroyLoop (todo + cost r) st₁ (some q) = destroyLoop todo st₂ (some q) := by
      have hrep : Rep st₁.heap none (plug C (.node q a .nil r)) := h₁.rep
      cases r with
      | nil => exact ⟨st₁, ⟨h₁.rep, by rw [freeOrder, append_nil, ite_self], rfl⟩, fun _ => rfl⟩
      | node w b x y =>
        obtain ⟨st₂, h₂, hrun⟩ := ihr (C := ⟨.right, q, a, .nil⟩ :: C) hrep hnodup₁ rfl
        refine ⟨st₂, h₂, fun todo => ?_⟩
        rw [show todo + cost (.node w b x y) = todo + (cost (.node w b x y) - 1) + 1 from rfl,
          destroyLoop_right (rep_plug.1 hrep).1.1 rfl rfl, hrun]
        rfl
    have hnodup₂ : (plug (⟨.right, q, a, .nil⟩ :: C) .nil).ptrs.Nodup :=
      nodup_of_plug (C := ⟨.right, q, a, .nil⟩ :: C) (t := r) hnodup₁
    -- then the node, which is a leaf now
    obtain ⟨st₃, h₃, hrun₃⟩ := destroy_leaf (C := C) (p := q) (a := a) h₂.rep hnodup₂
    refine ⟨st₃, ⟨h₃.rep, ?_, h₃.freeFn.trans (h₂.freeFn.trans h₁.freeFn)⟩, fun todo => ?_⟩
    · rw [h₃.freed, h₂.freed, h₁.freed, h₂.freeFn, h₁.freeFn]
      cases st.gavlFreeFn with
      | false => rfl
      | true => simp only [if_true, freeOrder, append_assoc, nil_append]
    · rw [cost_node, ← Nat.add_assoc, ← Nat.add_assoc, hrun₁, hrun₂, hrun₃]

theorem destroy_spec (h : Holds st t L) : ∃ freed, destroy st = some freed ∧
    freed = if st.gavlFreeFn then st.freed ++ freeOrder t else st.freed := by
  unfold destroy
  rw [h.root]
  have hlen := h.length_le
  cases t with
  | nil => exact ⟨st.freed, rfl, by rw [freeOrder, append_nil, ite_self]⟩
  | node p a l r =>
    obtain ⟨st', h', hrun⟩ := destroy_subtree (C := []) h.rep h.tree_nodup rfl
    have hcost := cost_eq (t := .node p a l r)
    have htodo : 2 * st.fresh + 1 =
        2 * st.fresh + 1 - (cost (.node p a l r) - 1) + (cost (.node p a l r) - 1) := by omega
    refine ⟨st'.freed, ?_, h'.freed⟩
    have hnone : ∀ n, destroyLoop n st' none = some st' := by
      intro n
      cases n <;> rfl
    rw [htodo, show (PTree.node p a l r).ptr = some p from rfl, hrun,
      show above ([] : List (Frame (Info β))) = none from rfl, hnone]
    rfl

/-! ## Objects over a run -/

structure Kept (u : Use β) (t : PTree (Info β)) (L : List (Nat × Info β)) : Prop where
  holds : Holds u.tree t L
  freeFn : u.tree.gavlFreeFn = true
  objects : (u.tree.freed ++ (objects (ranges t) ++ L.map fun e => e.2.val)).Perm u.inserted

theorem Taken.objects {addr len : Nat} {mode : Mode} {L' : List (Nat × Info β)}
    (h : Taken addr len mode t L t' L') :
    (Gavl.objects (ranges t') ++ L'.map fun e => e.2.val).Perm
      (Gavl.objects (ranges t) ++ L.map fun e => e.2.val) := by
  obtain ⟨M, rfl, -, hperm⟩ := h.moved
  have hmap := hperm.map Range.val
  rw [map_append] at hmap
  have hM : (rangesOf (M.map Prod.snd)).map Range.val = M.map fun e => e.2.val := by
    rw [rangesOf, List.map_map, List.map_map]
    rfl
  rw [hM] at hmap
  rw [map_append, ← append_assoc]
  exact (perm_append_comm.trans hmap).append_right _

theorem Kept.step {call : Call β} {u' : Use β} (h : Kept u t L) (hstep : u.step call = some u') :
    ∃ t' L', Kept u' t' L' := by
  rcases Use.step_spec h.holds hstep with ⟨addr, len, val, memory, st₁, t₁, L₁, -, hins, hlog⟩ |
    ⟨addr, len, mode, st₁, t₁, L₁, -, hdel, hlog⟩
  · have hobj := (hins.taken.objects.append_left u.tree.freed).trans h.objects
    cases memory with
    | false =>
      have hst : u'.tree = st₁ := hins.linked
      refine ⟨t₁, L₁, hst ▸ hins.holds, ?_, ?_⟩
      · rw [hst, hins.same.freeFn, h.freeFn]
      · rw [hst, hins.same.freed, hlog]
        exact hobj
    | true =>
      obtain ⟨D, t', -, h', hT, hT', hfreed, hfn⟩ := hins.ranges
      refine ⟨t', L₁, h', hfn.trans h.freeFn, ?_⟩
      rw [hT] at hobj
      rw [hT', hfreed, hlog, if_pos rfl]
      simp only [Gavl.objects, map_append, map_cons, append_assoc,
        cons_append] at hobj ⊢
      rw [← append_assoc] at hobj ⊢
      exact perm_middle.trans ((hobj.cons val).trans (perm_append_singleton _ _).symm)
  · refine ⟨t₁, _, hdel.rest, hdel.freeFn.trans h.freeFn, ?_⟩
    rw [hdel.freed, h.freeFn, if_pos rfl, hlog]
    refine List.Perm.trans ?_ ((hdel.taken.objects.append_left u.tree.freed).trans h.objects)
    have hsplit := (filter_append_perm (hit addr len mode) L₁).map fun e => e.2.val
    rw [map_append] at hsplit
    rw [append_assoc]
    refine List.Perm.append_left _ ?_
    refine List.Perm.trans ?_ (hsplit.append_left (Gavl.objects (ranges t₁)))
    rw [← append_assoc, ← append_assoc]
    exact perm_append_comm.append_right _

theorem reach_kept (h : (gavlSys β true).Reach u) : ∃ t L, Kept u t L := by
  refine Sys.Reach.inv (I := fun u => ∃ t L, Kept u t L)
    ⟨.nil, [], create_holds true, rfl, List.Perm.refl _⟩ ?_ h
  rintro u call u' ⟨t, L, hu⟩ hstep
  exact hu.step hstep

/-- The destruction of a tree calls the user free function exactly once for every object that was inserted
if and only if the remove list is empty. -/
theorem destroy_frees_all (h : (gavlSys β true).Reach u) : ∃ freed, destroy u.tree = some freed ∧
    (freed.Perm u.inserted ↔ u.tree.removeList = none) := by
  obtain ⟨t, L, hu⟩ := reach_kept h
  obtain ⟨freed, hdestroy, hfreed⟩ := destroy_spec hu.holds
  refine ⟨freed, hdestroy, ?_⟩
  rw [hu.freeFn, if_pos rfl] at hfreed
  have hobj := hu.objects
  rw [← append_assoc] at hobj
  have hperm : (freed ++ L.map fun e => e.2.val).Perm u.inserted := by
    rw [hfreed]
    exact ((freeOrder_perm.append_left _).append_right _).trans hobj
  constructor
  · intro heq
    have hlen := heq.length_eq.trans hperm.length_eq.symm
    rw [length_append, length_map] at hlen
    rw [hu.holds.list.head, length_eq_zero_iff.1 (by omega : L.length = 0)]
    rfl
  · intro hnone
    have hL : L = [] := by
      have := hu.holds.list.head
      rw [hnone] at this
      cases L with
      | nil => rfl
      | cons e L => cases this
    rw [hL, map_nil, append_nil] at hperm
    exact hperm

theorem destroy_frees_all_three : ∃ freed : List Nat, ∃ u, (gavlSys Nat true).exec ⟨create true, []⟩
    [.insert 10 5 1 true, .insert 20 5 2 true, .insert 30 5 3 true, .deleteRange 22 1,
      .deleteStartAddr 10] = some u ∧ destroy u.tree = some freed ∧
    (freed.Perm u.inserted ↔ u.tree.removeList = none) := by
  have hrun : (((gavlSys Nat true).exec ⟨create true, []⟩
      [.insert 10 5 1 true, .insert 20 5 2 true, .insert 30 5 3 true, .deleteRange 22 1,
        .deleteStartAddr 10]).map fun _ => ()) = some () := by decide
  obtain ⟨u, hu, -⟩ := map_eq_some_iff.1 hrun
  obtain ⟨freed, h⟩ := destroy_frees_all (Sys.exec_reach .init hu)
  exact ⟨freed, u, hu, h⟩

theorem destroy_keeps_replaced : ∃ u : Use Nat, (gavlSys Nat true).exec ⟨create true, []⟩
    [.insert 10 5 1 true, .insert 10 5 2 true] = some u ∧ u.inserted = [1, 2] ∧
      destroy u.tree = some [2] ∧ ¬[2].Perm u.inserted := by
  have hrun : (((gavlSys Nat true).exec ⟨create true, []⟩
      [.insert 10 5 1 true, .insert 10 5 2 true]).map fun u => (u.inserted, destroy u.tree)) =
        some ([1, 2], some [2]) := by decide
  obtain ⟨u, hu, heq⟩ := map_eq_some_iff.1 hrun
  have hins : u.inserted = [1, 2] := congrArg Prod.fst heq
  refine ⟨u, hu, hins, congrArg Prod.snd heq, fun h => ?_⟩
  rw [hins] at h
  exact absurd h.length_eq (by decide)

end lifetime

end PsMpi.Gavl
