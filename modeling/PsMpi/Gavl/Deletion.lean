import PsMpi.Gavl.Contents

/-!
# Deletion
-/

open PsMpi.Lib.PtrTree List Option Function

namespace PsMpi.Gavl

section deletion

variable {β : Type} {st st' : GavlTree β} {t t' : PTree (Info β)} {L P R : List (Nat × Info β)}
  {H : Heap (Info β)} {e e' : Nat × Info β} {x : Option Nat} {addr len : Nat} {mode : Mode}

/-! ## The remove list -/

theorem Removed.head (h : Removed H x L) : x = L.head?.map Prod.fst := by
  cases L with
  | nil => exact h
  | cons e L => exact h.1

theorem Removed.node (h : Removed H x (P ++ e :: R)) :
    ∃ n, H e.1 = some n ∧ n.info = e.2 ∧ Removed H n.parent R := by
  induction P generalizing x with
  | nil => exact h.2
  | cons d P ih =>
    obtain ⟨-, n, -, -, htail⟩ := h
    exact ih htail

theorem Removed.unlink {n n' : Node (Info β)} (h : Removed H x (P ++ e' :: e :: R))
    (hnodup : ((P ++ e' :: e :: R).map Prod.fst).Nodup) (hn : H e.1 = some n)
    (hn' : H e'.1 = some n') : Removed (Function.update (Function.update H e'.1
      (some { n' with parent := n.parent })) e.1 none) x (P ++ e' :: R) := by
  have hkeep : ∀ {q}, q ≠ e.1 → q ≠ e'.1 → Function.update (Function.update H e'.1
      (some { n' with parent := n.parent })) e.1 none q = H q := by
    intro q he he'
    rw [update_of_ne he, update_of_ne he']
  induction P generalizing x with
  | nil =>
    simp only [nil_append, map_cons, nodup_cons, mem_cons, not_or] at hnodup
    obtain ⟨hx, m', hm', hinfo', -, m, hm, -, htail⟩ := h
    obtain rfl := Option.some.inj (hn'.symm.trans hm')
    obtain rfl := Option.some.inj (hn.symm.trans hm)
    refine ⟨hx, { n' with parent := n.parent }, ?_, hinfo', htail.congr fun q hq => hkeep ?_ ?_⟩
    · rw [update_of_ne hnodup.1.1, update_self]
    · rintro rfl
      exact hnodup.2.1 hq
    · rintro rfl
      exact hnodup.1.2 hq
  | cons d P ih =>
    obtain ⟨hx, m, hm, hinfo, htail⟩ := h
    rw [cons_append, map_cons, nodup_cons] at hnodup
    refine ⟨hx, m, (hkeep ?_ ?_).trans hm, hinfo, ih htail hnodup.2⟩
    · exact fun heq => hnodup.1 (mem_map.2
        ⟨e, mem_append_right _ (mem_cons_of_mem _ mem_cons_self), heq.symm⟩)
    · exact fun heq => hnodup.1 (mem_map.2
        ⟨e', mem_append_right _ mem_cons_self, heq.symm⟩)

theorem Holds.freeRemoved {st₁ : GavlTree β} {n : Node (Info β)} (h : Holds st t (P ++ e :: R))
    (hn : st.heap e.1 = some n)
    (hunlink : (match P.getLast?.map Prod.fst with
      | some prev => (setParent st.heap prev n.parent).map fun H => { st with heap := H }
      | none => some { st with removeList := n.parent }) = some st₁)
    (hfree : freeNode st₁ e.1 = some st') : Holds st' t (P ++ R) ∧
      st'.freed = (if st.gavlFreeFn then st.freed ++ [e.2.val] else st.freed) ∧
        st'.gavlFreeFn = st.gavlFreeFn ∧ st'.fresh = st.fresh := by
  have hsub : (t.ptrs ++ (P ++ R).map Prod.fst).Sublist (t.ptrs ++ (P ++ e :: R).map Prod.fst) :=
    (((sublist_cons_self e R).append_left P).map Prod.fst).append_left t.ptrs
  obtain ⟨n₀, hn₀, hinfo, htail⟩ := h.list.node
  obtain rfl := Option.some.inj (hn.symm.trans hn₀)
  have hmem : e.1 ∈ (P ++ e :: R).map Prod.fst :=
    mem_map.2 ⟨e, mem_append_right P mem_cons_self, rfl⟩
  have hlistnd := (nodup_append.1 h.nodup).2.1
  have hfresh : ∀ q ∈ t.ptrs ++ (P ++ R).map Prod.fst, q < st.fresh := fun q hq =>
    h.fresh q (hsub.subset hq)
  -- the node is freed
  have hfreed : ∀ {st₁ : GavlTree β}, freeNode st₁ e.1 = some st' → st₁.heap e.1 = some n →
      st' = { st₁ with
        heap := Function.update st₁.heap e.1 none
        freed := if st₁.gavlFreeFn then st₁.freed ++ [e.2.val] else st₁.freed } := by
    intro st₁ hfree hst₁
    rw [freeNode, hst₁] at hfree
    cases hfree
    rw [hinfo]
  rcases eq_nil_or_concat' P with rfl | ⟨P, e', rfl⟩
  · cases hunlink
    obtain rfl := hfreed hfree hn
    rw [nil_append, map_cons, nodup_cons] at hlistnd
    refine ⟨⟨h.rep.congr fun q hq => update_of_ne ?_ _ _, h.root,
      htail.congr fun q hq => update_of_ne ?_ _ _, h.nodup.sublist hsub, hfresh⟩,
      rfl, rfl, rfl⟩
    · rintro rfl
      exact h.list_not_mem hmem hq
    · rintro rfl
      exact hlistnd.1 hq
  · rw [List.getLast?_concat, map_some] at hunlink
    obtain ⟨H, hset, rfl⟩ := map_eq_some_iff.1 hunlink
    have hlist := h.list
    rw [append_assoc, cons_append, nil_append] at hlist hlistnd
    obtain ⟨n', hn', -, -⟩ := hlist.node
    rw [setParent_of hn'] at hset
    cases hset
    have hmem' : e'.1 ∈ (P ++ [e'] ++ e :: R).map Prod.fst :=
      mem_map.2 ⟨e', mem_append_left _ (mem_append_right P mem_cons_self), rfl⟩
    have hne : e.1 ≠ e'.1 := by
      rw [map_append, map_cons, map_cons] at hlistnd
      have := (nodup_append.1 hlistnd).2.1
      exact fun heq => (nodup_cons.1 this).1 (heq ▸ mem_cons_self)
    obtain rfl := hfreed hfree ((update_of_ne hne _ _).trans hn)
    refine ⟨⟨h.rep.congr fun q hq => ?_, h.root, ?_, h.nodup.sublist hsub, hfresh⟩, rfl, rfl, rfl⟩
    · refine (update_of_ne ?_ _ _).trans (update_of_ne ?_ _ _)
      · rintro rfl
        exact h.list_not_mem hmem hq
      · rintro rfl
        exact h.list_not_mem hmem' hq
    · rw [append_assoc, cons_append, nil_append]
      exact hlist.unlink hlistnd hn hn'

def hit (addr len : Nat) (mode : Mode) (e : Nat × Info β) : Bool :=
  decide (nodeCmp e.2 addr len mode = .bufferMatch)

theorem deleteRemovedLoop_spec {todo : Nat} (h : Holds st t (P ++ R))
    (hrun : deleteRemovedLoop addr len mode todo st (P.getLast?.map Prod.fst)
      (R.head?.map Prod.fst) = some st') :
    Holds st' t (P ++ R.filter fun e => !hit addr len mode e) ∧
      st'.freed = (if st.gavlFreeFn then
        st.freed ++ (R.filter (hit addr len mode)).map (fun e => e.2.val) else st.freed) ∧ st'.gavlFreeFn = st.gavlFreeFn ∧ st'.fresh = st.fresh := by
  induction R generalizing st P todo with
  | nil =>
    have hst : st' = st := by
      cases todo <;> exact (Option.some.inj hrun).symm
    rw [hst]
    refine ⟨h, ?_, rfl, rfl⟩
    rw [filter_nil, map_nil, append_nil, ite_self]
  | cons e R ih =>
    obtain ⟨n, hn, hinfo, htail⟩ := h.list.node
    cases todo with
    | zero => cases hrun
    | succ todo =>
      rw [show (e :: R).head?.map Prod.fst = some e.1 from rfl] at hrun
      simp only [deleteRemovedLoop, bind, hn, bind_some, hinfo] at hrun
      rw [htail.head] at hrun
      by_cases hmatch : nodeCmp e.2 addr len mode = .bufferMatch
      · rw [if_pos hmatch] at hrun
        obtain ⟨st₁, hunlink, hrun⟩ := bind_eq_some_iff.1 hrun
        obtain ⟨st₂, hfree, hrun⟩ := bind_eq_some_iff.1 hrun
        rw [← htail.head] at hunlink
        obtain ⟨h₂, hfreed, hfn, hfr⟩ := h.freeRemoved hn hunlink hfree
        obtain ⟨h', hfreed', hfn', hfr'⟩ := ih h₂ hrun
        have hhit : hit addr len mode e = true := decide_eq_true hmatch
        rw [filter_cons_of_pos hhit, filter_cons_of_neg (by rw [hhit]; exact nofun)]
        refine ⟨h', ?_, hfn'.trans hfn, hfr'.trans hfr⟩
        rw [hfreed', hfreed, hfn]
        cases st.gavlFreeFn with
        | false => rfl
        | true => simp only [if_true, map_cons, append_assoc, cons_append,
            nil_append]
      · rw [if_neg hmatch] at hrun
        rw [append_cons] at h
        have hlast : some e.1 = (P ++ [e]).getLast?.map Prod.fst := by
          rw [List.getLast?_concat]
          rfl
        rw [hlast] at hrun
        have hhit : hit addr len mode e = false := decide_eq_false hmatch
        rw [filter_cons_of_pos (by rw [hhit]; rfl),
          filter_cons_of_neg (by rw [hhit]; exact nofun), append_cons]
        exact ih h hrun

/-! ## Insertions and deletions -/

/-- How a deletion goes: the ranges that match go from the tree to the remove list, and the ones of the
remove list that match are freed. -/
structure Deletes (st : GavlTree β) (t : PTree (Info β)) (L : List (Nat × Info β)) (addr len : Nat)
    (mode : Mode) (st₁ : GavlTree β) (t₁ : PTree (Info β)) (L₁ : List (Nat × Info β))
    (st' : GavlTree β) : Prop where
  removed : removeNodes st addr len mode = some st₁
  holds : Holds st₁ t₁ L₁
  taken : Taken addr len mode t L t₁ L₁
  rest : Holds st' t₁ (L₁.filter fun e => !hit addr len mode e)
  freed : st'.freed = if st.gavlFreeFn then
    st.freed ++ (L₁.filter (hit addr len mode)).map (fun e => e.2.val) else st.freed
  freeFn : st'.gavlFreeFn = st.gavlFreeFn

theorem delete_spec (h : Holds st t L)
    (hrun : ((removeNodes st addr len mode).bind fun st => deleteRemovedNodes st addr len mode) =
      some st') : ∃ st₁ t₁ L₁, Deletes st t L addr len mode st₁ t₁ L₁ st' := by
  obtain ⟨st₁, hremove, hrun⟩ := bind_eq_some_iff.1 hrun
  obtain ⟨t₁, L₁, h₁, htaken, hsame⟩ := removeLoop_spec h hremove
  rw [deleteRemovedNodes, h₁.list.head] at hrun
  obtain ⟨h', hfreed, hfn, -⟩ := deleteRemovedLoop_spec (P := []) h₁ hrun
  rw [hsame.freed, hsame.freeFn] at hfreed
  exact ⟨st₁, t₁, L₁, hremove, h₁, htaken, h', hfreed, hfn.trans hsame.freeFn⟩

theorem Inserts.ranges {st₁ : GavlTree β} {t₁ : PTree (Info β)} {L₁ : List (Nat × Info β)} {val : β}
    (h : Inserts st t L addr len val true st₁ t₁ L₁ st') :
    ∃ D t', Leads addr len .subset D ∧ Holds st' t' L₁ ∧
      Gavl.ranges t₁ = rangesOf (before D) ++ rangesOf (after D) ∧
        Gavl.ranges t' = rangesOf (before D) ++ ⟨addr, len, val⟩ :: rangesOf (after D) ∧
          st'.freed = st.freed ∧ st'.gavlFreeFn = st.gavlFreeFn := by
  obtain ⟨-, -, -, hsame, D, st₂, rfl, hleads, h₂, -, hfn, hfreed, hend⟩ := h
  have hranges : ∀ t : PTree (Info β), Gavl.ranges (plug D t) =
      rangesOf (before D) ++ (Gavl.ranges t ++ rangesOf (after D)) := by
    intro t
    simp only [Gavl.ranges, rangesOf, infos_plug, map_append, append_assoc]
  rcases hend with ⟨-, rfl⟩ | ⟨hcur, hstack, hrebalance⟩
  · exact ⟨D, _, hleads, h₂, hranges _, hranges _, hfreed.trans hsame.freed, hfn.trans hsame.freeFn⟩
  · obtain ⟨t', h', hr, hsame'⟩ := rebalance_spec h₂ hcur (.inl hstack) hrebalance
    exact ⟨D, t', hleads, h', hranges _, hr.trans (hranges _),
      hsame'.freed.trans (hfreed.trans hsame.freed),
      hsame'.freeFn.trans (hfn.trans hsame.freeFn)⟩

end deletion

end PsMpi.Gavl
