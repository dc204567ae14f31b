import PsMpi.Gavl.Removal

/-!
# Contents of the tree
-/

open PsMpi.Lib.PtrTree

namespace PsMpi.Gavl

section contents

variable {β : Type} {st st' : GavlTree β} {t t' l r : PTree (Info β)} {L : List (Nat × Info β)}
  {H H' : Heap (Info β)} {p : Nat} {a : Info β} {addr len : Nat} {mode : Mode}

theorem nodeCmp_range {a b : Info β} (h : b.range = a.range) :
    nodeCmp b addr len mode = nodeCmp a addr len mode := by
  injection h with haddr hlen
  cases mode <;> simp only [nodeCmp, subsetCmp, intersectCmp, startAddrCmp, haddr, hlen]

/-! ## Rebalancing -/

theorem rotated_ranges {d : Side} {q : Nat} {b : Info β} {x y z : PTree (Info β)} :
    ranges (rotated d p a q b x y z) = ranges (.mk d p a (.mk d q b x y) z) := by
  cases d with
  | left => simp only [ranges, rangesOf, rotated, PTree.mk, PTree.infos, List.map_append,
      List.map_cons, List.append_assoc, List.cons_append]; rfl
  | right => simp only [ranges, rangesOf, rotated, PTree.mk, PTree.infos, List.map_append,
      List.map_cons, List.append_assoc, List.cons_append]; rfl

theorem ranges_above {d : Side} {x y : PTree (Info β)} :
    ranges (.mk d p (a.above l r) x y) = ranges (.mk d p a x y) := by
  cases d with
  | left => simp only [ranges, rangesOf, PTree.mk, PTree.infos, List.map_append, List.map_cons]; rfl
  | right => simp only [ranges, rangesOf, PTree.mk, PTree.infos, List.map_append, List.map_cons]; rfl

theorem fixNode_ranges (h : fixNode t = some t') : ranges t' = ranges t := by
  cases t with
  | nil => cases h
  | node p a l r =>
    dsimp only [fixNode] at h
    split at h
    · cases l with
      | nil => cases h
      | node q b x y =>
        dsimp only at h
        split at h
        · cases h
          exact rotated_ranges.trans (ranges_above (d := .left))
        · cases y with
          | nil => cases h
          | node s c u v =>
            cases h
            rw [doubled, rotated_ranges]
            simp only [ranges, rangesOf, PTree.mk, PTree.infos, List.map_append, List.map_cons,
              List.append_assoc, List.cons_append]
            rfl
    · split at h
      · cases r with
        | nil => cases h
        | node q b y x =>
          dsimp only at h
          split at h
          · cases y with
            | nil => cases h
            | node s c v u =>
              cases h
              rw [doubled, rotated_ranges]
              simp only [ranges, rangesOf, PTree.mk, PTree.infos, List.map_append, List.map_cons,
                List.append_assoc, List.cons_append]
              rfl
          · cases h
            exact rotated_ranges.trans (ranges_above (d := .right))
      · cases h
        exact ranges_above (d := .left)

theorem ranges_plug {C : List (Frame (Info β))} (h : ranges t' = ranges t) :
    ranges (plug C t') = ranges (plug C t) := by
  rw [ranges, rangesOf] at h
  simp only [ranges, rangesOf, infos_plug, List.map_append, h]

theorem rebalanceNode_change (h : Rep H none t) (hnodup : t.ptrs.Nodup) (hp : p ∈ t.ptrs)
    (hrun : rebalanceNode H p = some H') : ∃ t', Change H t H' t' ∧ ranges t' = ranges t := by
  obtain ⟨C, a, l, r, rfl⟩ := exists_plug hp
  have hspec := rebalanceNode_spec h hnodup
  cases hfix : fixNode (.node p a l r) with
  | none =>
    rw [hfix, hrun] at hspec
    cases hspec
  | some t' =>
    rw [hfix] at hspec
    obtain ⟨H'', hH'', hch⟩ := hspec
    obtain rfl : H' = H'' := Option.some.inj (hrun.symm.trans hH'')
    exact ⟨_, hch, ranges_plug (fixNode_ranges hfix)⟩

theorem rebalanceLoop_change {stack : List Nat} (h : Rep H none t) (hnodup : t.ptrs.Nodup)
    (hp : p ∈ t.ptrs) (hstack : ∀ q ∈ stack, q ∈ t.ptrs)
    (hrun : rebalanceLoop stack H p = some H') : ∃ t', Change H t H' t' ∧ ranges t' = ranges t := by
  induction stack generalizing H t p with
  | nil => exact rebalanceNode_change h hnodup hp hrun
  | cons q stack ih =>
    obtain ⟨H₁, hH₁, hrun⟩ := Option.bind_eq_some_iff.1 hrun
    obtain ⟨t₁, hch, hranges⟩ := rebalanceNode_change h hnodup hp hH₁
    obtain ⟨t₂, hch', hranges'⟩ := ih hch.rep (hch.nodup hnodup)
      (hch.perm.mem_iff.2 (hstack q List.mem_cons_self))
      (fun w hw => hch.perm.mem_iff.2 (hstack w (List.mem_cons_of_mem _ hw))) hrun
    exact ⟨t₂, hch.trans hch', hranges'.trans hranges⟩

theorem rebalance_loop (h : Holds st t L) (hcur : st.curNode = some p)
    (hrun : rebalance st = some st') : ∃ H, rebalanceLoop st.stack st.heap p = some H ∧
      ∀ {t'}, Change st.heap t H t' → Holds st' t' L ∧ st'.heap = H ∧ Same st st' := by
  unfold rebalance at hrun
  rw [hcur] at hrun
  obtain ⟨H, hH, hrun⟩ := Option.bind_eq_some_iff.1 hrun
  refine ⟨H, hH, fun {t'} hch => ?_⟩
  cases t with
  | nil =>
    rw [h.root] at hrun
    cases hrun
    have ht' : t' = .nil := by
      cases t' with
      | nil => rfl
      | node p a l r => exact nomatch hch.perm.length_eq
    exact ⟨h.of_change hch (by rw [ht']) rfl rfl, rfl, rfl, rfl, rfl⟩
  | node q a l r =>
    rw [h.root] at hrun
    obtain ⟨root, hclimb, hrun⟩ := Option.bind_eq_some_iff.1 hrun
    cases hrun
    obtain ⟨C, b, x, y, rfl⟩ := exists_plug (hch.perm.mem_iff.2 List.mem_cons_self)
    have hlen := h.length_le
    have hlen' : C.length ≤ (plug C (.node q b x y)).ptrs.length := length_le_ptrs
    rw [hch.perm.length_eq] at hlen'
    rw [climb_spec hch.rep (by omega)] at hclimb
    exact ⟨h.of_change hch hclimb.symm rfl rfl, rfl, rfl, rfl, rfl⟩

/-! ## Search and removal -/

theorem searchInternal_spec {cmpRet : Cmp} (h : Holds st t L)
    (hrun : searchInternal st addr len mode = some (st', p, cmpRet)) :
    ∃ C a l r, t = plug C (.node p a l r) ∧ cmpRet = nodeCmp a addr len mode ∧
      EndsAt addr len mode C a l r ∧
        st' = { st with stack := C.map Frame.p, curNode := some p } := by
  unfold searchInternal at hrun
  obtain ⟨root, hroot, hrun⟩ := Option.bind_eq_some_iff.1 hrun
  rw [h.root] at hroot
  cases t with
  | nil => cases hroot
  | node q a l r =>
    cases hroot
    obtain ⟨⟨stack, cur, cmp⟩, hsearch, hrun⟩ := Option.bind_eq_some_iff.1 hrun
    obtain ⟨D, b, x, y, heq, rfl, rfl, hends⟩ := searchLoop_spec (C := []) h.rep nofun hsearch
    obtain ⟨hst', hrest⟩ := Prod.mk.inj (Option.some.inj hrun)
    obtain ⟨rfl, rfl⟩ := Prod.mk.inj hrest
    obtain rfl := hst'
    exact ⟨D, b, x, y, heq, rfl, hends, rfl⟩

theorem Holds.searched (h : Holds st t L) (stack : List Nat) (curNode : Option Nat) :
    Holds { st with stack := stack, curNode := curNode } t L := ⟨h.1, h.2, h.3, h.4, h.5⟩

theorem rebalance_spec {C : List (Frame (Info β))} (h : Holds st (plug C t) L)
    (hcur : st.curNode = above C)
    (hstack : st.stack = (C.map Frame.p).tail ∨ st.stack = C.map Frame.p)
    (hrun : rebalance st = some st') :
    ∃ t', Holds st' t' L ∧ ranges t' = ranges (plug C t) ∧ Same st st' := by
  cases C with
  | nil =>
    unfold rebalance at hrun
    rw [hcur] at hrun
    cases hrun
    exact ⟨t, h, rfl, .refl _⟩
  | cons f C =>
    obtain ⟨H, hH, hholds⟩ := rebalance_loop h hcur hrun
    have hmem : ∀ q ∈ (f :: C).map Frame.p, q ∈ (plug (f :: C) t).ptrs := by
      intro q hq
      obtain ⟨g, hg, rfl⟩ := List.mem_map.1 hq
      exact ptrs_plug.mem_iff.2 (List.mem_append_right _ (mem_ctxPtrs hg))
    have hstack' : ∀ q ∈ st.stack, q ∈ (f :: C).map Frame.p := by
      intro q hq
      rcases hstack with hstack | hstack
      · rw [hstack] at hq
        exact List.mem_of_mem_tail hq
      · rwa [hstack] at hq
    obtain ⟨t', hch, hranges⟩ := rebalanceLoop_change h.rep h.tree_nodup
      (hmem _ List.mem_cons_self) (fun q hq => hmem q (hstack' q hq)) hH
    obtain ⟨hst', -, hsame⟩ := hholds hch
    exact ⟨t', hst', hranges, hsame⟩

theorem removeRound_spec {st₁ st₂ : GavlTree β} (h : Holds st t L)
    (hsearch : searchInternal st addr len mode = some (st₁, p, .bufferMatch))
    (hremove : removeNodeInternal st₁ p = some st₂) (hrebalance : rebalance st₂ = some st') :
    ∃ t' e T₁ T₂, Holds st' t' (e :: L) ∧ ranges t = T₁ ++ e.2.range :: T₂ ∧
      ranges t' = T₁ ++ T₂ ∧ nodeCmp e.2 addr len mode = .bufferMatch ∧ Same st st' := by
  obtain ⟨C, a, l, r, rfl, hcmp, -, rfl⟩ := searchInternal_spec h hsearch
  obtain ⟨E, s, m, b, hrem, hst₂, hcur, hstack, hsame⟩ :=
    removeNodeInternal_spec (h.searched _ _) rfl hremove
  obtain ⟨hb, T₁, T₂, hT, hT'⟩ := hrem.ranges
  obtain ⟨t', hst', hranges, hsame'⟩ := rebalance_spec hst₂ hcur hstack hrebalance
  refine ⟨t', (m, b), T₁, T₂, hst', ?_, hranges.trans hT', ?_, ?_⟩
  · rw [hT, ← hb]
  · rw [nodeCmp_range hb, ← hcmp]
  · have hsame := hsame.trans hsame'
    exact ⟨hsame.fresh, hsame.freeFn, hsame.freed⟩

/-- Ranges that match are moved from the tree to the remove list, until the search does not end at a
match. -/
structure Taken (addr len : Nat) (mode : Mode) (t : PTree (Info β)) (L : List (Nat × Info β))
    (t' : PTree (Info β)) (L' : List (Nat × Info β)) : Prop where
  moved : ∃ M, L' = M ++ L ∧ (∀ e ∈ M, nodeCmp e.2 addr len mode = .bufferMatch) ∧
    (rangesOf (M.map Prod.snd) ++ ranges t').Perm (ranges t)
  sublist : (ranges t').Sublist (ranges t)
  missed : locate addr len mode t' = none

theorem removeLoop_spec {todo : Nat} (h : Holds st t L)
    (hrun : removeLoop addr len mode todo st = some st') :
    ∃ t' L', Holds st' t' L' ∧ Taken addr len mode t L t' L' ∧ Same st st' := by
  induction todo generalizing st t L with
  | zero => cases hrun
  | succ todo ih =>
    unfold removeLoop at hrun
    have hstay : ∀ {st'}, Holds st' t L → Same st st' → locate addr len mode t = none →
        ∃ t' L', Holds st' t' L' ∧ Taken addr len mode t L t' L' ∧ Same st st' :=
      fun h hsame hmiss => ⟨t, L, h, ⟨⟨[], rfl, nofun, List.Perm.refl _⟩, List.Sublist.refl _, hmiss⟩,
        hsame⟩
    cases hroot : st.root with
    | none =>
      rw [hroot] at hrun
      cases hrun
      refine hstay h (.refl _) ?_
      cases t with
      | nil => rfl
      | node p a l r => exact nomatch hroot.symm.trans h.root
    | some root =>
      rw [hroot] at hrun
      obtain ⟨⟨st₁, p, cmpRet⟩, hsearch, hrun⟩ := Option.bind_eq_some_iff.1 hrun
      dsimp only at hrun
      by_cases hmatch : cmpRet = .bufferMatch
      · rw [if_pos hmatch] at hrun
        obtain ⟨st₂, hremove, hrun⟩ := Option.bind_eq_some_iff.1 hrun
        obtain ⟨st₃, hrebalance, hrun⟩ := Option.bind_eq_some_iff.1 hrun
        obtain ⟨t₁, e, T₁, T₂, h₁, hT, hT₁, hcmp, hsame⟩ :=
          removeRound_spec h (hmatch ▸ hsearch) hremove hrebalance
        obtain ⟨t', L', h', ⟨⟨M, rfl, hM, hperm⟩, hsub, hmiss⟩, hsame'⟩ := ih h₁ hrun
        refine ⟨t', _, h', ⟨⟨M ++ [e], ?_, fun e' he' => ?_, ?_⟩, ?_, hmiss⟩, hsame.trans hsame'⟩
        · rw [List.append_assoc]
          rfl
        · rcases List.mem_append.1 he' with he' | he'
          · exact hM e' he'
          · rwa [List.mem_singleton.1 he']
        · rw [hT₁] at hperm
          rw [hT, rangesOf, List.map_append, List.map_append, List.append_assoc]
          exact List.perm_middle.trans ((hperm.cons _).trans List.perm_middle.symm)
        · rw [hT₁] at hsub
          rw [hT]
          exact hsub.trans ((List.sublist_cons_self _ _).append_left T₁)
      · rw [if_neg hmatch] at hrun
        cases hrun
        obtain ⟨C, a, l, r, rfl, rfl, hends, rfl⟩ := searchInternal_spec h hsearch
        refine hstay (h.searched _ _) ⟨rfl, rfl, rfl⟩ ?_
        rw [hends.locate, if_neg hmatch]

/-! ## Insertion -/

def leaf (p addr len : Nat) (val : β) : PTree (Info β) := .node p ⟨1, addr, len, val⟩ .nil .nil

theorem Holds.alloc (h : Holds st t L) (n : Node (Info β)) : Holds { st with
    heap := Function.update st.heap st.fresh (some n)
    fresh := st.fresh + 1 } t L := by
  have hne : ∀ q ∈ t.ptrs ++ L.map Prod.fst, q ≠ st.fresh := fun q hq =>
    Nat.ne_of_lt (h.fresh q hq)
  refine ⟨h.rep.congr fun q hq => ?_, h.root, h.list.congr fun q hq => ?_, h.nodup, fun q hq => ?_⟩
  · exact Function.update_of_ne (hne q (List.mem_append_left _ hq)) _ _
  · exact Function.update_of_ne (hne q (List.mem_append_right _ hq)) _ _
  · exact Nat.lt_succ_of_lt (h.fresh q hq)

theorem Holds.link {D : List (Frame (Info β))} {n : Nat} {val : β} {H : Heap (Info β)}
    {st₂ : GavlTree β} (h : Holds st (plug D .nil) L)
    (hn : n ∉ (plug D .nil).ptrs ++ L.map Prod.fst) (hfresh : n < st.fresh)
    (hleaf : H n = some ⟨above D, none, none, ⟨1, addr, len, val⟩⟩)
    (htop : ∀ f ∈ D.head?, H f.p = (st.heap f.p).map fun m => m.setChild (some n) f.side)
    (hother : ∀ q, q ≠ n → above D ≠ some q → H q = st.heap q)
    (hst₂ : st₂.heap = H ∧ st₂.removeList = st.removeList ∧ st₂.fresh = st.fresh)
    (hroot : st₂.root = (plug D (leaf n addr len val)).ptr) :
    Holds st₂ (plug D (leaf n addr len val)) L := by
  obtain ⟨rfl, hlist, hfr⟩ := hst₂
  rw [List.mem_append, not_or] at hn
  have hperm : (plug D (leaf n addr len val)).ptrs.Perm (n :: (plug D .nil).ptrs) :=
    ptrs_plug.trans ((ptrs_plug (t := .nil)).symm.cons n)
  have hnD : ∀ q ∈ ctxPtrs D, q ≠ n := by
    rintro q hq rfl
    exact hn.1 (ptrs_plug.mem_iff.2 (List.mem_append_right _ hq))
  refine ⟨h.rep.replace h.tree_nodup ⟨hleaf, trivial, trivial⟩ htop fun q hq hne =>
    hother q (hnD q hq) hne, hroot, ?_, ?_, fun q hq => ?_⟩
  · rw [hlist]
    refine h.list.congr fun q hq => hother q ?_ fun habove => h.list_not_mem hq ?_
    · rintro rfl
      exact hn.2 hq
    · exact ptrs_plug.mem_iff.2 (List.mem_append_right _ (above_mem habove))
  · refine (hperm.append_right _).nodup_iff.2 (List.nodup_cons.2 ⟨fun hmem => ?_, h.nodup⟩)
    exact (List.mem_append.1 hmem).elim hn.1 hn.2
  · rw [hfr]
    rcases List.mem_cons.1 ((hperm.append_right _).mem_iff.1 hq) with rfl | hq
    · exact hfresh
    · exact h.fresh q hq

theorem subset_left (h : nodeCmp a addr len .subset = .searchLeft) : addr < a.addr := by
  rw [nodeCmp, subsetCmp] at h
  split at h
  · cases h
  · split at h
    · assumption
    · cases h

theorem subset_right (h : nodeCmp a addr len .subset = .searchRight) : a.addr ≤ addr := by
  rw [nodeCmp, subsetCmp] at h
  split at h
  · cases h
  · split at h
    · cases h
    · exact Nat.not_lt.1 ‹_›

theorem Leads.order {D : List (Frame (Info β))} (h : Leads addr len .subset D)
    (hsorted : (before D ++ after D).Pairwise fun a b => a.addr ≤ b.addr) :
    (∀ a ∈ before D, a.addr ≤ addr) ∧ ∀ a ∈ after D, addr < a.addr := by
  induction D with
  | nil => exact ⟨nofun, nofun⟩
  | cons f D ih =>
    obtain ⟨side, p, b, sib⟩ := f
    have hf := h _ List.mem_cons_self
    have hsub : (before D ++ after D).Sublist (before (⟨side, p, b, sib⟩ :: D) ++
        after (⟨side, p, b, sib⟩ :: D)) := by
      rw [before, after]
      exact (List.sublist_append_left _ _).append (List.sublist_append_right _ _)
    obtain ⟨hbefore, hafter⟩ := ih (fun g hg => h g (List.mem_cons_of_mem _ hg)) (hsorted.sublist hsub)
    cases side with
    | left =>
      have hb := subset_left hf
      simp only [before, after, List.append_nil, List.cons_append] at hsorted ⊢
      have hsib := (List.pairwise_cons.1 (List.pairwise_append.1 hsorted).2.1).1
      refine ⟨hbefore, fun a ha => ?_⟩
      rcases List.mem_cons.1 ha with rfl | ha
      · exact hb
      · exact Nat.lt_of_lt_of_le hb (hsib a ha)
    | right =>
      have hb := subset_right hf
      simp only [before, after, List.nil_append, List.append_assoc, List.cons_append] at hsorted ⊢
      have hsib := (List.pairwise_append.1 (List.pairwise_append.1 hsorted).2.1).2.2
      refine ⟨fun a ha => ?_, hafter⟩
      rcases List.mem_append.1 ha with ha | ha
      · exact hbefore a ha
      · rcases List.mem_append.1 ha with ha | ha
        · exact Nat.le_trans (hsib a ha b List.mem_cons_self) hb
        · rw [List.mem_singleton.1 ha]
          exact hb

/-- How an insertion goes: the nodes that match are removed, and if there is memory, then a new node is
linked at the place where the search for it ends. -/
structure Inserts (st : GavlTree β) (t : PTree (Info β)) (L : List (Nat × Info β)) (addr len : Nat)
    (val : β) (memory : Bool) (st₁ : GavlTree β) (t₁ : PTree (Info β)) (L₁ : List (Nat × Info β))
    (st' : GavlTree β) : Prop where
  removed : removeNodes st addr len .subset = some st₁
  holds : Holds st₁ t₁ L₁
  taken : Taken addr len .subset t L t₁ L₁
  same : Same st st₁
  linked : if memory then ∃ D st₂, t₁ = plug D .nil ∧ Leads addr len .subset D ∧
      Holds st₂ (plug D (leaf st₁.fresh addr len val)) L₁ ∧ st₂.fresh = st₁.fresh + 1 ∧
        st₂.gavlFreeFn = st₁.gavlFreeFn ∧ st₂.freed = st₁.freed ∧
          (D = [] ∧ st' = st₂ ∨ st₂.curNode = above D ∧ st₂.stack = (D.map Frame.p).tail ∧
            rebalance st₂ = some st')
    else st' = st₁

theorem EndsAt.side {C : List (Frame (Info β))} (h : EndsAt addr len mode C a l r)
    (hne : nodeCmp a addr len mode ≠ .bufferMatch) : ∃ s,
      .node p a l r = PTree.mk (if nodeCmp a addr len mode = .searchLeft then .left else .right) p a
        .nil s ∧ Leads addr len mode
          (⟨if nodeCmp a addr len mode = .searchLeft then .left else .right, p, a, s⟩ :: C) := by
  have hcons : ∀ {d : Side} {s : PTree (Info β)}, nodeCmp a addr len mode = toward d →
      Leads addr len mode (⟨d, p, a, s⟩ :: C) := by
    intro d s hd f hf
    rcases List.mem_cons.1 hf with rfl | hf
    · exact hd
    · exact h.leads f hf
  cases hcmp : nodeCmp a addr len mode with
  | searchLeft =>
    refine ⟨r, ?_, hcons hcmp⟩
    rw [h.left hcmp]
    rfl
  | searchRight =>
    refine ⟨l, ?_, hcons hcmp⟩
    rw [h.right hcmp]
    rfl
  | bufferMatch => exact absurd hcmp hne

theorem searchInternal_missed {cmpRet : Cmp} (h : Holds st t L)
    (hmiss : locate addr len mode t = none)
    (hsearch : searchInternal st addr len mode = some (st', p, cmpRet)) : cmpRet ≠ .bufferMatch := by
  obtain ⟨C, a, l, r, rfl, rfl, hends, -⟩ := searchInternal_spec h hsearch
  intro hmatch
  rw [hends.locate, if_pos hmatch] at hmiss
  cases hmiss

theorem insert_link {sb : GavlTree β} {n : Nat} {H₁ H₂ : Heap (Info β)} {val : β} {cmpRet : Cmp}
    (h : Holds st t L) (hn : n ∉ t.ptrs ++ L.map Prod.fst) (hfresh : n < st.fresh)
    (hnode : st.heap n = some ⟨none, none, none, ⟨1, addr, len, val⟩⟩)
    (hne : cmpRet ≠ .bufferMatch)
    (hsearch : searchInternal st addr len mode = some (sb, p, cmpRet))
    (hchild : setChild sb.heap (if cmpRet = .searchLeft then .left else .right) p (some n) = some H₁)
    (hparent : setParent H₁ n (some p) = some H₂) :
    ∃ D, t = plug D .nil ∧ Leads addr len mode D ∧
      Holds { sb with heap := H₂ } (plug D (leaf n addr len val)) L ∧
        some p = above D ∧ sb.stack = (D.map Frame.p).tail ∧ Same st sb := by
  obtain ⟨C, a, l, r, rfl, rfl, hends, rfl⟩ := searchInternal_spec h hsearch
  obtain ⟨s, hmk, hleads⟩ := hends.side (p := p) hne
  obtain ⟨d, hd⟩ : ∃ d, (if nodeCmp a addr len mode = .searchLeft then Side.left else .right) = d :=
    ⟨_, rfl⟩
  rw [hd] at hmk hleads hchild
  have ht : plug C (.node p a l r) = plug (⟨d, p, a, s⟩ :: C) .nil := by
    rw [hmk]
    rfl
  rw [ht] at h hn ⊢
  have hp := ((rep_plug.1 h.rep).2).1
  have hnp : n ≠ p := by
    rintro rfl
    refine hn (List.mem_append_left _ (ptrs_plug.mem_iff.2 (List.mem_append_right _ ?_)))
    exact above_mem rfl
  rw [setChild_of hp, Node.of_setChild] at hchild
  cases hchild
  rw [setParent_of ((Function.update_of_ne hnp _ _).trans hnode)] at hparent
  cases hparent
  refine ⟨⟨d, p, a, s⟩ :: C, rfl, hleads, ?_, rfl, rfl, rfl, rfl, rfl⟩
  refine Holds.link h hn hfresh (Function.update_self ..) (fun f hf => ?_) (fun q hq hqp => ?_)
    ⟨rfl, rfl, rfl⟩ (h.root.trans (plug_ptr (List.cons_ne_nil _ C)))
  · cases hf
    rw [Function.update_of_ne (Ne.symm hnp), Function.update_self, hp, Option.map_some,
      Node.of_setChild]
  · rw [Function.update_of_ne hq, Function.update_of_ne fun heq => hqp (congrArg some heq.symm)]

theorem insert_spec {val : β} {memory ok : Bool} (h : Holds st t L)
    (hrun : insert st addr len val memory = some (st', ok)) :
    ok = memory ∧ ∃ st₁ t₁ L₁, Inserts st t L addr len val memory st₁ t₁ L₁ st' := by
  obtain ⟨st₁, hremove, hrun⟩ := Option.bind_eq_some_iff.1 hrun
  obtain ⟨t₁, L₁, h₁, htaken, hsame⟩ := removeLoop_spec h hremove
  cases memory with
  | false =>
    obtain ⟨rfl, rfl⟩ := Prod.mk.inj (Option.some.inj hrun)
    exact ⟨rfl, st₁, t₁, L₁, hremove, h₁, htaken, hsame, rfl⟩
  | true =>
    have hnot : st₁.fresh ∉ t₁.ptrs ++ L₁.map Prod.fst := fun hmem =>
      Nat.lt_irrefl _ (h₁.fresh _ hmem)
    rw [if_pos rfl] at hrun
    have halloc := h₁.alloc ⟨none, none, none, ⟨1, addr, len, val⟩⟩
    obtain ⟨sa, hsa⟩ : ∃ sa, { st₁ with
        heap := Function.update st₁.heap st₁.fresh (some ⟨none, none, none, ⟨1, addr, len, val⟩⟩)
        fresh := st₁.fresh + 1 } = sa := ⟨_, rfl⟩
    rw [hsa] at halloc
    simp only [hsa] at hrun
    have hnode : sa.heap st₁.fresh = some ⟨none, none, none, ⟨1, addr, len, val⟩⟩ := by
      rw [← hsa]
      exact Function.update_self ..
    have hlt : st₁.fresh < sa.fresh := by
      rw [← hsa]
      exact Nat.lt_succ_self _
    cases hroot : st₁.root with
    | none =>
      have ht₁ : t₁ = plug [] .nil := by
        cases t₁ with
        | nil => rfl
        | node p a l r => exact nomatch hroot.symm.trans h₁.root
      rw [ht₁] at halloc hnot
      have hlink := @Holds.link _ _ _ _ _ _ _ _ _ { sa with root := some st₁.fresh } halloc hnot hlt
        hnode nofun
        (fun q _ _ => rfl) ⟨rfl, rfl, rfl⟩ rfl
      rw [hroot] at hrun
      obtain ⟨rfl, rfl⟩ := Prod.mk.inj (Option.some.inj hrun)
      rw [← hsa] at hlink
      exact ⟨rfl, st₁, t₁, L₁, hremove, h₁, htaken, hsame, [], _, ht₁, nofun, hlink, rfl, rfl, rfl,
        .inl ⟨rfl, rfl⟩⟩
    | some root =>
      rw [hroot] at hrun
      obtain ⟨⟨sb, p, cmpRet⟩, hsearch, hrun⟩ := Option.bind_eq_some_iff.1 hrun
      have hne := searchInternal_missed halloc htaken.missed hsearch
      have hlinked : ((setChild sb.heap (if cmpRet = .searchLeft then .left else .right) p
          (some st₁.fresh)).bind fun H => (setParent H st₁.fresh (some p)).bind fun H =>
            (rebalance { sb with heap := H }).bind fun st => some (st, true)) = some (st', ok) := by
        cases cmpRet with
        | searchLeft => exact hrun
        | searchRight => exact hrun
        | bufferMatch => exact absurd rfl hne
      obtain ⟨H₁, hchild, hrun⟩ := Option.bind_eq_some_iff.1 hlinked
      obtain ⟨H₂, hparent, hrun⟩ := Option.bind_eq_some_iff.1 hrun
      obtain ⟨st₃, hrebalance, hrun⟩ := Option.bind_eq_some_iff.1 hrun
      obtain ⟨rfl, rfl⟩ := Prod.mk.inj (Option.some.inj hrun)
      obtain ⟨D, ht₁, hleads, hholds, hcur, hstack, hsb⟩ :=
        insert_link halloc hnot hlt hnode hne hsearch hchild hparent
      obtain ⟨C, a, l, r, -, -, -, rfl⟩ := searchInternal_spec halloc hsearch
      refine ⟨rfl, st₁, t₁, L₁, hremove, h₁, htaken, hsame, D, _, ht₁, hleads, hholds, ?_, ?_, ?_,
        .inr ⟨hcur, hstack, hrebalance⟩⟩
      · rw [← hsa]
      · rw [← hsa]
      · rw [← hsa]

end contents

end PsMpi.Gavl
