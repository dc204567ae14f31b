import PsMpi.Gavl.Runs

/-!
# Balance of the tree
-/

open PsMpi.Lib PsMpi.Lib.PtrTree List Option

namespace PsMpi.Gavl

section balance

variable {β : Type}

def depth : PTree (Info β) → Nat
  | .nil => 0
  | .node _ _ l r => max (depth l) (depth r) + 1

def Avl : PTree (Info β) → Prop
  | .nil => True
  | .node _ a l r => a.height = max (depth l) (depth r) + 1 ∧ depth l ≤ depth r + 1 ∧
    depth r ≤ depth l + 1 ∧ Avl l ∧ Avl r

def AvlCtx : List (Frame (Info β)) → Nat → Prop
  | [], _ => True
  | f :: C, h => f.a.height = max h (depth f.sib) + 1 ∧ h ≤ depth f.sib + 1 ∧
    depth f.sib ≤ h + 1 ∧ Avl f.sib ∧ AvlCtx C (max h (depth f.sib) + 1)

def Even : PTree (Info β) → Prop
  | .nil => True
  | .node _ _ l r => depth l = depth r

variable {H H' : Heap (Info β)} {C : List (Frame (Info β))} {d : Side} {p q : Nat} {a b : Info β}
  {t t' s l r : PTree (Info β)} {h : Nat}

theorem Avl.stored (ht : Avl t) : stored t = depth t := by
  cases t with
  | nil => rfl
  | node p a l r => exact ht.1

theorem depth_mk : depth (.mk d p a t s) = max (depth t) (depth s) + 1 := by
  cases d with
  | left => rfl
  | right => rw [PTree.mk, depth, Nat.max_comm]

theorem avl_mk : Avl (.mk d p a t s) ↔ a.height = max (depth t) (depth s) + 1 ∧
    depth t ≤ depth s + 1 ∧ depth s ≤ depth t + 1 ∧ Avl t ∧ Avl s := by
  cases d with
  | left => exact Iff.rfl
  | right =>
    rw [PTree.mk, Avl, Nat.max_comm]
    constructor
    · rintro ⟨h₁, h₂, h₃, h₄, h₅⟩
      exact ⟨h₁, h₃, h₂, h₅, h₄⟩
    · rintro ⟨h₁, h₂, h₃, h₄, h₅⟩
      exact ⟨h₁, h₃, h₂, h₅, h₄⟩

theorem avl_plug : Avl (plug C t) ↔ Avl t ∧ AvlCtx C (depth t) := by
  induction C generalizing t with
  | nil => exact ⟨fun h => ⟨h, trivial⟩, And.left⟩
  | cons f C ih =>
    rw [plug, ih, Frame.fill, avl_mk, depth_mk, AvlCtx]
    constructor
    · rintro ⟨⟨h₁, h₂, h₃, ht, hs⟩, hC⟩
      exact ⟨ht, h₁, h₂, h₃, hs, hC⟩
    · rintro ⟨ht, h₁, h₂, h₃, hs, hC⟩
      exact ⟨⟨h₁, h₂, h₃, ht, hs⟩, hC⟩

theorem avl_above (ht : Avl t) (hs : Avl s) (h₁ : depth t ≤ depth s + 1)
    (h₂ : depth s ≤ depth t + 1) : Avl (.mk d p (a.above t s) t s) :=
  avl_mk.2 ⟨by rw [Info.above, ht.stored, hs.stored], h₁, h₂, ht, hs⟩

/-! ## Rebalancing of a node -/

section rotations

variable {x y z u v : PTree (Info β)} {c : Info β} {w : Nat}

theorem depth_rotated : depth (rotated d p a q b x y z) =
    max (depth x) (max (depth y) (depth z) + 1) + 1 := by
  rw [rotated, depth_mk, depth_mk]

theorem avl_rotated (hx : Avl x) (hy : Avl y) (hz : Avl z) (h₁ : depth y ≤ depth z + 1)
    (h₂ : depth z ≤ depth y + 1) (h₃ : depth x ≤ max (depth y) (depth z) + 2)
    (h₄ : max (depth y) (depth z) ≤ depth x) : Avl (rotated d p a q b x y z) := by
  have hyz := avl_above (d := d) (p := p) (a := a) hy hz h₁ h₂
  refine avl_above hx hyz ?_ ?_
  · rw [depth_mk]
    omega
  · rw [depth_mk]
    omega

theorem depth_doubled : depth (doubled d p a q b w c x u v z) =
    max (max (depth x) (depth u) + 1) (max (depth v) (depth z) + 1) + 1 := by
  rw [doubled, depth_rotated, depth_mk]

theorem avl_doubled (hx : Avl x) (hu : Avl u) (hv : Avl v) (hz : Avl z) (h₁ : depth x ≤ depth u + 1)
    (h₂ : depth u ≤ depth x + 1) (h₃ : depth v ≤ depth z + 1) (h₄ : depth z ≤ depth v + 1)
    (h₅ : max (depth x) (depth u) ≤ max (depth v) (depth z) + 1)
    (h₆ : max (depth v) (depth z) ≤ max (depth x) (depth u) + 1) :
    Avl (doubled d p a q b w c x u v z) := by
  have hxu := avl_above (d := d) (p := q) (a := b) hx hu h₁ h₂
  refine avl_rotated hxu hv hz h₃ h₄ ?_ ?_
  · rw [depth_mk]
    omega
  · rw [depth_mk]
    omega

theorem fix_level (hl : Avl l) (hr : Avl r) (h₁ : depth l ≤ depth r + 1)
    (h₂ : depth r ≤ depth l + 1) :
    fixNode (.node p a l r) = some (.node p (a.above l r) l r) := by
  dsimp only [fixNode]
  rw [hl.stored, hr.stored, if_neg (by omega), if_neg (by omega)]

theorem fix_left (hl : Avl l) (hr : Avl r) (hlr : depth l = depth r + 2) :
    ∃ t, fixNode (.node p a l r) = some t ∧ Avl t ∧
      (depth t = depth l ∨ depth t = depth l + 1 ∧ Even l) := by
  have hl' := hl.stored
  cases l with
  | nil => exact absurd hlr (Nat.succ_ne_zero _).symm
  | node q b x y =>
    obtain ⟨-, hxy, hyx, hx, hy⟩ := hl
    dsimp only [fixNode]
    rw [hl', hr.stored, if_pos (by omega), hx.stored]
    rw [depth] at hlr ⊢
    by_cases houter : depth x + 1 = max (depth x) (depth y) + 1
    · rw [if_pos houter]
      refine ⟨_, rfl, avl_rotated hx hy hr (by omega) (by omega) (by omega) (by omega), ?_⟩
      rw [depth_rotated, Even]
      omega
    · rw [if_neg houter]
      cases y with
      | nil => rw [depth] at houter; omega
      | node w c u v =>
        obtain ⟨-, huv, hvu, hu, hv⟩ := hy
        rw [depth] at hlr hxy hyx houter
        have hmid : max (depth u) (depth v) = depth x := by omega
        rw [hmid] at hlr hxy hyx houter
        have hleft : max (depth x) (depth u) = depth x := by omega
        have hright : max (depth v) (depth r) = depth r := by omega
        refine ⟨_, rfl, avl_doubled hx hu hv hr (by omega) (by omega) (by omega) (by omega)
          (by omega) (by omega), .inl ?_⟩
        rw [depth_doubled, depth, hmid, hleft, hright]
        omega

/-- The right child is two levels higher, its children are equally high, and its left child is higher on its
left side. -/
def lopsided : PTree (Info β) → Bool
  | .node _ _ l (.node _ b (.node _ c v u) x) =>
    decide (stored l + 1 < b.height ∧ c.height = stored x ∧ stored u < stored v)
  | _ => false

theorem fix_right (hl : Avl l) (hr : Avl r) (hlr : depth r = depth l + 2)
    (hlop : lopsided (.node p a l r) = false) :
    ∃ t, fixNode (.node p a l r) = some t ∧ Avl t ∧
      (depth t = depth r ∨ depth t = depth r + 1 ∧ Even r) := by
  have hr' := hr.stored
  cases r with
  | nil => exact absurd hlr (Nat.succ_ne_zero _).symm
  | node q b y x =>
    obtain ⟨hb, hyx, hxy, hy, hx⟩ := hr
    have hy' := hy.stored
    dsimp only [fixNode]
    rw [hr', hl.stored, if_neg (by omega), if_pos (by omega), hy']
    rw [depth] at hlr ⊢
    by_cases hinner : depth y + 1 = max (depth y) (depth x) + 1
    · rw [if_pos hinner]
      cases y with
      | nil => rw [depth] at hinner hlr; omega
      | node w c v u =>
        obtain ⟨hc, hvu, huv, hv, hu⟩ := hy
        have hlop := of_decide_eq_false hlop
        rw [hl.stored, hx.stored, hu.stored, hv.stored, hb, hc] at hlop
        rw [depth] at hlr hxy hyx hinner hlop
        clear hb hc
        have hmid : max (depth v) (depth u) = depth l := by
          clear hlop
          omega
        rw [hmid] at hlr hxy hyx hinner hlop
        have hleft : max (depth v) (depth l) = depth l := by omega
        have hright : max (depth x) (depth u) = depth x := by omega
        refine ⟨_, rfl, avl_doubled hx hu hv hl (by omega) (by omega) (by omega) (by omega)
          (by omega) (by omega), ?_⟩
        rw [depth_doubled, depth, Even, depth, hmid, hleft, hright]
        omega
    · rw [if_neg hinner]
      refine ⟨_, rfl, avl_rotated hx hy hl (by omega) (by omega) (by omega) (by omega), .inl ?_⟩
      rw [depth_rotated]
      omega

end rotations

theorem lopsided_even (hl : Avl l) (hr : Avl r) (hlop : lopsided (.node p a l r) = true) :
    depth l + 2 ≤ depth r ∧ Even r := by
  unfold lopsided at hlop
  split at hlop
  · rename_i q b w c v u x heq
    injection heq with _ _ hl' hr'
    subst hl' hr'
    obtain ⟨hb, -, -, ⟨hc, -⟩, hx⟩ := hr
    obtain ⟨h₁, h₂, -⟩ := of_decide_eq_true hlop
    rw [hl.stored, hb] at h₁
    rw [hx.stored, hc] at h₂
    have hdepth : depth (.node q b (.node w c v u) x) =
        max (depth (.node w c v u)) (depth x) + 1 := rfl
    exact ⟨by omega, h₂⟩
  · cases hlop

theorem fix_avl (hl : Avl l) (hr : Avl r) (h₁ : depth l ≤ depth r + 2) (h₂ : depth r ≤ depth l + 2)
    (hlop : lopsided (.node p a l r) = false) :
    ∃ t, fixNode (.node p a l r) = some t ∧ Avl t ∧
      (t = .node p (a.above l r) l r ∧ depth l ≤ depth r + 1 ∧ depth r ≤ depth l + 1 ∨
        depth l = depth r + 2 ∧ (depth t = depth l ∨ depth t = depth l + 1 ∧ Even l) ∨
          depth r = depth l + 2 ∧ (depth t = depth r ∨ depth t = depth r + 1 ∧ Even r)) := by
  rcases Nat.lt_trichotomy (depth l) (depth r + 2) with hlt | heq | hgt
  · rcases Nat.lt_trichotomy (depth r) (depth l + 2) with hlt' | heq' | hgt'
    · refine ⟨_, fix_level hl hr (by omega) (by omega), ?_, .inl ⟨rfl, by omega, by omega⟩⟩
      exact avl_above (d := .left) hl hr (by omega) (by omega)
    · obtain ⟨t, hfix, ht, hdepth⟩ := fix_right hl hr heq' hlop
      exact ⟨t, hfix, ht, .inr (.inr ⟨heq', hdepth⟩)⟩
    · omega
  · obtain ⟨t, hfix, ht, hdepth⟩ := fix_left (p := p) (a := a) hl hr heq
    exact ⟨t, hfix, ht, .inr (.inl ⟨heq, hdepth⟩)⟩
  · omega

theorem fix_lower {f : Frame (Info β)} (ht : Avl t) (hC : AvlCtx (f :: C) h)
    (hdepth : depth t = h ∨ depth t + 1 = h) (hlop : lopsided (f.fill t) = false) :
    ∃ h' t', AvlCtx C h' ∧ fixNode (f.fill t) = some t' ∧ Avl t' ∧
      (depth t' = h' ∨ depth t' + 1 = h') := by
  obtain ⟨side, p, a, s⟩ := f
  obtain ⟨-, h₁, h₂, hs, hC⟩ := hC
  dsimp only at h₁ h₂ hs hC
  refine ⟨max h (depth s) + 1, ?_⟩
  cases side with
  | left =>
    obtain ⟨t', hfix, ht', hcase⟩ := fix_avl ht hs (by omega) (by omega) hlop
    refine ⟨t', hC, hfix, ht', ?_⟩
    rcases hcase with ⟨rfl, -, -⟩ | hcase | hcase
    · rw [depth]
      omega
    · omega
    · omega
  | right =>
    obtain ⟨t', hfix, ht', hcase⟩ := fix_avl hs ht (by omega) (by omega) hlop
    refine ⟨t', hC, hfix, ht', ?_⟩
    rcases hcase with ⟨rfl, -, -⟩ | hcase | hcase
    · rw [depth]
      omega
    · omega
    · omega

theorem fix_higher {f : Frame (Info β)} (ht : Avl t) (hC : AvlCtx (f :: C) h)
    (hdepth : depth t = h ∨ depth t = h + 1 ∧ (depth t = 1 ∨ ¬Even t)) :
    ∃ h' t', AvlCtx C h' ∧ fixNode (f.fill t) = some t' ∧ Avl t' ∧
      (depth t' = h' ∨ depth t' = h' + 1 ∧ (depth t' = 1 ∨ ¬Even t')) := by
  obtain ⟨side, p, a, s⟩ := f
  obtain ⟨-, h₁, h₂, hs, hC⟩ := hC
  dsimp only at h₁ h₂ hs hC
  refine ⟨max h (depth s) + 1, ?_⟩
  cases side with
  | left =>
    have hlop : lopsided (.node p a t s) = false := by
      refine Bool.eq_false_iff.2 fun hlop => ?_
      have := (lopsided_even ht hs hlop).1
      omega
    obtain ⟨t', hfix, ht', hcase⟩ := fix_avl ht hs (by omega) (by omega) hlop
    refine ⟨t', hC, hfix, ht', ?_⟩
    rcases hcase with ⟨rfl, -, -⟩ | ⟨hlt, hcase⟩ | hcase
    · rw [depth, Even]
      rcases hdepth with hdepth | ⟨hdepth, -⟩ <;> omega
    · refine .inl ?_
      rcases hdepth with hdepth | ⟨hdepth, htop | hne⟩
      · omega
      · omega
      · rcases hcase with hcase | ⟨-, heven⟩
        · omega
        · exact absurd heven hne
    · rcases hdepth with hdepth | ⟨hdepth, -⟩ <;> omega
  | right =>
    have hlop : lopsided (.node p a s t) = false := by
      refine Bool.eq_false_iff.2 fun hlop => ?_
      obtain ⟨hlt, heven⟩ := lopsided_even hs ht hlop
      rcases hdepth with hdepth | ⟨hdepth, htop | hne⟩
      · omega
      · omega
      · exact hne heven
    obtain ⟨t', hfix, ht', hcase⟩ := fix_avl hs ht (by omega) (by omega) hlop
    refine ⟨t', hC, hfix, ht', ?_⟩
    rcases hcase with ⟨rfl, -, -⟩ | hcase | ⟨hlt, hcase⟩
    · rw [depth, Even]
      rcases hdepth with hdepth | ⟨hdepth, -⟩ <;> omega
    · rcases hdepth with hdepth | ⟨hdepth, -⟩ <;> omega
    · refine .inl ?_
      rcases hdepth with hdepth | ⟨hdepth, htop | hne⟩
      · omega
      · omega
      · rcases hcase with hcase | ⟨-, heven⟩
        · omega
        · exact absurd heven hne

/-! ## Rebalancing along the stack -/

/-- Whether the rebalancing of a node chooses the double rotation for a right child with equally high
children that leaves a node out of balance. -/
def misrotates (H : Heap (Info β)) (p : Nat) : Bool :=
  (do
    let cur ← H p
    let lheight ← height H cur.left
    let rnode ← H (← cur.right)
    let lrnode ← H (← rnode.left)
    let rrheight ← height H rnode.right
    let outer ← height H lrnode.left
    let inner ← height H lrnode.right
    return decide (lheight + 1 < rnode.info.height ∧ lrnode.info.height = rrheight ∧ inner < outer)
    : Option Bool).getD false

theorem misrotates_eq {par : Option Nat} (hrep : Rep H par (.node p a l r)) :
    misrotates H p = lopsided (.node p a l r) := by
  obtain ⟨hp, hl, hr⟩ := hrep
  unfold misrotates
  simp only [bind, hp, bind_some, height_ptr hl]
  cases r with
  | nil => rfl
  | node q b y x =>
    obtain ⟨hq, hy, hx⟩ := hr
    simp only [show (PTree.node q b y x).ptr = some q from rfl, bind_some, hq, height_ptr hx]
    cases y with
    | nil => rfl
    | node w c v u =>
      obtain ⟨hw, hv, hu⟩ := hy
      simp only [show (PTree.node w c v u).ptr = some w from rfl, bind_some, hw,
        height_ptr hv, height_ptr hu]
      rfl

theorem rebalanceLoop_eq {stack : List Nat} :
    rebalanceLoop stack H p = (p :: stack).foldlM rebalanceNode H := by
  induction stack generalizing H p with
  | nil =>
    rw [rebalanceLoop, foldlM_cons]
    cases rebalanceNode H p <;> rfl
  | cons q stack ih =>
    rw [rebalanceLoop, foldlM_cons]
    cases rebalanceNode H p with
    | none => rfl
    | some H => exact ih

theorem fill_node (f : Frame (Info β)) (t : PTree (Info β)) :
    ∃ l r, f.fill t = .node f.p f.a l r := by
  obtain ⟨side, p, a, s⟩ := f
  cases side with
  | left => exact ⟨t, s, rfl⟩
  | right => exact ⟨s, t, rfl⟩

theorem node_spec {f : Frame (Info β)} (hrep : Rep H none (plug (f :: C) t))
    (hnodup : (plug (f :: C) t).ptrs.Nodup) (hfix : fixNode (f.fill t) = some t') :
    ∃ H', rebalanceNode H f.p = some H' ∧ Change H (plug (f :: C) t) H' (plug C t') := by
  obtain ⟨l, r, hfill⟩ := fill_node f t
  rw [plug] at hrep hnodup ⊢
  rw [hfill] at hrep hnodup hfix ⊢
  have hspec := rebalanceNode_spec hrep hnodup
  rwa [hfix] at hspec

def rotatesWell : Heap (Info β) → List Nat → Bool
  | _, [] => true
  | H, p :: ps => !misrotates H p &&
    match rebalanceNode H p with
    | none => true
    | some H => rotatesWell H ps

theorem node_lower {f : Frame (Info β)} (hrep : Rep H none (plug (f :: C) t))
    (hnodup : (plug (f :: C) t).ptrs.Nodup) (ht : Avl t) (hC : AvlCtx (f :: C) h)
    (hdepth : depth t = h ∨ depth t + 1 = h) (hmis : (!misrotates H f.p) = true) :
    ∃ H' h' t', rebalanceNode H f.p = some H' ∧ Change H (plug (f :: C) t) H' (plug C t') ∧
      Avl t' ∧ AvlCtx C h' ∧ (depth t' = h' ∨ depth t' + 1 = h') := by
  have hlop : lopsided (f.fill t) = false := by
    obtain ⟨l, r, hfill⟩ := fill_node f t
    have hsub := (rep_plug.1 (show Rep H none (plug C (f.fill t)) from hrep)).1
    rw [hfill] at hsub ⊢
    rw [← misrotates_eq hsub]
    rwa [Bool.not_eq_true'] at hmis
  obtain ⟨h', t', hC', hfix, ht', hdepth'⟩ := fix_lower ht hC hdepth hlop
  obtain ⟨H', hH', hch⟩ := node_spec hrep hnodup hfix
  exact ⟨H', h', t', hH', hch, ht', hC', hdepth'⟩

theorem rebalance_lower (hrep : Rep H none (plug C t)) (hnodup : (plug C t).ptrs.Nodup) (ht : Avl t)
    (hC : AvlCtx C h) (hdepth : depth t = h ∨ depth t + 1 = h)
    (hwell : rotatesWell H (C.map Frame.p) = true) :
    ∃ H' t', (C.map Frame.p).foldlM rebalanceNode H = some H' ∧ Change H (plug C t) H' t' ∧
      Avl t' := by
  induction C generalizing H t h with
  | nil => exact ⟨H, t, rfl, .refl hrep, ht⟩
  | cons f C ih =>
    obtain ⟨hmis, hwell⟩ := Bool.and_eq_true_iff.1 hwell
    obtain ⟨H₁, h', t₁, hH₁, hch, ht₁, hC', hdepth'⟩ := node_lower hrep hnodup ht hC hdepth hmis
    rw [hH₁] at hwell
    obtain ⟨H', t', hH', hch', ht'⟩ := ih hch.rep (hch.nodup hnodup) ht₁ hC' hdepth' hwell
    refine ⟨H', t', ?_, hch.trans hch', ht'⟩
    rw [map_cons, foldlM_cons, hH₁]
    exact hH'

theorem rebalance_higher (hrep : Rep H none (plug C t)) (hnodup : (plug C t).ptrs.Nodup) (ht : Avl t)
    (hC : AvlCtx C h) (hdepth : depth t = h ∨ depth t = h + 1 ∧ (depth t = 1 ∨ ¬Even t)) :
    ∃ H' t', (C.map Frame.p).foldlM rebalanceNode H = some H' ∧ Change H (plug C t) H' t' ∧
      Avl t' := by
  induction C generalizing H t h with
  | nil => exact ⟨H, t, rfl, .refl hrep, ht⟩
  | cons f C ih =>
    obtain ⟨h', t₁, hC', hfix, ht₁, hdepth'⟩ := fix_higher ht hC hdepth
    obtain ⟨H₁, hH₁, hch⟩ := node_spec hrep hnodup hfix
    obtain ⟨H', t', hH', hch', ht'⟩ := ih hch.rep (hch.nodup hnodup) ht₁ hC' hdepth'
    refine ⟨H', t', ?_, hch.trans hch', ht'⟩
    rw [map_cons, foldlM_cons, hH₁]
    exact hH'

theorem rebalance_again (hrep : Rep H none (plug C t)) (hnodup : (plug C t).ptrs.Nodup) (ht : Avl t)
    (hp : p ∈ t.ptrs) : ∃ H', rebalanceNode H p = some H' ∧ Change H (plug C t) H' (plug C t) := by
  obtain ⟨D, a, l, r, rfl⟩ := exists_plug hp
  obtain ⟨ha, h₁, h₂, hl, hr⟩ := (avl_plug.1 ht).1
  have hsame : a.above l r = a := by
    rw [Info.above, hl.stored, hr.stored, ← ha]
  have hfix := fix_level (p := p) (a := a) hl hr h₁ h₂
  rw [hsame] at hfix
  rw [← plug_append] at hrep hnodup ⊢
  have hspec := rebalanceNode_spec hrep hnodup
  rwa [hfix] at hspec

/-! ## Removals and insertions -/

variable {st st₁ st₂ st' : GavlTree β} {L L' : List (Nat × Info β)} {addr len : Nat} {mode : Mode}
  {E : List (Frame (Info β))} {m : Nat}

theorem avlCtx_congr {D : List (Frame (Info β))} {f : Frame (Info β)}
    (hC : AvlCtx (D ++ f :: C) h) (hab : b.height = f.a.height) :
    AvlCtx (D ++ { f with a := b } :: C) h := by
  induction D generalizing h with
  | nil =>
    obtain ⟨h₁, h₂⟩ := hC
    exact ⟨hab.trans h₁, h₂⟩
  | cons g D ih =>
    obtain ⟨h₁, h₂, h₃, hs, hC⟩ := hC
    exact ⟨h₁, h₂, h₃, hs, ih hC⟩

theorem Removal.avl (hrem : Removal C p a l r E s m b) (ht : Avl (plug C (.node p a l r))) :
    Avl s ∧ AvlCtx E (depth s + 1) := by
  cases hrem with
  | unlink =>
    obtain ⟨⟨-, -, -, hl, -⟩, hC⟩ := avl_plug.1 ht
    rw [depth, depth, Nat.max_zero] at hC
    exact ⟨hl, hC⟩
  | @exchange D m b _ hD =>
    have hplace : plug C (.node p a l (plug D (.node m b .nil s))) =
        plug (D ++ ⟨.right, p, a, l⟩ :: C) (.node m b .nil s) := by
      rw [plug_append]
      rfl
    rw [hplace] at ht
    obtain ⟨⟨-, -, -, -, hs⟩, hC⟩ := avl_plug.1 ht
    rw [depth, depth, Nat.zero_max] at hC
    exact ⟨hs, avlCtx_congr (f := ⟨.right, p, a, l⟩) hC rfl⟩

def rebalancesWell (st : GavlTree β) : Bool :=
  match st.curNode with
  | none => true
  | some curNode => rotatesWell st.heap (curNode :: st.stack)

theorem rebalance_removed (hst : Holds st (plug E s) L) (hs : Avl s) (hE : AvlCtx E (depth s + 1))
    (hcur : st.curNode = above E)
    (hstack : st.stack = (E.map Frame.p).tail ∨ st.stack = E.map Frame.p)
    (hwell : rebalancesWell st = true) (hrun : rebalance st = some st') :
    ∃ t', Holds st' t' L ∧ Avl t' := by
  cases E with
  | nil =>
    unfold rebalance at hrun
    rw [hcur] at hrun
    cases hrun
    exact ⟨s, hst, hs⟩
  | cons f E =>
    obtain ⟨H, hH, hholds⟩ := rebalance_loop hst hcur hrun
    unfold rebalancesWell at hwell
    rw [hcur] at hwell
    rw [rebalanceLoop_eq] at hH
    rcases hstack with hstack | hstack
    · rw [hstack] at hwell hH
      obtain ⟨H', t', hH', hch, ht'⟩ := rebalance_lower hst.rep hst.tree_nodup hs hE (.inr rfl) hwell
      obtain rfl : H = H' := Option.some.inj (hH.symm.trans hH')
      exact ⟨t', (hholds hch).1, ht'⟩
    · rw [hstack] at hwell hH
      -- the node above the place is rebalanced twice
      obtain ⟨hmis, hwell⟩ := Bool.and_eq_true_iff.1 hwell
      obtain ⟨H₁, h', t₁, hH₁, hch₁, ht₁, hE', hdepth⟩ :=
        node_lower hst.rep hst.tree_nodup hs hE (.inr rfl) hmis
      have hnodup₁ := hch₁.nodup hst.tree_nodup
      have hmem : f.p ∈ t₁.ptrs := by
        have hctx := (nodup_append.1 (ptrs_plug.nodup_iff.1 hst.tree_nodup)).2.1
        rw [ctxPtrs_cons] at hctx
        have hall := hch₁.perm.mem_iff.2 (ptrs_plug.mem_iff.2 (mem_append_right s.ptrs
          (mem_ctxPtrs (mem_cons_self (a := f) (l := E)))))
        refine (mem_append.1 (ptrs_plug.mem_iff.1 hall)).resolve_right fun h => ?_
        exact (nodup_cons.1 hctx).1 (mem_append_right _ h)
      obtain ⟨H₂, hH₂, hch₂⟩ := rebalance_again hch₁.rep hnodup₁ ht₁ hmem
      rw [hH₁] at hwell
      rw [map_cons] at hwell hH
      obtain ⟨-, hwell⟩ := Bool.and_eq_true_iff.1 hwell
      rw [hH₂] at hwell
      obtain ⟨H₃, t', hH₃, hch₃, ht'⟩ :=
        rebalance_lower hch₂.rep hnodup₁ ht₁ hE' hdepth hwell
      rw [foldlM_cons, hH₁] at hH
      simp only [bind, bind_some, foldlM_cons, hH₂, hH₃] at hH
      cases hH
      exact ⟨t', (hholds (hch₁.trans (hch₂.trans hch₃))).1, ht'⟩

/-- No rebalancing in the removal of the nodes that match chooses the rotation that does not fit. -/
def removesWell (addr len : Nat) (mode : Mode) : Nat → GavlTree β → Bool
  | 0, _ => true
  | todo + 1, t =>
    match searchInternal t addr len mode with
    | some (t, dnode, .bufferMatch) =>
      match removeNodeInternal t dnode with
      | none => true
      | some t => rebalancesWell t &&
        match rebalance t with
        | none => true
        | some t => removesWell addr len mode todo t
    | _ => true

theorem Holds.unique (hst : Holds st t L) (hst' : Holds st t' L') : t = t' :=
  hst.rep.unique hst'.rep (hst.root.symm.trans hst'.root)

theorem removeLoop_avl {todo : Nat} (hst : Holds st t L) (ht : Avl t)
    (hwell : removesWell addr len mode todo st = true)
    (hrun : removeLoop addr len mode todo st = some st') (hst' : Holds st' t' L') : Avl t' := by
  induction todo generalizing st t L with
  | zero => cases hrun
  | succ todo ih =>
    unfold removeLoop at hrun
    cases hroot : st.root with
    | none =>
      rw [hroot] at hrun
      cases hrun
      rwa [← hst.unique hst']
    | some root =>
      rw [hroot] at hrun
      obtain ⟨⟨st₁, p, cmpRet⟩, hsearch, hrun⟩ := bind_eq_some_iff.1 hrun
      rw [removesWell, hsearch] at hwell
      dsimp only at hrun hwell
      obtain ⟨C, a, l, r, rfl, rfl, -, rfl⟩ := searchInternal_spec hst hsearch
      have hst₁ := hst.searched (C.map Frame.p) (some p)
      by_cases hmatch : nodeCmp a addr len mode = .bufferMatch
      · rw [if_pos hmatch] at hrun
        rw [hmatch] at hwell
        obtain ⟨st₂, hremove, hrun⟩ := bind_eq_some_iff.1 hrun
        obtain ⟨st₃, hrebalance, hrun⟩ := bind_eq_some_iff.1 hrun
        dsimp only at hwell
        rw [hremove] at hwell
        obtain ⟨hwell₂, hwell⟩ := Bool.and_eq_true_iff.1 hwell
        rw [hrebalance] at hwell
        obtain ⟨E, s, m, b, hrem, hst₂, hcur, hstack, -⟩ :=
          removeNodeInternal_spec hst₁ rfl hremove
        obtain ⟨hs, hE⟩ := hrem.avl ht
        obtain ⟨t₃, hst₃, ht₃⟩ := rebalance_removed hst₂ hs hE hcur hstack hwell₂ hrebalance
        exact ih hst₃ ht₃ hwell hrun
      · rw [if_neg hmatch] at hrun
        cases hrun
        rwa [← hst₁.unique hst']

theorem avl_leaf {n : Nat} {val : β} : Avl (leaf n addr len val) :=
  ⟨rfl, Nat.zero_le _, Nat.zero_le _, trivial, trivial⟩

theorem Inserts.avl {val : β} {memory : Bool} {t₁ : PTree (Info β)} {L₁ : List (Nat × Info β)}
    (hins : Inserts st t L addr len val memory st₁ t₁ L₁ st') (ht₁ : Avl t₁)
    (hst' : Holds st' t' L') : Avl t' := by
  cases memory with
  | false =>
    obtain rfl : st' = st₁ := hins.linked
    rwa [← hins.holds.unique hst']
  | true =>
    obtain ⟨D, st₂, rfl, -, hst₂, -, -, -, hend⟩ := hins.linked
    have hD := (avl_plug.1 ht₁).2
    rcases hend with ⟨rfl, rfl⟩ | ⟨hcur, hstack, hrebalance⟩
    · rw [← hst₂.unique hst']
      exact avl_leaf
    · cases D with
      | nil =>
        unfold rebalance at hrebalance
        rw [hcur] at hrebalance
        cases hrebalance
        rw [← hst₂.unique hst']
        exact avl_leaf
      | cons f D =>
        obtain ⟨H, hH, hholds⟩ := rebalance_loop hst₂ hcur hrebalance
        rw [rebalanceLoop_eq, hstack] at hH
        obtain ⟨H', t₂, hH', hch, ht₂⟩ := rebalance_higher hst₂.rep hst₂.tree_nodup avl_leaf hD
          (.inr ⟨rfl, .inl rfl⟩)
        obtain rfl : H = H' := Option.some.inj (hH.symm.trans hH')
        rwa [← (hholds hch).1.unique hst']

/-! ## Runs -/

def shape (H : Heap (Info β)) : Nat → Option Nat → PTree (Info β)
  | _, none => .nil
  | 0, some _ => .nil
  | todo + 1, some p =>
    match H p with
    | none => .nil
    | some n => .node p n.info (shape H todo n.left) (shape H todo n.right)

theorem shape_eq {par : Option Nat} {todo : Nat} (hrep : Rep H par t)
    (htodo : t.ptrs.length ≤ todo) : shape H todo t.ptr = t := by
  induction t generalizing par todo with
  | nil => cases todo <;> rfl
  | node p a l r ihl ihr =>
    obtain ⟨hp, hl, hr⟩ := hrep
    rw [PTree.ptrs, length_cons, length_append] at htodo
    obtain ⟨todo, rfl⟩ : ∃ n, todo = n + 1 := ⟨todo - 1, by omega⟩
    have hcl : shape H todo l.ptr = l := ihl hl (by omega)
    have hcr : shape H todo r.ptr = r := ihr hr (by omega)
    simp only [show (PTree.node p a l r).ptr = some p from rfl, shape, hp, hcl, hcr]

def treeOf (st : GavlTree β) : PTree (Info β) := shape st.heap st.fresh st.root

theorem Holds.treeOf (hst : Holds st t L) : treeOf st = t := by
  have := hst.length_le
  rw [Gavl.treeOf, hst.root, shape_eq hst.rep (by omega)]

instance decidableAvl : (t : PTree (Info β)) → Decidable (Avl t)
  | .nil => inferInstanceAs (Decidable True)
  | .node _ _ l r =>
    have := decidableAvl l
    have := decidableAvl r
    inferInstanceAs (Decidable (_ ∧ _ ∧ _ ∧ Avl l ∧ Avl r))

/-- The parent and child pointers match and the root has no parent, the start addresses are in order, the
stored heights are the ones of the subtrees, and the children of every node differ by at most one level. -/
structure Valid (st : GavlTree β) : Prop where
  links : Rep st.heap none (treeOf st)
  root : st.root = (treeOf st).ptr
  distinct : (treeOf st).ptrs.Nodup
  order : (ranges (treeOf st)).Pairwise fun x y => x.addr ≤ y.addr
  balanced : Avl (treeOf st)

def Well (u : Use β) (call : Call β) : Prop :=
  match call with
  | .insert addr len _ _ => removesWell addr len .subset (u.tree.fresh + 1) u.tree = true
  | .deleteRange addr len => removesWell addr len .intersection (u.tree.fresh + 1) u.tree = true
  | .deleteStartAddr addr => removesWell addr 0 .startAddr (u.tree.fresh + 1) u.tree = true

instance (u : Use β) : (call : Call β) → Decidable (Well u call)
  | .insert .. => inferInstanceAs (Decidable (_ = true))
  | .deleteRange .. => inferInstanceAs (Decidable (_ = true))
  | .deleteStartAddr .. => inferInstanceAs (Decidable (_ = true))

variable {u u' : Use β}

theorem Holds.valid_iff (hst : Holds st t L) :
    Valid st ↔ (ranges t).Pairwise (fun x y => x.addr ≤ y.addr) ∧ Avl t := by
  constructor
  · rintro ⟨-, -, -, horder, havl⟩
    rw [hst.treeOf] at horder havl
    exact ⟨horder, havl⟩
  · rintro ⟨horder, havl⟩
    rw [← hst.treeOf] at horder havl
    refine ⟨?_, ?_, ?_, horder, havl⟩
    · rw [hst.treeOf]
      exact hst.rep
    · rw [hst.treeOf]
      exact hst.root
    · rw [hst.treeOf]
      exact hst.tree_nodup

theorem Inserts.sorted {val : β} {memory : Bool} {t₁ : PTree (Info β)} {L₁ : List (Nat × Info β)}
    (hins : Inserts st t L addr len val memory st₁ t₁ L₁ st')
    (horder : (Gavl.ranges t₁).Pairwise fun x y => x.addr ≤ y.addr) (hst' : Holds st' t' L') :
    (Gavl.ranges t').Pairwise fun x y => x.addr ≤ y.addr := by
  cases memory with
  | false =>
    obtain rfl : st' = st₁ := hins.linked
    rwa [← hins.holds.unique hst']
  | true =>
    obtain ⟨D, t₂, hleads, hst₂, hT, hT', -⟩ := hins.ranges
    rw [← hst₂.unique hst', hT']
    rw [hT] at horder
    have hsorted := horder
    rw [rangesOf, rangesOf, ← map_append, pairwise_map] at hsorted
    obtain ⟨hbefore, hafter⟩ := hleads.order hsorted
    obtain ⟨hX, hY, hXY⟩ := pairwise_append.1 horder
    refine pairwise_append.2 ⟨hX, pairwise_cons.2 ⟨fun y hy => ?_, hY⟩, fun x hx y hy => ?_⟩
    · obtain ⟨a, ha, rfl⟩ := mem_map.1 hy
      exact Nat.le_of_lt (hafter a ha)
    · rcases mem_cons.1 hy with rfl | hy
      · obtain ⟨a, ha, rfl⟩ := mem_map.1 hx
        exact hbefore a ha
      · exact hXY x hx y hy

theorem Valid.step {call : Call β} (hst : Holds u.tree t L) (hvalid : Valid u.tree)
    (hwell : Well u call) (hstep : u.step call = some u') : Valid u'.tree := by
  obtain ⟨horder, havl⟩ := hst.valid_iff.1 hvalid
  rcases Use.step_spec hst hstep with ⟨addr, len, val, memory, st₁, t₁, L₁, rfl, hins, -⟩ |
    ⟨addr, len, mode, st₁, t₁, L₁, htarget, hdel, -⟩
  · obtain ⟨t', hst'⟩ := hins.holds'
    have havl₁ : Avl t₁ := removeLoop_avl hst havl hwell hins.removed hins.holds
    exact hst'.valid_iff.2 ⟨hins.sorted (horder.sublist hins.taken.sublist) hst', hins.avl havl₁ hst'⟩
  · have hwell : removesWell addr len mode (u.tree.fresh + 1) u.tree = true := by
      cases call with
      | insert => cases htarget
      | deleteRange addr len =>
        obtain ⟨rfl, rfl, rfl⟩ : _ ∧ _ ∧ _ := by simpa [Call.target] using htarget
        exact hwell
      | deleteStartAddr addr =>
        obtain ⟨rfl, rfl, rfl⟩ : _ ∧ _ ∧ _ := by simpa [Call.target] using htarget
        exact hwell
    have havl₁ : Avl t₁ := removeLoop_avl hst havl hwell hdel.removed hdel.holds
    exact hdel.rest.valid_iff.2 ⟨horder.sublist hdel.taken.sublist, havl₁⟩

theorem gavl_valid {freeFn : Bool} (h : (gavlSys β freeFn).ReachWhen Well u) : Valid u.tree := by
  refine Sys.ReachWhen.inv (I := fun u => Valid u.tree) ?_ (fun hr hi hc hs => ?_) h
  · exact (create_holds freeFn).valid_iff.2 ⟨List.Pairwise.nil, trivial⟩
  · obtain ⟨t, L, hst⟩ := reach_holds hr
    exact Valid.step hst hi hc hs

/-- Eight ranges at which the deletion of the one with the lowest start address goes well. -/
theorem gavl_valid_eight : ∃ u, (gavlSys Nat true).exec ⟨create true, []⟩
    [.insert 40 5 0 true, .insert 20 5 1 true, .insert 60 5 2 true, .insert 10 5 3 true,
      .insert 30 5 4 true, .insert 50 5 5 true, .insert 70 5 6 true, .insert 80 5 7 true,
      .deleteRange 10 25] = some u ∧ Valid u.tree := by
  have hrun : (((gavlSys Nat true).checked Well).exec (gavlSys Nat true).init
    [.insert 40 5 0 true, .insert 20 5 1 true, .insert 60 5 2 true, .insert 10 5 3 true,
      .insert 30 5 4 true, .insert 50 5 5 true, .insert 70 5 6 true, .insert 80 5 7 true,
      .deleteRange 10 25]).map (fun _ => ()) = some () := by decide
  obtain ⟨u, hu, -⟩ := map_eq_some_iff.1 hrun
  obtain ⟨hexec, halong⟩ := Sys.checked_along hu
  exact ⟨u, hexec, gavl_valid (@Sys.exec_reachWhen _ _ _ _ _ _ _ [] .init rfl halong hexec)⟩

/-- After a deletion to the left of a right child with equally high children, a node has no left child and a
right one with two levels. -/
theorem gavl_out_of_balance : ∃ u, (gavlSys Nat true).exec ⟨create true, []⟩
    [.insert 200 5 0 true, .insert 100 5 1 true, .insert 400 5 2 true, .insert 50 5 3 true,
      .insert 300 5 4 true, .insert 500 5 5 true, .insert 250 5 6 true, .insert 600 5 7 true,
      .deleteStartAddr 50] = some u ∧ ¬Valid u.tree := by
  have hrun : ((gavlSys Nat true).exec ⟨create true, []⟩
    [.insert 200 5 0 true, .insert 100 5 1 true, .insert 400 5 2 true, .insert 50 5 3 true,
      .insert 300 5 4 true, .insert 500 5 5 true, .insert 250 5 6 true, .insert 600 5 7 true,
      .deleteStartAddr 50]).map (fun u => decide (Avl (treeOf u.tree))) = some false := by
    decide
  obtain ⟨u, hu, heq⟩ := map_eq_some_iff.1 hrun
  exact ⟨u, hu, fun h => of_decide_eq_false heq h.balanced⟩

end balance

end PsMpi.Gavl
