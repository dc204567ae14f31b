import PsMpi.Gavl.Tree

/-!
# Rotations of the tree in memory
-/

open PsMpi.Lib.PtrTree List Option Function

namespace PsMpi.Gavl

section links

variable {β : Type} {H : Heap (Info β)} {C : List (Frame (Info β))} {d : Side} {p q : Nat}
  {a b : Info β} {l r x y z : PTree (Info β)} {par : Option Nat}

/-! ## Heights -/

def stored : PTree (Info β) → Nat
  | .nil => 0
  | .node _ a _ _ => a.height

def Info.above (a : Info β) (l r : PTree (Info β)) : Info β :=
  { a with height := max (stored l) (stored r) + 1 }

theorem Info.above_comm (a : Info β) (l r : PTree (Info β)) : a.above l r = a.above r l := by
  rw [Info.above, Info.above, Nat.max_comm]

theorem height_ptr (h : Rep H par l) : height H l.ptr = some (stored l) := by
  cases l with
  | nil => rfl
  | node p a l r =>
    obtain ⟨hp, -⟩ := h
    rw [PTree.ptr, height, hp]
    rfl

theorem updateNodeInfo_spec (h : Rep H none (plug C (.mk d p a l r)))
    (hnodup : (plug C (.mk d p a l r)).ptrs.Nodup) :
    ∃ H', updateNodeInfo H p = some H' ∧
      Change H (plug C (.mk d p a l r)) H' (plug C (.mk d p (a.above l r) l r)) := by
  obtain ⟨hp, hl, hr⟩ := rep_mk.1 (rep_plug.1 h).1
  refine ⟨_, ?_, h.setInfo hnodup⟩
  unfold updateNodeInfo
  rw [hp]
  have hmax : ∀ m n : Nat, (if m < n then n else m) = max m n := by
    intro m n
    split <;> omega
  cases d with
  | left =>
    simp only [bind, bind_some, Node.of, height_ptr hl, height_ptr hr, hmax]
    rfl
  | right =>
    simp only [bind, bind_some, Node.of, height_ptr hl, height_ptr hr, hmax]
    rw [Info.above_comm]
    rfl

/-! ## Links -/

theorem setChild_of {n : Node (Info β)} (h : H p = some n) (d : Side) (x : Option Nat) :
    setChild H d p x = some (Function.update H p (some (n.setChild x d))) := by
  rw [setChild, h]
  rfl

theorem setParent_of {n : Node (Info β)} (h : H p = some n) (x : Option Nat) :
    setParent H p x = some (Function.update H p (some { n with parent := x })) := by
  rw [setParent, h]
  rfl

theorem setParent?_spec {x : Option Nat} (h : ∀ w, x = some w → (H w).isSome = true)
    (par : Option Nat) : ∃ H', setParent? H x par = some H' ∧
      (∀ w, x = some w → H' w = (H w).map fun n => { n with parent := par }) ∧
        ∀ w, x ≠ some w → H' w = H w := by
  cases x with
  | none => exact ⟨H, rfl, fun w hw => (nomatch hw), fun w _ => rfl⟩
  | some w =>
    obtain ⟨n, hn⟩ := isSome_iff_exists.1 (h w rfl)
    refine ⟨_, setParent_of hn par, fun v hv => ?_, fun v hv => ?_⟩
    · cases hv
      rw [update_self, hn]
      rfl
    · exact update_of_ne (fun heq => hv (congrArg some heq.symm)) _ _

theorem replaceChild_spec {f : Frame (Info β)}
    (hf : H f.p = some (.of f.side par (some p) f.sib.ptr f.a)) (hsib : p ∉ f.sib.ptrs)
    (x : Option Nat) : replaceChild H f.p p x =
      some (Function.update H f.p (some (.of f.side par x f.sib.ptr f.a))) := by
  have hcheck : (if (Node.of f.side par (some p) f.sib.ptr f.a).left = some p then Side.left
      else .right) = f.side := by
    cases f.side with
    | left => exact if_pos rfl
    | right => exact if_neg fun h => hsib (ptr_mem h)
  rw [replaceChild, hf, bind_some, hcheck, setChild_of hf, Node.of_setChild]

theorem replaceTop_spec (hctx : CtxRep H C (some p)) (hp : p ∉ ctxPtrs C) (x : Option Nat) :
    ∃ H', replaceChild? H (above C) p x = some H' ∧
      (∀ f ∈ C.head?, H' f.p = (H f.p).map fun n => n.setChild x f.side) ∧
        ∀ w, above C ≠ some w → H' w = H w := by
  cases C with
  | nil => exact ⟨H, rfl, fun f hf => (nomatch hf), fun w _ => rfl⟩
  | cons f C =>
    rw [ctxPtrs_cons, mem_cons, mem_append, not_or, not_or] at hp
    refine ⟨_, replaceChild_spec hctx.1 hp.2.1 x, fun g hg => ?_, fun w hw => ?_⟩
    · cases hg
      rw [update_self, hctx.1, map_some, Node.of_setChild]
    · exact update_of_ne (fun heq => hw (congrArg some heq.symm)) _ _

/-! ## Rotations -/

def rotated (d : Side) (p : Nat) (a : Info β) (q : Nat) (b : Info β) (x y z : PTree (Info β)) :
    PTree (Info β) :=
  .mk d q (b.above x (.mk d p (a.above y z) y z)) x (.mk d p (a.above y z) y z)

theorem rotation_links (h : Rep H none (plug C (.mk d p a (.mk d q b x y) z)))
    (hnodup : (plug C (.mk d p a (.mk d q b x y) z)).ptrs.Nodup) :
    ∃ H', Change H (plug C (.mk d p a (.mk d q b x y) z)) H' (plug C (.mk d q b x (.mk d p a y z))) ∧
      rotation d H p q = (updateNodeInfo H' p).bind fun H => updateNodeInfo H q := by
  have hall := (ptrs_plug.trans (ptrs_nested.append_right (ctxPtrs C))).nodup_iff.1 hnodup
  simp only [cons_append, nodup_cons, mem_cons, mem_append, not_or,
    nodup_append, append_assoc] at hall
  obtain ⟨⟨hpq, hpx, hpy, hpz, hpc⟩, ⟨hqx, hqy, hqz, hqc⟩, -, ⟨-, -, hyzc⟩, -⟩ := hall
  obtain ⟨hp, hsub, hz⟩ := rep_mk.1 (rep_plug.1 h).1
  obtain ⟨hq, hx, hy⟩ := rep_mk.1 hsub
  rw [PTree.ptr_mk] at hp
  have hctx := (rep_plug.1 h).2
  rw [PTree.ptr_mk] at hctx
  -- the links between the two nodes
  obtain ⟨H₁, hH₁⟩ : ∃ H₁, Function.update H p (some (.of d (above C) y.ptr z.ptr a)) = H₁ :=
    ⟨_, rfl⟩
  obtain ⟨H₃, hH₃⟩ : ∃ H₃, Function.update H₁ q (some (.of d (above C) x.ptr (some p) b)) = H₃ :=
    ⟨_, rfl⟩
  have hp₁ : H₁ p = some (.of d (above C) y.ptr z.ptr a) := by rw [← hH₁, update_self]
  have hq₁ : H₁ q = some (.of d (some p) x.ptr y.ptr b) := by
    rw [← hH₁, update_of_ne (Ne.symm hpq), hq]
  have hp₃ : H₃ p = some (.of d (above C) y.ptr z.ptr a) := by
    rw [← hH₃, update_of_ne hpq, hp₁]
  have hq₃ : H₃ q = some (.of d (above C) x.ptr (some p) b) := by rw [← hH₃, update_self]
  have hkeep₃ : ∀ w, w ≠ p → w ≠ q → H₃ w = H w := by
    intro w hwp hwq
    rw [← hH₃, update_of_ne hwq, ← hH₁, update_of_ne hwp]
  -- the link from above
  have hctx₃ : CtxRep H₃ C (some p) := hctx.congr fun w hw => hkeep₃ w
    (fun heq => hpc (heq ▸ hw)) fun heq => hqc (heq ▸ hw)
  obtain ⟨H₄, htop, htop₁, htop₂⟩ := replaceTop_spec hctx₃ hpc (some q)
  have hnotc : ∀ w, w ∉ ctxPtrs C → above C ≠ some w := fun w hw heq => hw (above_mem heq)
  have hp₄ : H₄ p = some (.of d (above C) y.ptr z.ptr a) := (htop₂ p (hnotc p hpc)).trans hp₃
  obtain ⟨H₅, hH₅⟩ : ∃ H₅, Function.update H₄ p (some (.of d (some q) y.ptr z.ptr a)) = H₅ :=
    ⟨_, rfl⟩
  have hp₅ : H₅ p = some (.of d (some q) y.ptr z.ptr a) := by rw [← hH₅, update_self]
  have hkeep₅ : ∀ w, w ≠ p → H₅ w = H₄ w := fun w hw => by rw [← hH₅, update_of_ne hw]
  -- the link to the child that changes its side
  have hy₅ : ∀ w, y.ptr = some w → H₅ w = H w := by
    intro w hw
    have hmem := ptr_mem hw
    have hwp : w ≠ p := fun heq => hpy (heq ▸ hmem)
    rw [hkeep₅ w hwp, htop₂ w (hnotc w fun hw' => hyzc w hmem w (.inr hw') rfl),
      hkeep₃ w hwp fun heq => hqy (heq ▸ hmem)]
  obtain ⟨H₆, hH₆, hset₁, hset₂⟩ := setParent?_spec (H := H₅) (x := y.ptr)
    (fun w hw => by rw [hy₅ w hw]; exact hy.isSome w (ptr_mem hw)) (some p)
  have hnoty : ∀ w, w ∉ y.ptrs → y.ptr ≠ some w := fun w hw heq => hw (ptr_mem heq)
  refine ⟨H₆, h.rotate hnodup ?_ ?_ ?_ ?_ ?_, ?_⟩
  · rw [hset₂ p (hnoty p hpy), hp₅]
  · rw [hset₂ q (hnoty q hqy), hkeep₅ q (Ne.symm hpq), htop₂ q (hnotc q hqc), hq₃]
  · intro w hw
    rw [hset₁ w hw, hy₅ w hw]
  · intro f hf
    have hfc : f.p ∈ ctxPtrs C := above_mem (by rw [above, hf]; rfl)
    have hfp : f.p ≠ p := fun heq => hpc (heq ▸ hfc)
    rw [hset₂ f.p (hnoty _ fun hw => hyzc _ hw _ (.inr hfc) rfl), hkeep₅ _ hfp, htop₁ f hf,
      hkeep₃ _ hfp fun heq => hqc (heq ▸ hfc)]
  · intro w hwp hwq hwy hwc
    rw [hset₂ w hwy, hkeep₅ w hwp, htop₂ w hwc, hkeep₃ w hwp hwq]
  · unfold rotation
    simp only [bind, hq, bind_some, Node.of_child_flip, setChild_of hp, Node.of_setChild,
      hH₁, setChild_of hq₁, Node.of_setChild_flip]
    rw [update_of_ne hpq, hp₁, bind_some, Node.of_parent,
      setParent_of (update_self ..), bind_some, Node.of_setParent,
      update_idem, hH₃, htop, bind_some, setParent_of hp₄, bind_some,
      Node.of_setParent, hH₅, hp₅, bind_some, Node.of_child, hH₆]
    rfl

theorem rotation_spec (h : Rep H none (plug C (.mk d p a (.mk d q b x y) z)))
    (hnodup : (plug C (.mk d p a (.mk d q b x y) z)).ptrs.Nodup) :
    ∃ H', rotation d H p q = some H' ∧
      Change H (plug C (.mk d p a (.mk d q b x y) z)) H' (plug C (rotated d p a q b x y z)) := by
  obtain ⟨H₀, h₀, hrot⟩ := rotation_links h hnodup
  have hplace : ∀ t : PTree (Info β), plug C (.mk d q b x t) =
      plug (⟨d.flip, q, b, x⟩ :: C) t := by
    intro t
    rw [plug, Frame.fill, PTree.mk_flip]
  have hrep₀ := h₀.rep
  have hnodup₀ := h₀.nodup hnodup
  rw [hplace] at hrep₀ hnodup₀
  obtain ⟨H₁, hH₁, h₁⟩ := updateNodeInfo_spec hrep₀ hnodup₀
  rw [← hplace, ← hplace] at h₁
  have h₀₁ := h₀.trans h₁
  obtain ⟨H₂, hH₂, h₂⟩ := updateNodeInfo_spec h₀₁.rep (h₀₁.nodup hnodup)
  refine ⟨H₂, ?_, h₀₁.trans h₂⟩
  rw [hrot, hH₁, bind_some, hH₂]

def doubleRotation (d : Side) (H : Heap (Info β)) (p q : Nat) : Option (Heap (Info β)) := do
  let s ← (← H q).child d.flip
  let H ← rotation d.flip H q s
  rotation d H p s

theorem leftRightRotation_eq : leftRightRotation H p q = doubleRotation .left H p q := by
  unfold leftRightRotation doubleRotation
  cases H q <;> rfl

theorem rightLeftRotation_eq : rightLeftRotation H p q = doubleRotation .right H p q := by
  unfold rightLeftRotation doubleRotation
  cases H q <;> rfl

def doubled (d : Side) (p : Nat) (a : Info β) (q : Nat) (b : Info β) (s : Nat) (c : Info β)
    (x u v z : PTree (Info β)) : PTree (Info β) :=
  rotated d p a s (c.above v (.mk d q (b.above x u) x u)) (.mk d q (b.above x u) x u) v z

theorem doubleRotation_spec {s : Nat} {c : Info β} {u v : PTree (Info β)}
    (h : Rep H none (plug C (.mk d p a (.mk d q b x (.mk d s c u v)) z)))
    (hnodup : (plug C (.mk d p a (.mk d q b x (.mk d s c u v)) z)).ptrs.Nodup) :
    ∃ H', doubleRotation d H p q = some H' ∧
      Change H (plug C (.mk d p a (.mk d q b x (.mk d s c u v)) z)) H'
        (plug C (doubled d p a q b s c x u v z)) := by
  have hq : H q = some (.of d (some p) x.ptr (some s) b) := by
    have := (rep_mk.1 (rep_mk.1 (rep_plug.1 h).1).2.1).1
    rwa [PTree.ptr_mk] at this
  have hplace : ∀ t : PTree (Info β), plug C (.mk d p a t z) = plug (⟨d, p, a, z⟩ :: C) t :=
    fun _ => rfl
  have hinner : (PTree.mk d q b x (.mk d s c u v)) = .mk d.flip q b (.mk d.flip s c v u) x := by
    rw [PTree.mk_flip, PTree.mk_flip]
  have houter : rotated d.flip q b s c v u x =
      .mk d s (c.above v (.mk d q (b.above x u) x u)) (.mk d q (b.above x u) x u) v := by
    rw [rotated, PTree.mk_flip, PTree.mk_flip, Info.above_comm b u x]
  have h₀ := h
  have hnodup₀ := hnodup
  rw [hplace, hinner] at h₀ hnodup₀
  obtain ⟨H₁, hH₁, h₁⟩ := rotation_spec h₀ hnodup₀
  rw [← hinner, ← hplace, houter, ← hplace] at h₁
  obtain ⟨H₂, hH₂, h₂⟩ := rotation_spec h₁.rep (h₁.nodup hnodup)
  refine ⟨H₂, ?_, h₁.trans h₂⟩
  unfold doubleRotation
  rw [hq]
  simp only [bind, bind_some, Node.of_child_flip]
  rw [hH₁, bind_some, hH₂]

/-! ## Rebalancing of a node -/

def fixNode : PTree (Info β) → Option (PTree (Info β))
  | .nil => none
  | .node p a l r =>
    if stored r + 1 < stored l then
      match l with
      | .nil => none
      | .node q b x y =>
        if stored x + 1 = stored l then some (rotated .left p (a.above l r) q b x y r)
        else match y with
          | .nil => none
          | .node s c u v => some (doubled .left p (a.above l r) q b s c x u v r)
    else if stored l + 1 < stored r then
      match r with
      | .nil => none
      | .node q b y x =>
        if stored y + 1 = stored r then
          match y with
          | .nil => none
          | .node s c v u => some (doubled .right p (a.above l r) q b s c x u v l)
        else some (rotated .right p (a.above l r) q b x y l)
    else some (.node p (a.above l r) l r)

theorem rebalanceNode_spec (h : Rep H none (plug C (.node p a l r)))
    (hnodup : (plug C (.node p a l r)).ptrs.Nodup) :
    match fixNode (.node p a l r) with
    | none => rebalanceNode H p = none
    | some t => ∃ H', rebalanceNode H p = some H' ∧
        Change H (plug C (.node p a l r)) H' (plug C t) := by
  obtain ⟨H₁, hH₁, h₁⟩ := updateNodeInfo_spec (d := .left) h hnodup
  have hsub := (rep_plug.1 h₁.rep).1
  have hp := hsub.1
  have hl := hsub.2.1
  have hr := hsub.2.2
  have hnodup₁ := h₁.nodup hnodup
  unfold rebalanceNode fixNode
  simp only [bind, hH₁, bind_some, hp, height_ptr hl, height_ptr hr]
  by_cases hleft : stored r + 1 < stored l
  · rw [if_pos hleft, if_pos hleft]
    cases l with
    | nil => rfl
    | node q b x y =>
      obtain ⟨hq, hx, -⟩ := hl
      simp only [show (PTree.node q b x y).ptr = some q from rfl, bind_some, hq, height_ptr hx]
      by_cases houter : stored x + 1 = stored (.node q b x y)
      · rw [if_pos houter, if_pos houter]
        obtain ⟨H₂, hH₂, h₂⟩ := rotation_spec (d := .left) h₁.rep hnodup₁
        exact ⟨H₂, hH₂, h₁.trans h₂⟩
      · rw [if_neg houter, if_neg houter, leftRightRotation_eq]
        cases y with
        | nil =>
          dsimp only
          rw [doubleRotation, hq]
          rfl
        | node s c u v =>
          obtain ⟨H₂, hH₂, h₂⟩ := doubleRotation_spec (d := .left) h₁.rep hnodup₁
          exact ⟨H₂, hH₂, h₁.trans h₂⟩
  · rw [if_neg hleft, if_neg hleft]
    by_cases hright : stored l + 1 < stored r
    · rw [if_pos hright, if_pos hright]
      cases r with
      | nil => rfl
      | node q b y x =>
        obtain ⟨hq, hy, -⟩ := hr
        simp only [show (PTree.node q b y x).ptr = some q from rfl, bind_some, hq,
          height_ptr hy]
        by_cases hinner : stored y + 1 = stored (.node q b y x)
        · rw [if_pos hinner, if_pos hinner, rightLeftRotation_eq]
          cases y with
          | nil =>
            dsimp only
            rw [doubleRotation, hq]
            rfl
          | node s c v u =>
            obtain ⟨H₂, hH₂, h₂⟩ := doubleRotation_spec (d := .right) h₁.rep hnodup₁
            exact ⟨H₂, hH₂, h₁.trans h₂⟩
        · rw [if_neg hinner, if_neg hinner]
          obtain ⟨H₂, hH₂, h₂⟩ := rotation_spec (d := .right) h₁.rep hnodup₁
          exact ⟨H₂, hH₂, h₁.trans h₂⟩
    · rw [if_neg hright, if_neg hright]
      exact ⟨H₁, rfl, h₁⟩

end links

end PsMpi.Gavl
