import Mathlib.Data.List.Perm.Basic

/-!
# Binary trees of linked nodes

A node has the addresses of its parent and its children.
-/

open List Function

namespace PsMpi.Lib.PtrTree

inductive Side where
  | left
  | right

def Side.flip : Side → Side
  | .left => .right
  | .right => .left

structure Node (α : Type) where
  parent : Option Nat
  left : Option Nat
  right : Option Nat
  info : α

abbrev Heap (α : Type) := Nat → Option (Node α)

inductive PTree (α : Type) where
  | nil
  | node (p : Nat) (a : α) (l r : PTree α)

section trees

variable {α : Type}

def Node.child (n : Node α) : Side → Option Nat
  | .left => n.left
  | .right => n.right

def Node.setChild (n : Node α) (x : Option Nat) : Side → Node α
  | .left => { n with left := x }
  | .right => { n with right := x }

def PTree.ptr : PTree α → Option Nat
  | .nil => none
  | .node p _ _ _ => some p

def PTree.ptrs : PTree α → List Nat
  | .nil => []
  | .node p _ l r => p :: (l.ptrs ++ r.ptrs)

def PTree.infos : PTree α → List α
  | .nil => []
  | .node _ a l r => l.infos ++ a :: r.infos

def PTree.mk (d : Side) (p : Nat) (a : α) (t s : PTree α) : PTree α :=
  match d with
  | .left => .node p a t s
  | .right => .node p a s t

def Node.of (d : Side) (par x y : Option Nat) (a : α) : Node α :=
  match d with
  | .left => ⟨par, x, y, a⟩
  | .right => ⟨par, y, x, a⟩

def Rep (H : Heap α) : Option Nat → PTree α → Prop
  | _, .nil => True
  | par, .node p a l r =>
    H p = some ⟨par, l.ptr, r.ptr, a⟩ ∧ Rep H (some p) l ∧ Rep H (some p) r

/-! ## Places in a tree -/

/-- A node around a place: the place is on a side of it, and there is a tree on the other side. -/
structure Frame (α : Type) where
  side : Side
  p : Nat
  a : α
  sib : PTree α

def Frame.fill (f : Frame α) (t : PTree α) : PTree α := .mk f.side f.p f.a t f.sib

def plug : List (Frame α) → PTree α → PTree α
  | [], t => t
  | f :: C, t => plug C (f.fill t)

def ctxPtrs (C : List (Frame α)) : List Nat := C.flatMap fun f => f.p :: f.sib.ptrs

def above (C : List (Frame α)) : Option Nat := C.head?.map Frame.p

def CtxRep (H : Heap α) : List (Frame α) → Option Nat → Prop
  | [], _ => True
  | f :: C, x => H f.p = some (.of f.side (above C) x f.sib.ptr f.a) ∧ Rep H (some f.p) f.sib ∧
    CtxRep H C (some f.p)

variable {H H' : Heap α} {par : Option Nat} {t t' s : PTree α} {C : List (Frame α)}
  {f : Frame α} {d : Side} {p : Nat} {a : α}

section of

variable {x y z par' : Option Nat}

@[simp] theorem Node.of_child : (Node.of d par x y a).child d = x := by
  cases d <;> rfl

@[simp] theorem Node.of_child_flip : (Node.of d par x y a).child d.flip = y := by
  cases d <;> rfl

@[simp] theorem Node.of_parent : (Node.of d par x y a).parent = par := by
  cases d <;> rfl

@[simp] theorem Node.of_info : (Node.of d par x y a).info = a := by
  cases d <;> rfl

@[simp] theorem Node.of_setChild : (Node.of d par x y a).setChild z d = .of d par z y a := by
  cases d <;> rfl

@[simp] theorem Node.of_setChild_flip :
    (Node.of d par x y a).setChild z d.flip = .of d par x z a := by
  cases d <;> rfl

@[simp] theorem Node.of_setParent :
    { Node.of d par x y a with parent := par' } = Node.of d par' x y a := by
  cases d <;> rfl

end of

@[simp] theorem PTree.ptr_mk : (PTree.mk d p a t s).ptr = some p := by
  cases d <;> rfl

theorem PTree.ptrs_mk : (PTree.mk d p a t s).ptrs.Perm (p :: (t.ptrs ++ s.ptrs)) := by
  cases d with
  | left => exact List.Perm.refl _
  | right => exact perm_append_comm.cons p

theorem rep_mk : Rep H par (.mk d p a t s) ↔
    H p = some (.of d par t.ptr s.ptr a) ∧ Rep H (some p) t ∧ Rep H (some p) s := by
  cases d with
  | left => exact Iff.rfl
  | right => exact and_congr Iff.rfl and_comm

theorem Rep.congr (h : Rep H par t) (hH : ∀ q ∈ t.ptrs, H' q = H q) : Rep H' par t := by
  induction t generalizing par with
  | nil => trivial
  | node p a l r ihl ihr =>
    obtain ⟨hp, hl, hr⟩ := h
    refine ⟨(hH p mem_cons_self).trans hp, ihl hl fun q hq => hH q ?_,
      ihr hr fun q hq => hH q ?_⟩
    · exact mem_cons_of_mem _ (mem_append_left _ hq)
    · exact mem_cons_of_mem _ (mem_append_right _ hq)

theorem Rep.isSome (h : Rep H par t) : ∀ q ∈ t.ptrs, (H q).isSome = true := by
  induction t generalizing par with
  | nil => exact nofun
  | node p a l r ihl ihr =>
    obtain ⟨hp, hl, hr⟩ := h
    intro q hq
    rcases mem_cons.1 hq with rfl | hq
    · rw [hp]
      rfl
    · rcases mem_append.1 hq with hq | hq
      · exact ihl hl q hq
      · exact ihr hr q hq

theorem Rep.unique (h : Rep H par t) (h' : Rep H par t') (hptr : t.ptr = t'.ptr) : t = t' := by
  induction t generalizing par t' with
  | nil =>
    cases t' with
    | nil => rfl
    | node p a l r => cases hptr
  | node p a l r ihl ihr =>
    cases t' with
    | nil => cases hptr
    | node q b l' r' =>
      cases hptr
      obtain ⟨hp, hl, hr⟩ := h
      obtain ⟨hp', hl', hr'⟩ := h'
      have heq := Option.some.inj (hp.symm.trans hp')
      injection heq with _ hlptr hrptr hinfo
      rw [ihl hl hl' hlptr, ihr hr hr' hrptr, hinfo]

theorem ptr_mem (h : t.ptr = some p) : p ∈ t.ptrs := by
  cases t with
  | nil => cases h
  | node q a l r =>
    cases h
    exact mem_cons_self

theorem plug_append (C' : List (Frame α)) : plug (C ++ C') t = plug C' (plug C t) := by
  induction C generalizing t with
  | nil => rfl
  | cons f C ih => exact ih

theorem rep_plug : Rep H none (plug C t) ↔ Rep H (above C) t ∧ CtxRep H C t.ptr := by
  induction C generalizing t with
  | nil => exact ⟨fun h => ⟨h, trivial⟩, And.left⟩
  | cons f C ih =>
    rw [plug, ih, Frame.fill, rep_mk, PTree.ptr_mk, CtxRep]
    constructor
    · rintro ⟨⟨hp, ht, hsib⟩, hctx⟩
      exact ⟨ht, hp, hsib, hctx⟩
    · rintro ⟨ht, hp, hsib, hctx⟩
      exact ⟨⟨hp, ht, hsib⟩, hctx⟩

theorem ctxPtrs_cons : ctxPtrs (f :: C) = f.p :: (f.sib.ptrs ++ ctxPtrs C) := by
  rw [ctxPtrs, flatMap_cons, cons_append]
  rfl

theorem mem_ctxPtrs (h : f ∈ C) : f.p ∈ ctxPtrs C :=
  mem_flatMap.2 ⟨f, h, mem_cons_self⟩

theorem ptrs_plug : (plug C t).ptrs.Perm (t.ptrs ++ ctxPtrs C) := by
  induction C generalizing t with
  | nil => rw [ctxPtrs, flatMap_nil, append_nil]; exact List.Perm.refl _
  | cons f C ih =>
    refine ih.trans ((PTree.ptrs_mk.append_right _).trans ?_)
    rw [ctxPtrs_cons, cons_append, append_assoc]
    exact perm_middle.symm

theorem plug_ptr (hC : C ≠ []) : (plug C t).ptr = (plug C s).ptr := by
  induction C generalizing t s with
  | nil => exact absurd rfl hC
  | cons f C ih =>
    cases C with
    | nil => rw [plug, plug, plug, plug, Frame.fill, Frame.fill, PTree.ptr_mk, PTree.ptr_mk]
    | cons g C => exact ih (cons_ne_nil g C)

theorem length_le_ptrs : C.length ≤ (plug C t).ptrs.length := by
  induction C generalizing t with
  | nil => exact Nat.zero_le _
  | cons f C ih =>
    rw [plug, ptrs_plug.length_eq, length_append, Frame.fill, PTree.ptrs_mk.length_eq,
      length_cons, length_cons]
    have := @ih .nil
    rw [ptrs_plug.length_eq, length_append, PTree.ptrs, length_nil] at this
    omega

theorem nodup_of_plug (h : (plug C t).ptrs.Nodup) : (plug C .nil).ptrs.Nodup :=
  ptrs_plug.nodup_iff.2 (nodup_append.1 (ptrs_plug.nodup_iff.1 h)).2.1

theorem exists_plug (h : p ∈ t.ptrs) : ∃ C a l r, t = plug C (.node p a l r) := by
  induction t with
  | nil => cases h
  | node q a l r ihl ihr =>
    rcases mem_cons.1 h with rfl | h
    · exact ⟨[], a, l, r, rfl⟩
    · rcases mem_append.1 h with h | h
      · obtain ⟨C, b, x, y, rfl⟩ := ihl h
        exact ⟨C ++ [⟨.left, q, a, r⟩], b, x, y, by rw [plug_append]; rfl⟩
      · obtain ⟨C, b, x, y, rfl⟩ := ihr h
        exact ⟨C ++ [⟨.right, q, a, l⟩], b, x, y, by rw [plug_append]; rfl⟩

theorem CtxRep.congr {x : Option Nat} (h : CtxRep H C x) (hH : ∀ q ∈ ctxPtrs C, H' q = H q) :
    CtxRep H' C x := by
  induction C generalizing x with
  | nil => trivial
  | cons f C ih =>
    obtain ⟨hp, hsib, hctx⟩ := h
    rw [ctxPtrs_cons] at hH
    refine ⟨(hH _ mem_cons_self).trans hp, hsib.congr fun q hq => hH q ?_,
      ih hctx fun q hq => hH q ?_⟩
    · exact mem_cons_of_mem _ (mem_append_left _ hq)
    · exact mem_cons_of_mem _ (mem_append_right _ hq)

theorem Rep.replace (h : Rep H none (plug C t)) (hnodup : (plug C t).ptrs.Nodup)
    (hsub : Rep H' (above C) t')
    (htop : ∀ f ∈ C.head?, H' f.p = (H f.p).map fun n => n.setChild t'.ptr f.side)
    (hother : ∀ q ∈ ctxPtrs C, above C ≠ some q → H' q = H q) : Rep H' none (plug C t') := by
  refine rep_plug.2 ⟨hsub, ?_⟩
  have hctx := (rep_plug.1 h).2
  have hnodup' := (nodup_append.1 (ptrs_plug.nodup_iff.1 hnodup)).2.1
  cases C with
  | nil => trivial
  | cons f C =>
    obtain ⟨hp, hsib, hctx⟩ := hctx
    rw [ctxPtrs_cons] at hnodup' hother
    obtain ⟨hnot, -⟩ := nodup_cons.1 hnodup'
    have hkeep : ∀ q ∈ f.sib.ptrs ++ ctxPtrs C, H' q = H q := by
      intro q hq
      refine hother q (mem_cons_of_mem _ hq) fun heq => hnot ?_
      rw [show f.p = q from Option.some.inj heq]
      exact hq
    refine ⟨?_, hsib.congr fun q hq => hkeep q (mem_append_left _ hq),
      hctx.congr fun q hq => hkeep q (mem_append_right _ hq)⟩
    rw [htop f rfl, hp]
    cases f.side <;> rfl

theorem Rep.reparent {par' : Option Nat} (h : Rep H par t) (hnodup : t.ptrs.Nodup)
    (hroot : ∀ q, t.ptr = some q → H' q = (H q).map fun n => { n with parent := par' })
    (hother : ∀ q ∈ t.ptrs, t.ptr ≠ some q → H' q = H q) : Rep H' par' t := by
  cases t with
  | nil => trivial
  | node p a l r =>
    obtain ⟨hp, hl, hr⟩ := h
    obtain ⟨hnot, -⟩ := nodup_cons.1 hnodup
    have hkeep : ∀ q ∈ l.ptrs ++ r.ptrs, H' q = H q := by
      intro q hq
      refine hother q (mem_cons_of_mem _ hq) fun heq => hnot ?_
      rw [show p = q from Option.some.inj heq]
      exact hq
    refine ⟨?_, hl.congr fun q hq => hkeep q (mem_append_left _ hq),
      hr.congr fun q hq => hkeep q (mem_append_right _ hq)⟩
    rw [hroot p rfl, hp]
    rfl

/-! ## The order of the nodes -/

def before : List (Frame α) → List α
  | [] => []
  | f :: C => before C ++ match f.side with
    | .left => []
    | .right => f.sib.infos ++ [f.a]

def after : List (Frame α) → List α
  | [] => []
  | f :: C => (match f.side with
    | .left => f.a :: f.sib.infos
    | .right => []) ++ after C

theorem infos_plug : (plug C t).infos = before C ++ t.infos ++ after C := by
  induction C generalizing t with
  | nil => rw [before, after, append_nil]; rfl
  | cons f C ih =>
    obtain ⟨side, p, a, sib⟩ := f
    rw [plug, ih, before, after]
    cases side with
    | left => simp only [Frame.fill, PTree.mk, PTree.infos, append_assoc, cons_append,
        nil_append]
    | right => simp only [Frame.fill, PTree.mk, PTree.infos, append_assoc, cons_append,
        nil_append]

/-! ## Changes of a tree -/

/-- The heap holds another tree of the same nodes, and the rest of it is as before. -/
structure Change (H : Heap α) (t : PTree α) (H' : Heap α) (t' : PTree α) : Prop where
  rep : Rep H' none t'
  perm : t'.ptrs.Perm t.ptrs
  frame : ∀ q, q ∉ t.ptrs → H' q = H q

theorem Change.refl (h : Rep H none t) : Change H t H t := ⟨h, List.Perm.refl _, fun _ _ => rfl⟩

theorem Change.trans {H'' : Heap α} {t'' : PTree α} (h : Change H t H' t')
    (h' : Change H' t' H'' t'') : Change H t H'' t'' := by
  refine ⟨h'.rep, h'.perm.trans h.perm, fun q hq => ?_⟩
  rw [h'.frame q fun hq' => hq (h.perm.mem_iff.1 hq'), h.frame q hq]

theorem Change.nodup (h : Change H t H' t') (hnodup : t.ptrs.Nodup) : t'.ptrs.Nodup :=
  h.perm.nodup_iff.2 hnodup

theorem PTree.mk_flip : PTree.mk d.flip p a t s = PTree.mk d p a s t := by
  cases d <;> rfl

theorem plug_ptrs_perm (h : t'.ptrs.Perm t.ptrs) : (plug C t').ptrs.Perm (plug C t).ptrs :=
  (ptrs_plug.trans (h.append_right _)).trans ptrs_plug.symm

theorem above_mem {q : Nat} (h : above C = some q) : q ∈ ctxPtrs C := by
  cases C with
  | nil => cases h
  | cons f C =>
    cases h
    rw [ctxPtrs_cons]
    exact mem_cons_self

theorem Rep.setInfo {b : α} (h : Rep H none (plug C (.mk d p a t s)))
    (hnodup : (plug C (.mk d p a t s)).ptrs.Nodup) :
    Change H (plug C (.mk d p a t s))
      (Function.update H p (some (.of d (above C) t.ptr s.ptr b))) (plug C (.mk d p b t s)) := by
  have hsub := (rep_plug.1 h).1
  have hall := ptrs_plug.nodup_iff.1 hnodup
  have hmk := (PTree.ptrs_mk (d := d) (p := p) (a := a) (t := t) (s := s)).append_right (ctxPtrs C)
  have hall' := hmk.nodup_iff.1 hall
  rw [cons_append] at hall'
  obtain ⟨hnot, -⟩ := nodup_cons.1 hall'
  have hkeep : ∀ q ∈ t.ptrs ++ s.ptrs ++ ctxPtrs C,
      Function.update H p (some (.of d (above C) t.ptr s.ptr b)) q = H q := by
    intro q hq
    refine update_of_ne ?_ _ _
    rintro rfl
    exact hnot hq
  obtain ⟨-, ht, hs⟩ := rep_mk.1 hsub
  refine ⟨h.replace hnodup (rep_mk.2 ⟨update_self .., ht.congr fun q hq => hkeep q ?_,
    hs.congr fun q hq => hkeep q ?_⟩) (fun f hf => ?_) fun q hq _ => hkeep q ?_, ?_, fun q hq => ?_⟩
  · exact mem_append_left _ (mem_append_left _ hq)
  · exact mem_append_left _ (mem_append_right _ hq)
  · obtain ⟨C, rfl⟩ : ∃ C', C = f :: C' := by
      cases C with
      | nil => cases hf
      | cons g C => exact ⟨C, by rw [Option.some.inj hf]⟩
    rw [hkeep f.p (mem_append_right _ (by rw [ctxPtrs_cons]; exact mem_cons_self)),
      ((rep_plug.1 h).2).1, PTree.ptr_mk, PTree.ptr_mk]
    cases f.side <;> rfl
  · exact mem_append_right _ hq
  · exact plug_ptrs_perm (PTree.ptrs_mk.trans PTree.ptrs_mk.symm)
  · refine update_of_ne ?_ _ _
    rintro rfl
    exact hq (ptrs_plug.mem_iff.2 (mem_append_left _ (PTree.ptrs_mk.mem_iff.2
      mem_cons_self)))

/-! ## Rotations -/

section rotate

variable {q : Nat} {b : α} {x y z : PTree α}

theorem ptrs_nested : (PTree.mk d p a (.mk d q b x y) z).ptrs.Perm
    (p :: q :: (x.ptrs ++ y.ptrs ++ z.ptrs)) := by
  refine PTree.ptrs_mk.trans (List.Perm.cons p ?_)
  exact PTree.ptrs_mk.append_right _

theorem ptrs_rotated : (PTree.mk d q b x (.mk d p a y z)).ptrs.Perm
    (PTree.mk d p a (.mk d q b x y) z).ptrs := by
  refine PTree.ptrs_mk.trans (List.Perm.trans ?_ ptrs_nested.symm)
  have hmid : (x.ptrs ++ (PTree.mk d p a y z).ptrs).Perm (p :: (x.ptrs ++ y.ptrs ++ z.ptrs)) := by
    refine (PTree.ptrs_mk.append_left _).trans (perm_middle.trans (List.Perm.cons p ?_))
    rw [append_assoc]
  exact (List.Perm.cons q hmid).trans (List.Perm.swap p q _)

theorem Rep.rotate (h : Rep H none (plug C (.mk d p a (.mk d q b x y) z)))
    (hnodup : (plug C (.mk d p a (.mk d q b x y) z)).ptrs.Nodup)
    (hp : H' p = some (.of d (some q) y.ptr z.ptr a))
    (hq : H' q = some (.of d (above C) x.ptr (some p) b))
    (hy : ∀ w, y.ptr = some w → H' w = (H w).map fun n => { n with parent := some p })
    (htop : ∀ f ∈ C.head?, H' f.p = (H f.p).map fun n => n.setChild (some q) f.side)
    (hother : ∀ w, w ≠ p → w ≠ q → y.ptr ≠ some w → above C ≠ some w → H' w = H w) :
    Change H (plug C (.mk d p a (.mk d q b x y) z)) H'
      (plug C (.mk d q b x (.mk d p a y z))) := by
  have hall := (ptrs_plug.trans (ptrs_nested.append_right (ctxPtrs C))).nodup_iff.1 hnodup
  simp only [cons_append, nodup_cons, mem_cons, mem_append, not_or,
    nodup_append, append_assoc] at hall
  obtain ⟨⟨hpq, hpx, hpy, hpz, hpc⟩, ⟨hqx, hqy, hqz, hqc⟩, hxn, ⟨hyn, ⟨hzn, hcn, hzc⟩, hyzc⟩, hxyzc⟩ :=
    hall
  obtain ⟨-, hsub, hz⟩ := rep_mk.1 (rep_plug.1 h).1
  obtain ⟨-, hx, hyrep⟩ := rep_mk.1 hsub
  have hnoty : ∀ w, w ∉ y.ptrs → y.ptr ≠ some w := fun w hw heq => hw (ptr_mem heq)
  have hnotc : ∀ w, w ∉ ctxPtrs C → above C ≠ some w := fun w hw heq => hw (above_mem heq)
  have hx' : Rep H' (some q) x := hx.congr fun w hw => by
    refine hother w ?_ ?_ (hnoty w fun hw' => hxyzc w hw w (.inl hw') rfl)
      (hnotc w fun hw' => hxyzc w hw w (.inr (.inr hw')) rfl)
    · rintro rfl
      exact hpx hw
    · rintro rfl
      exact hqx hw
  have hz' : Rep H' (some p) z := hz.congr fun w hw => by
    refine hother w ?_ ?_ (hnoty w fun hw' => hyzc w hw' w (.inl hw) rfl)
      (hnotc w fun hw' => hzc w hw w hw' rfl)
    · rintro rfl
      exact hpz hw
    · rintro rfl
      exact hqz hw
  have hy' : Rep H' (some p) y := hyrep.reparent hyn hy fun w hw hne => by
    refine hother w ?_ ?_ hne (hnotc w fun hw' => hyzc w hw w (.inr hw') rfl)
    · rintro rfl
      exact hpy hw
    · rintro rfl
      exact hqy hw
  have hsub' : Rep H' (above C) (.mk d q b x (.mk d p a y z)) :=
    rep_mk.2 ⟨by rw [PTree.ptr_mk]; exact hq, hx', rep_mk.2 ⟨hp, hy', hz'⟩⟩
  refine ⟨h.replace hnodup hsub' ?_ fun w hw hne => ?_, plug_ptrs_perm ptrs_rotated, fun w hw => ?_⟩
  · rw [PTree.ptr_mk]
    exact htop
  · refine hother w ?_ ?_ (hnoty w fun hw' => hyzc w hw' w (.inr hw) rfl) hne
    · rintro rfl
      exact hpc hw
    · rintro rfl
      exact hqc hw
  · rw [(ptrs_plug.trans (ptrs_nested.append_right (ctxPtrs C))).mem_iff] at hw
    simp only [cons_append, mem_cons, mem_append, not_or, append_assoc] at hw
    exact hother w hw.1 hw.2.1 (hnoty w hw.2.2.2.1) (hnotc w hw.2.2.2.2.2)

end rotate

end trees

end PsMpi.Lib.PtrTree
