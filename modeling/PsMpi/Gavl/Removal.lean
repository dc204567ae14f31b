import PsMpi.Gavl.Places
import Mathlib.Data.List.Perm.Subperm

/-!
# Removal of a node
-/

open PsMpi.Lib.PtrTree

namespace PsMpi.Gavl

section removal

variable {β : Type}

structure Range (β : Type) where
  addr : Nat
  len : Nat
  val : β
deriving DecidableEq

def Info.range (a : Info β) : Range β := ⟨a.addr, a.len, a.val⟩

def rangesOf (l : List (Info β)) : List (Range β) := l.map Info.range

def ranges (t : PTree (Info β)) : List (Range β) := rangesOf t.infos

def Removed (H : Heap (Info β)) : Option Nat → List (Nat × Info β) → Prop
  | x, [] => x = none
  | x, (p, a) :: L => x = some p ∧ ∃ n, H p = some n ∧ n.info = a ∧ Removed H n.parent L

structure Holds (st : GavlTree β) (t : PTree (Info β)) (L : List (Nat × Info β)) : Prop where
  rep : Rep st.heap none t
  root : st.root = t.ptr
  list : Removed st.heap st.removeList L
  nodup : (t.ptrs ++ L.map Prod.fst).Nodup
  fresh : ∀ p ∈ t.ptrs ++ L.map Prod.fst, p < st.fresh

structure Same (st st' : GavlTree β) : Prop where
  fresh : st'.fresh = st.fresh
  freeFn : st'.gavlFreeFn = st.gavlFreeFn
  freed : st'.freed = st.freed

variable {st st' st'' : GavlTree β} {t t' l r s : PTree (Info β)} {L : List (Nat × Info β)}
  {H H' : Heap (Info β)} {C : List (Frame (Info β))} {p : Nat} {a : Info β}

theorem Same.refl (st : GavlTree β) : Same st st := ⟨rfl, rfl, rfl⟩

theorem Same.trans (h : Same st st') (h' : Same st' st'') : Same st st'' :=
  ⟨h'.fresh.trans h.fresh, h'.freeFn.trans h.freeFn, h'.freed.trans h.freed⟩

theorem Removed.congr {x : Option Nat} (h : Removed H x L)
    (hH : ∀ q ∈ L.map Prod.fst, H' q = H q) : Removed H' x L := by
  induction L generalizing x with
  | nil => exact h
  | cons e L ih =>
    obtain ⟨hx, n, hn, ha, htail⟩ := h
    rw [List.map_cons] at hH
    exact ⟨hx, n, (hH _ List.mem_cons_self).trans hn, ha,
      ih htail fun q hq => hH q (List.mem_cons_of_mem _ hq)⟩

theorem Holds.tree_nodup (h : Holds st t L) : t.ptrs.Nodup := (List.nodup_append.1 h.nodup).1

theorem Holds.list_not_mem (h : Holds st t L) {q : Nat} (hq : q ∈ L.map Prod.fst) : q ∉ t.ptrs :=
  fun hq' => (List.nodup_append.1 h.nodup).2.2 q hq' q hq rfl

theorem Holds.of_change (h : Holds st t L) (hch : Change st.heap t st'.heap t')
    (hroot : st'.root = t'.ptr) (hlist : st'.removeList = st.removeList)
    (hfresh : st'.fresh = st.fresh) : Holds st' t' L where
  rep := hch.rep
  root := hroot
  list := by
    rw [hlist]
    exact h.list.congr fun q hq => hch.frame q (h.list_not_mem hq)
  nodup := (hch.perm.append_right _).nodup_iff.2 h.nodup
  fresh p hp := by
    rw [hfresh]
    exact h.fresh p ((hch.perm.append_right _).mem_iff.1 hp)

theorem Holds.length_le (h : Holds st t L) : t.ptrs.length + L.length ≤ st.fresh := by
  have hsub : t.ptrs ++ L.map Prod.fst ⊆ List.range st.fresh :=
    fun p hp => List.mem_range.2 (h.fresh p hp)
  have := (h.nodup.subperm hsub).length_le
  rwa [List.length_range, List.length_append, List.length_map] at this

/-! ## Taking a node out -/

theorem unlink_links (h : Rep H none (plug C (.node p a l .nil)))
    (hnodup : (plug C (.node p a l .nil)).ptrs.Nodup) :
    ∃ H₁ H₂, replaceChild? H (above C) p l.ptr = some H₁ ∧ setParent? H₁ l.ptr (above C) = some H₂ ∧
      Rep H₂ none (plug C l) ∧ ∀ q, q ∉ (plug C l).ptrs → H₂ q = H q := by
  have hall := ptrs_plug.nodup_iff.1 hnodup
  simp only [PTree.ptrs, List.append_nil, List.cons_append, List.nodup_cons, List.mem_append,
    not_or] at hall
  obtain ⟨⟨hpl, hpc⟩, hlc⟩ := hall
  obtain ⟨hln, hcn, hlc⟩ := List.nodup_append.1 hlc
  obtain ⟨⟨-, hl, -⟩, hctx⟩ := rep_plug.1 h
  obtain ⟨H₁, hH₁, htop₁, htop₂⟩ := replaceTop_spec hctx hpc l.ptr
  have hnotl : ∀ w, w ∉ l.ptrs → l.ptr ≠ some w := fun w hw heq => hw (ptr_mem heq)
  have hnotc : ∀ w, w ∉ ctxPtrs C → above C ≠ some w := fun w hw heq => hw (above_mem heq)
  have hkeep₁ : ∀ w ∈ l.ptrs, H₁ w = H w := fun w hw =>
    htop₂ w (hnotc w fun hw' => hlc w hw w hw' rfl)
  obtain ⟨H₂, hH₂, hset₁, hset₂⟩ := setParent?_spec (H := H₁) (x := l.ptr)
    (fun w hw => by rw [hkeep₁ w (ptr_mem hw)]; exact hl.isSome w (ptr_mem hw)) (above C)
  refine ⟨H₁, H₂, hH₁, hH₂, h.replace hnodup (hl.reparent hln ?_ ?_) ?_ ?_, ?_⟩
  · intro w hw
    rw [hset₁ w hw, hkeep₁ w (ptr_mem hw)]
  · intro w hw hne
    rw [hset₂ w hne, hkeep₁ w hw]
  · intro f hf
    have hfc : f.p ∈ ctxPtrs C := above_mem (by rw [above, hf]; rfl)
    rw [hset₂ f.p (hnotl _ fun hw => hlc _ hw _ hfc rfl), htop₁ f hf]
  · intro w hw hne
    rw [hset₂ w (hnotl w fun hw' => hlc w hw' w hw rfl), htop₂ w hne]
  · intro w hw
    rw [ptrs_plug.mem_iff, List.mem_append, not_or] at hw
    rw [hset₂ w (hnotl w hw.1), htop₂ w (hnotc w hw.2)]

theorem unlinkNode_spec (h : Rep st.heap none (plug C (.node p a l .nil)))
    (hnodup : (plug C (.node p a l .nil)).ptrs.Nodup)
    (hroot : st.root = (plug C (.node p a l .nil)).ptr) (hrun : unlinkNode st p = some st') :
    ∃ H stack, st' = { st with heap := H, root := (plug C l).ptr, stack := stack } ∧
      (above C).toList ++ st.stack = stack ∧ Rep H none (plug C l) ∧
        ∀ q, q ∉ (plug C l).ptrs → H q = st.heap q := by
  obtain ⟨H₁, H₂, hH₁, hH₂, hrep, hkeep⟩ := unlink_links h hnodup
  rw [unlinkNode, (rep_plug.1 h).1.1] at hrun
  simp only [bind, Option.bind_some] at hrun
  cases C with
  | nil =>
    cases hH₁
    rw [show above ([] : List (Frame (Info β))) = none from rfl] at hrun hH₂
    rw [hH₂] at hrun
    cases hrun
    exact ⟨H₂, st.stack, rfl, rfl, hrep, hkeep⟩
  | cons f C =>
    rw [show above (f :: C) = some f.p from rfl] at hrun hH₁ hH₂ ⊢
    rw [replaceChild?] at hH₁
    simp only [hH₁, Option.bind_some, hH₂] at hrun
    obtain ⟨stack, hpush, hrun⟩ := Option.bind_eq_some_iff.1 hrun
    obtain ⟨-, hpush⟩ := Option.ite_none_right_eq_some.1 hpush
    cases hpush
    cases hrun
    refine ⟨H₂, f.p :: st.stack, ?_, rfl, hrep, hkeep⟩
    rw [plug_ptr (s := .node p a l .nil) (List.cons_ne_nil f C), ← hroot]

theorem inorder_side {D E : List (Frame (Info β))} {f : Frame (Info β)}
    (hD : ∀ f ∈ D, f.side = .left) (hE : D ++ ⟨.right, p, a, l⟩ :: C = f :: E)
    (hnodup : (ctxPtrs (f :: E)).Nodup) :
    if f.p ≠ p then f.side = .left else f.side = .right := by
  cases D with
  | nil =>
    obtain rfl : _ = f := (List.cons.inj hE).1
    exact (if_neg fun h => h rfl).mpr rfl
  | cons g D =>
    obtain ⟨rfl, rfl⟩ := List.cons.inj hE
    rw [ctxPtrs_cons] at hnodup
    have hmem : (⟨.right, p, a, l⟩ : Frame (Info β)) ∈ D ++ ⟨.right, p, a, l⟩ :: C :=
      List.mem_append_right D List.mem_cons_self
    have hp := mem_ctxPtrs hmem
    have hne : g.p ≠ p := by
      rintro rfl
      exact (List.nodup_cons.1 hnodup).1 (List.mem_append_right _ hp)
    rw [if_pos hne]
    exact hD g List.mem_cons_self

theorem exchangeNode_spec {q d : Nat} {c : Info β} {y z : PTree (Info β)}
    (h : Rep st.heap none (plug C (.node p a l (.node q c y z))))
    (hnodup : (plug C (.node p a l (.node q c y z))).ptrs.Nodup)
    (hrun : exchangeNode st p q = some (st', d)) :
    ∃ D b x H stack, PTree.node q c y z = plug D (.node d b .nil x) ∧ (∀ f ∈ D, f.side = .left) ∧
      st' = { st with heap := H, stack := stack } ∧ stack = D.map Frame.p ++ p :: st.stack ∧
        Rep H none (plug (D ++ ⟨.right, p, { b with height := a.height }, l⟩ :: C) x) ∧
          (H d).map Node.info = some { a with height := b.height } ∧
            ∀ w, w ∉ (plug C (.node p a l (.node q c y z))).ptrs → H w = st.heap w := by
  rw [exchangeNode] at hrun
  obtain ⟨stack, hpush, hrun⟩ := Option.bind_eq_some_iff.1 hrun
  obtain ⟨-, hpush⟩ := Option.ite_none_right_eq_some.1 hpush
  cases hpush
  obtain ⟨⟨stack, m⟩, hleft, hrun⟩ := Option.bind_eq_some_iff.1 hrun
  have hplug : plug C (.node p a l (.node q c y z)) =
      plug (⟨.right, p, a, l⟩ :: C) (.node q c y z) := rfl
  obtain ⟨D, b, x, heq, hD, rfl⟩ := leftmost_spec (hplug ▸ h) hleft
  have hplace : plug C (.node p a l (.node q c y z)) =
      plug (D ++ ⟨.right, p, a, l⟩ :: C) (.node m b .nil x) := by
    rw [plug_append, ← heq]
    rfl
  -- the place of the next node
  obtain ⟨E, hE⟩ : ∃ E, D ++ ⟨.right, p, a, l⟩ :: C = E := ⟨_, rfl⟩
  rw [hE] at hplace
  have hrep := h
  have hnodup' := hnodup
  rw [hplace] at hrep hnodup'
  have hall := ptrs_plug.nodup_iff.1 hnodup'
  simp only [PTree.ptrs, List.nil_append, List.cons_append, List.nodup_cons, List.mem_append,
    not_or] at hall
  obtain ⟨⟨hmx, hmE⟩, hxE⟩ := hall
  obtain ⟨hxn, -, hxE⟩ := List.nodup_append.1 hxE
  obtain ⟨⟨hm, -, hx⟩, hctx⟩ := rep_plug.1 hrep
  simp only [bind, hm, Option.bind_some] at hrun
  obtain ⟨H₁, hH₁, hset₁, hset₂⟩ := setParent?_spec (H := st.heap) (x := x.ptr)
    (fun w hw => hx.isSome w (ptr_mem hw)) (above E)
  have hnotx : ∀ w, w ∉ x.ptrs → x.ptr ≠ some w := fun w hw heq => hw (ptr_mem heq)
  have hnotE : ∀ w, w ∉ ctxPtrs E → above E ≠ some w := fun w hw heq => hw (above_mem heq)
  -- the link to the place
  obtain ⟨H₂, hH₂, hrepl, hkeep, hother⟩ : ∃ H₂,
      (above E).bind (fun f => if f ≠ p then setChild H₁ .left f x.ptr
        else setChild H₁ .right p x.ptr) = some H₂ ∧
      (∀ f ∈ E.head?, H₂ f.p = (st.heap f.p).map fun n => n.setChild x.ptr f.side) ∧
      (∀ w ∈ x.ptrs, H₂ w = H₁ w) ∧ ∀ w, w ∉ x.ptrs → above E ≠ some w → H₂ w = st.heap w := by
    obtain ⟨f, E', rfl⟩ : ∃ f E', E = f :: E' := by
      rw [← hE]
      cases D with
      | nil => exact ⟨_, _, rfl⟩
      | cons g D => exact ⟨_, _, rfl⟩
    rw [ctxPtrs_cons] at hxE
    have hfx : f.p ∉ x.ptrs := fun hf => hxE _ hf _ List.mem_cons_self rfl
    have hf₁ : H₁ f.p = some (.of f.side (above E') (some m) f.sib.ptr f.a) := by
      rw [hset₂ _ (hnotx _ hfx)]
      exact hctx.1
    have hside : (if f.p ≠ p then setChild H₁ .left f.p x.ptr else setChild H₁ .right p x.ptr) =
        setChild H₁ f.side f.p x.ptr := by
      have := inorder_side hD hE (List.nodup_append.1 (ptrs_plug.nodup_iff.1 hnodup')).2.1
      by_cases hfp : f.p = p
      · rw [if_neg fun h => h hfp] at this ⊢
        rw [this, hfp]
      · rw [if_pos hfp] at this ⊢
        rw [this]
    refine ⟨Function.update H₁ f.p (some (.of f.side (above E') x.ptr f.sib.ptr f.a)), ?_,
      fun g hg => ?_, fun w hw => ?_, fun w hw hne => ?_⟩
    · rw [above, List.head?_cons, Option.map_some, Option.bind_some, hside, setChild_of hf₁,
        Node.of_setChild]
    · cases hg
      rw [Function.update_self, hctx.1, Option.map_some, Node.of_setChild]
    · refine Function.update_of_ne ?_ _ _
      rintro rfl
      exact hfx hw
    · rw [Function.update_of_ne (fun heq => hne (congrArg some heq.symm)), hset₂ w (hnotx w hw)]
  have hrep₂ : Rep H₂ none (plug E x) := by
    refine hrep.replace hnodup' (hx.reparent hxn (fun w hw => ?_) fun w hw hne => ?_) hrepl
      fun w hw hne => hother w (fun hw' => hxE w hw' w hw rfl) hne
    · rw [hkeep w (ptr_mem hw), hset₁ w hw]
    · rw [hkeep w hw, hset₂ w hne]
  have hm₂ : H₂ m = some ⟨above E, none, x.ptr, b⟩ := by
    rw [hother m hmx (hnotE m hmE)]
    exact hm
  have hplace₂ : ∀ e : Info β, plug (D ++ ⟨.right, p, e, l⟩ :: C) x =
      plug C (.mk .right p e (plug D x) l) := fun e => plug_append _
  have hnodup₂ : (plug E x).ptrs.Nodup := by
    refine ptrs_plug.nodup_iff.2 ?_
    have := ptrs_plug.nodup_iff.1 hnodup'
    rw [PTree.ptrs, PTree.ptrs, List.nil_append, List.cons_append] at this
    exact (List.nodup_cons.1 this).2
  have hmplug : m ∉ (plug E x).ptrs := by
    rw [ptrs_plug.mem_iff, List.mem_append]
    exact not_or.2 ⟨hmx, hmE⟩
  rw [← hE, hplace₂] at hrep₂ hnodup₂ hmplug
  have hp₂ := (rep_mk.1 (rep_plug.1 hrep₂).1).1
  have hset := Rep.setInfo (b := { b with height := a.height }) hrep₂ hnodup₂
  have hset' := hset.rep
  have hframe := hset.frame
  -- the exchange
  obtain ⟨H₃, hH₃⟩ : ∃ H₃, Function.update H₂ p (some (.of .right (above C) (plug D x).ptr l.ptr
    { b with height := a.height })) = H₃ := ⟨_, rfl⟩
  rw [hH₃, ← hplace₂] at hset'
  rw [hH₃] at hframe
  obtain ⟨par, hpar, -⟩ := Option.bind_eq_some_iff.1 hH₂
  rw [hpar, Option.bind_some] at hH₂
  rw [hpar] at hH₁ hm₂
  have hpm : m ≠ p := by
    rintro rfl
    refine hmplug (ptrs_plug.mem_iff.2 (List.mem_append_left _ ?_))
    exact PTree.ptrs_mk.mem_iff.2 List.mem_cons_self
  simp only [hH₁, hpar, Option.bind_some, hH₂, hp₂, hm₂, Node.of_info] at hrun
  obtain ⟨rfl, rfl⟩ := Prod.mk.inj (Option.some.inj hrun)
  refine ⟨D, b, x, Function.update H₃ m (some ⟨some par, none, x.ptr, { a with height := b.height }⟩),
    _, heq, hD, ?_, rfl, hset'.congr fun w hw => ?_, ?_, fun w hw => ?_⟩
  · rw [← hH₃]
    rfl
  · refine Function.update_of_ne ?_ _ _
    rintro rfl
    rw [hplace₂] at hw
    exact hmplug (hset.perm.mem_iff.1 hw)
  · rw [Function.update_self]
    rfl
  · rw [hplace, ptrs_plug.mem_iff, List.mem_append, PTree.ptrs, PTree.ptrs, List.nil_append,
      List.mem_cons, not_or, not_or] at hw
    have hout : w ∉ (plug C (.mk .right p a (plug D x) l)).ptrs := by
      rw [← hplace₂, hE, ptrs_plug.mem_iff, List.mem_append]
      exact not_or.2 ⟨hw.1.2, hw.2⟩
    rw [Function.update_of_ne hw.1.1, hframe w hout, hother w hw.1.2 (hnotE w hw.2)]

/-! ## Removal -/

/-- Where a node is taken out of the tree when a node at a place is removed, what is left there, and which
node and data come to the remove list. -/
inductive Removal (C : List (Frame (Info β))) (p : Nat) (a : Info β) (l : PTree (Info β)) :
    PTree (Info β) → List (Frame (Info β)) → PTree (Info β) → Nat → Info β → Prop
  | unlink : Removal C p a l .nil C l p a
  | exchange {D : List (Frame (Info β))} {m : Nat} {b : Info β} {x : PTree (Info β)}
      (hD : ∀ f ∈ D, f.side = .left) : Removal C p a l (plug D (.node m b .nil x))
        (D ++ ⟨.right, p, { b with height := a.height }, l⟩ :: C) x m { a with height := b.height }

variable {E : List (Frame (Info β))} {m : Nat} {b : Info β}

theorem Removal.perm (h : Removal C p a l r E s m b) :
    (m :: (plug E s).ptrs).Perm (plug C (.node p a l r)).ptrs := by
  have hout : ∀ {E : List (Frame (Info β))} {m : Nat} {b : Info β} {x : PTree (Info β)},
      (plug E (.node m b .nil x)).ptrs.Perm (m :: (x.ptrs ++ ctxPtrs E)) := ptrs_plug
  cases h with
  | unlink =>
    have hnode : (plug C (.node p a l .nil)).ptrs.Perm (p :: (l.ptrs ++ ctxPtrs C)) := by
      refine ptrs_plug.trans ?_
      rw [PTree.ptrs, PTree.ptrs, List.append_nil]
      exact List.Perm.refl _
    exact (ptrs_plug.cons p).trans hnode.symm
  | @exchange D m b _ hD =>
    have hplace : plug C (.node p a l (plug D (.node m b .nil s))) =
        plug (D ++ ⟨.right, p, a, l⟩ :: C) (.node m b .nil s) := by
      rw [plug_append]
      rfl
    have hctx : ctxPtrs (D ++ ⟨.right, p, { b with height := a.height }, l⟩ :: C) =
        ctxPtrs (D ++ ⟨.right, p, a, l⟩ :: C) := by
      rw [ctxPtrs, ctxPtrs, List.flatMap_append, List.flatMap_append]
      rfl
    rw [hplace]
    refine (ptrs_plug.cons m).trans (List.Perm.trans ?_ hout.symm)
    rw [hctx]

theorem before_left {D : List (Frame (Info β))} (hD : ∀ f ∈ D, f.side = .left) :
    before (D ++ C) = before C := by
  induction D with
  | nil => rfl
  | cons f D ih =>
    rw [List.cons_append, before, ih fun g hg => hD g (List.mem_cons_of_mem _ hg),
      hD f List.mem_cons_self, List.append_nil]

theorem after_append {D : List (Frame (Info β))} : after (D ++ C) = after D ++ after C := by
  induction D with
  | nil => rfl
  | cons f D ih => rw [List.cons_append, after, after, ih, List.append_assoc]

theorem Removal.ranges (h : Removal C p a l r E s m b) : b.range = a.range ∧
    ∃ T₁ T₂, Gavl.ranges (plug C (.node p a l r)) = T₁ ++ a.range :: T₂ ∧
      Gavl.ranges (plug E s) = T₁ ++ T₂ := by
  cases h with
  | unlink =>
    refine ⟨rfl, Gavl.rangesOf (before C ++ l.infos), Gavl.rangesOf (after C), ?_, ?_⟩
    · simp only [Gavl.ranges, rangesOf, infos_plug, PTree.infos, List.map_append, List.map_cons,
        List.append_assoc, List.cons_append, List.nil_append]
    · simp only [Gavl.ranges, rangesOf, infos_plug, List.map_append]
  | @exchange D m b _ hD =>
    have hD' := before_left (C := []) hD
    rw [List.append_nil] at hD'
    refine ⟨rfl, Gavl.rangesOf (before C ++ l.infos),
      b.range :: Gavl.rangesOf (s.infos ++ after D ++ after C), ?_, ?_⟩
    · simp only [Gavl.ranges, rangesOf, infos_plug, PTree.infos, hD', before, List.map_append,
        List.map_cons, List.append_assoc, List.cons_append, List.nil_append]
    · simp only [Gavl.ranges, rangesOf, infos_plug, before_left hD, after_append, before, after,
        List.map_append, List.map_cons, List.append_assoc, List.cons_append, List.nil_append]
      rfl

theorem Removal.holds {root : Option Nat} {n : Node (Info β)} (hrem : Removal C p a l r E s m b)
    (h : Holds st (plug C (.node p a l r)) L) (hrep : Rep H none (plug E s)) (hm : H m = some n)
    (hb : n.info = b) (hout : ∀ w, w ∉ (plug C (.node p a l r)).ptrs → H w = st.heap w)
    (hroot : root = (plug E s).ptr) (stack : List Nat) (curNode : Option Nat) :
    Holds { st with
      heap := Function.update H m (some { n with parent := st.removeList })
      root := root
      stack := stack
      curNode := curNode
      removeList := some m } (plug E s) ((m, b) :: L) := by
  have hnodup := (hrem.perm.append_right (L.map Prod.fst)).nodup_iff.2 h.nodup
  have hmE : m ∉ (plug E s).ptrs := fun hm' =>
    (List.nodup_cons.1 hnodup).1 (List.mem_append_left _ hm')
  have hmL : m ∉ L.map Prod.fst := fun hm' =>
    (List.nodup_cons.1 hnodup).1 (List.mem_append_right _ hm')
  have hperm : ((plug E s).ptrs ++ ((m, b) :: L).map Prod.fst).Perm
      ((plug C (.node p a l r)).ptrs ++ L.map Prod.fst) :=
    List.perm_middle.trans (hrem.perm.append_right _)
  refine ⟨hrep.congr fun w hw => ?_, hroot, ⟨rfl, _, Function.update_self .., hb,
    h.list.congr fun w hw => ?_⟩, hperm.nodup_iff.2 h.nodup, fun w hw => ?_⟩
  · refine Function.update_of_ne ?_ _ _
    rintro rfl
    exact hmE hw
  · refine (Function.update_of_ne ?_ _ _).trans (hout w (h.list_not_mem hw))
    rintro rfl
    exact hmL hw
  · exact h.fresh w (hperm.mem_iff.1 hw)

theorem removeNodeInternal_spec (h : Holds st (plug C (.node p a l r)) L)
    (hstack : st.stack = C.map Frame.p) (hrun : removeNodeInternal st p = some st') :
    ∃ E s m b, Removal C p a l r E s m b ∧ Holds st' (plug E s) ((m, b) :: L) ∧
      st'.curNode = above E ∧ (st'.stack = (E.map Frame.p).tail ∨ st'.stack = E.map Frame.p) ∧
        Same st st' := by
  rw [removeNodeInternal, (rep_plug.1 h.rep).1.1] at hrun
  simp only [bind, Option.bind_some] at hrun
  cases r with
  | nil =>
    obtain ⟨⟨st₁, q⟩, hmap, hrun⟩ := Option.bind_eq_some_iff.1 hrun
    obtain ⟨st₁, hunlink, heq⟩ := Option.map_eq_some_iff.1 hmap
    obtain ⟨rfl, rfl⟩ := Prod.mk.inj heq
    obtain ⟨H, stack, rfl, rfl, hrep, hkeep⟩ := unlinkNode_spec h.rep h.tree_nodup h.root hunlink
    have hrem : Removal C p a l .nil C l p a := .unlink
    have hsub : ∀ w, w ∉ (plug C (.node p a l .nil)).ptrs → H w = st.heap w := fun w hw =>
      hkeep w fun hw' => hw (hrem.perm.mem_iff.1 (List.mem_cons_of_mem _ hw'))
    have hp : H p = st.heap p :=
      hkeep p (List.nodup_cons.1 (hrem.perm.nodup_iff.2 h.tree_nodup)).1
    rw [(rep_plug.1 h.rep).1.1] at hp
    have hholds := hrem.holds h hrep hp rfl hsub rfl
    simp only [setParent_of hp, Option.bind_some, hstack] at hrun
    cases C with
    | nil =>
      cases hrun
      exact ⟨_, _, _, _, hrem, hholds _ _, rfl, .inr rfl, rfl, rfl, rfl⟩
    | cons f C =>
      cases hrun
      exact ⟨_, _, _, _, hrem, hholds _ _, rfl, .inr rfl, rfl, rfl, rfl⟩
  | node q c y z =>
    obtain ⟨⟨st₁, d⟩, hexch, hrun⟩ := Option.bind_eq_some_iff.1 hrun
    obtain ⟨D, b, x, H, stack, heq, hD, rfl, rfl, hrep, hd, hkeep⟩ :=
      exchangeNode_spec h.rep h.tree_nodup hexch
    obtain ⟨n, hn, hb⟩ := Option.map_eq_some_iff.1 hd
    rw [heq] at h hkeep ⊢
    have hrem : Removal C p a l (plug D (.node d b .nil x)) _ x d _ := .exchange hD
    have hroot : st.root = (plug (D ++ ⟨.right, p, { b with height := a.height }, l⟩ :: C) x).ptr := by
      rw [h.root, plug_append]
      cases C with
      | nil => rfl
      | cons f C => exact plug_ptr (List.cons_ne_nil f C)
    have hholds := hrem.holds h hrep hn hb hkeep hroot
    simp only [setParent_of hn, Option.bind_some, hstack] at hrun
    obtain ⟨E, hE⟩ : ∃ E, D ++ ⟨.right, p, { b with height := a.height }, l⟩ :: C = E := ⟨_, rfl⟩
    have hmap : D.map Frame.p ++ p :: C.map Frame.p = E.map Frame.p := by
      rw [← hE, List.map_append, List.map_cons]
    rw [hmap] at hrun
    rw [hE] at hrem hholds
    cases E with
    | nil => exact absurd hE (List.append_ne_nil_of_right_ne_nil D (List.cons_ne_nil _ _))
    | cons f E =>
      cases hrun
      exact ⟨_, _, _, _, hrem, hholds _ _, rfl, .inl rfl, rfl, rfl, rfl⟩

end removal

end PsMpi.Gavl
