import Mathlib.Data.List.Chain
import Mathlib.Data.List.Nodup

/-!
# Doubly linked lists

The links of the nodes of a heap, and when they form a list from its head to its end.
-/

open List Function

namespace PsMpi.Lib

structure Links (α : Type*) where
  next : α → Option α
  prev : α → Option α

namespace Links

variable {α : Type*} [DecidableEq α] {L L' : Links α} {head : Option α} {l l₁ l₂ : List α}
  {a p x : α}

def linkNext (L : Links α) (a : α) : Option α → Links α
  | some c => ⟨Function.update L.next a (some c), Function.update L.prev c (some a)⟩
  | none => ⟨Function.update L.next a none, L.prev⟩

def cutPrev (L : Links α) : Option α → Links α
  | some c => ⟨L.next, Function.update L.prev c none⟩
  | none => L

def unlink (L : Links α) (head : Option α) (p : α) : Links α × Option α :=
  match L.prev p with
  | some q => (L.linkNext q (L.next p), head)
  | none => (L.cutPrev (L.next p), L.next p)

def pushFront (L : Links α) (head : Option α) (p : α) : Links α :=
  (L.linkNext p head).cutPrev (some p)

def insertAfter (L : Links α) (p n : α) : Links α := (L.linkNext n (L.next p)).linkNext p (some n)

theorem next_linkNext (h : Option α) : (L.linkNext a h).next x = if x = a then h else L.next x := by
  cases h <;> simp [linkNext, update_apply]

theorem prev_linkNext (h : Option α) :
    (L.linkNext a h).prev x = if h = some x then some a else L.prev x := by
  cases h with
  | none => simp [linkNext]
  | some c => simp [linkNext, update_apply, eq_comm]

theorem next_linkNext_of_ne {h : Option α} (hx : x ≠ a) : (L.linkNext a h).next x = L.next x := by
  rw [next_linkNext, if_neg hx]

theorem prev_linkNext_of_ne {h : Option α} (hx : h ≠ some x) :
    (L.linkNext a h).prev x = L.prev x := by
  rw [prev_linkNext, if_neg hx]

@[simp] theorem next_cutPrev (h : Option α) : (L.cutPrev h).next = L.next := by
  cases h <;> rfl

theorem prev_cutPrev (h : Option α) :
    (L.cutPrev h).prev x = if h = some x then none else L.prev x := by
  cases h with
  | none => simp [cutPrev]
  | some c => simp [cutPrev, update_apply, eq_comm]

/-! ## Lists -/

def Adj (L : Links α) (x y : α) : Prop := L.next x = some y ∧ L.prev y = some x

/-- The nodes follow each other, and the last one has no successor. -/
structure IsTail (L : Links α) (l : List α) : Prop where
  path : l.IsChain L.Adj
  last : ∀ a, l.getLast? = some a → L.next a = none
  nodup : l.Nodup

structure IsInit (L : Links α) (l : List α) : Prop where
  path : l.IsChain L.Adj
  first : ∀ a, l.head? = some a → L.prev a = none
  nodup : l.Nodup

structure IsList (L : Links α) (head : Option α) (l : List α) : Prop where
  head : head = l.head?
  path : l.IsChain L.Adj
  first : ∀ a, l.head? = some a → L.prev a = none
  last : ∀ a, l.getLast? = some a → L.next a = none
  nodup : l.Nodup

omit [DecidableEq α] in
theorem isList_nil : L.IsList none [] := ⟨rfl, .nil, nofun, nofun, .nil⟩

omit [DecidableEq α] in
theorem IsList.isTail (h : L.IsList head l) : L.IsTail l := ⟨h.path, h.last, h.nodup⟩

omit [DecidableEq α] in
theorem IsTail.right (h : L.IsTail (l₁ ++ l₂)) : L.IsTail l₂ := by
  refine ⟨(isChain_append.1 h.path).2.1, fun a ha => ?_, (nodup_append.1 h.nodup).2.1⟩
  exact h.last a (by rw [List.getLast?_append, ha]; rfl)

omit [DecidableEq α] in
theorem IsTail.of_cons (h : L.IsTail (a :: l)) : L.IsTail l := by
  have h' : L.IsTail ([a] ++ l) := h
  exact h'.right

omit [DecidableEq α] in
theorem IsList.left (h : L.IsList head (l₁ ++ l₂)) : L.IsInit l₁ := by
  refine ⟨(isChain_append.1 h.path).1, fun a ha => ?_, (nodup_append.1 h.nodup).1⟩
  exact h.first a (by rw [List.head?_append, ha]; rfl)

omit [DecidableEq α] in
theorem isChain_congr (h : l.IsChain L.Adj) (hn : ∀ x ∈ l.dropLast, L'.next x = L.next x)
    (hp : ∀ x ∈ l.tail, L'.prev x = L.prev x) : l.IsChain L'.Adj := by
  induction l with
  | nil => exact .nil
  | cons a l ih =>
    cases l with
    | nil => exact isChain_singleton _
    | cons b l =>
      rw [isChain_cons_cons] at h ⊢
      refine ⟨⟨?_, ?_⟩, ih h.2 (fun x hx => hn x ?_) fun x hx => hp x ?_⟩
      · rw [hn a (by simp)]
        exact h.1.1
      · rw [hp b (by simp)]
        exact h.1.2
      · rw [dropLast_cons_of_ne_nil (by simp)]
        exact mem_cons_of_mem _ hx
      · exact mem_cons_of_mem _ hx

omit [DecidableEq α] in
theorem IsList.frame (h : L.IsList head l)
    (hl : ∀ x ∈ l, L'.next x = L.next x ∧ L'.prev x = L.prev x) : L'.IsList head l where
  head := h.head
  path := isChain_congr h.path (fun x hx => (hl x (dropLast_subset _ hx)).1)
    fun x hx => (hl x (mem_of_mem_tail hx)).2
  first := fun a ha => ((hl a (mem_of_mem_head? ha)).2).trans (h.first a ha)
  last := fun a ha => ((hl a (mem_of_mem_getLast? ha)).1).trans (h.last a ha)
  nodup := h.nodup

omit [DecidableEq α] in
theorem IsInit.frame (h : L.IsInit l)
    (hl : ∀ x ∈ l, L'.next x = L.next x ∧ L'.prev x = L.prev x) : L'.IsInit l where
  path := isChain_congr h.path (fun x hx => (hl x (dropLast_subset _ hx)).1)
    fun x hx => (hl x (mem_of_mem_tail hx)).2
  first := fun a ha => ((hl a (mem_of_mem_head? ha)).2).trans (h.first a ha)
  nodup := h.nodup

omit [DecidableEq α] in
theorem IsTail.next_eq (h : L.IsTail (p :: l)) : L.next p = l.head? := by
  cases l with
  | nil => exact h.last p rfl
  | cons b l => exact (isChain_cons_cons.1 h.path).1.1

omit [DecidableEq α] in
theorem IsTail.unique (h : L.IsTail l) (h' : L.IsTail l₁) (hh : l.head? = l₁.head?) : l = l₁ := by
  induction l generalizing l₁ with
  | nil =>
    cases l₁ with
    | nil => rfl
    | cons b l₁ => cases hh
  | cons a l ih =>
    cases l₁ with
    | nil => cases hh
    | cons b l₁ =>
      cases hh
      exact congrArg _ (ih h.of_cons h'.of_cons (h.next_eq.symm.trans h'.next_eq))

omit [DecidableEq α] in
theorem IsList.unique (h : L.IsList head l) (h' : L.IsList head l₁) : l = l₁ :=
  h.isTail.unique h'.isTail (h.head.symm.trans h'.head)

omit [DecidableEq α] in
theorem IsList.prev_eq (h : L.IsList head (l₁ ++ p :: l₂)) : L.prev p = l₁.getLast? := by
  cases hq : l₁.getLast? with
  | none =>
    rw [List.getLast?_eq_none_iff.1 hq] at h
    exact h.first p rfl
  | some q => exact ((isChain_append.1 h.path).2.2 q hq p rfl).2

/-! ## Putting lists together -/

theorem IsTail.link (h : L.IsTail l) (ha : a ∉ l) : (L.linkNext a l.head?).IsTail (a :: l) := by
  have hpath : l.IsChain (L.linkNext a l.head?).Adj := by
    refine isChain_congr h.path (fun x hx => ?_) fun x hx => ?_
    · exact next_linkNext_of_ne fun hxa => ha (hxa ▸ dropLast_subset _ hx)
    · refine prev_linkNext_of_ne fun hhead => ?_
      cases l with
      | nil => cases hx
      | cons b l =>
        cases hhead
        exact (nodup_cons.1 h.nodup).1 hx
  refine ⟨isChain_cons.2 ⟨fun y hy => ⟨?_, ?_⟩, hpath⟩, fun x hx => ?_,
    nodup_cons.2 ⟨ha, h.nodup⟩⟩
  · rw [next_linkNext, if_pos rfl]
    exact hy
  · rw [prev_linkNext, if_pos (show l.head? = some y from hy)]
  · cases l with
    | nil =>
      obtain rfl : a = x := Option.some.inj hx
      rw [next_linkNext, if_pos rfl]
      rfl
    | cons b l =>
      rw [List.getLast?_cons_cons] at hx
      have hxa : x ≠ a := by
        rintro rfl
        exact ha (mem_of_mem_getLast? hx)
      rw [next_linkNext_of_ne hxa]
      exact h.last x hx

theorem IsInit.join (h₁ : L.IsInit (l₁ ++ [a])) (h₂ : L.IsTail l₂)
    (hd : ∀ x ∈ l₁ ++ [a], x ∉ l₂) :
    (L.linkNext a l₂.head?).IsList (l₁ ++ [a]).head? (l₁ ++ a :: l₂) := by
  have ha₁ : a ∉ l₁ := fun hm =>
    (nodup_append.1 h₁.nodup).2.2 a hm a (mem_singleton_self a) rfl
  have ha₂ : a ∉ l₂ := hd a (mem_append_right _ (mem_singleton_self a))
  have hlink := h₂.link ha₂
  have hprev : ∀ x ∈ l₁ ++ [a], (L.linkNext a l₂.head?).prev x = L.prev x := by
    intro x hx
    exact prev_linkNext_of_ne fun hh => hd x hx (mem_of_mem_head? hh)
  have hpath : (l₁ ++ [a]).IsChain (L.linkNext a l₂.head?).Adj := by
    refine isChain_congr h₁.path (fun x hx => ?_) fun x hx => hprev x (mem_of_mem_tail hx)
    rw [dropLast_concat] at hx
    exact next_linkNext_of_ne fun hxa => ha₁ (hxa ▸ hx)
  refine ⟨?_, ?_, fun x hx => ?_, fun x hx => ?_, ?_⟩
  · cases l₁ <;> rfl
  · have hpre := isChain_append.1 hpath
    exact isChain_append.2 ⟨hpre.1, hlink.path, fun x hx y hy => hpre.2.2 x hx y hy⟩
  · have hx' : (l₁ ++ [a]).head? = some x := by
      cases l₁ <;> exact hx
    rw [hprev x (mem_of_mem_head? hx')]
    exact h₁.first x hx'
  · refine hlink.last x ?_
    rw [List.getLast?_append] at hx
    rw [← hx]
    cases hl : (a :: l₂).getLast? with
    | none => simp at hl
    | some y => rfl
  · rw [← singleton_append, ← append_assoc]
    exact nodup_append.2 ⟨h₁.nodup, h₂.nodup, fun x hx y hy hxy => hd x hx (hxy ▸ hy)⟩

theorem IsTail.cut (h : L.IsTail l) : (L.cutPrev l.head?).IsList l.head? l where
  head := rfl
  path := by
    refine isChain_congr h.path (fun x _ => by rw [next_cutPrev]) fun x hx => ?_
    rw [prev_cutPrev, if_neg]
    intro hhead
    cases l with
    | nil => cases hx
    | cons b l =>
      cases hhead
      exact (nodup_cons.1 h.nodup).1 hx
  first := fun a ha => by rw [prev_cutPrev, if_pos ha]
  last := fun a ha => by rw [next_cutPrev]; exact h.last a ha
  nodup := h.nodup

theorem IsList.unlink (h : L.IsList head (l₁ ++ p :: l₂)) :
    (L.unlink head p).1.IsList (L.unlink head p).2 (l₁ ++ l₂) := by
  have hprev := h.prev_eq
  have hnext := h.isTail.right.next_eq
  have htail : L.IsTail l₂ := h.isTail.right.of_cons
  unfold Links.unlink
  rw [hprev, hnext]
  rcases eq_nil_or_concat' l₁ with rfl | ⟨l₀, q, rfl⟩
  · exact htail.cut
  · rw [List.getLast?_concat]
    dsimp only
    have hd : ∀ x ∈ l₀ ++ [q], x ∉ l₂ := fun x hx hx₂ =>
      (nodup_append.1 h.nodup).2.2 x hx x (mem_cons_of_mem _ hx₂) rfl
    have hjoin := h.left.join htail hd
    have hhead : head = (l₀ ++ [q]).head? := by
      rw [h.head]
      cases l₀ <;> rfl
    rw [hhead, append_assoc]
    exact hjoin

theorem IsList.unlink_frame (h : L.IsList head (l₁ ++ p :: l₂)) (hx : x ∉ l₁ ++ p :: l₂) :
    (L.unlink head p).1.next x = L.next x ∧ (L.unlink head p).1.prev x = L.prev x := by
  have hprev := h.prev_eq
  have hnext := h.isTail.right.next_eq
  have hx₂ : l₂.head? ≠ some x := fun hh => hx (mem_append_right _
    (mem_cons_of_mem _ (mem_of_mem_head? hh)))
  unfold Links.unlink
  rw [hprev, hnext]
  cases hq : l₁.getLast? with
  | none => exact ⟨by rw [next_cutPrev], by rw [prev_cutPrev, if_neg hx₂]⟩
  | some q =>
    have hxq : x ≠ q := fun hxq =>
      hx (mem_append_left _ (hxq ▸ mem_of_mem_getLast? hq))
    exact ⟨next_linkNext_of_ne hxq, prev_linkNext_of_ne hx₂⟩

theorem IsList.pushFront (h : L.IsList head l) (hp : p ∉ l) :
    (L.pushFront head p).IsList (some p) (p :: l) := by
  rw [h.head]
  exact (h.isTail.link hp).cut

theorem IsList.pushFront_frame (h : L.IsList head l) (hx : x ∉ l) (hxp : x ≠ p) :
    (L.pushFront head p).next x = L.next x ∧ (L.pushFront head p).prev x = L.prev x := by
  have hhead : head ≠ some x := fun hh => hx (mem_of_mem_head? (h.head ▸ hh))
  unfold Links.pushFront
  rw [next_cutPrev, prev_cutPrev, if_neg fun hh => hxp (Option.some.inj hh).symm]
  exact ⟨next_linkNext_of_ne hxp, prev_linkNext_of_ne hhead⟩

theorem IsList.insertAfter {n : α} (h : L.IsList head (l₁ ++ p :: l₂))
    (hn : n ∉ l₁ ++ p :: l₂) : (L.insertAfter p n).IsList head (l₁ ++ p :: n :: l₂) := by
  have hnext := h.isTail.right.next_eq
  have htail : L.IsTail l₂ := h.isTail.right.of_cons
  have hn₁ : n ∉ l₁ ++ [p] := fun hm => hn (by
    rcases mem_append.1 hm with hm | hm
    · exact mem_append_left _ hm
    · exact mem_append_right _ (mem_singleton.1 hm ▸ mem_cons_self))
  have hn₂ : n ∉ l₂ := fun hm => hn (mem_append_right _ (mem_cons_of_mem _ hm))
  have hd : ∀ x ∈ l₁ ++ [p], x ∉ l₂ := by
    have hnodup := h.nodup
    rw [← singleton_append, ← append_assoc] at hnodup
    exact fun x hx hx₂ => (nodup_append.1 hnodup).2.2 x hx x hx₂ rfl
  have hinit : L.IsInit (l₁ ++ [p]) := by
    have h' := h
    rw [← singleton_append, ← append_assoc] at h'
    exact h'.left
  -- The node `n` is linked to the tail; the part before it keeps its links.
  have hinit' : (L.linkNext n l₂.head?).IsInit (l₁ ++ [p]) := by
    have hprev : ∀ x ∈ l₁ ++ [p], (L.linkNext n l₂.head?).prev x = L.prev x := by
      intro x hx
      exact prev_linkNext_of_ne fun hh => hd x hx (mem_of_mem_head? hh)
    refine ⟨isChain_congr hinit.path (fun x hx => ?_) fun x hx => hprev x (mem_of_mem_tail hx),
      fun x hx => ?_, hinit.nodup⟩
    · exact next_linkNext_of_ne fun hxn => hn₁ (hxn ▸ dropLast_subset _ hx)
    · rw [hprev x (mem_of_mem_head? hx)]
      exact hinit.first x hx
  have hjoin := hinit'.join (htail.link hn₂) fun x hx hx₂ => by
    rcases mem_cons.1 hx₂ with rfl | hx₂
    · exact hn₁ hx
    · exact hd x hx hx₂
  have hhead : head = (l₁ ++ [p]).head? := by
    rw [h.head]
    cases l₁ <;> rfl
  unfold Links.insertAfter
  rw [hnext, hhead]
  exact hjoin

theorem IsList.insertAfter_frame {n : α} (h : L.IsList head (l₁ ++ p :: l₂))
    (hx : x ∉ l₁ ++ p :: l₂) (hxn : x ≠ n) :
    (L.insertAfter p n).next x = L.next x ∧ (L.insertAfter p n).prev x = L.prev x := by
  have hnext := h.isTail.right.next_eq
  have hxp : x ≠ p := fun hxp => hx (mem_append_right _ (hxp ▸ mem_cons_self))
  have hx₂ : l₂.head? ≠ some x := fun hh => hx (mem_append_right _
    (mem_cons_of_mem _ (mem_of_mem_head? hh)))
  unfold Links.insertAfter
  rw [next_linkNext_of_ne hxp, prev_linkNext_of_ne fun hh => hxn (Option.some.inj hh).symm, hnext]
  exact ⟨next_linkNext_of_ne hxn, prev_linkNext_of_ne hx₂⟩

end Links

end PsMpi.Lib
