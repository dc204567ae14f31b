import PsMpi.Gavl.Links

/-!
# Places of the tree that the code goes to

The stack of the tree lists the nodes above a place.
-/

open PsMpi.Lib.PtrTree List Option

namespace PsMpi.Gavl

section places

variable {β : Type} {H : Heap (Info β)} {C : List (Frame (Info β))} {p : Nat} {a : Info β}
  {l r s t : PTree (Info β)} {addr len : Nat} {mode : Mode}

/-! ## Going down with a comparison -/

def toward : Side → Cmp
  | .left => .searchLeft
  | .right => .searchRight

def Leads (addr len : Nat) (mode : Mode) (C : List (Frame (Info β))) : Prop :=
  ∀ f ∈ C, nodeCmp f.a addr len mode = toward f.side

def locate (addr len : Nat) (mode : Mode) : PTree (Info β) → Option (Info β)
  | .nil => none
  | .node _ a l r =>
    match nodeCmp a addr len mode with
    | .searchLeft => locate addr len mode l
    | .searchRight => locate addr len mode r
    | .bufferMatch => some a

theorem locate_plug (hC : Leads addr len mode C) :
    locate addr len mode (plug C t) = locate addr len mode t := by
  induction C generalizing t with
  | nil => rfl
  | cons f C ih =>
    rw [plug, ih fun g hg => hC g (mem_cons_of_mem _ hg)]
    have hf := hC f mem_cons_self
    obtain ⟨side, p, a, sib⟩ := f
    cases side with
    | left => simp only [Frame.fill, PTree.mk, locate, hf, toward]
    | right => simp only [Frame.fill, PTree.mk, locate, hf, toward]

structure EndsAt (addr len : Nat) (mode : Mode) (C : List (Frame (Info β))) (a : Info β)
    (l r : PTree (Info β)) : Prop where
  leads : Leads addr len mode C
  left : nodeCmp a addr len mode = .searchLeft → l = .nil
  right : nodeCmp a addr len mode = .searchRight → r = .nil

theorem EndsAt.locate (h : EndsAt addr len mode C a l r) : locate addr len mode
    (plug C (.node p a l r)) = if nodeCmp a addr len mode = .bufferMatch then some a else none := by
  rw [locate_plug h.leads, Gavl.locate]
  cases hcmp : nodeCmp a addr len mode with
  | searchLeft => rw [h.left hcmp]; rfl
  | searchRight => rw [h.right hcmp]; rfl
  | bufferMatch => rfl

theorem searchLoop_spec {todo cur : Nat} {stack : List Nat} {cmpRet : Cmp}
    (h : Rep H none (plug C (.node p a l r))) (hC : Leads addr len mode C)
    (hrun : searchLoop H addr len mode todo (C.map Frame.p) p = some (stack, cur, cmpRet)) :
    ∃ D b x y, plug C (.node p a l r) = plug D (.node cur b x y) ∧ stack = D.map Frame.p ∧
      cmpRet = nodeCmp b addr len mode ∧ EndsAt addr len mode D b x y := by
  induction todo generalizing C p a l r with
  | zero => cases hrun
  | succ todo ih =>
    rw [searchLoop, (rep_plug.1 h).1.1] at hrun
    -- going to a side
    have hgo : ∀ (d : Side) (x y : PTree (Info β)), PTree.mk d p a x y = .node p a l r →
        nodeCmp a addr len mode = toward d →
        (x.ptr = none → some (C.map Frame.p, p, nodeCmp a addr len mode) =
          some (stack, cur, cmpRet)) →
        (∀ next, x.ptr = some next → ((push (C.map Frame.p) p).bind fun stack =>
          searchLoop H addr len mode todo stack next) = some (stack, cur, cmpRet)) →
        ∃ D b x y, plug C (.node p a l r) = plug D (.node cur b x y) ∧ stack = D.map Frame.p ∧
          cmpRet = nodeCmp b addr len mode ∧ EndsAt addr len mode D b x y := by
      intro d x y hmk hcmp hnone hsome
      cases x with
      | nil =>
        have hrun := hnone rfl
        obtain ⟨rfl, rfl, rfl⟩ : stack = C.map Frame.p ∧ cur = p ∧
            cmpRet = nodeCmp a addr len mode := by
          have := Option.some.inj hrun
          simp only [Prod.mk.injEq] at this
          exact ⟨this.1.symm, this.2.1.symm, this.2.2.symm⟩
        refine ⟨C, a, l, r, rfl, rfl, rfl, hC, fun h => ?_, fun h => ?_⟩
        · cases d with
          | left => injection hmk with _ _ hl _; exact hl.symm
          | right => rw [hcmp] at h; cases h
        · cases d with
          | left => rw [hcmp] at h; cases h
          | right => injection hmk with _ _ _ hr; exact hr.symm
      | node q b x' y' =>
        obtain ⟨stack', hpush, hrun⟩ := bind_eq_some_iff.1 (hsome q rfl)
        obtain ⟨-, hpush⟩ := ite_none_right_eq_some.1 hpush
        cases hpush
        have hplug : plug C (.node p a l r) = plug (⟨d, p, a, y⟩ :: C) (.node q b x' y') := by
          rw [← hmk]
          rfl
        rw [hplug] at h ⊢
        refine ih h ?_ hrun
        intro f hf
        rcases mem_cons.1 hf with rfl | hf
        · exact hcmp
        · exact hC f hf
    simp only [bind, bind_some] at hrun
    cases hcmp : nodeCmp a addr len mode with
    | searchLeft =>
      rw [hcmp] at hrun
      exact hgo .left l r rfl hcmp (fun hn => by rw [hcmp]; rwa [hn] at hrun)
        fun next hn => by rwa [hn] at hrun
    | searchRight =>
      rw [hcmp] at hrun
      exact hgo .right r l rfl hcmp (fun hn => by rw [hcmp]; rwa [hn] at hrun)
        fun next hn => by rwa [hn] at hrun
    | bufferMatch =>
      rw [hcmp] at hrun
      obtain ⟨rfl, rfl, rfl⟩ : stack = C.map Frame.p ∧ cur = p ∧ cmpRet = .bufferMatch := by
        have := Option.some.inj hrun
        simp only [Prod.mk.injEq] at this
        exact ⟨this.1.symm, this.2.1.symm, this.2.2.symm⟩
      refine ⟨C, a, l, r, rfl, rfl, hcmp.symm, hC, fun h => ?_, fun h => ?_⟩
      · rw [hcmp] at h
        cases h
      · rw [hcmp] at h
        cases h

theorem lookupLoop_spec {par : Option Nat} {todo : Nat} (h : Rep H par t)
    (htodo : t.ptrs.length ≤ todo) :
    lookupLoop H addr len todo t.ptr = some ((locate addr len .subset t).map Info.val) := by
  induction t generalizing par todo with
  | nil => cases todo <;> rfl
  | node p a l r ihl ihr =>
    obtain ⟨hp, hl, hr⟩ := h
    rw [PTree.ptrs, length_cons, length_append] at htodo
    obtain ⟨todo, rfl⟩ : ∃ n, todo = n + 1 := ⟨todo - 1, by omega⟩
    rw [PTree.ptr, lookupLoop, hp]
    simp only [bind, bind_some, locate, nodeCmp]
    cases subsetCmp a addr len with
    | searchLeft => exact ihl hl (by omega)
    | searchRight => exact ihr hr (by omega)
    | bufferMatch => rfl

/-! ## Going down to the left -/

theorem leftmost_spec {todo m : Nat} {stack stack' : List Nat}
    (h : Rep H none (plug C (.node p a l r)))
    (hrun : leftmost H todo stack p = some (stack', m)) :
    ∃ D b x, PTree.node p a l r = plug D (.node m b .nil x) ∧ (∀ f ∈ D, f.side = .left) ∧
      stack' = D.map Frame.p ++ stack := by
  induction todo generalizing C p a l r stack with
  | zero => cases hrun
  | succ todo ih =>
    rw [leftmost, (rep_plug.1 h).1.1] at hrun
    simp only [bind, bind_some] at hrun
    cases l with
    | nil =>
      obtain ⟨rfl, rfl⟩ := Prod.mk.inj (Option.some.inj hrun)
      exact ⟨[], a, r, rfl, nofun, rfl⟩
    | node q b x y =>
      obtain ⟨stack₁, hpush, hrun⟩ := bind_eq_some_iff.1 hrun
      obtain ⟨-, hpush⟩ := ite_none_right_eq_some.1 hpush
      cases hpush
      have h' : Rep H none (plug (⟨.left, p, a, r⟩ :: C) (.node q b x y)) := h
      obtain ⟨D, c, u, heq, hleft, rfl⟩ := ih h' hrun
      refine ⟨D ++ [⟨.left, p, a, r⟩], c, u, ?_, fun f hf => ?_, ?_⟩
      · rw [plug_append, ← heq]
        rfl
      · rcases mem_append.1 hf with hf | hf
        · exact hleft f hf
        · rw [mem_singleton.1 hf]
      · rw [map_append, append_assoc]
        rfl

/-! ## Going up -/

theorem climb_spec {todo : Nat} (h : Rep H none (plug C (.node p a l r)))
    (htodo : C.length < todo) : climb todo H p = (plug C (.node p a l r)).ptr := by
  induction C generalizing p a l r todo with
  | nil =>
    obtain ⟨todo, rfl⟩ : ∃ n, todo = n + 1 := ⟨todo - 1, by omega⟩
    rw [climb, (rep_plug.1 h).1.1]
    rfl
  | cons f C ih =>
    obtain ⟨todo, rfl⟩ : ∃ n, todo = n + 1 := ⟨todo - 1, by omega⟩
    rw [length_cons] at htodo
    rw [climb, (rep_plug.1 h).1.1]
    obtain ⟨side, q, b, sib⟩ := f
    simp only [bind, bind_some, above, List.head?_cons, map_some]
    cases side with
    | left => exact ih h (by omega)
    | right => exact ih h (by omega)

end places

end PsMpi.Gavl
