import Mathlib.Algebra.GroupWithZero.Nat
import Mathlib.Algebra.Ring.Int.Defs
import PsMpi.Tsp.Gentran
import Mathlib.Algebra.Order.BigOperators.Group.List
import Mathlib.Algebra.Order.Group.Nat
import Mathlib.Data.Nat.Find

/-!
# Task graphs run correctly
-/

open List Option

namespace PsMpi.Tsp

open PsMpi.Lib Tasks

/-! ## Lists of vertices -/

section lists

variable {α : Type*} {l : List α} {x : α} {g : α → α} {v : Nat}

theorem sum_map_modify (f : α → Nat) (h : l[v]? = some x) :
    ((l.modify v g).map f).sum + f x = (l.map f).sum + f (g x) := by
  induction l generalizing v with
  | nil => cases h
  | cons a l ih =>
    cases v with
    | zero =>
      obtain rfl : a = x := Option.some.inj h
      rw [modify_zero_cons, map_cons, map_cons, sum_cons, sum_cons]
      omega
    | succ v =>
      have := ih (v := v) h
      rw [modify_succ_cons, map_cons, map_cons, sum_cons, sum_cons]
      omega

theorem countP_modify (p : α → Bool) (h : l[v]? = some x) :
    (l.modify v g).countP p + (if p x then 1 else 0) = l.countP p + (if p (g x) then 1 else 0) := by
  have hsum : ∀ l : List α, l.countP p = (l.map fun a => if p a then 1 else 0).sum := by
    intro l
    induction l with
    | nil => rfl
    | cons a l ih =>
      rw [countP_cons, map_cons, sum_cons, ih]
      omega
  rw [hsum, hsum]
  exact sum_map_modify _ h

theorem getElem?_modify_some {w : Nat} {y : α} (h : l[v]? = some x) :
    (l.modify v g)[w]? = some y ↔ (w = v ∧ y = g x) ∨ (w ≠ v ∧ l[w]? = some y) := by
  by_cases hw : w = v
  · subst hw
    rw [List.getElem?_modify_eq, h]
    simp [eq_comm]
  · rw [List.getElem?_modify_ne _ _ (Ne.symm hw)]
    simp [hw]

theorem exists_modify {w : Nat} (P : α → Prop) (h : l[v]? = some x) :
    (∃ y, (l.modify v g)[w]? = some y ∧ P y) ↔
      (w = v ∧ P (g x)) ∨ (w ≠ v ∧ ∃ y, l[w]? = some y ∧ P y) := by
  simp only [getElem?_modify_some h]
  constructor
  · rintro ⟨y, ⟨rfl, rfl⟩ | ⟨hw, hy⟩, hp⟩
    · exact .inl ⟨rfl, hp⟩
    · exact .inr ⟨hw, y, hy, hp⟩
  · rintro (⟨rfl, hp⟩ | ⟨hw, y, hy, hp⟩)
    · exact ⟨_, .inl ⟨rfl, rfl⟩, hp⟩
    · exact ⟨y, .inr ⟨hw, hy⟩, hp⟩

theorem exists_modify_of_iff {w : Nat} {P : α → Prop} (h : l[v]? = some x) (hP : P (g x) ↔ P x) :
    (∃ y, (l.modify v g)[w]? = some y ∧ P y) ↔ ∃ y, l[w]? = some y ∧ P y := by
  rw [exists_modify P h, hP]
  by_cases hw : w = v
  · subst hw
    simp [h]
  · simp [hw]

theorem countP_modify_of_eq {p : α → Bool} (h : l[v]? = some x) (hp : p (g x) = p x) :
    (l.modify v g).countP p = l.countP p := by
  have := countP_modify (g := g) p h
  rw [hp] at this
  exact Nat.add_right_cancel this

theorem map_modify_of_eq {β : Type*} (f : α → β) (h : l[v]? = some x) (hg : f (g x) = f x) :
    (l.modify v g).map f = l.map f := by
  refine ext_getElem? fun w => ?_
  rw [List.getElem?_map, List.getElem?_map]
  by_cases hw : v = w
  · subst hw
    rw [List.getElem?_modify_eq, h]
    exact congrArg some hg
  · rw [List.getElem?_modify_ne _ _ hw]

end lists

def openEdges (vtcs : List Vtx) (w : Nat) : Nat :=
  (vtcs.map fun x => if x.state = .complete then 0 else x.outVtcs.count w).sum

def inEdges (vtcs : List Vtx) (w : Nat) : Nat := (vtcs.map fun x => x.outVtcs.count w).sum

def Edge (s : Sched) (u v : Nat) : Prop := ∃ x, s.vtcs[u]? = some x ∧ v ∈ x.outVtcs

def Vtx.static (x : Vtx) : Kind × List Nat × List Nat × Int := (x.kind, x.inVtcs, x.outVtcs, x.num)

def inits (s : Sched) : Nat := s.vtcs.countP fun x => x.state = .init

/-! ## The invariant -/

/-- The invariant of the vertices: `D` are the dependencies that are still to be released, and `keep`
are the vertices that are complete and still in the list of issued vertices. -/
structure Core (s : Sched) (D keep : List Nat) : Prop where
  edge : ∀ u w, Edge s u w → u < w ∧ w < s.vtcs.length
  num : ∀ (w : Nat) x, s.vtcs[w]? = some x → x.num = inEdges s.vtcs w
  ins : ∀ (v : Nat) x, s.vtcs[v]? = some x → ∀ u ∈ x.inVtcs, Edge s u v
  pending : ∀ (w : Nat) x, s.vtcs[w]? = some x → x.pending = openEdges s.vtcs w + D.count w
  zero : ∀ (w : Nat) x, s.vtcs[w]? = some x → x.state ≠ .init → x.pending = 0
  count : s.completed = s.vtcs.countP fun x => x.state = .complete
  issued : ∀ v, v ∈ s.issued ↔ v ∈ keep ∨ ∃ x, s.vtcs[v]? = some x ∧ x.state = .issued
  nodup : s.issued.Nodup
  kept : ∀ v ∈ keep, ∃ x, s.vtcs[v]? = some x ∧ x.state = .complete
  sound : Sound (Edge s) s.log
  log_issue : ∀ v, .issue v ∈ s.log ↔ ∃ x, s.vtcs[v]? = some x ∧ x.state ≠ .init
  log_complete : ∀ v, .complete v ∈ s.log ↔ ∃ x, s.vtcs[v]? = some x ∧ x.state = .complete

def Ready (s : Sched) (T : Nat → Prop) : Prop :=
  ∀ w x, s.vtcs[w]? = some x → x.state = .init → x.pending = 0 → T w

def Unfinished (s : Sched) : Prop := ∃ x ∈ s.vtcs, x.state ≠ .complete

/-- What the issue of vertices does: vertices that have been issued stay as they are, and those that
wait are appended to the list. -/
structure Grow (s s' : Sched) : Prop where
  static : s'.vtcs.map Vtx.static = s.vtcs.map Vtx.static
  frame : s' = { s with
    vtcs := s'.vtcs, completed := s'.completed, issued := s'.issued, log := s'.log }
  states : ∀ (v : Nat) x, s.vtcs[v]? = some x → x.state ≠ .init →
    ∃ x', s'.vtcs[v]? = some x' ∧ x'.state = x.state
  issued : ∃ new, s'.issued = s.issued ++ new ∧ new.length + inits s' ≤ inits s

section core

variable {s s' s'' : Sched} {D keep : List Nat} {u v w n : Nat} {x : Vtx} {T : Nat → Prop}
  {res : Nat → Outcome}

theorem edge_congr_out (h : s'.vtcs.map Vtx.outVtcs = s.vtcs.map Vtx.outVtcs) : Edge s' = Edge s := by
  have hout : ∀ {s s' : Sched}, s'.vtcs.map Vtx.outVtcs = s.vtcs.map Vtx.outVtcs →
      ∀ u v, Edge s' u v → Edge s u v := by
    rintro s s' h u v ⟨x, hx, hv⟩
    have hget : (s'.vtcs[u]?).map Vtx.outVtcs = (s.vtcs[u]?).map Vtx.outVtcs := by
      rw [← List.getElem?_map, ← List.getElem?_map, h]
    rw [hx] at hget
    obtain ⟨y, hy, heq⟩ := map_eq_some_iff.1 hget.symm
    exact ⟨y, hy, heq ▸ hv⟩
  funext u v
  exact propext ⟨hout h u v, hout h.symm u v⟩

theorem edge_congr (h : s'.vtcs.map Vtx.static = s.vtcs.map Vtx.static) : Edge s' = Edge s := by
  refine edge_congr_out ?_
  have := congrArg (List.map fun p => p.2.2.1) h
  rwa [List.map_map, List.map_map] at this

theorem length_congr (h : s'.vtcs.map Vtx.static = s.vtcs.map Vtx.static) :
    s'.vtcs.length = s.vtcs.length := by
  have := congrArg List.length h
  rwa [length_map, length_map] at this

theorem inEdges_congr {vtcs vtcs' : List Vtx} (h : vtcs'.map Vtx.static = vtcs.map Vtx.static)
    (w : Nat) : inEdges vtcs' w = inEdges vtcs w := by
  have heq : ∀ l : List Vtx, inEdges l w = ((l.map Vtx.static).map fun p => p.2.2.1.count w).sum := by
    intro l
    rw [List.map_map]
    rfl
  rw [heq, heq, h]

namespace Grow

theorem refl (s : Sched) : Grow s s :=
  ⟨rfl, rfl, fun _ x hx _ => ⟨x, hx, rfl⟩, [], (append_nil _).symm, by simp⟩

theorem trans (h : Grow s s') (h' : Grow s' s'') : Grow s s'' := by
  refine ⟨h'.static.trans h.static, ?_, fun v x hx hst => ?_, ?_⟩
  · rw [h'.frame, h.frame]
  · obtain ⟨y, hy, hstate⟩ := h.states v x hx hst
    obtain ⟨z, hz, hstate'⟩ := h'.states v y hy (hstate ▸ hst)
    exact ⟨z, hz, hstate'.trans hstate⟩
  · obtain ⟨new, hnew, hle⟩ := h.issued
    obtain ⟨new', hnew', hle'⟩ := h'.issued
    refine ⟨new ++ new', by rw [hnew', hnew, append_assoc], ?_⟩
    rw [length_append]
    omega

theorem length (h : Grow s s') : s'.vtcs.length = s.vtcs.length := length_congr h.static

end Grow

theorem Core.static_fields (h : Core s D keep) (hs : s'.vtcs.map Vtx.static = s.vtcs.map Vtx.static) :
    (∀ u w, Edge s' u w → u < w ∧ w < s'.vtcs.length) ∧
      (∀ (w : Nat) x, s'.vtcs[w]? = some x → x.num = inEdges s'.vtcs w) ∧
      ∀ (v : Nat) x, s'.vtcs[v]? = some x → ∀ u ∈ x.inVtcs, Edge s' u v := by
  have hget : ∀ (v : Nat) x', s'.vtcs[v]? = some x' →
      ∃ x, s.vtcs[v]? = some x ∧ x.static = x'.static := by
    intro v x' hx'
    have hmap : (s'.vtcs[v]?).map Vtx.static = (s.vtcs[v]?).map Vtx.static := by
      rw [← List.getElem?_map, ← List.getElem?_map, hs]
    rw [hx'] at hmap
    exact map_eq_some_iff.1 hmap.symm
  rw [edge_congr hs, length_congr hs]
  refine ⟨h.edge, fun w x' hx' => ?_, fun v x' hx' u hu => ?_⟩
  · obtain ⟨x, hx, heq⟩ := hget w x' hx'
    rw [inEdges_congr hs, ← h.num w x hx]
    exact congrArg (fun p => p.2.2.2) heq.symm
  · obtain ⟨x, hx, heq⟩ := hget v x' hx'
    have hins : x.inVtcs = x'.inVtcs := congrArg (fun p => p.2.1) heq
    exact h.ins v x hx u (hins ▸ hu)

theorem Core.released_init (h : Core s (w :: D) keep) (hx : s.vtcs[w]? = some x) :
    x.state = .init := by
  by_contra hst
  have hzero := h.zero w x hx hst
  have hpending := h.pending w x hx
  rw [count_cons_self] at hpending
  omega

theorem Core.release (h : Core s (w :: D) keep) (hw : w < s.vtcs.length) :
    Core (s.release w) D keep ∧ Grow s (s.release w) := by
  have hx := List.getElem?_eq_getElem hw
  generalize s.vtcs[w] = x at hx
  have hinit := h.released_init hx
  have hstatic : (s.release w).vtcs.map Vtx.static = s.vtcs.map Vtx.static :=
    map_modify_of_eq _ hx rfl
  obtain ⟨hedge, hnum, hins⟩ := h.static_fields hstatic
  have hget : ∀ (v : Nat) y, (s.release w).vtcs[v]? = some y ↔
      (v = w ∧ y = { x with pending := x.pending - 1 }) ∨ (v ≠ w ∧ s.vtcs[v]? = some y) :=
    fun v y => getElem?_modify_some hx
  have hopen : ∀ v, openEdges (s.release w).vtcs v = openEdges s.vtcs v := fun v =>
    congrArg List.sum (map_modify_of_eq _ hx rfl)
  refine ⟨⟨hedge, hnum, hins, fun v y hy => ?_, fun v y hy hst => ?_, ?_, fun v => ?_, h.nodup,
    fun v hv => ?_, ?_, fun v => ?_, fun v => ?_⟩, hstatic, rfl, fun v y hy hst => ?_, [],
    (append_nil _).symm, ?_⟩
  · rw [hopen]
    rcases (hget v y).1 hy with ⟨rfl, rfl⟩ | ⟨hne, hy⟩
    · have := h.pending v x hx
      rw [count_cons_self] at this
      show x.pending - 1 = _
      omega
    · rw [h.pending v y hy, count_cons_of_ne (Ne.symm hne)]
  · rcases (hget v y).1 hy with ⟨rfl, rfl⟩ | ⟨hne, hy⟩
    · exact absurd hinit hst
    · exact h.zero v y hy hst
  · exact h.count.trans (countP_modify_of_eq hx rfl).symm
  · exact (h.issued v).trans (or_congr_right (exists_modify_of_iff hx Iff.rfl).symm)
  · exact (exists_modify_of_iff hx Iff.rfl).2 (h.kept v hv)
  · rw [edge_congr hstatic]
    exact h.sound
  · exact (h.log_issue v).trans (exists_modify_of_iff hx Iff.rfl).symm
  · exact (h.log_complete v).trans (exists_modify_of_iff hx Iff.rfl).symm
  · exact (exists_modify_of_iff (g := fun x : Vtx => { x with pending := x.pending - 1 })
      (P := fun z => z.state = y.state) hx Iff.rfl).2 ⟨y, hy, rfl⟩
  · rw [inits, Sched.release, Sched.modifyVtx, countP_modify_of_eq hx rfl]
    exact Nat.le_of_eq (Nat.zero_add _)

theorem Core.preds_complete (h : Core s D keep) (hx : s.vtcs[v]? = some x) (hp : x.pending = 0)
    (hu : Edge s u v) : .complete u ∈ s.log := by
  obtain ⟨y, hy, hv⟩ := hu
  refine (h.log_complete u).2 ⟨y, hy, ?_⟩
  by_contra hst
  have hpending := h.pending v x hx
  have hle : y.outVtcs.count v ≤ openEdges s.vtcs v := by
    refine le_sum_of_mem (mem_map.2 ⟨y, mem_of_getElem? hy, ?_⟩)
    rw [if_neg hst]
  have hpos := count_pos_iff.2 hv
  omega

theorem Core.wait (h : Core s D keep) (hx : s.vtcs[v]? = some x) (hst : x.state = .init)
    (hp : x.pending = 0) :
    Core ((s.noteIssue v).recordIssue v) D keep ∧ Grow s ((s.noteIssue v).recordIssue v) := by
  have hstatic : ((s.noteIssue v).recordIssue v).vtcs.map Vtx.static = s.vtcs.map Vtx.static :=
    map_modify_of_eq _ hx rfl
  obtain ⟨hedge, hnum, hins⟩ := h.static_fields hstatic
  have hopen : ∀ w, openEdges ((s.noteIssue v).recordIssue v).vtcs w = openEdges s.vtcs w :=
    fun w => congrArg List.sum (map_modify_of_eq _ hx (by simp [hst]))
  have hnot : v ∉ s.issued := by
    intro hv
    rcases (h.issued v).1 hv with hkeep | ⟨y, hy, hstate⟩
    · obtain ⟨y, hy, hstate⟩ := h.kept v hkeep
      obtain rfl := Option.some.inj (hx.symm.trans hy)
      exact absurd (hst.symm.trans hstate) nofun
    · obtain rfl := Option.some.inj (hx.symm.trans hy)
      exact absurd (hst.symm.trans hstate) nofun
  have hnew : .issue v ∉ s.log := by
    intro hmem
    obtain ⟨y, hy, hstate⟩ := (h.log_issue v).1 hmem
    obtain rfl := Option.some.inj (hx.symm.trans hy)
    exact hstate hst
  refine ⟨⟨hedge, hnum, hins, fun w y hy => ?_, fun w y hy hstate => ?_, ?_, fun w => ?_, ?_,
    fun w hw => ?_, ?_, fun w => ?_, fun w => ?_⟩, hstatic, rfl, fun w y hy hstate => ?_, [v], rfl, ?_⟩
  · rw [hopen]
    rcases (getElem?_modify_some hx).1 hy with ⟨rfl, rfl⟩ | ⟨-, hy⟩
    · exact h.pending w x hx
    · exact h.pending w y hy
  · rcases (getElem?_modify_some hx).1 hy with ⟨rfl, rfl⟩ | ⟨-, hy⟩
    · exact hp
    · exact h.zero w y hy hstate
  · refine h.count.trans (countP_modify_of_eq hx ?_).symm
    simp [hst]
  · show w ∈ s.issued ++ [v] ↔ w ∈ keep ∨ ∃ y, (s.vtcs.modify v _)[w]? = some y ∧ y.state = .issued
    rw [mem_append, mem_singleton, h.issued w, exists_modify (fun y => y.state = .issued) hx]
    by_cases hw : w = v
    · subst hw
      simp
    · simp [hw]
  · refine nodup_append.2 ⟨h.nodup, nodup_singleton v, fun a ha b hb => ?_⟩
    rw [mem_singleton.1 hb]
    rintro rfl
    exact hnot ha
  · refine (exists_modify_of_iff hx ?_).2 (h.kept w hw)
    simp [hst]
  · rw [edge_congr hstatic]
    exact h.sound.issue hnew fun u hu => h.preds_complete hx hp hu
  · show .issue w ∈ s.log ++ [Ev.issue v] ↔ ∃ y, (s.vtcs.modify v _)[w]? = some y ∧ y.state ≠ .init
    rw [mem_append, mem_singleton, h.log_issue w, exists_modify (fun y => y.state ≠ .init) hx]
    by_cases hw : w = v
    · subst hw
      simp
    · simp [hw]
  · show .complete w ∈ s.log ++ [Ev.issue v] ↔ ∃ y, (s.vtcs.modify v _)[w]? = some y ∧ y.state = .complete
    rw [mem_append, mem_singleton, h.log_complete w,
      exists_modify_of_iff (P := fun y => y.state = .complete) hx (by simp [hst])]
    simp
  · rcases Nat.decEq w v with hw | rfl
    · exact ⟨y, (getElem?_modify_some hx).2 (.inr ⟨hw, hy⟩), rfl⟩
    · obtain rfl := Option.some.inj (hx.symm.trans hy)
      exact absurd hst hstate
  · have hcount := countP_modify (g := fun x : Vtx => { x with
      state := .issued, reqs := List.replicate x.kind.numReqs false })
      (fun x => decide (x.state = .init)) hx
    rw [decide_eq_true hst] at hcount
    show 1 + List.countP _ (s.vtcs.modify v _) ≤ inits s
    rw [inits]
    simp at hcount
    omega

theorem openEdges_complete {vtcs : List Vtx} (hx : vtcs[v]? = some x) (hst : x.state ≠ .complete)
    (w : Nat) :
    openEdges vtcs w =
      openEdges (vtcs.modify v fun x => { x with state := .complete }) w + x.outVtcs.count w := by
  have := sum_map_modify (g := fun x : Vtx => { x with state := .complete })
    (fun x => if x.state = .complete then 0 else x.outVtcs.count w) hx
  rw [if_neg hst, if_pos rfl] at this
  exact this.symm

theorem Core.mark (log : List (Ev Nat)) (keep' : List Nat) (h : Core s D keep)
    (hx : s.vtcs[v]? = some x) (hst : x.state ≠ .complete) (hp : x.pending = 0)
    (hissued : ∀ w, w ∈ s.issued ↔
      w ∈ keep' ∨ w ≠ v ∧ ∃ y, s.vtcs[w]? = some y ∧ y.state = .issued)
    (hkept : ∀ w ∈ keep', w = v ∨ w ∈ keep) (hsound : Sound (Edge s) log)
    (hissue : ∀ w, .issue w ∈ log ↔ w = v ∨ .issue w ∈ s.log)
    (hcomplete : ∀ w, .complete w ∈ log ↔ .complete w ∈ s.log) :
    Core (Sched.markComplete { s with log := log } v) (x.outVtcs ++ D) keep' := by
  have hstatic : (Sched.markComplete { s with log := log } v).vtcs.map Vtx.static =
      s.vtcs.map Vtx.static := map_modify_of_eq _ hx rfl
  obtain ⟨hedge, hnum, hins⟩ := h.static_fields hstatic
  have hnew : .complete v ∉ log := by
    rw [hcomplete, h.log_complete]
    rintro ⟨y, hy, hstate⟩
    obtain rfl := Option.some.inj (hx.symm.trans hy)
    exact hst hstate
  refine ⟨hedge, hnum, hins, fun w y hy => ?_, fun w y hy hstate => ?_, ?_, fun w => ?_, h.nodup,
    fun w hw => ?_, ?_, fun w => ?_, fun w => ?_⟩
  · have hopen := openEdges_complete hx hst w
    rw [count_append]
    show y.pending = (openEdges (s.vtcs.modify v fun x => { x with state := .complete }) w : Int) + _
    have hpending : y.pending = openEdges s.vtcs w + D.count w := by
      rcases (getElem?_modify_some hx).1 hy with ⟨rfl, rfl⟩ | ⟨-, hy⟩
      · exact h.pending w x hx
      · exact h.pending w y hy
    rw [hpending, hopen]
    omega
  · rcases (getElem?_modify_some hx).1 hy with ⟨rfl, rfl⟩ | ⟨-, hy⟩
    · exact hp
    · exact h.zero w y hy hstate
  · have hcount := countP_modify (g := fun x : Vtx => { x with state := .complete })
      (fun x => decide (x.state = .complete)) hx
    rw [decide_eq_false hst] at hcount
    show s.completed + 1 = List.countP _ (s.vtcs.modify v _)
    rw [h.count]
    simpa using hcount.symm
  · show w ∈ s.issued ↔ w ∈ keep' ∨ ∃ y, (s.vtcs.modify v _)[w]? = some y ∧ y.state = .issued
    rw [hissued w, exists_modify (fun y => y.state = .issued) hx]
    simp
  · refine (exists_modify (fun y => y.state = .complete) hx).2 ?_
    by_cases hwv : w = v
    · exact .inl ⟨hwv, rfl⟩
    · exact .inr ⟨hwv, h.kept w ((hkept w hw).resolve_left hwv)⟩
  · rw [edge_congr hstatic]
    exact hsound.complete ((hissue v).2 (.inl rfl)) hnew
  · show .issue w ∈ log ++ [Ev.complete v] ↔ ∃ y, (s.vtcs.modify v _)[w]? = some y ∧ y.state ≠ .init
    rw [mem_append, mem_singleton, hissue w, h.log_issue w,
      exists_modify (fun y => y.state ≠ .init) hx]
    by_cases hw : w = v
    · subst hw
      simp
    · simp [hw]
  · show .complete w ∈ log ++ [Ev.complete v] ↔
      ∃ y, (s.vtcs.modify v _)[w]? = some y ∧ y.state = .complete
    rw [mem_append, mem_singleton, hcomplete w, h.log_complete w,
      exists_modify (fun y => y.state = .complete) hx]
    by_cases hw : w = v
    · subst hw
      simp
    · simp [hw]

theorem Core.done (h : Core s D keep) (hx : s.vtcs[v]? = some x) (hst : x.state = .init)
    (hp : x.pending = 0) :
    Core ((s.noteIssue v).markComplete v) (x.outVtcs ++ D) keep ∧
      Grow s ((s.noteIssue v).markComplete v) := by
  have hnew : .issue v ∉ s.log := by
    intro hmem
    obtain ⟨y, hy, hstate⟩ := (h.log_issue v).1 hmem
    obtain rfl := Option.some.inj (hx.symm.trans hy)
    exact hstate hst
  have hother : ∀ w, (∃ y, s.vtcs[w]? = some y ∧ y.state = .issued) → w ≠ v := by
    rintro w ⟨y, hy, hstate⟩ rfl
    obtain rfl := Option.some.inj (hx.symm.trans hy)
    exact absurd (hst.symm.trans hstate) nofun
  constructor
  · refine h.mark (s.log ++ [Ev.issue v]) _ hx (hst ▸ nofun) hp (fun w => ?_)
      (fun w hw => .inr hw) (h.sound.issue hnew fun u hu => h.preds_complete hx hp hu)
      (fun w => ?_) fun w => ?_
    · rw [h.issued w]
      exact or_congr_right ⟨fun hy => ⟨hother w hy, hy⟩, And.right⟩
    · rw [mem_append, mem_singleton]
      simp [or_comm]
    · rw [mem_append, mem_singleton]
      simp
  · refine ⟨map_modify_of_eq _ hx rfl, rfl, fun w y hy hstate => ?_, [], (append_nil _).symm, ?_⟩
    · rcases Nat.decEq w v with hw | rfl
      · exact ⟨y, (getElem?_modify_some hx).2 (.inr ⟨hw, hy⟩), rfl⟩
      · obtain rfl := Option.some.inj (hx.symm.trans hy)
        exact absurd hst hstate
    · have hcount := countP_modify (g := fun x : Vtx => { x with state := .complete })
        (fun x => decide (x.state = .init)) hx
      rw [decide_eq_true hst] at hcount
      show 0 + List.countP _ (s.vtcs.modify v _) ≤ inits s
      rw [inits]
      simp at hcount
      omega

theorem Core.completes (h : Core s [] []) (hx : s.vtcs[v]? = some x) (hst : x.state = .issued) :
    Core (s.markComplete v) x.outVtcs [v] := by
  have hp := h.zero v x hx (hst ▸ nofun)
  have hissue : .issue v ∈ s.log := (h.log_issue v).2 ⟨x, hx, hst ▸ nofun⟩
  have := h.mark s.log [v] hx (hst ▸ nofun) hp (fun w => ?_)
    (fun w hw => .inl (mem_singleton.1 hw)) h.sound (fun w => ?_) fun w => Iff.rfl
  · rwa [append_nil] at this
  · rw [h.issued w, mem_singleton]
    by_cases hw : w = v
    · subst hw
      simp [hx, hst]
    · simp [hw]
  · constructor
    · exact .inr
    · rintro (rfl | hw)
      · exact hissue
      · exact hw

/-! ## Issuing -/

theorem Ready.modify {g : Vtx → Vtx} (h : Ready s fun u => T u ∨ u = v) (hx : s.vtcs[v]? = some x)
    (hv : (g x).state = .init → (g x).pending = 0 → T v) (hs : s'.vtcs = s.vtcs.modify v g) :
    Ready s' T := by
  intro w y hy hst hp
  rw [hs] at hy
  rcases (getElem?_modify_some hx).1 hy with ⟨rfl, rfl⟩ | ⟨hne, hy⟩
  · exact hv hst hp
  · exact (h w y hy hst hp).resolve_right hne

theorem Ready.mono {T' : Nat → Prop} (h : Ready s T) (hT : ∀ u, T u → T' u) : Ready s T' :=
  fun w y hy hst hp => hT w (h w y hy hst hp)

/-- The issue of a vertex in a graph of `n` vertices keeps the invariant, and the vertex is not left
behind. -/
def IssueOk (issue : Sched → Nat → Option Sched) (n : Nat) (T : Nat → Prop) (w : Nat) : Prop :=
  ∀ s D keep, s.vtcs.length = n → Core s D keep → (Ready s fun u => T u ∨ u = w) →
    ∃ s', issue s w = some s' ∧ Core s' D keep ∧ Grow s s' ∧ Ready s' T

theorem releaseLoop_spec {issue : Sched → Nat → Option Sched} (ws : List Nat)
    (hissue : ∀ w ∈ ws, IssueOk issue n T w) (hlen : s.vtcs.length = n) (hws : ∀ w ∈ ws, w < n)
    (h : Core s (ws ++ D) keep) (hready : Ready s T) :
    ∃ s', releaseLoop issue ws s = some s' ∧ Core s' D keep ∧ Grow s s' ∧ Ready s' T := by
  induction ws generalizing s with
  | nil => exact ⟨s, rfl, h, .refl s, hready⟩
  | cons w ws ih =>
    have hw : w < s.vtcs.length := hlen ▸ hws w mem_cons_self
    obtain ⟨hcore, hgrow⟩ := h.release hw
    have hx := List.getElem?_eq_getElem hw
    have hrest : ∀ w' ∈ ws, IssueOk issue n T w' := fun w' hw' =>
      hissue w' (mem_cons_of_mem _ hw')
    have hrest' : ∀ w' ∈ ws, w' < n := fun w' hw' => hws w' (mem_cons_of_mem _ hw')
    have hget : (s.release w).vtcs[w]? = some { s.vtcs[w] with pending := s.vtcs[w].pending - 1 } :=
      (getElem?_modify_some hx).2 (.inl ⟨rfl, rfl⟩)
    unfold releaseLoop
    by_cases hfree : (s.release w).isFree w = true
    · have hready' : Ready (s.release w) fun u => T u ∨ u = w :=
        (hready.mono fun u hu => .inl (.inl hu)).modify hx (fun _ _ => .inr rfl) rfl
      obtain ⟨s₁, hs₁, hcore₁, hgrow₁, hready₁⟩ := hissue w mem_cons_self (s.release w) (ws ++ D)
        keep (hgrow.length.trans hlen) hcore hready'
      obtain ⟨s₂, hs₂, hcore₂, hgrow₂, hready₂⟩ := ih hrest
        ((hgrow₁.length.trans hgrow.length).trans hlen) hrest' hcore₁ hready₁
      refine ⟨s₂, ?_, hcore₂, (hgrow.trans hgrow₁).trans hgrow₂, hready₂⟩
      simp only [hfree, if_true, hs₁, bind_some, hs₂]
    · have hready' : Ready (s.release w) T := by
        refine (hready.mono fun u hu => .inl hu).modify hx (fun _ hp => ?_) rfl
        refine absurd (decide_eq_true ?_) hfree
        rw [hget]
        exact congrArg some hp
      obtain ⟨s₂, hs₂, hcore₂, hgrow₂, hready₂⟩ := ih hrest (hgrow.length.trans hlen) hrest' hcore
        hready'
      refine ⟨s₂, ?_, hcore₂, hgrow.trans hgrow₂, hready₂⟩
      simp only [if_neg hfree, hs₂]

theorem Kind.outcome_error {kind : Kind} {o : Outcome} (h : kind.outcome o = .error) :
    o = .error := by
  cases kind <;> cases o <;> first | rfl | cases h

theorem vtxIssue_spec (herr : ∀ u, res u = .error → T u) (fuel : Nat) (hlen : s.vtcs.length = n)
    (hv : v < n) (hfuel : n - v ≤ fuel) (h : Core s D keep)
    (hready : Ready s fun u => T u ∨ u = v) :
    ∃ s' err, vtxIssue res fuel s v = some (s', err) ∧
      (err = true → res v = .error ∧ Unfinished s') ∧ Core s' D keep ∧ Grow s s' ∧
      Ready s' T := by
  induction fuel generalizing s v D keep with
  | zero => omega
  | succ fuel ih =>
    have hx := List.getElem?_eq_getElem (hlen ▸ hv : v < s.vtcs.length)
    generalize s.vtcs[v] = x at hx
    unfold vtxIssue
    simp only [hx, bind_some]
    by_cases hgo : x.state = .init ∧ x.pending = 0
    · rw [if_pos hgo]
      obtain ⟨hst, hp⟩ := hgo
      cases hout : x.kind.outcome (res v) with
      | error =>
        have hres := Kind.outcome_error hout
        have hopen : Unfinished s := ⟨x, mem_of_getElem? hx, hst ▸ nofun⟩
        refine ⟨s, true, rfl, fun _ => ⟨hres, hopen⟩, h, .refl s, hready.mono fun u hu => ?_⟩
        rcases hu with hu | rfl
        · exact hu
        · exact herr u hres
      | wait =>
        obtain ⟨hcore, hgrow⟩ := h.wait hx hst hp
        exact ⟨_, false, rfl, nofun, hcore, hgrow,
          hready.modify (g := fun x => { x with
            state := .issued, reqs := List.replicate x.kind.numReqs false }) hx nofun rfl⟩
      | done =>
        obtain ⟨hcore, hgrow⟩ := h.done hx hst hp
        have hready' : Ready ((s.noteIssue v).markComplete v) T :=
          hready.modify (g := fun x => { x with state := .complete }) hx nofun rfl
        have hback : ∀ w ∈ x.outVtcs, v < w ∧ w < n := by
          intro w hw
          rw [← hlen]
          exact h.edge v w ⟨x, hx, hw⟩
        have hissue : ∀ w ∈ x.outVtcs,
            IssueOk (fun s w => (vtxIssue res fuel s w).map Prod.fst) n T w := by
          intro w hw s' D' keep' hlen' hcore' hr
          have hlt := (hback w hw).1
          obtain ⟨s₁, err, hs₁, -, hcore₁, hgrow₁, hready₁⟩ :=
            ih (s := s') (v := w) hlen' (hback w hw).2 (by omega) hcore' hr
          exact ⟨s₁, congrArg (Option.map Prod.fst) hs₁, hcore₁, hgrow₁, hready₁⟩
        obtain ⟨s₁, hs₁, hcore₁, hgrow₁, hready₁⟩ := releaseLoop_spec x.outVtcs hissue
          (hgrow.length.trans hlen) (fun w hw => (hback w hw).2) hcore hready'
        refine ⟨s₁, false, ?_, nofun, hcore₁, hgrow.trans hgrow₁, hready₁⟩
        have hnote : (s.noteIssue v).vtcs[v]? = some x := hx
        simp only [recordCompletion, hnote, bind_some, hs₁, map_some]
    · rw [if_neg hgo]
      refine ⟨s, false, rfl, nofun, h, .refl s, fun w y hy hst hp => ?_⟩
      rcases hready w y hy hst hp with hu | rfl
      · exact hu
      · obtain rfl := Option.some.inj (hx.symm.trans hy)
        exact absurd ⟨hst, hp⟩ hgo

theorem issueAll_spec (herr : ∀ u, res u = .error → ∀ w, T w) (vs : List Nat)
    (hvs : ∀ v ∈ vs, v < s.vtcs.length) (h : Core s D keep)
    (hready : Ready s fun u => T u ∨ u ∈ vs) :
    ∃ s' err, issueAll res vs s = some (s', err) ∧ (err = true → Unfinished s') ∧ Core s' D keep ∧
      Grow s s' ∧ Ready s' T := by
  induction vs generalizing s with
  | nil =>
    exact ⟨s, false, rfl, nofun, h, .refl s,
      hready.mono fun u hu => hu.resolve_right not_mem_nil⟩
  | cons v vs ih =>
    obtain ⟨s₁, err, hs₁, herr₁, hcore₁, hgrow₁, hready₁⟩ :=
      vtxIssue_spec (T := fun u => T u ∨ u ∈ vs) (fun u hu => .inl (herr u hu u)) _ rfl
        (hvs v mem_cons_self) (Nat.sub_le _ _) h
        (hready.mono fun u hu => by
          rcases hu with hu | hu
          · exact .inl (.inl hu)
          · rcases mem_cons.1 hu with rfl | hu
            · exact .inr rfl
            · exact .inl (.inr hu))
    unfold issueAll
    simp only [hs₁, bind_some]
    cases err with
    | true =>
      obtain ⟨hres, hopen⟩ := herr₁ rfl
      exact ⟨s₁, true, rfl, fun _ => hopen, hcore₁, hgrow₁, fun w _ _ _ _ => herr v hres w⟩
    | false =>
      obtain ⟨s₂, err, hs₂, hopen₂, hcore₂, hgrow₂, hready₂⟩ := ih
        (fun w hw => by rw [hgrow₁.length]; exact hvs w (mem_cons_of_mem _ hw)) hcore₁ hready₁
      exact ⟨s₂, err, hs₂, hopen₂, hcore₂, hgrow₁.trans hgrow₂, hready₂⟩

/-! ## Poking -/

structure Touch (g : Vtx → Vtx) (x : Vtx) : Prop where
  static : (g x).static = x.static
  state : (g x).state = x.state
  pending : (g x).pending = x.pending

theorem Core.touch {g : Vtx → Vtx} (h : Core s D keep) (hx : s.vtcs[v]? = some x) (hg : Touch g x) :
    Core (s.modifyVtx v g) D keep ∧ Grow s (s.modifyVtx v g) := by
  have hstatic : (s.modifyVtx v g).vtcs.map Vtx.static = s.vtcs.map Vtx.static :=
    map_modify_of_eq _ hx hg.static
  have hout : (g x).outVtcs = x.outVtcs := congrArg (fun p => p.2.2.1) hg.static
  obtain ⟨hedge, hnum, hins⟩ := h.static_fields hstatic
  have hopen : ∀ w, openEdges (s.modifyVtx v g).vtcs w = openEdges s.vtcs w := fun w =>
    congrArg List.sum (map_modify_of_eq _ hx (by rw [hg.state, hout]))
  have hstate : ∀ P : VtxState → Prop, P (g x).state ↔ P x.state := fun P => by rw [hg.state]
  refine ⟨⟨hedge, hnum, hins, fun w y hy => ?_, fun w y hy hst => ?_, ?_, fun w => ?_, h.nodup,
    fun w hw => ?_, ?_, fun w => ?_, fun w => ?_⟩, hstatic, rfl, fun w y hy _ => ?_, [],
    (append_nil _).symm, ?_⟩
  · rw [hopen]
    rcases (getElem?_modify_some hx).1 hy with ⟨rfl, rfl⟩ | ⟨-, hy⟩
    · rw [hg.pending]
      exact h.pending w x hx
    · exact h.pending w y hy
  · rcases (getElem?_modify_some hx).1 hy with ⟨rfl, rfl⟩ | ⟨-, hy⟩
    · rw [hg.state] at hst
      rw [hg.pending]
      exact h.zero w x hx hst
    · exact h.zero w y hy hst
  · exact h.count.trans (countP_modify_of_eq hx (by rw [hg.state])).symm
  · exact (h.issued w).trans (or_congr_right (exists_modify_of_iff hx (hstate (· = .issued))).symm)
  · exact (exists_modify_of_iff hx (hstate (· = .complete))).2 (h.kept w hw)
  · rw [edge_congr hstatic]
    exact h.sound
  · exact (h.log_issue w).trans (exists_modify_of_iff hx (hstate (· ≠ .init))).symm
  · exact (h.log_complete w).trans (exists_modify_of_iff hx (hstate (· = .complete))).symm
  · exact (exists_modify_of_iff (P := fun z => z.state = y.state) hx (hstate (· = y.state))).2
      ⟨y, hy, rfl⟩
  · rw [inits, Sched.modifyVtx, countP_modify_of_eq hx (by rw [hg.state])]
    exact Nat.le_of_eq (Nat.zero_add _)

theorem Ready.touch {g : Vtx → Vtx} (h : Ready s T) (hx : s.vtcs[v]? = some x) (hg : Touch g x) :
    Ready (s.modifyVtx v g) T := by
  intro w y hy hst hp
  rcases (getElem?_modify_some hx).1 hy with ⟨rfl, rfl⟩ | ⟨-, hy⟩
  · exact h w x hx (hg.state ▸ hst) (hg.pending ▸ hp)
  · exact h w y hy hst hp

/-- What looking at one vertex does: it may leave the list, and others are appended. -/
structure Polled (v : Nat) (s s' : Sched) : Prop where
  static : s'.vtcs.map Vtx.static = s.vtcs.map Vtx.static
  frame : s' = { s with
    vtcs := s'.vtcs, completed := s'.completed, issued := s'.issued, log := s'.log }
  issued : ∃ new, (s'.issued = s.issued ++ new ∨ s'.issued = (s.issued ++ new).erase v) ∧
    new.length + inits s' ≤ inits s

theorem Grow.polled (h : Grow s s') : Polled v s s' := by
  obtain ⟨new, hnew, hle⟩ := h.issued
  exact ⟨h.static, h.frame, new, .inl hnew, hle⟩

theorem Grow.trans_polled (h : Grow s s') (h' : Polled v s' s'') : Polled v s s'' := by
  refine ⟨h'.static.trans h.static, ?_, ?_⟩
  · rw [h'.frame, h.frame]
  · obtain ⟨new, hnew, hle⟩ := h.issued
    obtain ⟨new', hnew', hle'⟩ := h'.issued
    rw [hnew, append_assoc] at hnew'
    refine ⟨new ++ new', hnew', ?_⟩
    rw [length_append]
    omega

theorem completeIssued_spec (herr : ∀ u, res u = .error → T u) (h : Core s [] [])
    (hready : Ready s T) (hx : s.vtcs[v]? = some x) (hst : x.state = .issued) :
    ∃ s', completeIssued res s v = some s' ∧ Core s' [] [] ∧ Ready s' T ∧ Polled v s s' := by
  have hcore := h.completes hx hst
  have hready' : Ready (s.markComplete v) T :=
    (hready.mono fun u hu => .inl hu).modify (g := fun x => { x with state := .complete }) hx nofun rfl
  have hlen : (s.markComplete v).vtcs.length = s.vtcs.length := length_modify _ _ _
  have hissue : ∀ w ∈ x.outVtcs, IssueOk (issueAny res) s.vtcs.length T w := by
    intro w hw s' D' keep' hlen' hcore' hr
    obtain ⟨s₁, err, hs₁, -, hcore₁, hgrow₁, hready₁⟩ := vtxIssue_spec herr s'.vtcs.length hlen'
      (h.edge v w ⟨x, hx, hw⟩).2 (by omega) hcore' hr
    exact ⟨s₁, congrArg (Option.map Prod.fst) hs₁, hcore₁, hgrow₁, hready₁⟩
  rw [← append_nil x.outVtcs] at hcore
  obtain ⟨s₁, hs₁, hcore₁, hgrow₁, hready₁⟩ := releaseLoop_spec x.outVtcs hissue hlen
    (fun w hw => (h.edge v w ⟨x, hx, hw⟩).2) hcore hready'
  obtain ⟨new, hnew, hle⟩ := hgrow₁.issued
  have hmark : (s.markComplete v).vtcs[v]? = some { x with state := .complete } :=
    (getElem?_modify_some hx).2 (.inl ⟨rfl, rfl⟩)
  obtain ⟨y, hy, hdone⟩ := hgrow₁.states v _ hmark nofun
  refine ⟨{ s₁ with issued := s₁.issued.erase v }, ?_, ?_, hready₁, ?_⟩
  · simp only [completeIssued, recordCompletion, hx, bind_some, hs₁, map_some]
  · refine ⟨hcore₁.edge, hcore₁.num, hcore₁.ins, hcore₁.pending, hcore₁.zero, hcore₁.count,
      fun w => ?_, hcore₁.nodup.erase v, fun w hw => absurd hw not_mem_nil, hcore₁.sound,
      hcore₁.log_issue, hcore₁.log_complete⟩
    show w ∈ s₁.issued.erase v ↔ _
    rw [hcore₁.nodup.mem_erase_iff, hcore₁.issued w, mem_singleton]
    by_cases hw : w = v
    · subst hw
      simp [hy, hdone]
    · simp [hw]
  · refine ⟨hgrow₁.static.trans (map_modify_of_eq _ hx rfl), ?_, new, .inr ?_, ?_⟩
    · rw [hgrow₁.frame]
      rfl
    · exact congrArg (List.erase · v) hnew
    · have hsame : inits (s.markComplete v) = inits s :=
        countP_modify_of_eq hx (by simp [hst])
      show new.length + inits s₁ ≤ _
      omega

theorem pollVtx_spec (herr : ∀ u, res u = .error → ∀ w, T w) (h : Core s [] [])
    (hready : Ready s T) (hv : v ∈ s.issued) :
    ∃ s' err, pollVtx res s v = some (s', err) ∧ (err = true → Unfinished s') ∧ Core s' [] [] ∧
      Ready s' T ∧ Polled v s s' := by
  obtain ⟨x, hx, hst⟩ := ((h.issued v).1 hv).resolve_left not_mem_nil
  obtain ⟨s₁, hs₁, hcore₁, hready₁, hpolled₁⟩ :=
    completeIssued_spec (fun u hu => herr u hu u) h hready hx hst
  have hopen : Unfinished s := ⟨x, mem_of_getElem? hx, hst ▸ nofun⟩
  have hself : ∀ err : Bool, ∃ s' err', some (s, err) = some (s', err') ∧
      (err' = true → Unfinished s') ∧ Core s' [] [] ∧ Ready s' T ∧ Polled v s s' :=
    fun err => ⟨s, err, rfl, fun _ => hopen, h, hready, (Grow.refl s).polled⟩
  have hall : ∃ s' err, (if x.reqs.all id = true then
      (completeIssued res s v).map fun s => (s, false) else some (s, false)) = some (s', err) ∧
      (err = true → Unfinished s') ∧ Core s' [] [] ∧ Ready s' T ∧ Polled v s s' := by
    split
    · exact ⟨s₁, false, by rw [hs₁]; rfl, nofun, hcore₁, hready₁, hpolled₁⟩
    · exact hself false
  unfold pollVtx
  simp only [hx, bind_some, if_pos hst]
  cases hkind : x.kind with
  | isend => exact hall
  | irecv => exact hall
  | irecvStatus => exact hall
  | sched => exact hall
  | generic =>
    simp only
    split
    · exact hself true
    · exact hall
  | imcast numDests =>
    have htouch : Touch (fun x => { x with checked := x.check }) x := ⟨rfl, rfl, rfl⟩
    obtain ⟨hcore₂, hgrow₂⟩ := h.touch hx htouch
    have hready₂ := hready.touch hx htouch
    have hx₂ : (s.modifyVtx v fun x => { x with checked := x.check }).vtcs[v]? =
        some { x with checked := x.check } := (getElem?_modify_some hx).2 (.inl ⟨rfl, rfl⟩)
    simp only
    split
    · obtain ⟨s₃, hs₃, hcore₃, hready₃, hpolled₃⟩ :=
        completeIssued_spec (fun u hu => herr u hu u) hcore₂ hready₂ hx₂ hst
      exact ⟨s₃, false, by rw [hs₃]; rfl, nofun, hcore₃, hready₃, hgrow₂.trans_polled hpolled₃⟩
    · exact ⟨_, false, rfl, nofun, hcore₂, hready₂, hgrow₂.polled⟩
  | reduceLocal => exact hself false
  | localcopy => exact hself false
  | selectiveSink => exact hself false
  | sink => exact hself false
  | fence => exact hself false
  | cb => exact hself false

theorem nextOf_append {A B : List Nat} (hv : v ∉ A) : nextOf v (A ++ v :: B) = B.head? := by
  induction A with
  | nil => simp [nextOf]
  | cons a A ih =>
    simp only [mem_cons, not_or] at hv
    rw [cons_append, nextOf, if_neg (Ne.symm hv.1), ih hv.2]

structure Walked (s s' : Sched) : Prop where
  static : s'.vtcs.map Vtx.static = s.vtcs.map Vtx.static
  frame : s' = { s with
    vtcs := s'.vtcs, completed := s'.completed, issued := s'.issued, log := s'.log }

theorem walk_spec (herr : ∀ u, res u = .error → ∀ w, T w) (fuel : Nat) {A B : List Nat}
    (hlist : s.issued = A ++ B) (hfuel : B.length + inits s ≤ fuel) (h : Core s [] [])
    (hready : Ready s T) :
    ∃ s' err, walk res fuel s B.head? = some (s', err) ∧ (err = true → Unfinished s') ∧
      Core s' [] [] ∧ Ready s' T ∧ Walked s s' := by
  induction fuel generalizing s A B with
  | zero =>
    cases B with
    | nil => exact ⟨s, false, rfl, nofun, h, hready, rfl, rfl⟩
    | cons v B =>
      rw [length_cons] at hfuel
      omega
  | succ fuel ih =>
    cases B with
    | nil => exact ⟨s, false, rfl, nofun, h, hready, rfl, rfl⟩
    | cons v B =>
      have hmem : v ∈ s.issued := by
        rw [hlist]
        exact mem_append_right _ mem_cons_self
      have hnodup := h.nodup
      rw [hlist] at hnodup
      have hvA : v ∉ A := fun hv => (nodup_append.1 hnodup).2.2 v hv v mem_cons_self rfl
      obtain ⟨s₁, err, hs₁, hopen, hcore₁, hready₁, hpolled⟩ := pollVtx_spec herr h hready hmem
      obtain ⟨new, hnew, hle⟩ := hpolled.issued
      have hnext : nextOf v s.issued = B.head? := by rw [hlist, nextOf_append hvA]
      rw [List.head?_cons]
      unfold walk
      simp only [hs₁, bind_some, hnext]
      cases err with
      | true => exact ⟨s₁, true, rfl, hopen, hcore₁, hready₁, hpolled.static, hpolled.frame⟩
      | false =>
        have hrest : ∃ A', s₁.issued = A' ++ (B ++ new) := by
          rcases hnew with hnew | hnew
          · exact ⟨A ++ [v], by rw [hnew, hlist]; simp⟩
          · refine ⟨A, ?_⟩
            rw [hnew, hlist, append_assoc, erase_append_right _ hvA, cons_append,
              erase_cons_head]
        obtain ⟨A', hA'⟩ := hrest
        rw [length_cons] at hfuel
        simp only [Bool.false_eq_true, if_false]
        cases B with
        | nil =>
          exact ⟨s₁, false, by simp [walk], nofun, hcore₁, hready₁, hpolled.static, hpolled.frame⟩
        | cons b B =>
          obtain ⟨s₂, err, hs₂, hopen₂, hcore₂, hready₂, hwalked⟩ := ih (B := (b :: B) ++ new) hA'
            (by rw [length_append]; omega) hcore₁ hready₁
          refine ⟨s₂, err, hs₂, hopen₂, hcore₂, hready₂, hwalked.static.trans hpolled.static, ?_⟩
          rw [hwalked.frame, hpolled.frame]

theorem Core.complete_iff (h : Core s D keep) :
    s.completed = s.vtcs.length ↔ ∀ x ∈ s.vtcs, x.state = .complete := by
  rw [h.count, countP_eq_length]
  simp

inductive Poked (E : Prop) (s : Sched) : Sched → Prop
  | waits {t : Sched} : Core t [] [] → Walked s t → (Ready t fun _ => E) → Unfinished t →
      Poked E s { t with phase := .running }
  | ends {t : Sched} : Core t [] [] → Walked s t → (∀ x ∈ t.vtcs, x.state = .complete) →
      Poked E s t.finish

theorem poke_spec {E : Prop} (herr : ∀ u, res u = .error → E) (h : Core s [] [])
    (hready : s.issued = [] ∨ Ready s fun _ => E) : ∃ s', poke res s = some s' ∧ Poked E s s' := by
  have hfirst : ∃ s' err, firstIssue res s = some (s', err) ∧ (err = true → Unfinished s') ∧
      Core s' [] [] ∧ Walked s s' ∧ Ready s' fun _ => E := by
    unfold firstIssue
    split
    · have hall : Ready s fun u => E ∨ u ∈ List.range s.vtcs.length := by
        intro w x hx _ _
        exact .inr (mem_range.2 (List.getElem?_eq_some_iff.1 hx).1)
      obtain ⟨s', err, hs', hopen, hcore, hgrow, hready'⟩ := issueAll_spec (T := fun _ => E)
        (fun u hu _ => herr u hu) _ (fun v hv => mem_range.1 hv) h hall
      exact ⟨s', err, hs', hopen, hcore, ⟨hgrow.static, hgrow.frame⟩, hready'⟩
    · next hne => exact ⟨s, false, rfl, nofun, h, ⟨rfl, rfl⟩, hready.resolve_left hne⟩
  obtain ⟨s₁, err, hs₁, hopen₁, hcore₁, hwalked₁, hready₁⟩ := hfirst
  unfold poke
  simp only [hs₁, bind_some]
  cases err with
  | true => exact ⟨_, rfl, .waits hcore₁ hwalked₁ hready₁ (hopen₁ rfl)⟩
  | false =>
    obtain ⟨s₂, err, hs₂, hopen₂, hcore₂, hready₂, hwalked₂⟩ := walk_spec (T := fun _ => E)
      (fun u hu _ => herr u hu) (s₁.issued.length + s₁.vtcs.length) (A := []) (B := s₁.issued) rfl
      (Nat.add_le_add_left (countP_le_length) _) hcore₁ hready₁
    have hwalked : Walked s s₂ := by
      refine ⟨hwalked₂.static.trans hwalked₁.static, ?_⟩
      rw [hwalked₂.frame, hwalked₁.frame]
    simp only [Bool.false_eq_true, if_false, hs₂, bind_some]
    cases err with
    | true => exact ⟨_, rfl, .waits hcore₂ hwalked hready₂ (hopen₂ rfl)⟩
    | false =>
      simp only [Bool.false_eq_true, if_false]
      split
      · next hend => exact ⟨_, rfl, .ends hcore₂ hwalked (hcore₂.complete_iff.1 hend)⟩
      · next hend =>
        have hopen : Unfinished s₂ := by
          by_contra hno
          refine hend (hcore₂.complete_iff.2 fun x hx => ?_)
          by_contra hst
          exact hno ⟨x, hx, hst⟩
        exact ⟨_, rfl, .waits hcore₂ hwalked hready₂ hopen⟩

end core

end PsMpi.Tsp
