import PsMpi.Tsp.GentranOk

/-!
# Schedules of the generic transport from their creation to their end
-/

open List Option

namespace PsMpi.Tsp

open PsMpi.Lib Tasks

/-! ## Building -/

structure BuildOk (s : Sched) : Prop where
  edge : ∀ u w, Edge s u w → u < w ∧ w < s.vtcs.length
  num : ∀ (w : Nat) x, s.vtcs[w]? = some x → x.num = inEdges s.vtcs w
  ins : ∀ (v : Nat) x, s.vtcs[v]? = some x → ∀ u ∈ x.inVtcs, Edge s u v
  pending : ∀ x ∈ s.vtcs, x.pending = x.num
  init : ∀ x ∈ s.vtcs, x.state = .init
  completed : s.completed = 0
  issued : s.issued = []
  log : s.log = []

def Vtx.origin (x : Vtx) : Kind × List Nat := (x.kind, x.inVtcs)

section build

variable {s s' : Sched} {u v : Nat} {x : Vtx} {kind : Kind}

theorem BuildOk.core (h : BuildOk s) : Core s [] [] := by
  have hopen : ∀ w, openEdges s.vtcs w = inEdges s.vtcs w := by
    intro w
    refine congrArg List.sum (map_congr_left fun x hx => ?_)
    rw [if_neg]
    rw [h.init x hx]
    exact nofun
  have hnone : ∀ (P : VtxState → Prop) (w : Nat), ¬P .init →
      ¬∃ x, s.vtcs[w]? = some x ∧ P x.state := by
    rintro P w hP ⟨x, hx, hst⟩
    rw [h.init x (mem_of_getElem? hx)] at hst
    exact hP hst
  refine ⟨h.edge, h.num, h.ins, fun w x hx => ?_, fun w x hx hst => ?_, ?_, fun w => ?_, ?_,
    fun w hw => absurd hw not_mem_nil, ?_, fun w => ?_, fun w => ?_⟩
  · rw [h.pending x (mem_of_getElem? hx), h.num w x hx, hopen]
    simp
  · exact absurd (h.init x (mem_of_getElem? hx)) hst
  · rw [h.completed]
    refine (countP_eq_zero.2 fun x hx => ?_).symm
    rw [h.init x hx]
    exact nofun
  · rw [h.issued]
    simp only [not_mem_nil, false_or, false_iff]
    exact hnone (· = .issued) w nofun
  · rw [h.issued]
    exact .nil
  · rw [h.log]
    exact .nil
  · rw [h.log]
    simp only [not_mem_nil, false_iff]
    exact hnone (· ≠ .init) w fun hno => hno rfl
  · rw [h.log]
    simp only [not_mem_nil, false_iff]
    exact hnone (· = .complete) w nofun

theorem BuildOk.vtxCreate (h : BuildOk s) (kind : Kind) :
    BuildOk (s.vtxCreate kind) ∧ Edge (s.vtxCreate kind) = Edge s := by
  have hget : ∀ (w : Nat) x, (s.vtxCreate kind).vtcs[w]? = some x →
      s.vtcs[w]? = some x ∨ w = s.vtcs.length ∧ x = ⟨kind, .init, [], [], 0, 0, [], 0⟩ := by
    intro w x hx
    have hx : (s.vtcs ++ [⟨kind, .init, [], [], 0, 0, [], 0⟩])[w]? = some x := hx
    rw [List.getElem?_append] at hx
    split at hx
    · exact .inl hx
    · have hlt := (List.getElem?_eq_some_iff.1 hx).1
      rw [length_singleton] at hlt
      exact .inr ⟨by omega, mem_singleton.1 (mem_of_getElem? hx)⟩
  have hedge : Edge (s.vtxCreate kind) = Edge s := by
    funext a b
    refine propext ⟨?_, ?_⟩
    · rintro ⟨x, hx, hb⟩
      rcases hget a x hx with hx | ⟨-, rfl⟩
      · exact ⟨x, hx, hb⟩
      · exact absurd hb not_mem_nil
    · rintro ⟨x, hx, hb⟩
      refine ⟨x, ?_, hb⟩
      rw [← hx]
      exact List.getElem?_append_left (List.getElem?_eq_some_iff.1 hx).1
  have hin : ∀ w, inEdges (s.vtxCreate kind).vtcs w = inEdges s.vtcs w := by
    intro w
    show (List.map _ (s.vtcs ++ [_])).sum = _
    rw [map_append, sum_append]
    exact Nat.add_zero _
  refine ⟨⟨fun u w huw => ?_, fun w x hx => ?_, fun w x hx u hu => ?_, fun x hx => ?_, fun x hx => ?_,
    h.completed, h.issued, h.log⟩, hedge⟩
  · rw [hedge] at huw
    obtain ⟨hlt, hlen⟩ := h.edge u w huw
    refine ⟨hlt, ?_⟩
    show w < (s.vtcs ++ [_]).length
    rw [length_append, length_singleton]
    omega
  · rw [hin]
    rcases hget w x hx with hx | ⟨rfl, rfl⟩
    · exact h.num w x hx
    · -- no edge leads to a vertex that does not exist
      have hzero : inEdges s.vtcs s.vtcs.length = 0 := by
        refine sum_eq_zero_iff.2 fun k hk => ?_
        obtain ⟨y, hy, rfl⟩ := mem_map.1 hk
        obtain ⟨u, hu⟩ := List.getElem?_of_mem hy
        refine count_eq_zero_of_not_mem fun hmem => ?_
        have := (h.edge u _ ⟨y, hu, hmem⟩).2
        omega
      rw [hzero]
      rfl
  · rw [hedge]
    rcases hget w x hx with hx | ⟨-, rfl⟩
    · exact h.ins w x hx u hu
    · exact absurd hu not_mem_nil
  · rcases mem_append.1 hx with hx | hx
    · exact h.pending x hx
    · rw [mem_singleton.1 hx]
  · rcases mem_append.1 hx with hx | hx
    · exact h.init x hx
    · rw [mem_singleton.1 hx]

structure SameVtcs (s s' : Sched) : Prop where
  origin : s'.vtcs.map Vtx.origin = s.vtcs.map Vtx.origin
  frame : s' = { s with vtcs := s'.vtcs }

theorem SameVtcs.refl (s : Sched) : SameVtcs s s := ⟨rfl, rfl⟩

theorem SameVtcs.trans {s'' : Sched} (h : SameVtcs s s') (h' : SameVtcs s' s'') : SameVtcs s s'' := by
  refine ⟨h'.origin.trans h.origin, ?_⟩
  rw [h'.frame, h.frame]

theorem SameVtcs.length (h : SameVtcs s s') : s'.vtcs.length = s.vtcs.length := by
  have := congrArg List.length h.origin
  rwa [length_map, length_map] at this

theorem BuildOk.addDependency (h : BuildOk s) (huv : u < v) (hv : v < s.vtcs.length) :
    BuildOk (s.addDependency v u) ∧ SameVtcs s (s.addDependency v u) ∧
      ∀ a b, Edge (s.addDependency v u) a b ↔ Edge s a b ∨ a = u ∧ b = v := by
  have hx := List.getElem?_eq_getElem (Nat.lt_trans huv hv)
  generalize s.vtcs[u] = x at hx
  have hy := List.getElem?_eq_getElem hv
  generalize s.vtcs[v] = y at hy
  have hvu : v ≠ u := Nat.ne_of_gt huv
  have hopen : s.vtcs[u]?.map Vtx.state ≠ some .complete := by
    rw [hx, map_some, h.init x (mem_of_getElem? hx)]
    exact nofun
  have hs : s.addDependency v u = (s.modifyVtx u fun x => { x with outVtcs := x.outVtcs ++ [v] }).modifyVtx
      v fun x => { x with num := x.num + 1, pending := x.pending + 1 } := by
    unfold Sched.addDependency
    simp only [decide_eq_true hopen, if_true]
  have hy₁ : (s.vtcs.modify u fun x => { x with outVtcs := x.outVtcs ++ [v] })[v]? = some y :=
    (getElem?_modify_some hx).2 (.inr ⟨hvu, hy⟩)
  have hget : ∀ (w : Nat) z, (s.addDependency v u).vtcs[w]? = some z ↔
      (w = v ∧ z = { y with num := y.num + 1, pending := y.pending + 1 }) ∨
        (w ≠ v ∧ ((w = u ∧ z = { x with outVtcs := x.outVtcs ++ [v] }) ∨
          (w ≠ u ∧ s.vtcs[w]? = some z))) := by
    intro w z
    rw [hs]
    refine (getElem?_modify_some hy₁).trans ?_
    exact or_congr_right (and_congr_right fun _ => getElem?_modify_some hx)
  have hedge : ∀ a b, Edge (s.addDependency v u) a b ↔ Edge s a b ∨ a = u ∧ b = v := by
    intro a b
    unfold Edge
    simp only [hget]
    constructor
    · rintro ⟨z, ⟨rfl, rfl⟩ | ⟨-, ⟨rfl, rfl⟩ | ⟨-, hz⟩⟩, hb⟩
      · exact .inl ⟨y, hy, hb⟩
      · rcases mem_append.1 hb with hb | hb
        · exact .inl ⟨x, hx, hb⟩
        · exact .inr ⟨rfl, mem_singleton.1 hb⟩
      · exact .inl ⟨z, hz, hb⟩
    · rintro (⟨z, hz, hb⟩ | ⟨rfl, rfl⟩)
      · by_cases hav : a = v
        · subst hav
          obtain rfl := Option.some.inj (hy.symm.trans hz)
          exact ⟨_, .inl ⟨rfl, rfl⟩, hb⟩
        · by_cases hau : a = u
          · subst hau
            obtain rfl := Option.some.inj (hx.symm.trans hz)
            exact ⟨_, .inr ⟨hav, .inl ⟨rfl, rfl⟩⟩, mem_append_left _ hb⟩
          · exact ⟨z, .inr ⟨hav, .inr ⟨hau, hz⟩⟩, hb⟩
      · exact ⟨_, .inr ⟨Ne.symm hvu, .inl ⟨rfl, rfl⟩⟩,
          mem_append_right _ (mem_singleton_self _)⟩
  have horigin : (s.addDependency v u).vtcs.map Vtx.origin = s.vtcs.map Vtx.origin := by
    rw [hs]
    exact (map_modify_of_eq _ hy₁ rfl).trans (map_modify_of_eq _ hx rfl)
  have hsame : SameVtcs s (s.addDependency v u) := ⟨horigin, by rw [hs]; rfl⟩
  have hin : ∀ w, inEdges (s.addDependency v u).vtcs w = inEdges s.vtcs w + [v].count w := by
    intro w
    have h₁ := sum_map_modify (g := fun x : Vtx => { x with outVtcs := x.outVtcs ++ [v] })
      (fun x => x.outVtcs.count w) hx
    have h₂ := sum_map_modify (g := fun x : Vtx => { x with num := x.num + 1, pending := x.pending + 1 })
      (fun x => x.outVtcs.count w) hy₁
    rw [hs]
    show (List.map _ (List.modify (List.modify _ _ _) _ _)).sum = (List.map _ _).sum + _
    simp only [count_append] at h₁ h₂
    omega
  have hmem : ∀ z ∈ (s.addDependency v u).vtcs, ∃ (w : Nat), (s.addDependency v u).vtcs[w]? = some z :=
    fun z hz => List.getElem?_of_mem hz
  refine ⟨⟨fun a b hab => ?_, fun w z hz => ?_, fun w z hz a ha => ?_, fun z hz => ?_, fun z hz => ?_,
    by rw [hs]; exact h.completed, by rw [hs]; exact h.issued, by rw [hs]; exact h.log⟩, hsame, hedge⟩
  · rw [hsame.length]
    rcases (hedge a b).1 hab with hab | ⟨rfl, rfl⟩
    · exact h.edge a b hab
    · exact ⟨huv, hv⟩
  · rw [hin]
    rcases (hget w z).1 hz with ⟨rfl, rfl⟩ | ⟨hwv, ⟨rfl, rfl⟩ | ⟨-, hz⟩⟩
    · have := h.num w y hy
      rw [count_singleton_self]
      show y.num + 1 = _
      omega
    · have := h.num w x hx
      rw [count_eq_zero_of_not_mem fun hmem => hwv (mem_singleton.1 hmem)]
      exact this
    · have := h.num w z hz
      rw [count_eq_zero_of_not_mem fun hmem => hwv (mem_singleton.1 hmem)]
      exact this
  · refine (hedge a w).2 (.inl ?_)
    rcases (hget w z).1 hz with ⟨rfl, rfl⟩ | ⟨-, ⟨rfl, rfl⟩ | ⟨-, hz⟩⟩
    · exact h.ins w y hy a ha
    · exact h.ins w x hx a ha
    · exact h.ins w z hz a ha
  · obtain ⟨w, hw⟩ := hmem z hz
    rcases (hget w z).1 hw with ⟨-, rfl⟩ | ⟨-, ⟨-, rfl⟩ | ⟨-, hw⟩⟩
    · show y.pending + 1 = y.num + 1
      rw [h.pending y (mem_of_getElem? hy)]
    · exact h.pending x (mem_of_getElem? hx)
    · exact h.pending z (mem_of_getElem? hw)
  · obtain ⟨w, hw⟩ := hmem z hz
    rcases (hget w z).1 hw with ⟨-, rfl⟩ | ⟨-, ⟨-, rfl⟩ | ⟨-, hw⟩⟩
    · exact h.init y (mem_of_getElem? hy)
    · exact h.init x (mem_of_getElem? hx)
    · exact h.init z (mem_of_getElem? hw)

theorem BuildOk.foldl_addDependency (inVtcs : List Nat) (h : BuildOk s) (hins : ∀ u ∈ inVtcs, u < v)
    (hv : v < s.vtcs.length) :
    BuildOk (inVtcs.foldl (fun s u => s.addDependency v u) s) ∧
      SameVtcs s (inVtcs.foldl (fun s u => s.addDependency v u) s) ∧
      ∀ a b, Edge (inVtcs.foldl (fun s u => s.addDependency v u) s) a b ↔
        Edge s a b ∨ a ∈ inVtcs ∧ b = v := by
  induction inVtcs generalizing s with
  | nil => exact ⟨h, .refl s, fun a b => by simp⟩
  | cons u inVtcs ih =>
    obtain ⟨hok, hsame, hedge⟩ := h.addDependency (hins u mem_cons_self) hv
    obtain ⟨hok', hsame', hedge'⟩ := ih hok (fun w hw => hins w (mem_cons_of_mem _ hw))
      (hsame.length ▸ hv)
    refine ⟨hok', hsame.trans hsame', fun a b => ?_⟩
    rw [foldl_cons, hedge', hedge, mem_cons]
    tauto

def depends (s : Sched) (inVtcs : List Nat) (a : Nat) : Prop :=
  a ∈ inVtcs ∨ inVtcs = [] ∧ s.lastFence = some a

theorem BuildOk.addDependencies {inVtcs : List Nat} (h : BuildOk s) (hins : ∀ u ∈ inVtcs, u < v)
    (hv : v < s.vtcs.length) (hfence : ∀ f, s.lastFence = some f → f < v) :
    BuildOk (s.addDependencies v inVtcs) ∧
      s.addDependencies v inVtcs = { s with vtcs := (s.addDependencies v inVtcs).vtcs } ∧
      (s.addDependencies v inVtcs).vtcs.map Vtx.kind = s.vtcs.map Vtx.kind ∧
      ∀ a b, Edge (s.addDependencies v inVtcs) a b ↔ Edge s a b ∨ depends s inVtcs a ∧ b = v := by
  obtain ⟨hok₁, hsame₁, hedge₁⟩ := h.foldl_addDependency inVtcs hins hv
  unfold Sched.addDependencies
  generalize inVtcs.foldl (fun s u => s.addDependency v u) s = s₁ at hok₁ hsame₁ hedge₁
  have hlast : s₁.lastFence = s.lastFence := by rw [hsame₁.frame]
  have hstep : ∃ s₂, s₁.addFenceDependency v inVtcs = s₂ ∧ BuildOk s₂ ∧ SameVtcs s s₂ ∧
      ∀ a b, Edge s₂ a b ↔ Edge s a b ∨ depends s inVtcs a ∧ b = v := by
    unfold Sched.addFenceDependency
    rw [hlast]
    cases hf : s.lastFence with
    | none =>
      refine ⟨s₁, rfl, hok₁, hsame₁, fun a b => ?_⟩
      rw [hedge₁, depends, hf]
      simp
    | some f =>
      have hlt := hfence f hf
      simp only
      split
      · next hnil =>
        obtain ⟨hok₂, hsame₂, hedge₂⟩ := hok₁.addDependency hlt (hsame₁.length ▸ hv)
        refine ⟨_, rfl, hok₂, hsame₁.trans hsame₂, fun a b => ?_⟩
        rw [hedge₂, hedge₁, depends, hf, hnil.2]
        simp [eq_comm]
      · next hnil =>
        have hne : inVtcs ≠ [] := fun heq => hnil ⟨Nat.ne_of_lt hlt, heq⟩
        refine ⟨s₁, rfl, hok₁, hsame₁, fun a b => ?_⟩
        rw [hedge₁, depends]
        simp [hne]
  obtain ⟨s₂, heq, hok₂, hsame₂, hedge₂⟩ := hstep
  rw [heq]
  have hv₂ : v < s₂.vtcs.length := hsame₂.length ▸ hv
  have hx := List.getElem?_eq_getElem hv₂
  generalize s₂.vtcs[v] = x at hx
  have hedge : Edge (s₂.modifyVtx v fun x => { x with inVtcs := inVtcs }) = Edge s₂ :=
    edge_congr_out (map_modify_of_eq _ hx rfl)
  have hlen : (s₂.modifyVtx v fun x => { x with inVtcs := inVtcs }).vtcs.length = s₂.vtcs.length :=
    length_modify _ _ _
  have hin : ∀ w, inEdges (s₂.modifyVtx v fun x => { x with inVtcs := inVtcs }).vtcs w =
      inEdges s₂.vtcs w := fun w => congrArg List.sum (map_modify_of_eq _ hx rfl)
  have hmem : ∀ z ∈ (s₂.modifyVtx v fun x => { x with inVtcs := inVtcs }).vtcs,
      ∃ y ∈ s₂.vtcs, z.pending = y.pending ∧ z.num = y.num ∧ z.state = y.state := by
    intro z hz
    obtain ⟨w, hw⟩ := List.getElem?_of_mem hz
    rcases (getElem?_modify_some hx).1 hw with ⟨-, rfl⟩ | ⟨-, hw⟩
    · exact ⟨x, mem_of_getElem? hx, rfl, rfl, rfl⟩
    · exact ⟨z, mem_of_getElem? hw, rfl, rfl, rfl⟩
  refine ⟨⟨?_, fun w z hz => ?_, fun w z hz a ha => ?_, fun z hz => ?_, fun z hz => ?_, hok₂.completed,
    hok₂.issued, hok₂.log⟩, ?_, ?_, fun a b => ?_⟩
  · rw [hedge, hlen]
    exact hok₂.edge
  · rw [hin]
    rcases (getElem?_modify_some hx).1 hz with ⟨rfl, rfl⟩ | ⟨-, hz⟩
    · exact hok₂.num w x hx
    · exact hok₂.num w z hz
  · rw [hedge]
    rcases (getElem?_modify_some hx).1 hz with ⟨rfl, rfl⟩ | ⟨-, hz⟩
    · exact (hedge₂ a w).2 (.inr ⟨.inl ha, rfl⟩)
    · exact hok₂.ins w z hz a ha
  · obtain ⟨y, hy, hp, hn, -⟩ := hmem z hz
    rw [hp, hn]
    exact hok₂.pending y hy
  · obtain ⟨y, hy, -, -, hst⟩ := hmem z hz
    rw [hst]
    exact hok₂.init y hy
  · rw [hsame₂.frame]
    rfl
  · have horigin := congrArg (List.map Prod.fst) hsame₂.origin
    rw [List.map_map, List.map_map] at horigin
    exact (map_modify_of_eq _ hx rfl).trans horigin
  · rw [hedge]
    exact hedge₂ a b

structure Added (s s' : Sched) (kind : Kind) (inVtcs : List Nat) : Prop where
  kinds : s'.vtcs.map Vtx.kind = s.vtcs.map Vtx.kind ++ [kind]
  edges : ∀ a b, Edge s' a b ↔ Edge s a b ∨ depends s inVtcs a ∧ b = s.vtcs.length
  frame : s' = { s with vtcs := s'.vtcs, lastFence := s'.lastFence }

theorem Added.length {inVtcs : List Nat} (h : Added s s' kind inVtcs) :
    s'.vtcs.length = s.vtcs.length + 1 := by
  have := congrArg List.length h.kinds
  rwa [length_map, length_append, length_map] at this

def FenceLt (s : Sched) : Prop := ∀ f, s.lastFence = some f → f < s.vtcs.length

theorem BuildOk.add {inVtcs : List Nat} (h : BuildOk s) (hfence : FenceLt s)
    (hins : ∀ u ∈ inVtcs, u < s.vtcs.length) (kind : Kind) :
    BuildOk (s.add kind inVtcs) ∧ Added s (s.add kind inVtcs) kind inVtcs ∧
      (s.add kind inVtcs).lastFence = s.lastFence := by
  obtain ⟨hok, hedge⟩ := h.vtxCreate kind
  have hlen : (s.vtxCreate kind).vtcs.length = s.vtcs.length + 1 := length_append
  obtain ⟨hok', hframe, hkinds, hedge'⟩ :=
    hok.addDependencies hins (hlen ▸ Nat.lt_succ_self _) hfence
  have hlast : (s.add kind inVtcs).lastFence = s.lastFence := by
    rw [Sched.add, hframe]
    rfl
  refine ⟨hok', ⟨?_, fun a b => ?_, ?_⟩, hlast⟩
  · rw [Sched.add, hkinds]
    exact map_append
  · rw [Sched.add, hedge', hedge]
    rfl
  · rw [hlast, Sched.add, hframe]
    rfl

theorem sinkVtcs_lt {i : Nat} (hu : u ∈ s.sinkVtcs i) : u < i := by
  induction i with
  | zero => exact absurd hu not_mem_nil
  | succ i ih =>
    unfold Sched.sinkVtcs at hu
    split at hu
    · exact absurd hu not_mem_nil
    · split at hu
      · exact absurd hu not_mem_nil
      · split at hu
        · rcases mem_cons.1 hu with rfl | hu
          · exact Nat.lt_succ_self _
          · exact Nat.lt_succ_of_lt (ih hu)
        · exact Nat.lt_succ_of_lt (ih hu)

theorem sinkVtcs_vtxCreate {i : Nat} (hi : i ≤ s.vtcs.length) :
    (s.vtxCreate kind).sinkVtcs i = s.sinkVtcs i := by
  induction i with
  | zero => rfl
  | succ i ih =>
    have hget : (s.vtxCreate kind).vtcs[i]? = s.vtcs[i]? := List.getElem?_append_left hi
    unfold Sched.sinkVtcs
    rw [hget, ih (Nat.le_of_succ_le hi)]

theorem sink_eq : s.sink = s.add .sink (s.sinkVtcs s.vtcs.length) := by
  unfold Sched.sink Sched.add
  simp only [sinkVtcs_vtxCreate (Nat.le_refl _)]

theorem BuildOk.sink (h : BuildOk s) (hfence : FenceLt s) :
    BuildOk s.sink ∧ Added s s.sink .sink (s.sinkVtcs s.vtcs.length) ∧
      s.sink.lastFence = s.lastFence := by
  rw [sink_eq]
  exact h.add hfence (fun u hu => sinkVtcs_lt hu) .sink

theorem BuildOk.fence (h : BuildOk s) (hfence : FenceLt s) :
    BuildOk s.fence ∧ Added s s.fence .fence (s.sinkVtcs s.vtcs.length) ∧
      s.fence.lastFence = some s.vtcs.length := by
  obtain ⟨hok, hadded, -⟩ := h.sink hfence
  have hv : s.vtcs.length < s.sink.vtcs.length := by
    rw [hadded.length]
    exact Nat.lt_succ_self _
  have hx := List.getElem?_eq_getElem hv
  generalize s.sink.vtcs[s.vtcs.length] = x at hx
  have hedge : Edge s.fence = Edge s.sink := edge_congr_out (map_modify_of_eq _ hx rfl)
  have hlen : s.fence.vtcs.length = s.sink.vtcs.length := length_modify _ _ _
  have hin : ∀ w, inEdges s.fence.vtcs w = inEdges s.sink.vtcs w := fun w =>
    congrArg List.sum (map_modify_of_eq _ hx rfl)
  have hget : ∀ (w : Nat) z, s.fence.vtcs[w]? = some z → ∃ y, s.sink.vtcs[w]? = some y ∧
      z.pending = y.pending ∧ z.num = y.num ∧ z.state = y.state ∧ z.inVtcs = y.inVtcs := by
    intro w z hz
    rcases (getElem?_modify_some hx).1 hz with ⟨rfl, rfl⟩ | ⟨-, hz⟩
    · exact ⟨x, hx, rfl, rfl, rfl, rfl⟩
    · exact ⟨z, hz, rfl, rfl, rfl, rfl⟩
  refine ⟨⟨?_, fun w z hz => ?_, fun w z hz a ha => ?_, fun z hz => ?_, fun z hz => ?_, hok.completed,
    hok.issued, hok.log⟩, ⟨?_, ?_, ?_⟩, rfl⟩
  · rw [hedge, hlen]
    exact hok.edge
  · obtain ⟨y, hy, -, hn, -⟩ := hget w z hz
    rw [hin, hn]
    exact hok.num w y hy
  · obtain ⟨y, hy, -, -, -, hi⟩ := hget w z hz
    rw [hedge]
    exact hok.ins w y hy a (hi ▸ ha)
  · obtain ⟨w, hw⟩ := List.getElem?_of_mem hz
    obtain ⟨y, hy, hp, hn, -⟩ := hget w z hw
    rw [hp, hn]
    exact hok.pending y (mem_of_getElem? hy)
  · obtain ⟨w, hw⟩ := List.getElem?_of_mem hz
    obtain ⟨y, hy, -, -, hst, -⟩ := hget w z hw
    rw [hst]
    exact hok.init y (mem_of_getElem? hy)
  · have hmap : s.fence.vtcs.map Vtx.kind = (s.sink.vtcs.map Vtx.kind).modify s.vtcs.length
        fun _ => .fence := by
      refine ext_getElem? fun w => ?_
      by_cases hw : s.vtcs.length = w
      · subst hw
        rw [List.getElem?_modify_eq, List.getElem?_map, List.getElem?_map, hx]
        show Option.map _ ((s.sink.vtcs.modify _ _)[_]?) = _
        rw [List.getElem?_modify_eq, hx]
        rfl
      · rw [List.getElem?_modify_ne _ _ hw, List.getElem?_map, List.getElem?_map]
        show Option.map _ ((s.sink.vtcs.modify _ _)[_]?) = _
        rw [List.getElem?_modify_ne _ _ hw]
    have hlast : ∀ l : List Kind, (l ++ [Kind.sink]).modify l.length (fun _ => .fence) = l ++ [Kind.fence] := by
      intro l
      induction l with
      | nil => rfl
      | cons a l ih => rw [cons_append, length_cons, modify_succ_cons, ih]; rfl
    have := hlast (s.vtcs.map Vtx.kind)
    rw [length_map] at this
    rw [hmap, hadded.kinds, this]
  · rw [hedge]
    exact hadded.edges
  · show s.fence = _
    have hsink := hadded.frame
    rw [Sched.fence]
    simp only
    rw [hsink]
    rfl

theorem Core.reset (h : Core s [] []) : BuildOk s.reset := by
  have hout : s.reset.vtcs.map Vtx.outVtcs = s.vtcs.map Vtx.outVtcs := List.map_map
  have hlen : s.reset.vtcs.length = s.vtcs.length := length_map _
  have hin : ∀ w, inEdges s.reset.vtcs w = inEdges s.vtcs w := fun w =>
    congrArg List.sum List.map_map
  have hget : ∀ (w : Nat) z, s.reset.vtcs[w]? = some z → ∃ x, s.vtcs[w]? = some x ∧
      z = { x with pending := x.num, state := .init, checked := 0 } := by
    intro w z hz
    have hz : (s.vtcs.map _)[w]? = some z := hz
    rw [List.getElem?_map] at hz
    obtain ⟨x, hx, rfl⟩ := map_eq_some_iff.1 hz
    exact ⟨x, hx, rfl⟩
  refine ⟨?_, fun w z hz => ?_, fun w z hz a ha => ?_, fun z hz => ?_, fun z hz => ?_, rfl, rfl, rfl⟩
  · rw [edge_congr_out hout, hlen]
    exact h.edge
  · obtain ⟨x, hx, rfl⟩ := hget w z hz
    rw [hin]
    exact h.num w x hx
  · obtain ⟨x, hx, rfl⟩ := hget w z hz
    rw [edge_congr_out hout]
    exact h.ins w x hx a ha
  · obtain ⟨x, -, rfl⟩ := mem_map.1 hz
    rfl
  · obtain ⟨x, -, rfl⟩ := mem_map.1 hz
    rfl

end build

/-! ## Calls -/

/-- The invariant of a schedule; `E` is whether errors may have been returned. -/
structure Inv (E : Prop) (s : Sched) : Prop where
  core : Core s [] []
  fence : FenceLt s
  built : s.phase = .built → BuildOk s ∧ s.reports = 0 ∧ s.frees = 0
  running : s.phase = .running →
    (Ready s fun _ => E) ∧ Unfinished s ∧ s.reports = 0 ∧ s.frees = 0
  complete : s.phase = .complete → s.persistent = true ∧
    (∀ x ∈ s.vtcs, x.state = .complete) ∧ s.reports = 1 ∧ s.frees = 0
  freed : s.phase = .freed → s.frees = 1 ∧
    (s.persistent = false → (∀ x ∈ s.vtcs, x.state = .complete) ∧ s.reports = 1)

def Excused (E : Prop) : Act → Prop
  | .start res => ∀ u, res u = .error → E
  | .poke res => ∀ u, res u = .error → E
  | _ => True

theorem excused_true (a : Act) : Excused True a := by
  cases a with
  | start res => exact fun _ _ => trivial
  | poke res => exact fun _ _ => trivial
  | _ => trivial

section calls

variable {E : Prop} {s s' t : Sched} {res : Nat → Outcome}

theorem Core.of_eq (h : Core s [] []) (hv : s'.vtcs = s.vtcs) (hc : s'.completed = s.completed)
    (hi : s'.issued = s.issued) (hl : s'.log = s.log) : Core s' [] [] := by
  have hedge : Edge s' = Edge s := edge_congr_out (by rw [hv])
  refine ⟨?_, ?_, ?_, ?_, ?_, ?_, ?_, ?_, ?_, ?_, ?_, ?_⟩
  · rw [hedge, hv]
    exact h.edge
  · rw [hv]
    exact h.num
  · rw [hedge, hv]
    exact h.ins
  · rw [hv]
    exact h.pending
  · rw [hv]
    exact h.zero
  · rw [hc, hv]
    exact h.count
  · rw [hi, hv]
    exact h.issued
  · rw [hi]
    exact h.nodup
  · exact fun v hv => absurd hv not_mem_nil
  · rw [hedge, hl]
    exact h.sound
  · rw [hl, hv]
    exact h.log_issue
  · rw [hl, hv]
    exact h.log_complete

theorem Inv.finish (hcore : Core t [] []) (hfence : FenceLt t)
    (hdone : ∀ x ∈ t.vtcs, x.state = .complete) (hr : t.reports = 0) (hf : t.frees = 0) :
    Inv E t.finish := by
  have hcore' : Core t.finish [] [] := hcore.of_eq rfl rfl rfl rfl
  have hreports : t.finish.reports = 1 := by
    show t.reports + 1 = 1
    rw [hr]
  cases hp : t.persistent with
  | true =>
    have hphase : t.finish.phase = .complete := by
      show (if t.persistent = true then _ else _) = _
      rw [hp]
      rfl
    have hfrees : t.finish.frees = 0 := by
      show (if t.persistent = true then _ else _) = _
      rw [hp, hf]
      rfl
    exact ⟨hcore', hfence, fun h => absurd (hphase.symm.trans h) nofun,
      fun h => absurd (hphase.symm.trans h) nofun, fun _ => ⟨hp, hdone, hreports, hfrees⟩,
      fun h => absurd (hphase.symm.trans h) nofun⟩
  | false =>
    have hphase : t.finish.phase = .freed := by
      show (if t.persistent = true then _ else _) = _
      rw [hp]
      rfl
    have hfrees : t.finish.frees = 1 := by
      show (if t.persistent = true then _ else _) = _
      rw [hp, hf]
      rfl
    exact ⟨hcore', hfence, fun h => absurd (hphase.symm.trans h) nofun,
      fun h => absurd (hphase.symm.trans h) nofun, fun h => absurd (hphase.symm.trans h) nofun,
      fun _ => ⟨hfrees, fun _ => ⟨hdone, hreports⟩⟩⟩

theorem Walked.fields (h : Walked s t) (hfence : FenceLt s) :
    FenceLt t ∧ t.reports = s.reports ∧ t.frees = s.frees := by
  refine ⟨fun f hf => ?_, ?_, ?_⟩
  · rw [length_congr h.static]
    rw [h.frame] at hf
    exact hfence f hf
  · rw [h.frame]
  · rw [h.frame]

theorem Poked.inv (h : Poked E s s') (hfence : FenceLt s) (hr : s.reports = 0) (hf : s.frees = 0) :
    Inv E s' := by
  cases h with
  | @waits t hcore hwalked hready hopen =>
    obtain ⟨hfence', hr', hf'⟩ := hwalked.fields hfence
    exact ⟨hcore.of_eq rfl rfl rfl rfl, hfence', nofun,
      fun _ => ⟨hready, hopen, hr'.trans hr, hf'.trans hf⟩, nofun, nofun⟩
  | @ends t hcore hwalked hdone =>
    obtain ⟨hfence', hr', hf'⟩ := hwalked.fields hfence
    exact Inv.finish hcore hfence' hdone (hr'.trans hr) (hf'.trans hf)

theorem Inv.start (h : Inv E s) (hp : s.phase = .built) (herr : ∀ u, res u = .error → E) :
    ∃ s', start res s = some s' ∧ Inv E s' := by
  obtain ⟨hbuild, hr, hf⟩ := h.built hp
  unfold Tsp.start
  split
  · next hzero =>
    refine ⟨_, rfl, Inv.finish h.core h.fence (fun x hx => ?_) hr hf⟩
    rw [eq_nil_of_length_eq_zero hzero] at hx
    exact absurd hx not_mem_nil
  · rw [if_pos hbuild.completed]
    obtain ⟨s', hs', hpoked⟩ := poke_spec herr h.core (.inl hbuild.issued)
    exact ⟨s', hs', hpoked.inv h.fence hr hf⟩

theorem Inv.poke (h : Inv E s) (hp : s.phase = .running) (herr : ∀ u, res u = .error → E) :
    ∃ s', poke res s = some s' ∧ Inv E s' := by
  obtain ⟨hready, -, hr, hf⟩ := h.running hp
  obtain ⟨s', hs', hpoked⟩ := poke_spec herr h.core (.inr hready)
  exact ⟨s', hs', hpoked.inv h.fence hr hf⟩

theorem Inv.added {kind : Kind} {inVtcs : List Nat} (h : Inv E s) (hp : s.phase = .built)
    (hbuild : BuildOk s') (hadded : Added s s' kind inVtcs) (hfence : FenceLt s') : Inv E s' := by
  obtain ⟨-, hr, hf⟩ := h.built hp
  have hphase : s'.phase = .built := by
    rw [hadded.frame]
    exact hp
  have hr' : s'.reports = 0 := by
    rw [hadded.frame]
    exact hr
  have hf' : s'.frees = 0 := by
    rw [hadded.frame]
    exact hf
  exact ⟨hbuild.core, hfence, fun _ => ⟨hbuild, hr', hf'⟩, fun h => absurd (hphase.symm.trans h) nofun,
    fun h => absurd (hphase.symm.trans h) nofun, fun h => absurd (hphase.symm.trans h) nofun⟩

theorem Inv.step {a : Act} (h : Inv E s) (herr : Excused E a) (hs : Tsp.step s a = some s') :
    Inv E s' := by
  cases a with
  | add kind inVtcs =>
    obtain ⟨⟨hp, -, hins⟩, hs⟩ := ite_none_right_eq_some.1 hs
    cases hs
    obtain ⟨hbuild, hadded, hlast⟩ := (h.built hp).1.add h.fence hins kind
    refine h.added hp hbuild hadded fun f hf => ?_
    rw [hlast] at hf
    rw [hadded.length]
    exact Nat.lt_succ_of_lt (h.fence f hf)
  | sink =>
    obtain ⟨hp, hs⟩ := ite_none_right_eq_some.1 hs
    cases hs
    obtain ⟨hbuild, hadded, hlast⟩ := (h.built hp).1.sink h.fence
    refine h.added hp hbuild hadded fun f hf => ?_
    rw [hlast] at hf
    rw [hadded.length]
    exact Nat.lt_succ_of_lt (h.fence f hf)
  | fence =>
    obtain ⟨hp, hs⟩ := ite_none_right_eq_some.1 hs
    cases hs
    obtain ⟨hbuild, hadded, hlast⟩ := (h.built hp).1.fence h.fence
    refine h.added hp hbuild hadded fun f hf => ?_
    rw [hlast] at hf
    rw [hadded.length, ← Option.some.inj hf]
    exact Nat.lt_succ_self _
  | start res =>
    obtain ⟨hp, hs⟩ := ite_none_right_eq_some.1 hs
    obtain ⟨t, ht, hinv⟩ := h.start hp herr
    obtain rfl := Option.some.inj (ht.symm.trans hs)
    exact hinv
  | finish v i =>
    obtain ⟨x, hx, hs⟩ := bind_eq_some_iff.1 hs
    obtain ⟨⟨hp, -⟩, hs⟩ := ite_none_right_eq_some.1 hs
    cases hs
    have htouch : Touch (fun x => { x with reqs := x.reqs.set i true }) x := ⟨rfl, rfl, rfl⟩
    obtain ⟨hready, ⟨y, hy, hst⟩, hr, hf⟩ := h.running hp
    obtain ⟨hcore, hgrow⟩ := h.core.touch hx htouch
    have hopen : Unfinished (s.modifyVtx v fun x => { x with reqs := x.reqs.set i true }) := by
      obtain ⟨w, hw⟩ := List.getElem?_of_mem hy
      obtain ⟨z, hz, hzst⟩ := (exists_modify_of_iff (P := fun z : Vtx => z.state ≠ .complete)
        (g := fun x : Vtx => { x with reqs := x.reqs.set i true }) hx Iff.rfl).2 ⟨y, hw, hst⟩
      exact ⟨z, mem_of_getElem? hz, hzst⟩
    refine ⟨hcore, fun f hf => ?_, fun hno => absurd (hp.symm.trans hno) nofun,
      fun _ => ⟨hready.touch hx htouch, hopen, hr, hf⟩, fun hno => absurd (hp.symm.trans hno) nofun,
      fun hno => absurd (hp.symm.trans hno) nofun⟩
    rw [hgrow.length]
    exact h.fence f hf
  | poke res =>
    obtain ⟨hp, hs⟩ := ite_none_right_eq_some.1 hs
    obtain ⟨t, ht, hinv⟩ := h.poke hp herr
    obtain rfl := Option.some.inj (ht.symm.trans hs)
    exact hinv
  | reset =>
    obtain ⟨⟨-, hp⟩, hs⟩ := ite_none_right_eq_some.1 hs
    cases hs
    obtain ⟨-, -, -, hf⟩ := h.complete hp
    have hbuild := h.core.reset
    refine ⟨hbuild.core, fun f hf => ?_, fun _ => ⟨hbuild, rfl, hf⟩, nofun, nofun, nofun⟩
    have hlen : s.reset.vtcs.length = s.vtcs.length := length_map _
    rw [hlen]
    exact h.fence f hf
  | free =>
    obtain ⟨⟨hper, hp⟩, hs⟩ := ite_none_right_eq_some.1 hs
    cases hs
    have hfrees : s.frees = 0 := by
      rcases hp with hp | hp
      · exact (h.built hp).2.2
      · exact (h.complete hp).2.2.2
    refine ⟨h.core.of_eq rfl rfl rfl rfl, h.fence, nofun, nofun, nofun, fun _ => ⟨?_, fun hno => ?_⟩⟩
    · show s.frees + 1 = 1
      rw [hfrees]
    · exact absurd (hper.symm.trans hno) nofun

theorem inv_create (persistent : Bool) : Inv E (create persistent) := by
  have hbuild : BuildOk (create persistent) := by
    refine ⟨?_, ?_, ?_, ?_, ?_, rfl, rfl, rfl⟩
    · rintro u w ⟨x, hx, -⟩
      cases hx
    · exact fun w x hx => nomatch hx
    · exact fun w x hx => nomatch hx
    · exact fun x hx => absurd hx not_mem_nil
    · exact fun x hx => absurd hx not_mem_nil
  exact ⟨hbuild.core, nofun, fun _ => ⟨hbuild, rfl, rfl⟩, nofun, nofun, nofun⟩

theorem inv_of_reachWhen {persistent : Bool} {C : Sched → Act → Prop}
    (hC : ∀ {s a}, C s a → Excused E a) (h : (sys persistent).ReachWhen C s) : Inv E s :=
  Sys.ReachWhen.inv (M := sys persistent) (I := Inv E) (inv_create persistent)
    (fun _ hi hc hs => hi.step (hC hc) hs) h

end calls

/-! ## Runs -/

/-- A persistent schedule: a send, a multicast to two destinations that depends on it twice, a fence
and a callback. -/
def restarted : List Act :=
  [.add .isend [], .add (.imcast 2) [0, 0], .fence, .add .cb [], .start fun _ => .wait,
    .finish 0 0, .poke fun _ => .wait, .finish 1 1, .finish 1 0, .poke fun _ => .wait, .reset,
    .start fun _ => .done]

end PsMpi.Tsp
