import PsMpi.Tsp.RunOk

/-!
# Fences and sinks
-/

open List Option

namespace PsMpi.Tsp

open PsMpi.Lib Tasks Relation

def kindAt (s : Sched) (v : Nat) : Option Kind := (s.vtcs.map Vtx.kind)[v]?

structure GraphOk (s : Sched) : Prop where
  sinks : ∀ v kind, kindAt s v = some kind → kind.isSink = true → ∀ u < v, TransGen (Edge s) u v
  fences : ∀ f, kindAt s f = some .fence → ∀ v, f < v → v < s.vtcs.length → TransGen (Edge s) f v
  last : ∀ f, kindAt s f = some .fence → ∃ l, s.lastFence = some l ∧ f ≤ l
  isFence : ∀ f, s.lastFence = some f → kindAt s f = some .fence

def Fenced (s : Sched) : Act → Prop
  | .add _ inVtcs => ∀ f, s.lastFence = some f → inVtcs ≠ [] → ∃ u ∈ inVtcs, f ≤ u
  | _ => True

section graph

variable {s s' : Sched} {u v f : Nat} {kind : Kind} {inVtcs : List Nat}

theorem kindAt_eq {x : Vtx} (hx : s.vtcs[v]? = some x) : kindAt s v = some x.kind := by
  rw [kindAt, List.getElem?_map, hx]
  rfl

theorem lt_of_kindAt (h : kindAt s v = some kind) : v < s.vtcs.length := by
  have := (List.getElem?_eq_some_iff.1 h).1
  rwa [length_map] at this

theorem mem_sinkVtcs {i : Nat} (hi : i ≤ s.vtcs.length) :
    u ∈ s.sinkVtcs i ↔ u < i ∧ (∃ x, s.vtcs[u]? = some x ∧ x.outVtcs = []) ∧
      ∀ w, u ≤ w → w < i → kindAt s w ≠ some .fence := by
  induction i with
  | zero => simp [Sched.sinkVtcs]
  | succ i ih =>
    have hx := List.getElem?_eq_getElem hi
    generalize s.vtcs[i] = x at hx
    have ih := ih (Nat.le_of_succ_le hi)
    -- the fence at `i`, if there is one, is behind all vertices before it
    have hstep : ∀ w, (u ≤ w → w < i + 1 → kindAt s w ≠ some .fence) ↔
        ((u ≤ w → w < i → kindAt s w ≠ some .fence) ∧ (w = i → u ≤ i → kindAt s i ≠ some .fence)) := by
      intro w
      constructor
      · intro hno
        refine ⟨fun hu hw => hno hu (Nat.lt_succ_of_lt hw), ?_⟩
        rintro rfl hu
        exact hno hu (Nat.lt_succ_self _)
      · rintro ⟨hno, hat⟩ hu hw
        rcases Nat.lt_succ_iff_lt_or_eq.1 hw with hw | rfl
        · exact hno hu hw
        · exact hat rfl hu
    unfold Sched.sinkVtcs
    simp only [hx, hstep, forall_and, forall_eq]
    split
    · next hfence =>
      have hkind : kindAt s i = some .fence := by rw [kindAt_eq hx, hfence]
      constructor
      · exact fun hno => absurd hno not_mem_nil
      · rintro ⟨hu, -, -, hno⟩
        exact absurd hkind (hno (Nat.le_of_lt_succ hu))
    · next hfence =>
      have hkind : kindAt s i ≠ some .fence := by
        rw [kindAt_eq hx]
        exact fun heq => hfence (Option.some.inj heq)
      by_cases hui : u = i
      · subst hui
        split
        · next hout =>
          have hnil := eq_nil_of_length_eq_zero hout
          refine iff_of_true mem_cons_self ⟨Nat.lt_succ_self _, ⟨x, hx, hnil⟩, ?_, fun _ => hkind⟩
          intro w hu hw
          omega
        · next hout =>
          refine iff_of_false (fun hmem => absurd (sinkVtcs_lt hmem) (Nat.lt_irrefl _)) ?_
          rintro ⟨-, ⟨y, hy, hnil⟩, -⟩
          obtain rfl := Option.some.inj (hx.symm.trans hy)
          rw [hnil] at hout
          exact hout rfl
      · have hcons : (u ∈ if x.outVtcs.length = 0 then i :: s.sinkVtcs i else s.sinkVtcs i) ↔
            u ∈ s.sinkVtcs i := by
          split
          · rw [mem_cons]
            exact or_iff_right hui
          · exact Iff.rfl
        rw [hcons, ih]
        have hlt : u < i + 1 ↔ u < i := by omega
        rw [hlt]
        exact and_congr_right fun _ => and_congr_right fun _ => ⟨fun hno => ⟨hno, fun _ => hkind⟩, And.left⟩

theorem Added.kindAt (h : Added s s' kind inVtcs) (v : Nat) :
    kindAt s' v = if v = s.vtcs.length then some kind else Tsp.kindAt s v := by
  rw [Tsp.kindAt, h.kinds, List.getElem?_append, length_map]
  split
  · next hlt => rw [if_neg (Nat.ne_of_lt hlt), Tsp.kindAt]
  · next hlt =>
    by_cases heq : v = s.vtcs.length
    · rw [if_pos heq, heq, Nat.sub_self]
      rfl
    · have hnone : Tsp.kindAt s v = none :=
        List.getElem?_eq_none (by rw [length_map]; omega)
      rw [if_neg heq, hnone]
      exact List.getElem?_eq_none (by rw [length_singleton]; omega)

theorem Added.mono (h : Added s s' kind inVtcs) (hanc : TransGen (Edge s) u v) :
    TransGen (Edge s') u v :=
  TransGen.mono (fun a b hab => (h.edges a b).2 (.inl hab)) u v hanc

theorem GraphOk.last_anc (h : GraphOk s) (hadded : Added s s' kind inVtcs)
    (hins : ∀ u ∈ inVtcs, u < s.vtcs.length) (hl : s.lastFence = some f)
    (hfenced : inVtcs ≠ [] → ∃ u ∈ inVtcs, f ≤ u) : TransGen (Edge s') f s.vtcs.length := by
  by_cases hnil : inVtcs = []
  · exact .single ((hadded.edges f _).2 (.inr ⟨.inr ⟨hnil, hl⟩, rfl⟩))
  · obtain ⟨u, hu, hle⟩ := hfenced hnil
    have hedge : Edge s' u s.vtcs.length := (hadded.edges u _).2 (.inr ⟨.inl hu, rfl⟩)
    rcases Nat.lt_or_eq_of_le hle with hlt | rfl
    · exact (hadded.mono (h.fences f (h.isFence f hl) u hlt (hins u hu))).tail hedge
    · exact .single hedge

theorem GraphOk.added (h : GraphOk s) (hadded : Added s s' kind inVtcs)
    (hins : ∀ u ∈ inVtcs, u < s.vtcs.length)
    (hfenced : ∀ f, s.lastFence = some f → inVtcs ≠ [] → ∃ u ∈ inVtcs, f ≤ u)
    (hsink : kind.isSink = true → ∀ u < s.vtcs.length, TransGen (Edge s') u s.vtcs.length)
    (hlast : s'.lastFence = if kind = .fence then some s.vtcs.length else s.lastFence) :
    GraphOk s' := by
  refine ⟨fun v k hk hs u hu => ?_, fun f hf v hfv hv => ?_, fun f hf => ?_, fun f hf => ?_⟩
  · rw [hadded.kindAt] at hk
    split at hk
    · next heq =>
      subst heq
      cases hk
      exact hsink hs u hu
    · exact hadded.mono (h.sinks v k hk hs u hu)
  · rw [hadded.length] at hv
    rw [hadded.kindAt, if_neg (by omega)] at hf
    by_cases heq : v = s.vtcs.length
    · subst heq
      obtain ⟨l, hl, hle⟩ := h.last f hf
      have hanc := h.last_anc hadded hins hl (hfenced l hl)
      rcases Nat.lt_or_eq_of_le hle with hlt | rfl
      · have hll := lt_of_kindAt (h.isFence l hl)
        exact (hadded.mono (h.fences f hf l hlt hll)).trans hanc
      · exact hanc
    · exact hadded.mono (h.fences f hf v hfv (by omega))
  · rw [hlast]
    by_cases heq : f = s.vtcs.length
    · subst heq
      rw [hadded.kindAt, if_pos rfl] at hf
      rw [if_pos (Option.some.inj hf)]
      exact ⟨_, rfl, Nat.le_refl _⟩
    · rw [hadded.kindAt, if_neg heq] at hf
      split
      · exact ⟨_, rfl, Nat.le_of_lt (lt_of_kindAt hf)⟩
      · exact h.last f hf
  · rw [hlast] at hf
    rw [hadded.kindAt]
    split at hf
    · next hkind =>
      rw [if_pos (Option.some.inj hf).symm, hkind]
    · have := lt_of_kindAt (h.isFence f hf)
      rw [if_neg (by omega)]
      exact h.isFence f hf

theorem GraphOk.sink_fenced (h : GraphOk s) (f : Nat) (hl : s.lastFence = some f)
    (hne : s.sinkVtcs s.vtcs.length ≠ []) : ∃ u ∈ s.sinkVtcs s.vtcs.length, f ≤ u := by
  obtain ⟨w, hw⟩ := exists_mem_of_ne_nil _ hne
  refine ⟨w, hw, ?_⟩
  have hlast := h.isFence f hl
  by_contra hlt
  exact ((mem_sinkVtcs (Nat.le_refl _)).1 hw).2.2 f (by omega) (lt_of_kindAt hlast) hlast

theorem GraphOk.sink_anc (h : GraphOk s) (hbuild : BuildOk s)
    (hadded : Added s s' kind (s.sinkVtcs s.vtcs.length)) (hu : u < s.vtcs.length) :
    TransGen (Edge s') u s.vtcs.length := by
  -- behind the last fence, by induction from the end
  have hbehind : ∀ n w, s.vtcs.length - w = n → w < s.vtcs.length →
      (∀ a, w ≤ a → a < s.vtcs.length → kindAt s a ≠ some .fence) →
      TransGen (Edge s') w s.vtcs.length := by
    intro n
    induction n using Nat.strong_induction_on with
    | _ n ih =>
      intro w hn hw hno
      have hx := List.getElem?_eq_getElem hw
      generalize s.vtcs[w] = x at hx
      cases hout : x.outVtcs with
      | nil =>
        have hw' := (mem_sinkVtcs (Nat.le_refl _)).2 ⟨hw, ⟨x, hx, hout⟩, hno⟩
        exact .single ((hadded.edges w _).2 (.inr ⟨.inl hw', rfl⟩))
      | cons b rest =>
        have hedge : Edge s w b := ⟨x, hx, by rw [hout]; exact mem_cons_self⟩
        obtain ⟨hlt, hb⟩ := hbuild.edge w b hedge
        have hrest := ih (s.vtcs.length - b) (by omega) b rfl hb
          fun a ha => hno a (Nat.le_trans (Nat.le_of_lt hlt) ha)
        exact .head ((hadded.edges w b).2 (.inl hedge)) hrest
  by_cases hno : ∀ a, u ≤ a → a < s.vtcs.length → kindAt s a ≠ some .fence
  · exact hbehind _ u rfl hu hno
  · -- a fence is at `u` or behind it
    have hex : ∃ a, u ≤ a ∧ kindAt s a = some .fence := by
      by_contra hnone
      refine hno fun a hua _ hk => hnone ⟨a, hua, hk⟩
    obtain ⟨a, hua, hk⟩ := hex
    obtain ⟨l, hl, hle⟩ := h.last a hk
    have hlast := h.isFence l hl
    have hanc : TransGen (Edge s') l s.vtcs.length :=
      h.last_anc hadded (fun w hw => sinkVtcs_lt hw) hl (h.sink_fenced l hl)
    rcases Nat.lt_or_eq_of_le (Nat.le_trans hua hle) with hlt | rfl
    · exact (hadded.mono (h.sinks l .fence hlast rfl u hlt)).trans hanc
    · exact hanc

theorem GraphOk.congr (h : GraphOk s) (hkinds : s'.vtcs.map Vtx.kind = s.vtcs.map Vtx.kind)
    (hout : s'.vtcs.map Vtx.outVtcs = s.vtcs.map Vtx.outVtcs) (hlast : s'.lastFence = s.lastFence) :
    GraphOk s' := by
  have hkind : ∀ v, kindAt s' v = kindAt s v := by
    intro v
    rw [kindAt, hkinds, kindAt]
  have hlen : s'.vtcs.length = s.vtcs.length := by
    have := congrArg List.length hkinds
    rwa [length_map, length_map] at this
  refine ⟨fun v k hk => ?_, fun f hf v => ?_, fun f hf => ?_, fun f hf => ?_⟩
  · rw [edge_congr_out hout]
    exact h.sinks v k (hkind v ▸ hk)
  · rw [edge_congr_out hout, hlen]
    exact h.fences f (hkind f ▸ hf) v
  · rw [hlast]
    exact h.last f (hkind f ▸ hf)
  · rw [hkind]
    exact h.isFence f (hlast ▸ hf)

theorem GraphOk.of_static (h : GraphOk s) (hs : s'.vtcs.map Vtx.static = s.vtcs.map Vtx.static)
    (hlast : s'.lastFence = s.lastFence) : GraphOk s' := by
  refine h.congr ?_ ?_ hlast
  · have := congrArg (List.map Prod.fst) hs
    rwa [List.map_map, List.map_map] at this
  · have := congrArg (List.map fun p => p.2.2.1) hs
    rwa [List.map_map, List.map_map] at this

theorem GraphOk.poked {E : Prop} (h : GraphOk s) (hp : Poked E s s') : GraphOk s' := by
  cases hp with
  | @waits t _ hwalked => exact h.of_static hwalked.static (by rw [hwalked.frame])
  | @ends t _ hwalked =>
    have hlast : t.finish.lastFence = s.lastFence := by
      show t.lastFence = _
      rw [hwalked.frame]
    exact h.of_static hwalked.static hlast

theorem GraphOk.step {a : Act} (h : GraphOk s) (hinv : Inv True s) (hfenced : Fenced s a)
    (hs : Tsp.step s a = some s') : GraphOk s' := by
  cases a with
  | add kind inVtcs =>
    obtain ⟨⟨hp, hkind, hins⟩, hs⟩ := ite_none_right_eq_some.1 hs
    cases hs
    obtain ⟨-, hadded, hlast⟩ := (hinv.built hp).1.add hinv.fence hins kind
    refine h.added hadded hins hfenced (fun hsink => absurd (hsink.symm.trans hkind) nofun) ?_
    rw [hlast, if_neg]
    rintro rfl
    cases hkind
  | sink =>
    obtain ⟨hp, hs⟩ := ite_none_right_eq_some.1 hs
    cases hs
    obtain ⟨-, hadded, hlast⟩ := (hinv.built hp).1.sink hinv.fence
    refine h.added hadded (fun w hw => sinkVtcs_lt hw) h.sink_fenced
      (fun _ u hu => h.sink_anc (hinv.built hp).1 hadded hu) ?_
    rw [hlast, if_neg nofun]
  | fence =>
    obtain ⟨hp, hs⟩ := ite_none_right_eq_some.1 hs
    cases hs
    obtain ⟨-, hadded, hlast⟩ := (hinv.built hp).1.fence hinv.fence
    refine h.added hadded (fun w hw => sinkVtcs_lt hw) h.sink_fenced
      (fun _ u hu => h.sink_anc (hinv.built hp).1 hadded hu) ?_
    rw [hlast, if_pos rfl]
  | start res =>
    obtain ⟨hp, hs⟩ := ite_none_right_eq_some.1 hs
    unfold start at hs
    split at hs
    · cases hs
      exact h.congr rfl rfl rfl
    · obtain ⟨-, hs⟩ := ite_none_right_eq_some.1 hs
      obtain ⟨t, ht, hpoked⟩ := poke_spec (E := True) (fun _ _ => trivial) hinv.core
        (.inl (hinv.built hp).1.issued)
      obtain rfl := Option.some.inj (ht.symm.trans hs)
      exact h.poked hpoked
  | finish v i =>
    obtain ⟨x, hx, hs⟩ := bind_eq_some_iff.1 hs
    obtain ⟨-, hs⟩ := ite_none_right_eq_some.1 hs
    cases hs
    exact h.of_static (map_modify_of_eq _ hx rfl) rfl
  | poke res =>
    obtain ⟨hp, hs⟩ := ite_none_right_eq_some.1 hs
    obtain ⟨t, ht, hpoked⟩ := poke_spec (E := True) (fun _ _ => trivial) hinv.core
      (.inr (hinv.running hp).1)
    obtain rfl := Option.some.inj (ht.symm.trans hs)
    exact h.poked hpoked
  | reset =>
    obtain ⟨-, hs⟩ := ite_none_right_eq_some.1 hs
    cases hs
    exact h.congr List.map_map List.map_map rfl
  | free =>
    obtain ⟨-, hs⟩ := ite_none_right_eq_some.1 hs
    cases hs
    exact h.congr rfl rfl rfl

end graph

theorem graphOk {persistent : Bool} {s : Sched} (h : (sys persistent).ReachWhen Fenced s) :
    GraphOk s := by
  refine Sys.ReachWhen.inv (M := sys persistent) (I := GraphOk) ?_ (fun hr hi hc hs => ?_) h
  · exact ⟨nofun, nofun, nofun, nofun⟩
  · exact hi.step (inv_of_reachWhen (fun {s a} _ => excused_true a) hr.reach) hc hs

/-- In every run in which each vertex with dependencies of its own has one that is not before the last
fence, a sink or a fence is issued after all vertices before it are complete, and a vertex behind a
fence after the fence is complete. -/
theorem fences_order {persistent : Bool} {s : Sched} (h : (sys persistent).ReachWhen Fenced s) :
    (∀ (v : Nat) x, s.vtcs[v]? = some x → x.kind = .sink ∨ x.kind = .fence → ∀ u < v,
      Before s.log (.complete u) (.issue v)) ∧
      ∀ (f : Nat) x, s.vtcs[f]? = some x → x.kind = .fence → ∀ v, f < v → v < s.vtcs.length →
        Before s.log (.complete f) (.issue v) := by
  have hgraph := graphOk h
  have hinv : Inv True s := inv_of_reachWhen (fun {s a} _ => excused_true a) h.reach
  refine ⟨fun v x hx hkind u hu => ?_, fun f x hx hkind v hfv hv => ?_⟩
  · refine hinv.core.sound.ancestor (hgraph.sinks v x.kind (kindAt_eq hx) ?_ u hu)
    rcases hkind with hkind | hkind
    · rw [hkind]
      rfl
    · rw [hkind]
      rfl
  · refine hinv.core.sound.ancestor (hgraph.fences f ?_ v hfv hv)
    rw [kindAt_eq hx, hkind]

theorem reachWhen_of_exec {persistent : Bool} {s s' : Sched} {as : List Act}
    (hr : (sys persistent).ReachWhen Fenced s) (has : ∀ a ∈ as, ∀ s, Fenced s a)
    (hs : (sys persistent).exec s as = some s') : (sys persistent).ReachWhen Fenced s' := by
  induction as generalizing s with
  | nil =>
    cases hs
    exact hr
  | cons a as ih =>
    obtain ⟨t, ht, hs⟩ := bind_eq_some_iff.1 hs
    exact ih (.step hr (has a mem_cons_self s) ht)
      (fun b hb => has b (mem_cons_of_mem _ hb)) hs

def sends : Sched :=
  (((((create false).add .isend []).add .isend []).fence.add .isend []).add .localcopy [0, 3]).sink

theorem fences_order_sends : ∃ s, (sys false).ReachWhen Fenced s ∧
    s.log = [.issue 0, .issue 1, .complete 0, .complete 1, .issue 2, .complete 2, .issue 3] ∧
    s.vtcs.map Vtx.kind = [.isend, .isend, .fence, .isend, .localcopy, .sink] ∧
    Before s.log (.complete 2) (.issue 3) := by
  have h₁ := Sys.ReachWhen.step (M := sys false) (C := Fenced) (a := Act.add .isend []) .init
    (fun f hf => nomatch hf) rfl
  have h₂ := Sys.ReachWhen.step (a := Act.add .isend []) h₁ (fun f hf => nomatch hf) rfl
  have h₃ := Sys.ReachWhen.step (a := Act.fence) h₂ trivial rfl
  have h₄ := Sys.ReachWhen.step (a := Act.add .isend []) h₃ (fun f _ hno => absurd rfl hno) rfl
  have h₅ := Sys.ReachWhen.step (a := Act.add .localcopy [0, 3]) h₄
    (fun f hf _ => ⟨3, by decide, by rw [← Option.some.inj hf]; decide⟩) rfl
  have h₆ := Sys.ReachWhen.step (a := Act.sink) h₅ trivial rfl
  have hrun : ((sys false).exec sends [.start fun _ => .wait, .finish 0 0, .finish 1 0,
      .poke fun _ => .wait]).map (fun s => (s.log, s.vtcs.map Vtx.kind)) =
      some ([.issue 0, .issue 1, .complete 0, .complete 1, .issue 2, .complete 2, .issue 3],
        [.isend, .isend, .fence, .isend, .localcopy, .sink]) := by
    decide
  obtain ⟨s, hs, hval⟩ := map_eq_some_iff.1 hrun
  injection hval with hlog hkinds
  have hreach := reachWhen_of_exec (s := sends) h₆ (by simp [Fenced]) hs
  have hlen : s.vtcs.length = 6 := by
    rw [← length_map (f := Vtx.kind), hkinds]
    rfl
  have hx := List.getElem?_eq_getElem (show 2 < s.vtcs.length by omega)
  have hkind : s.vtcs[2].kind = .fence := by
    have := kindAt_eq hx
    rw [kindAt, hkinds] at this
    exact (Option.some.inj this).symm
  exact ⟨s, hreach, hlog, hkinds, (fences_order hreach).2 2 _ hx hkind 3 (by decide) (by omega)⟩

def overtaking : List Act :=
  [.add .isend [], .add .isend [], .fence, .add .isend [0], .sink, .start fun _ => .wait,
    .finish 0 0, .poke fun _ => .wait, .finish 3 0, .poke fun _ => .wait]

/-- The first send completes, and the third one is issued before the fence is complete; when it
completes, the sink is issued although the second send is not complete. -/
theorem fence_overtaken : ∃ s, (sys false).Reach s ∧
    s.vtcs.map Vtx.kind = [.isend, .isend, .fence, .isend, .sink] ∧
    s.log = [.issue 0, .issue 1, .complete 0, .issue 3, .complete 3, .issue 4, .complete 4] ∧
    ¬Before s.log (.complete 2) (.issue 3) ∧ ¬Before s.log (.complete 1) (.issue 4) := by
  have hrun : ((sys false).exec (create false) overtaking).map
      (fun s => (s.vtcs.map Vtx.kind, s.log)) =
      some ([.isend, .isend, .fence, .isend, .sink],
        [.issue 0, .issue 1, .complete 0, .issue 3, .complete 3, .issue 4, .complete 4]) := by
    decide
  obtain ⟨s, hs, hval⟩ := map_eq_some_iff.1 hrun
  injection hval with hkinds hlog
  refine ⟨s, Sys.exec_reach .init hs, hkinds, hlog, fun hbefore => ?_, fun hbefore => ?_⟩
  · rw [hlog] at hbefore
    have := hbefore [.issue 0, .issue 1, .complete 0] [.complete 3, .issue 4, .complete 4] rfl
    simp at this
  · rw [hlog] at hbefore
    have := hbefore [.issue 0, .issue 1, .complete 0, .issue 3, .complete 3] [.complete 4] rfl
    simp at this

end PsMpi.Tsp
