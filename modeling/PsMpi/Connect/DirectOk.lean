import Mathlib.Algebra.BigOperators.Group.Finset.Basic
import PsMpi.Connect.Direct

/-!
# Direct connect is complete
-/

open PsMpi.Lib List Option Function

namespace PsMpi.Connect

def NetSt.con (g : Group) (s : NetSt) (r d : Nat) : Option Conn :=
  (s.proc r).grank2con (g.grank d)

def NetSt.Pend (s : NetSt) (r i : Nat) : Prop :=
  .connect i ∈ (s.proc r).todo ∨ (s.proc r).stage = .connecting i

inductive Link (g : Group) (s : NetSt) (r i : Nat) : Prop
  | pending (hp : s.Pend r i) (hr : s.con g r (g.right r i) = none)
      (hd : s.con g (g.right r i) r = none) (hi : ⟨r, g.right r i⟩ ∉ s.inits)
      (ho : ⟨r, g.right r i⟩ ∉ s.opened)
  | opened (hp : ¬ s.Pend r i) (hr : s.con g r (g.right r i) = some ⟨r, g.right r i⟩)
      (hd : g.right r i ≠ r → s.con g (g.right r i) r = none) (hi : ⟨r, g.right r i⟩ ∈ s.inits)
      (ho : ⟨r, g.right r i⟩ ∈ s.opened)
  | shared (hp : ¬ s.Pend r i) (hr : s.con g r (g.right r i) = some ⟨r, g.right r i⟩)
      (hd : s.con g (g.right r i) r = some ⟨r, g.right r i⟩) (hi : ⟨r, g.right r i⟩ ∉ s.inits)
      (ho : ⟨r, g.right r i⟩ ∈ s.opened)

structure NetSt.Ok (g : Group) (s : NetSt) : Prop where
  suffix : ∀ r < g.size, (s.proc r).todo <:+ g.connectDirect r
  stage : ∀ r < g.size, ∀ i, (s.proc r).stage = .connecting i ∨ (s.proc r).stage = .sending i →
    .connect i ∈ g.connectDirect r ∧ .connect i ∉ (s.proc r).todo
  link : ∀ r < g.size, ∀ i, .connect i ∈ g.connectDirect r → Link g s r i
  inits : ∀ c ∈ s.inits, c.src < g.size ∧ g.Opens c.src c.dst
  opened : ∀ c ∈ s.opened, c.src < g.size ∧ g.Opens c.src c.dst
  inits_nodup : s.inits.Nodup
  opened_nodup : s.opened.Nodup
  awaits : ∀ r < g.size, ∀ x < g.size, s.con g r x = none → .await x ∈ (s.proc r).todo
  rejected : s.rejected = []

section
variable {g : Group} {s s' : NetSt} {r d i j x : Nat} {c : Conn}

/-! ## The steps keep the invariant -/

theorem Link.congr (h : Link g s r i) (hp : s'.Pend r i ↔ s.Pend r i)
    (hr : s'.con g r (g.right r i) = s.con g r (g.right r i))
    (hd : s'.con g (g.right r i) r = s.con g (g.right r i) r)
    (hi : ⟨r, g.right r i⟩ ∈ s'.inits ↔ ⟨r, g.right r i⟩ ∈ s.inits)
    (ho : ⟨r, g.right r i⟩ ∈ s'.opened ↔ ⟨r, g.right r i⟩ ∈ s.opened) : Link g s' r i := by
  cases h with
  | pending h1 h2 h3 h4 h5 =>
    exact .pending (hp.2 h1) (hr.trans h2) (hd.trans h3) (mt hi.1 h4) (mt ho.1 h5)
  | opened h1 h2 h3 h4 h5 =>
    exact .opened (mt hp.1 h1) (hr.trans h2) (fun hne => hd.trans (h3 hne)) (hi.2 h4) (ho.2 h5)
  | shared h1 h2 h3 h4 h5 =>
    exact .shared (mt hp.1 h1) (hr.trans h2) (hd.trans h3) (mt hi.1 h4) (ho.2 h5)

theorem not_mem_of_suffix {rest : List Act} (h : .connect i :: rest <:+ g.connectDirect r) :
    .connect i ∉ rest := by
  intro hm
  have hpair := (g.connectDirect_pairwise r).sublist h.sublist
  exact (rel_of_pairwise_cons hpair hm).connect i rfl rfl

theorem NetSt.Ok.advance (h : s.Ok g) {p : Proc} (hsuf : p.todo <:+ (s.proc r).todo)
    (hcon : p.grank2con = (s.proc r).grank2con)
    (hpend : ∀ i, .connect i ∈ p.todo ∨ p.stage = .connecting i ↔ s.Pend r i)
    (hst : ∀ i, p.stage = .connecting i ∨ p.stage = .sending i →
      .connect i ∈ g.connectDirect r ∧ .connect i ∉ p.todo)
    (hawait : ∀ x, s.con g r x = none → .await x ∈ (s.proc r).todo → .await x ∈ p.todo) :
    (s.setProc r p).Ok g := by
  have hcon' : ∀ r' d', (s.setProc r p).con g r' d' = s.con g r' d' := by
    intro r' d'
    by_cases hr' : r' = r
    · subst hr'
      simp [NetSt.con, NetSt.setProc, hcon]
    · simp [NetSt.con, NetSt.setProc, hr']
  have hpend' : ∀ r' i', (s.setProc r p).Pend r' i' ↔ s.Pend r' i' := by
    intro r' i'
    by_cases hr' : r' = r
    · subst hr'
      simpa [NetSt.Pend, NetSt.setProc] using hpend i'
    · simp [NetSt.Pend, NetSt.setProc, hr']
  refine ⟨fun r' hr' => ?_, fun r' hr' i' hs => ?_, fun r' hr' i' hi' => ?_, h.inits, h.opened,
    h.inits_nodup, h.opened_nodup, fun r' hr' x hx hn => ?_, h.rejected⟩
  · by_cases heq : r' = r
    · subst heq
      simp only [NetSt.setProc, update_self]
      exact hsuf.trans (h.suffix r' hr')
    · simpa [NetSt.setProc, heq] using h.suffix r' hr'
  · by_cases heq : r' = r
    · subst heq
      simp only [NetSt.setProc, update_self] at hs ⊢
      exact hst i' hs
    · simp only [NetSt.setProc, update_of_ne heq] at hs ⊢
      exact h.stage r' hr' i' hs
  · exact (h.link r' hr' i' hi').congr (hpend' _ _) (hcon' _ _) (hcon' _ _) Iff.rfl Iff.rfl
  · rw [hcon'] at hn
    have hm := h.awaits r' hr' x hx hn
    by_cases heq : r' = r
    · subst heq
      simp only [NetSt.setProc, update_self]
      exact hawait x hn hm
    · simpa [NetSt.setProc, heq] using hm

theorem NetSt.Ok.skip (h : s.Ok g) (hr : r < g.size) {a : Act} {rest : List Act}
    (ht : (s.proc r).todo = a :: rest) (ha : ∀ i, a ≠ .connect i)
    (hx : ∀ x, a = .await x → s.con g r x ≠ none) :
    (s.setProc r { s.proc r with todo := rest }).Ok g := by
  refine h.advance (ht ▸ suffix_cons a rest) rfl (fun i => ?_) (fun i hs => ?_) ?_
  · simp [NetSt.Pend, ht, (ha i).symm]
  · obtain ⟨h1, h2⟩ := h.stage r hr i hs
    exact ⟨h1, fun hm => h2 (ht ▸ mem_cons_of_mem _ hm)⟩
  · intro x hn hm
    rw [ht] at hm
    exact (mem_cons.1 hm).resolve_left fun hax => hx x hax.symm hn

theorem NetSt.Ok.enter (h : s.Ok g) (hr : r < g.size) {rest : List Act}
    (ht : (s.proc r).todo = .connect i :: rest) (hrun : (s.proc r).stage = .run) :
    (s.setProc r { s.proc r with todo := rest, stage := .connecting i }).Ok g := by
  have hsuf := h.suffix r hr
  rw [ht] at hsuf
  refine h.advance (ht ▸ suffix_cons _ rest) rfl (fun j => ?_) (fun j hs => ?_) ?_
  · simp only [NetSt.Pend, ht, hrun, mem_cons, Act.connect.injEq, Stage.connecting.injEq,
      reduceCtorEq, or_false]
    rw [or_comm, eq_comm]
  · obtain rfl : i = j := by simpa using hs
    exact ⟨hsuf.subset mem_cons_self, not_mem_of_suffix hsuf⟩
  · intro x _ hm
    rw [ht] at hm
    exact (mem_cons.1 hm).resolve_left nofun

theorem NetSt.Ok.initSendDone (h : s.Ok g) (hs : (s.proc r).stage = .sending i) :
    (s.setProc r { s.proc r with stage := .run }).Ok g := by
  refine h.advance suffix_rfl rfl (fun j => ?_) nofun fun _ _ hm => hm
  simp [NetSt.Pend, hs]

theorem NetSt.con_update {p : Proc} (hd : d < g.size) (hx : x < g.size) (r' : Nat)
    (hp : p.grank2con = Function.update (s.proc r).grank2con (g.grank d) (some c)) :
    (s.setProc r p).con g r' x = if r' = r ∧ x = d then some c else s.con g r' x := by
  by_cases hr : r' = r
  · subst hr
    by_cases hxd : x = d
    · subst hxd
      simp [NetSt.con, NetSt.setProc, hp]
    · have hne : g.grank x ≠ g.grank d := mt (Group.grank_inj hx hd).1 hxd
      simp [NetSt.con, NetSt.setProc, hp, hxd, update_of_ne hne]
  · simp [NetSt.con, NetSt.setProc, hr]

theorem pair_ne {r' i' : Nat} (hr : r < g.size) (hr' : r' < g.size)
    (hi : .connect i ∈ g.connectDirect r) (hi' : .connect i' ∈ g.connectDirect r')
    (hne : ¬ (r' = r ∧ i' = i)) : ¬ (r' = r ∧ g.right r' i' = g.right r i) ∧
      ¬ (g.right r' i' = r ∧ r' = g.right r i) := by
  have h1 : ¬ (r' = r ∧ g.right r' i' = g.right r i) := by
    rintro ⟨rfl, heq⟩
    exact hne ⟨rfl, Group.right_inj hr ((Group.mem_connect hr).1 hi').1
      ((Group.mem_connect hr).1 hi).1 heq⟩
  refine ⟨h1, ?_⟩
  rintro ⟨ha, hb⟩
  have heq : r = r' := Group.Opens.antisymm hr hr' ⟨i, hi, hb.symm⟩ ⟨i', hi', ha⟩
  exact h1 ⟨heq.symm, by rw [ha, ← hb, heq]⟩

theorem NetSt.Ok.connected (h : s.Ok g) (hr : r < g.size)
    (hs : (s.proc r).stage = .connecting i) : (s.connected g r i).Ok g := by
  obtain ⟨hi, hn⟩ := h.stage r hr i (.inl hs)
  have hlink : Link g s r i := h.link r hr i hi
  have hpend : ∀ r' i', (s.connected g r i).Pend r' i' ↔ s.Pend r' i' ∧ ¬ (r' = r ∧ i' = i) := by
    intro r' i'
    by_cases hr' : r' = r
    · subst hr'
      by_cases hi' : i' = i
      · subst hi'
        simp [NetSt.Pend, NetSt.connected, NetSt.setProc, hn]
      · simp [NetSt.Pend, NetSt.connected, NetSt.setProc, hs, hi', Ne.symm hi']
    · simp [NetSt.Pend, NetSt.connected, NetSt.setProc, hr']
  have hcon : ∀ r' x, x < g.size → (s.connected g r i).con g r' x =
      if r' = r ∧ x = g.right r i then some ⟨r, g.right r i⟩ else s.con g r' x :=
    fun r' x hx => NetSt.con_update (Group.right_lt hr) hx r' rfl
  cases hlink with
  | opened hp => exact absurd (.inr hs) hp
  | shared hp => exact absurd (.inr hs) hp
  | pending _ hcr hcd hni hno =>
  refine ⟨fun r' hr' => ?_, fun r' hr' i' hst => ?_, fun r' hr' i' hi' => ?_, ?_, ?_, ?_, ?_,
    fun r' hr' x hx hnone => ?_, h.rejected⟩
  · by_cases heq : r' = r
    · subst heq
      simpa [NetSt.connected, NetSt.setProc] using h.suffix r' hr
    · simpa [NetSt.connected, NetSt.setProc, heq] using h.suffix r' hr'
  · by_cases heq : r' = r
    · subst heq
      obtain rfl : i = i' := by simpa [NetSt.connected, NetSt.setProc] using hst
      simpa [NetSt.connected, NetSt.setProc] using And.intro hi hn
    · simp only [NetSt.connected, NetSt.setProc, update_of_ne heq] at hst ⊢
      exact h.stage r' hr' i' hst
  · by_cases heq : r' = r ∧ i' = i
    · obtain ⟨rfl, rfl⟩ := heq
      refine .opened (fun hp => ((hpend _ _).1 hp).2 ⟨rfl, rfl⟩) ?_ (fun hne => ?_) ?_ ?_
      · rw [hcon _ _ (Group.right_lt hr), if_pos ⟨rfl, rfl⟩]
      · rw [hcon _ _ hr, if_neg fun hand => hne hand.1]
        exact hcd
      · exact mem_append_right _ (mem_singleton_self _)
      · exact mem_append_right _ (mem_singleton_self _)
    · obtain ⟨hne1, hne2⟩ := pair_ne hr hr' hi hi' heq
      have hc : (⟨r', g.right r' i'⟩ : Conn) ≠ ⟨r, g.right r i⟩ := fun hc =>
        hne1 ⟨congrArg Conn.src hc, congrArg Conn.dst hc⟩
      refine (h.link r' hr' i' hi').congr ?_ ?_ ?_ ?_ ?_
      · rw [hpend]
        exact and_iff_left heq
      · rw [hcon _ _ (Group.right_lt hr'), if_neg hne1]
      · rw [hcon _ _ hr', if_neg hne2]
      · simp [NetSt.connected, hc]
      · simp [NetSt.connected, hc]
  · intro c hc
    rcases mem_append.1 hc with hc | hc
    · exact h.inits c hc
    · rw [mem_singleton.1 hc]
      exact ⟨hr, i, hi, rfl⟩
  · intro c hc
    rcases mem_append.1 hc with hc | hc
    · exact h.opened c hc
    · rw [mem_singleton.1 hc]
      exact ⟨hr, i, hi, rfl⟩
  · exact nodup_append.2 ⟨h.inits_nodup, nodup_singleton _, by
      rintro a ha b hb rfl
      exact hni (mem_singleton.1 hb ▸ ha)⟩
  · exact nodup_append.2 ⟨h.opened_nodup, nodup_singleton _, by
      rintro a ha b hb rfl
      exact hno (mem_singleton.1 hb ▸ ha)⟩
  · rw [hcon _ _ hx] at hnone
    split at hnone
    · cases hnone
    · have hm := h.awaits r' hr' x hx hnone
      by_cases heq : r' = r
      · subst heq
        simpa [NetSt.connected, NetSt.setProc] using hm
      · simpa [NetSt.connected, NetSt.setProc, heq] using hm

theorem NetSt.Ok.initMsg_self (h : s.Ok g) (hr : r < g.size) (hi : .connect i ∈ g.connectDirect r)
    (hself : g.right r i = r) (hc : ⟨r, g.right r i⟩ ∈ s.inits) :
    ({ s with inits := s.inits.erase ⟨r, g.right r i⟩ } : NetSt).Ok g := by
  refine ⟨h.suffix, h.stage, fun r' hr' i' hi' => ?_, fun c hc => h.inits c (mem_of_mem_erase hc),
    h.opened, h.inits_nodup.erase _, h.opened_nodup, h.awaits, h.rejected⟩
  by_cases heq : r' = r ∧ i' = i
  · obtain ⟨rfl, rfl⟩ := heq
    cases h.link r' hr i' hi with
    | pending _ _ _ hni => exact absurd hc hni
    | shared _ _ _ hni => exact absurd hc hni
    | opened hp hcr _ _ ho =>
      refine .shared hp hcr ?_ h.inits_nodup.not_mem_erase ho
      rw [hself] at hcr ⊢
      exact hcr
  · obtain ⟨hne1, -⟩ := pair_ne hr hr' hi hi' heq
    have hc : (⟨r', g.right r' i'⟩ : Conn) ≠ ⟨r, g.right r i⟩ := fun hc =>
      hne1 ⟨congrArg Conn.src hc, congrArg Conn.dst hc⟩
    exact (h.link r' hr' i' hi').congr Iff.rfl rfl rfl (mem_erase_of_ne hc) Iff.rfl

theorem NetSt.Ok.initMsg_other (h : s.Ok g) (hr : r < g.size)
    (hi : .connect i ∈ g.connectDirect r) (hc : ⟨r, g.right r i⟩ ∈ s.inits) :
    ({ s.setProc (g.right r i) { s.proc (g.right r i) with
        grank2con := Function.update (s.proc (g.right r i)).grank2con (g.grank r)
          (some ⟨r, g.right r i⟩) } with
      inits := s.inits.erase ⟨r, g.right r i⟩ } : NetSt).Ok g := by
  generalize hs' : ({ s.setProc (g.right r i) { s.proc (g.right r i) with
        grank2con := Function.update (s.proc (g.right r i)).grank2con (g.grank r)
          (some ⟨r, g.right r i⟩) } with
      inits := s.inits.erase ⟨r, g.right r i⟩ } : NetSt) = s'
  have hcon : ∀ r' x, x < g.size → s'.con g r' x =
      if r' = g.right r i ∧ x = r then some ⟨r, g.right r i⟩ else s.con g r' x := by
    intro r' x hx
    rw [← hs']
    exact NetSt.con_update hr hx r' rfl
  have htodo : ∀ r', (s'.proc r').todo = (s.proc r').todo := by
    intro r'
    rw [← hs']
    by_cases heq : r' = g.right r i
    · subst heq
      simp [NetSt.setProc]
    · simp [NetSt.setProc, heq]
  have hstage : ∀ r', (s'.proc r').stage = (s.proc r').stage := by
    intro r'
    rw [← hs']
    by_cases heq : r' = g.right r i
    · subst heq
      simp [NetSt.setProc]
    · simp [NetSt.setProc, heq]
  have hinits : s'.inits = s.inits.erase ⟨r, g.right r i⟩ := by rw [← hs']
  have hopened : s'.opened = s.opened := by rw [← hs']; rfl
  have hrej : s'.rejected = s.rejected := by rw [← hs']; rfl
  have hpend : ∀ r' i', s'.Pend r' i' ↔ s.Pend r' i' := by
    intro r' i'
    rw [NetSt.Pend, NetSt.Pend, htodo, hstage]
  refine ⟨fun r' hr' => htodo r' ▸ h.suffix r' hr', fun r' hr' i' hst => ?_,
    fun r' hr' i' hi' => ?_, fun c hc => ?_, hopened ▸ h.opened, ?_, hopened ▸ h.opened_nodup,
    fun r' hr' x hx hn => ?_, hrej.trans h.rejected⟩
  · rw [hstage] at hst
    rw [htodo]
    exact h.stage r' hr' i' hst
  · by_cases heq : r' = r ∧ i' = i
    · obtain ⟨rfl, rfl⟩ := heq
      cases h.link r' hr i' hi with
      | pending _ _ _ hni => exact absurd hc hni
      | shared _ _ _ hni => exact absurd hc hni
      | opened hp hcr _ _ ho =>
        refine .shared (mt (hpend _ _).1 hp) ?_ ?_ ?_ (hopened ▸ ho)
        · rw [hcon _ _ (Group.right_lt hr)]
          split
          · rfl
          · exact hcr
        · rw [hcon _ _ hr, if_pos ⟨rfl, rfl⟩]
        · rw [hinits]
          exact h.inits_nodup.not_mem_erase
    · obtain ⟨hne1, hne2⟩ := pair_ne hr hr' hi hi' heq
      have hc : (⟨r', g.right r' i'⟩ : Conn) ≠ ⟨r, g.right r i⟩ := fun hc =>
        hne1 ⟨congrArg Conn.src hc, congrArg Conn.dst hc⟩
      refine (h.link r' hr' i' hi').congr (hpend _ _) ?_ ?_ ?_ ?_
      · rw [hcon _ _ (Group.right_lt hr'), if_neg fun hand => hne2 ⟨hand.2, hand.1⟩]
      · rw [hcon _ _ hr', if_neg fun hand => hne1 ⟨hand.2, hand.1⟩]
      · rw [hinits]
        exact mem_erase_of_ne hc
      · rw [hopened]
  · rw [hinits] at hc
    exact h.inits c (mem_of_mem_erase hc)
  · rw [hinits]
    exact h.inits_nodup.erase _
  · rw [hcon _ _ hx] at hn
    split at hn
    · cases hn
    · exact htodo r' ▸ h.awaits r' hr' x hx hn

theorem NetSt.Ok.initMsg (h : s.Ok g) (hc : c ∈ s.inits) : (s.initMsg g c).Ok g := by
  obtain ⟨r, d⟩ := c
  obtain ⟨hr, i, hi, hd⟩ := h.inits _ hc
  obtain rfl : g.right r i = d := hd
  have hcon : ∀ o, s.con g (g.right r i) r = o →
      (s.proc (g.right r i)).grank2con (g.grank r) = o := fun _ ho => ho
  cases h.link r hr i hi with
  | pending _ _ _ hni => exact absurd hc hni
  | shared _ _ _ hni => exact absurd hc hni
  | opened _ hcr hcd =>
    unfold NetSt.initMsg
    by_cases hself : g.right r i = r
    · have hold : s.con g (g.right r i) r = some ⟨r, g.right r i⟩ := by
        rw [hself] at hcr ⊢
        exact hcr
      simp only [hcon _ hold, ↓reduceIte]
      exact h.initMsg_self hr hi hself hc
    · simp only [hcon _ (hcd hself)]
      exact h.initMsg_other hr hi hc

theorem NetSt.Ok.init (g : Group) : (NetSt.init g).Ok g where
  suffix := fun _ _ => suffix_rfl
  stage := nofun
  link := fun _ _ _ hi =>
    .pending (.inl hi) rfl rfl not_mem_nil not_mem_nil
  inits := nofun
  opened := nofun
  inits_nodup := nodup_nil
  opened_nodup := nodup_nil
  awaits := fun _ _ _ hx _ =>
    mem_append_right _ (mem_map_of_mem (mem_range.2 hx))
  rejected := rfl

theorem NetSt.Ok.next (h : s.Ok g) (hr : r < g.size) (hrun : (s.proc r).stage = .run)
    (hs : s.next g r = some s') : s'.Ok g := by
  unfold NetSt.next at hs
  dsimp only at hs
  split at hs
  · cases hs
  · next i rest ht =>
    have hi : .connect i ∈ g.connectDirect r := (h.suffix r hr).subset (ht ▸ mem_cons_self)
    split at hs
    · next hsome =>
      cases h.link r hr i hi with
      | pending _ hcr => rw [show (s.proc r).grank2con _ = none from hcr] at hsome; cases hsome
      | opened hp => exact absurd (.inl (ht ▸ mem_cons_self)) hp
      | shared hp => exact absurd (.inl (ht ▸ mem_cons_self)) hp
    · cases hs
      exact h.enter hr ht hrun
  · next i rest ht =>
    obtain ⟨-, hs⟩ := ite_none_right_eq_some.1 hs
    cases hs
    exact h.skip hr ht nofun nofun
  · next x rest ht =>
    obtain ⟨hsome, hs⟩ := ite_none_right_eq_some.1 hs
    cases hs
    refine h.skip hr ht nofun fun y hy hn => ?_
    obtain rfl := Act.await.inj hy
    rw [show (s.proc r).grank2con _ = none from hn] at hsome
    cases hsome

theorem NetSt.step_cases {eager : Nat → Nat → Bool} {a : Step}
    (hs : s.step g eager a = some s') :
    (∃ r < g.size, (s.proc r).stage = .run ∧ s.next g r = some s') ∨
    (∃ r < g.size, ∃ i, (s.proc r).stage = .connecting i ∧ s' = s.connected g r i) ∨
    (∃ c ∈ s.inits, s' = s.initMsg g c) ∨
    (∃ r < g.size, ∃ i, (s.proc r).stage = .sending i ∧
      s' = s.setProc r { s.proc r with stage := .run }) := by
  cases a with
  | next r =>
    obtain ⟨⟨hr, hrun⟩, hs⟩ := ite_none_right_eq_some.1 hs
    exact .inl ⟨r, hr, hrun, hs⟩
  | connected r =>
    simp only [NetSt.step] at hs
    split at hs
    · next i hst =>
      obtain ⟨⟨hr, -⟩, hs⟩ := ite_none_right_eq_some.1 hs
      exact .inr (.inl ⟨r, hr, i, hst, (Option.some.inj hs).symm⟩)
    · cases hs
  | initMsg c =>
    obtain ⟨⟨hc, -⟩, hs⟩ := ite_none_right_eq_some.1 hs
    exact .inr (.inr (.inl ⟨c, hc, (Option.some.inj hs).symm⟩))
  | initSendDone r =>
    simp only [NetSt.step] at hs
    split at hs
    · next i hst =>
      obtain ⟨⟨hr, -⟩, hs⟩ := ite_none_right_eq_some.1 hs
      exact .inr (.inr (.inr ⟨r, hr, i, hst, (Option.some.inj hs).symm⟩))
    · cases hs

theorem NetSt.Ok.step {eager : Nat → Nat → Bool} {a : Step} (h : s.Ok g)
    (hs : s.step g eager a = some s') : s'.Ok g := by
  rcases NetSt.step_cases hs with ⟨r, hr, hrun, hs⟩ | ⟨r, hr, i, hst, rfl⟩ | ⟨c, hc, rfl⟩ |
    ⟨r, -, i, hst, rfl⟩
  · exact h.next hr hrun hs
  · exact h.connected hr hst
  · exact h.initMsg hc
  · exact h.initSendDone hst

/-! ## Deadlock freedom -/

def NetSt.Stuck (g : Group) (eager : Nat → Nat → Bool) (s : NetSt) : Prop :=
  ∀ a, s.step g eager a = none

variable {eager : Nat → Nat → Bool}

theorem NetSt.Ok.busy (h : s.Ok g) (hr : r < g.size) (hx : x < g.size)
    (hn : s.con g r x = none) : (s.proc r).Busy :=
  .inl (ne_nil_of_mem (h.awaits r hr x hx hn))

theorem NetSt.Ok.run_of_stuck (h : s.Ok g) (hst : s.Stuck g eager) (hr : r < g.size) :
    (s.proc r).stage = .run := by
  cases hs : (s.proc r).stage with
  | run => rfl
  | connecting i =>
    obtain ⟨hi, -⟩ := h.stage r hr i (.inl hs)
    have hnone := hst (.connected r)
    cases h.link r hr i hi with
    | opened hp => exact absurd (.inr hs) hp
    | shared hp => exact absurd (.inr hs) hp
    | pending _ _ hcd =>
      have hbusy := h.busy (Group.right_lt hr) hr hcd
      simp [NetSt.step, hs, hr, hbusy] at hnone
  | sending i =>
    obtain ⟨hi, hn⟩ := h.stage r hr i (.inr hs)
    cases h.link r hr i hi with
    | pending hp =>
      rcases hp with hp | hp
      · exact absurd hp hn
      · rw [hs] at hp
        cases hp
    | opened _ _ hcd hin =>
      have hnone := hst (.initMsg ⟨r, g.right r i⟩)
      have hbusy : (s.proc (g.right r i)).Busy := by
        by_cases hself : g.right r i = r
        · rw [hself]
          exact .inr (by rw [hs]; nofun)
        · exact h.busy (Group.right_lt hr) hr (hcd hself)
      simp [NetSt.step, hin, hbusy] at hnone
    | shared _ _ _ hin =>
      have hnone := hst (.initSendDone r)
      simp [NetSt.step, hs, hr, hin] at hnone

theorem NetSt.Ok.connect_of_stuck (h : s.Ok g) (hst : s.Stuck g eager) (hr : r < g.size)
    (hi : .connect i ∈ g.connectDirect r)
    (hn : s.con g r (g.right r i) = none ∨ s.con g (g.right r i) r = none) :
    .connect i ∈ (s.proc r).todo := by
  cases h.link r hr i hi with
  | pending hp =>
    rcases hp with hp | hp
    · exact hp
    · rw [h.run_of_stuck hst hr] at hp
      cases hp
  | opened _ hcr hcd hin =>
    rcases hn with hn | hn
    · rw [hcr] at hn
      cases hn
    · have hbusy := h.busy (Group.right_lt hr) hr hn
      have hnone := hst (.initMsg ⟨r, g.right r i⟩)
      simp [NetSt.step, hin, hbusy] at hnone
  | shared _ hcr hcd =>
    rcases hn with hn | hn
    · rw [hcr] at hn
      cases hn
    · rw [hcd] at hn
      cases hn

/-- In a stuck state the process `r` waits for the process `x`, at distance `m`; the wait at the end
has the size of the group for the distance. -/
inductive NetSt.WaitsFor (g : Group) (s : NetSt) (r : Nat) : Nat → Nat → Prop
  | accept {i : Nat} {rest : List Act} (ht : (s.proc r).todo = .accept i :: rest)
      (hn : s.con g r (g.left r i) = none) : WaitsFor g s r i (g.left r i)
  | await {x : Nat} {rest : List Act} (ht : (s.proc r).todo = .await x :: rest)
      (hn : s.con g r x = none) : WaitsFor g s r g.size x

theorem NetSt.Ok.waits (h : s.Ok g) (hst : s.Stuck g eager) (hr : r < g.size)
    (ht : (s.proc r).todo ≠ []) : ∃ m x, s.WaitsFor g r m x := by
  have hnone := hst (.next r)
  have hnext : s.next g r = none := by
    rw [NetSt.step, if_pos ⟨hr, h.run_of_stuck hst hr⟩] at hnone
    exact hnone
  unfold NetSt.next at hnext
  dsimp only at hnext
  split at hnext
  · next hnil => exact absurd hnil ht
  · split at hnext <;> cases hnext
  · next i rest ht =>
    split at hnext
    · cases hnext
    · next hsome => exact ⟨i, _, .accept ht (not_isSome_iff_eq_none.1 hsome)⟩
  · next x rest ht =>
    split at hnext
    · cases hnext
    · next hsome => exact ⟨_, x, .await ht (not_isSome_iff_eq_none.1 hsome)⟩

theorem NetSt.WaitsFor.con_eq {m : Nat} (hw : s.WaitsFor g r m x) : s.con g r x = none := by
  cases hw with
  | accept _ hn => exact hn
  | await _ hn => exact hn

theorem NetSt.Ok.waits_lt (h : s.Ok g) (hr : r < g.size) {m : Nat} (hw : s.WaitsFor g r m x) :
    x < g.size := by
  cases hw with
  | accept => exact Group.left_lt hr
  | await ht =>
    have hm : .await x ∈ g.connectDirect r := (h.suffix r hr).subset (ht ▸ mem_cons_self)
    simpa [Group.connectDirect, Group.round_no_await] using hm

theorem NetSt.Ok.waits_before (h : s.Ok g) (hr : r < g.size) {m : Nat} (hw : s.WaitsFor g r m x)
    (hi : .connect i ∈ (s.proc r).todo) :
    m ≤ i ∧ (m = i → x = g.left r i ∧ i ≠ 0 ∧ r / i % 2 = 0) := by
  have hpair := (g.connectDirect_pairwise r).sublist (h.suffix r hr).sublist
  have hle := ((Group.mem_connect hr).1 ((h.suffix r hr).subset hi)).1
  cases hw with
  | accept ht =>
    rw [ht] at hpair hi
    have hbefore := rel_of_pairwise_cons hpair ((mem_cons.1 hi).resolve_left nofun)
    refine ⟨hbefore.round, ?_⟩
    rintro rfl
    exact ⟨rfl, hbefore.accept _ rfl rfl⟩
  | await ht =>
    rw [ht] at hpair hi
    have hbefore := rel_of_pairwise_cons hpair ((mem_cons.1 hi).resolve_left nofun)
    exact ⟨hbefore.round, fun heq => by omega⟩

theorem NetSt.Ok.not_waits (h : s.Ok g) (hr : r < g.size) {m : Nat} (hw : s.WaitsFor g r m x)
    (hj : .connect j ∈ (s.proc r).todo) (hx : g.right r j = x) : False := by
  obtain ⟨hj2, hj3⟩ := (Group.mem_connect hr).1 ((h.suffix r hr).subset hj)
  obtain ⟨hle, heq⟩ := h.waits_before hr hw hj
  cases hw with
  | await => omega
  | accept ht =>
    have hi := Group.accept_le ((h.suffix r hr).subset (ht ▸ mem_cons_self))
    have hij : m = j ∧ (m = 0 ∨ 2 * m = g.size) := by
      rw [Group.right_eq hr (by omega), Group.left_eq hr (by omega)] at hx
      split at hx <;> split at hx <;> omega
    obtain ⟨rfl, hhalf⟩ := hij
    obtain ⟨-, h0, heven⟩ := heq rfl
    have h1 : r / m = 1 := Nat.div_eq_of_lt_le (by omega) (by omega)
    omega

theorem NetSt.Ok.left_waits (h : s.Ok g) (hst : s.Stuck g eager) (hr : r < g.size) {m : Nat}
    (hw : s.WaitsFor g r m x) : ∃ m' y, s.WaitsFor g x m' y ∧ m' ≤ m ∧
      (m' = m → x = g.left r m ∧ m ≠ 0 ∧ m ≤ g.size / 2 ∧ x / m % 2 = 0) := by
  have hx := h.waits_lt hr hw
  have hn := hw.con_eq
  rcases Group.opens_or hx hr with ⟨j, hj, hjr⟩ | ⟨j, hj, hjx⟩
  · -- The other process opens the connection, so it has still to connect.
    have hmem := h.connect_of_stuck hst hx hj (.inr (by rw [hjr]; exact hn))
    obtain ⟨m', y, hw'⟩ := h.waits hst hx (ne_nil_of_mem hmem)
    obtain ⟨hle, heq⟩ := h.waits_before hx hw' hmem
    have hj2 := ((Group.mem_connect hx).1 hj).1
    cases hw with
    | await => exact ⟨m', y, hw', by omega, fun hm => by omega⟩
    | accept ht =>
      have hi := Group.accept_le ((h.suffix r hr).subset (ht ▸ mem_cons_self))
      have hij := Group.right_inj hx hi hj2
        ((Group.right_left hr (by omega)).trans hjr.symm)
      subst hij
      refine ⟨m', y, hw', hle, fun hm => ?_⟩
      obtain ⟨-, h0, heven⟩ := heq hm
      exact ⟨rfl, h0, hi, heven⟩
  · -- The process itself opens the connection, but it does not wait for such a connection.
    have hmem := h.connect_of_stuck hst hr hj (.inl (by rw [hjx]; exact hn))
    exact (h.not_waits hr hw hmem hjx).elim

theorem Group.left_odd {m y z : Nat} (hx : x < g.size) (hm : m ≠ 0) (hm2 : m ≤ g.size / 2)
    (hy : y = g.left x m) (hz : z = g.left y m) :
    ¬ (x / m % 2 = 0 ∧ y / m % 2 = 0 ∧ z / m % 2 = 0) := by
  rintro ⟨h1, h2, h3⟩
  have hsub : ∀ a, m ≤ a → a / m = (a - m) / m + 1 := fun a ha =>
    Nat.div_eq_sub_div (Nat.pos_of_ne_zero hm) ha
  have hylt : y < g.size := hy ▸ Group.left_lt hx
  rw [Group.left_eq hx (by omega)] at hy
  rw [Group.left_eq hylt (by omega)] at hz
  by_cases hle : m ≤ x
  · have := hsub x hle
    rw [if_pos hle] at hy
    rw [hy] at h2
    omega
  · rw [if_neg hle] at hy
    have hle' : m ≤ y := by omega
    have := hsub y hle'
    rw [if_pos hle'] at hz
    rw [hz] at h3
    omega

theorem NetSt.Ok.not_waitsFor (h : s.Ok g) (hst : s.Stuck g eager) :
    ∀ m r x, r < g.size → ¬ s.WaitsFor g r m x := by
  intro m
  -- The distance at which a process waits; the processes it waits for do not wait further ahead.
  induction m using Nat.strongRecOn with
  | ind m ih =>
    have hleft : ∀ r x, r < g.size → s.WaitsFor g r m x → ∃ y, s.WaitsFor g x m y ∧
        x = g.left r m ∧ m ≠ 0 ∧ m ≤ g.size / 2 ∧ x / m % 2 = 0 := by
      intro r x hr hw
      obtain ⟨m', y, hw', hle, heq⟩ := h.left_waits hst hr hw
      rcases Nat.lt_or_eq_of_le hle with hlt | rfl
      · exact absurd hw' (ih m' hlt x y (h.waits_lt hr hw))
      · exact ⟨y, hw', heq rfl⟩
    intro r x hr hw
    obtain ⟨y, hwx, -, hm, hm2, hxeven⟩ := hleft r x hr hw
    have hx := h.waits_lt hr hw
    obtain ⟨z, hwy, hy, -, -, hyeven⟩ := hleft x y hx hwx
    have hylt := h.waits_lt hx hwx
    obtain ⟨-, -, hz, -, -, hzeven⟩ := hleft y z hylt hwy
    exact Group.left_odd hx hm hm2 hy hz ⟨hxeven, hyeven, hzeven⟩

theorem NetSt.Ok.not_stuck (h : s.Ok g) (hr : r < g.size) (hbusy : (s.proc r).Busy) :
    ∃ a s', s.step g eager a = some s' := by
  by_contra hno
  have hst : s.Stuck g eager := by
    intro a
    cases hs : s.step g eager a with
    | none => rfl
    | some s' => exact absurd ⟨a, s', hs⟩ hno
  rcases hbusy with hbusy | hbusy
  · obtain ⟨m, x, hw⟩ := h.waits hst hr hbusy
    exact h.not_waitsFor hst m r x hr hw
  · exact hbusy (h.run_of_stuck hst hr)

/-! ## Termination -/

def Proc.work (p : Proc) : Nat :=
  4 * p.todo.length + match p.stage with
    | .run => 0
    | .connecting _ => 3
    | .sending _ => 1

def NetSt.work (g : Group) (s : NetSt) : Nat :=
  ∑ r ∈ Finset.range g.size, (s.proc r).work + s.inits.length

theorem NetSt.work_setProc (hr : r < g.size) {p : Proc} {k : Nat}
    (hp : p.work + k < (s.proc r).work) : (s.setProc r p).work g + k < s.work g := by
  have hmem : r ∈ Finset.range g.size := Finset.mem_range.2 hr
  have hold := Finset.add_sum_erase _ (fun x => (s.proc x).work) hmem
  have hnew := Finset.add_sum_erase _ (fun x => ((s.setProc r p).proc x).work) hmem
  have hrest : ∑ x ∈ (Finset.range g.size).erase r, ((s.setProc r p).proc x).work =
      ∑ x ∈ (Finset.range g.size).erase r, (s.proc x).work := by
    refine Finset.sum_congr rfl fun x hx => ?_
    simp [NetSt.setProc, (Finset.mem_erase.1 hx).1]
  have hself : ((s.setProc r p).proc r).work = p.work := by simp [NetSt.setProc]
  have hinits : (s.setProc r p).inits = s.inits := rfl
  simp only [NetSt.work, hinits] at hold hnew ⊢
  omega

theorem NetSt.work_initMsg (hc : c ∈ s.inits) : (s.initMsg g c).work g < s.work g := by
  have hlen := length_erase_add_one hc
  have hinits : (s.initMsg g c).inits = s.inits.erase c := by
    unfold NetSt.initMsg
    dsimp only
    split
    · split <;> rfl
    · rfl
  have hproc : ∀ x, ((s.initMsg g c).proc x).work = (s.proc x).work := by
    intro x
    unfold NetSt.initMsg
    dsimp only
    split
    · split <;> rfl
    · by_cases hx : x = c.dst
      · subst hx
        simp [NetSt.setProc, Proc.work]
      · simp [NetSt.setProc, hx]
  simp only [NetSt.work, hinits, hproc]
  omega

theorem NetSt.work_step {a : Step} (hs : s.step g eager a = some s') :
    s'.work g < s.work g := by
  rcases NetSt.step_cases hs with ⟨r, hr, hrun, hs⟩ | ⟨r, hr, i, hst, rfl⟩ | ⟨c, hc, rfl⟩ |
    ⟨r, hr, i, hst, rfl⟩
  · unfold NetSt.next at hs
    dsimp only at hs
    split at hs
    · cases hs
    · next ht =>
      split at hs <;> cases hs
      · exact NetSt.work_setProc (k := 0) hr (by simp [Proc.work, ht])
      · exact NetSt.work_setProc (k := 0) hr (by simp [Proc.work, ht, hrun]; omega)
    · next ht =>
      obtain ⟨-, hs⟩ := ite_none_right_eq_some.1 hs
      cases hs
      exact NetSt.work_setProc (k := 0) hr (by simp [Proc.work, ht])
    · next ht =>
      obtain ⟨-, hs⟩ := ite_none_right_eq_some.1 hs
      cases hs
      exact NetSt.work_setProc (k := 0) hr (by simp [Proc.work, ht])
  · have hlt := NetSt.work_setProc (k := 1) (s := s) (g := g) hr
      (p := { s.proc r with
        stage := .sending i
        grank2con := Function.update (s.proc r).grank2con (g.grank (g.right r i))
          (some ⟨r, g.right r i⟩) }) (by simp [Proc.work, hst])
    simp only [NetSt.connected, NetSt.work, length_append, length_singleton] at hlt ⊢
    exact hlt
  · exact NetSt.work_initMsg hc
  · exact NetSt.work_setProc (k := 0) hr (by simp [Proc.work, hst])

/-! ## The result -/

/-- Every pair of processes, and every process with itself, has one connection, which both of them
have entered. -/
def NetSt.Connected (g : Group) (s : NetSt) : Prop :=
  ∀ r < g.size, ∀ d < g.size,
    (∃ c, s.con g r d = some c ∧ s.con g d r = some c) ∧
    s.opened.countP (fun c => c = ⟨r, d⟩ ∨ c = ⟨d, r⟩) = 1

theorem NetSt.Ok.opens_connected (h : s.Ok g) (hr : r < g.size) (hd : d < g.size)
    (hcr : s.con g r d ≠ none) (hcd : s.con g d r ≠ none) (ho : g.Opens r d) :
    (∃ c, s.con g r d = some c ∧ s.con g d r = some c) ∧
      s.opened.countP (fun c => c = ⟨r, d⟩ ∨ c = ⟨d, r⟩) = 1 := by
  obtain ⟨i, hi, rfl⟩ := ho
  have hboth : s.con g r (g.right r i) = some ⟨r, g.right r i⟩ ∧
      s.con g (g.right r i) r = some ⟨r, g.right r i⟩ ∧ ⟨r, g.right r i⟩ ∈ s.opened := by
    cases h.link r hr i hi with
    | pending _ hn => exact absurd hn hcr
    | shared _ h1 h2 _ h3 => exact ⟨h1, h2, h3⟩
    | opened _ h1 h2 _ h3 =>
      refine ⟨h1, ?_, h3⟩
      by_cases hself : g.right r i = r
      · rw [hself] at h1 ⊢
        exact h1
      · exact absurd (h2 hself) hcd
  obtain ⟨h1, h2, h3⟩ := hboth
  refine ⟨⟨_, h1, h2⟩, ?_⟩
  have hcount : s.opened.countP (fun c => c = ⟨r, g.right r i⟩ ∨ c = ⟨g.right r i, r⟩) =
      s.opened.count ⟨r, g.right r i⟩ := by
    refine countP_congr fun c hc => ?_
    simp only [decide_eq_true_eq, beq_iff_eq, or_iff_left_iff_imp]
    rintro rfl
    have heq := Group.Opens.antisymm hd hr (h.opened _ hc).2 ⟨i, hi, rfl⟩
    rw [heq]
  rw [hcount]
  exact count_eq_one_of_mem h.opened_nodup h3

theorem NetSt.Ok.connected_of_done (h : s.Ok g) (hdone : ∀ r < g.size, ¬ (s.proc r).Busy) :
    s.Connected g := by
  intro r hr d hd
  have hcr : s.con g r d ≠ none := fun hn => hdone r hr (h.busy hr hd hn)
  have hcd : s.con g d r ≠ none := fun hn => hdone d hd (h.busy hd hr hn)
  rcases Group.opens_or hr hd with ho | ho
  · exact h.opens_connected hr hd hcr hcd ho
  · obtain ⟨⟨c, h1, h2⟩, h3⟩ := h.opens_connected hd hr hcd hcr ho
    refine ⟨⟨c, h2, h1⟩, ?_⟩
    simpa only [or_comm] using h3

end

/-- **Direct connect is deadlock free and complete.** In every state that the processes of a group
can reach, in any order of their steps, no connection has been rejected as a second one, and if a
process is still in `connect_direct` then some process can go on; the runs are of bounded length, so
that all processes return; and when they have, every pair of processes has exactly one connection,
and so has every process with itself. -/
theorem connect_direct_complete (g : Group) (eager : Nat → Nat → Bool) :
    (∀ s, (directSys g eager).Reach s → s.rejected = [] ∧
      ((∃ r < g.size, (s.proc r).Busy) → ∃ a s', (directSys g eager).step s a = some s') ∧
      ((∀ r < g.size, ¬ (s.proc r).Busy) → s.Connected g)) ∧
    ∃ bound, ∀ as s, (directSys g eager).exec (directSys g eager).init as = some s →
      as.length ≤ bound := by
  constructor
  · intro s hr
    have hok : s.Ok g := hr.inv (NetSt.Ok.init g) fun hi hs => hi.step hs
    exact ⟨hok.rejected, fun ⟨r, hr, hbusy⟩ => hok.not_stuck hr hbusy,
      fun hdone => hok.connected_of_done hdone⟩
  · refine ⟨(NetSt.init g).work g, fun as s he => ?_⟩
    have hle := Sys.exec_length_add_le (fun hs => NetSt.work_step hs) he
    exact Nat.le_of_add_right_le hle

end PsMpi.Connect
