import PsMpi.ContextId.AllocOk

/-!
# Agreement on context ids
-/

open PsMpi.Lib List Option Function

namespace PsMpi.ContextId

section
variable {P : Type*}

/-- A blocking allocation that gives up the mask after the ids are exhausted does not take it from
another allocation. `contextid.c:548-552,602-604`. -/
def Calm (s : CtxSt P) : CtxAct P → Prop
  | .release a p | .fail a p =>
    (s.gcn a p).ownMask = true → ∀ b ∈ (s.proc p).nextGcn, ¬ (s.gcn b p).HoldsMask
  | _ => True

instance (s : CtxSt P) (act : CtxAct P) : Decidable (Calm s act) :=
  match act with
  | .release a p | .fail a p => inferInstanceAs (Decidable ((s.gcn a p).ownMask = true →
      ∀ b ∈ (s.proc p).nextGcn, ¬ (s.gcn b p).HoldsMask))
  | .call .. | .copyMask .. | .allocate .. | .enlist .. | .count .. | .free .. =>
    inferInstanceAs (Decidable True)

structure CtxSt.Ok (cfg : CtxCfg P) (s : CtxSt P) : Prop where
  proc : ∀ p, ProcOk (cfg.eagerNelem p) (fun a => (cfg.spec a).ignores p) (s.proc p)
    fun a => s.gcn a p
  rounds : ∀ a, RoundsOk (cfg.spec a) (s.gcn a)

namespace CtxSt

variable {cfg : CtxCfg P} {s s' : CtxSt P} {a : Nat} {p q : P}

theorem Ok.init : Ok cfg (init : CtxSt P) := by
  refine ⟨fun p => ⟨rfl, fun a => ?_, nofun, ?_, ⟨nofun, .nil⟩⟩, fun a => ?_⟩
  · exact ⟨nofun, fun hh => Bool.noConfusion hh.2, nofun, fun hw => Bool.noConfusion hw.1, nofun⟩
  · exact fun _ _ hh => Bool.noConfusion hh.2
  · exact ⟨fun q hq => absurd rfl hq, fun q _ => ⟨.inl rfl, rfl⟩,
      fun q r hr => absurd hr (Nat.not_lt_zero _), fun q hq => absurd rfl hq⟩

theorem Ok.result_offer (h : s.Ok cfg) (hph : (s.gcn a p).phase = .reducing) {k : Nat}
    (hk : (s.result cfg a (s.round a p)).words.bit k = true) :
    (s.gcn a p).offer.words.bit k = true := by
  have hmem : p ∈ (cfg.spec a).members := (h.rounds a).member p (by rw [hph]; nofun)
  exact roundResult_mem (P := fun m : LocalMask => m.words.bit k = true)
    (fun _ _ => LocalMask.band_bit) hk hmem

section
variable [DecidableEq P]

theorem Ok.set (h : s.Ok cfg) {x : CtxProc} {g : Gcn}
    (hp : ProcOk (cfg.eagerNelem p) (fun a => (cfg.spec a).ignores p) x
      (Function.update (fun b => s.gcn b p) a g))
    (hr : RoundsOk (cfg.spec a) (Function.update (s.gcn a) p g)) : (s.set a p x g).Ok cfg := by
  refine ⟨fun q => ?_, fun b => ?_⟩
  · by_cases hqp : q = p
    · subst hqp
      have heq : (fun b => (s.set a q x g).gcn b q) = Function.update (fun b => s.gcn b q) a g := by
        funext b
        by_cases hb : b = a
        · subst hb; simp [CtxSt.set]
        · simp [CtxSt.set, hb]
      rw [heq]
      simpa [CtxSt.set] using hp
    · have heq : (fun b => (s.set a p x g).gcn b q) = fun b => s.gcn b q := by
        funext b
        by_cases hb : b = a
        · subst hb; simp [CtxSt.set, hqp]
        · simp [CtxSt.set, hb]
      rw [heq]
      simpa [CtxSt.set, hqp] using h.proc q
  · by_cases hb : b = a
    · subst hb
      simpa [CtxSt.set] using hr
    · simpa [CtxSt.set, hb] using h.rounds b

theorem Ok.copyMask (h : s.Ok cfg) (hph : (s.gcn a p).phase = .ready) :
    ∃ x g, CtxSt.copyMask cfg a p (s.proc p) (s.gcn a p) = .ok (x, g) ∧
      (s.set a p x g).Ok cfg := by
  have hp := h.proc p
  have hr := h.rounds a
  have heager : ∀ n x g, (copyEager n x g).2.1.contribs = g.contribs := by
    intro n x g
    unfold copyEager
    split <;> rfl
  have hmain : ∀ n a x g, (copyMain n a x g).2.1.contribs = g.contribs := by
    intro n a x g
    unfold copyMain
    split <;> rfl
  unfold CtxSt.copyMask
  cases hkind : (cfg.spec a).kind with
  | blocking =>
    simp only [copyMaskBlocking]
    cases hig : (cfg.spec a).ignores p with
    | true =>
      refine ⟨_, _, rfl, h.set (hp.offerNone rfl ?_ rfl ?_ ?_) (hr.reduce hph _ rfl)⟩
      · exact (hp.member a).not_eager (by rw [hph]; nofun)
      · exact fun _ hi => Bool.noConfusion (hig.symm.trans hi)
      · exact fun hi => Bool.noConfusion (hig.symm.trans hi)
    | false =>
      simp only [Bool.false_eq_true, ↓reduceIte]
      split
      · next hfirst =>
        exact ⟨_, _, rfl, h.set (hp.copyEager hfirst hig _) (hr.reduce hph _ (heager ..))⟩
      · next hfirst =>
        rw [Bool.not_eq_true] at hfirst
        have hlist := (hp.member a).listed ⟨hfirst, by simp only [hph]; rfl⟩ hig
        rw [if_neg (ne_nil_of_mem hlist)]
        exact ⟨_, _, rfl, h.set (hp.copyMain hph hfirst hig _) (hr.reduce hph _ (hmain ..))⟩
  | nonblocking =>
    have hig : (cfg.spec a).ignores p = false := by rw [AllocSpec.ignores, hkind]
    simp only [schedCbGcnCopyMask]
    split
    · next hfirst =>
      exact ⟨_, _, rfl, h.set (hp.copyEager hfirst hig _) (hr.reduce hph _ (heager ..))⟩
    · next hfirst =>
      rw [Bool.not_eq_true] at hfirst
      exact ⟨_, _, rfl, h.set (hp.copyMain hph hfirst hig _) (hr.reduce hph _ (hmain ..))⟩

theorem Ok.allocateCid (h : s.Ok cfg) (hph : (s.gcn a p).phase = .reducing)
    (hready : RoundReady (cfg.spec a).members (s.contribs a) (s.round a p)) :
    ∃ x g, CtxSt.allocateCid cfg a p (s.result cfg a (s.round a p)) (s.proc p) (s.gcn a p) =
        .ok (x, g) ∧ (s.set a p x g).Ok cfg ∧
      g.phase.Follows ((cfg.spec a).ignores p) (s.result cfg a (s.round a p)).outcome := by
  have hp := h.proc p
  have hcases : ∃ x g, CtxSt.allocateCid cfg a p (s.result cfg a (s.round a p)) (s.proc p)
      (s.gcn a p) = .ok (x, g) ∧ ProcOk (cfg.eagerNelem p) (fun a => (cfg.spec a).ignores p) x
        (Function.update (fun b => s.gcn b p) a g) ∧ g.contribs = (s.gcn a p).contribs ∧
      g.phase.Follows ((cfg.spec a).ignores p) (s.result cfg a (s.round a p)).outcome := by
    by_cases hzero : locateContextBit (s.result cfg a (s.round a p)).words = 0
    · exact hp.allocateCid_none hph hzero
    · exact hp.allocateCid_found hph (if_pos hzero) fun _ k hk => h.result_offer hph hk
  obtain ⟨x, g, h1, h2, h3, h4⟩ := hcases
  exact ⟨x, g, h1, h.set h2 ((h.rounds a).decide hph h3 hready h4), h4⟩

theorem Ok.move (h : s.Ok cfg) {x : CtxProc} {g : Gcn} (hph : (s.gcn a p).phase.open = true)
    (hr : (s.gcn a p).phase ≠ .reducing) (hn : (s.gcn a p).phase ≠ .ready)
    (hc : g.contribs = (s.gcn a p).contribs)
    (hfol : ∀ o, (s.gcn a p).phase.Follows ((cfg.spec a).ignores p) o →
      g.phase.Follows ((cfg.spec a).ignores p) o)
    (hp : ProcOk (cfg.eagerNelem p) (fun a => (cfg.spec a).ignores p) x
      (Function.update (fun b => s.gcn b p) a g)) : (s.set a p x g).Ok cfg := by
  have hidle : (s.gcn a p).phase ≠ .idle := fun hi => by rw [hi] at hph; cases hph
  exact h.set hp ((h.rounds a).move ((h.rounds a).member p hidle) hc hr
    (fun hnil => absurd hnil ((h.rounds a).contribs_ne hidle hn)) hfol)

theorem Ok.call (h : s.Ok cfg) (hph : (s.gcn a p).phase = .idle) (hmem : p ∈ (cfg.spec a).members) :
    (s.set a p (s.proc p) { s.gcn a p with phase := .ready }).Ok cfg := by
  have hp := (h.proc p).member a
  have hnil : (s.gcn a p).contribs = [] := by
    by_contra hne
    have hl := ((h.rounds a).last p hne (by rw [hph]; nofun)).2
    rw [hph] at hl
    exact hl
  have hfirst := ((h.rounds a).begun p hnil).2
  refine h.set ((h.proc p).setPhase rfl nofun (hp.not_eager (by rw [hph]; nofun)) hp.own ?_)
    ((h.rounds a).move hmem rfl (by rw [hph]; nofun) (fun _ => ⟨rfl, hfirst⟩) ?_)
  · exact fun hw => Bool.noConfusion (hfirst.symm.trans hw.1)
  · intro o ho
    rw [hph] at ho
    exact ho.elim

theorem Ok.enlist (h : s.Ok cfg) (hph : (s.gcn a p).phase = .retry) :
    (s.set a p
      (if (s.gcn a p).firstIter = true ∧ (cfg.spec a).ignores p = false then
        { s.proc p with nextGcn := addGcnToList cfg.spec a (s.proc p).nextGcn }
      else s.proc p)
      { s.gcn a p with phase := .ready, firstIter := false }).Ok cfg := by
  have hp := (h.proc p).member a
  have heager := hp.not_eager (by rw [hph]; nofun)
  refine h.move (by rw [hph]; rfl) (by rw [hph]; nofun) (by rw [hph]; nofun) rfl
    (fun o ho => by rw [hph] at ho; exact ho) ?_
  split
  · refine (h.proc p).update (h.proc p).alive
      (fun b _ hb => ⟨(((h.proc p).member b).eager hb).2.2.2, heager⟩)
      (fun b _ hb => ⟨((h.proc p).member b).mask hb, fun hh => nomatch hh.1⟩)
      (fun b _ hb => (mem_addGcnToList _ _).2 (.inr hb)) (fun k hk => .inl hk) ?_
      ⟨(h.proc p).live.taken, (h.proc p).live.nodup⟩
    exact ⟨fun he => Bool.noConfusion (heager.symm.trans he), fun hh => (nomatch hh.1),
      fun ho => ⟨rfl, (hp.own ho).2⟩, fun _ _ => (mem_addGcnToList _ _).2 (.inl rfl), nofun⟩
  · next hc =>
    refine (h.proc p).setPhase rfl nofun heager (fun ho => ⟨rfl, (hp.own ho).2⟩) fun _ hi => ?_
    have hfirst : (s.gcn a p).firstIter = false := Bool.eq_false_iff.2 fun hf => hc ⟨hf, hi⟩
    exact hp.listed ⟨hfirst, by simp only [hph]; rfl⟩ hi

theorem Ok.fail (h : s.Ok cfg) (hph : (s.gcn a p).phase = .counting) (minfree : Nat)
    (hcalm : (s.gcn a p).ownMask = true → ∀ b ∈ (s.proc p).nextGcn, ¬ (s.gcn b p).HoldsMask) :
    (s.finish a p
      (failAlloc a minfree ((cfg.spec a).ignores p) (s.proc p) (s.gcn a p))).Ok cfg := by
  have hp := (h.proc p).member a
  have hmove : ∀ {x}, ProcOk (cfg.eagerNelem p) (fun a => (cfg.spec a).ignores p) x
      (Function.update (fun b => s.gcn b p) a { s.gcn a p with phase := .failed (0 < minfree) }) →
      (s.set a p x { s.gcn a p with phase := .failed (0 < minfree) }).Ok cfg := by
    intro x hx
    exact h.move (by rw [hph]; rfl) (by rw [hph]; nofun) (by rw [hph]; nofun) rfl
      (fun o ho => by rw [hph] at ho; exact ho) hx
  have hdrop : ∀ {l : List Nat}, (∀ b, b ≠ a → b ∈ (s.proc p).nextGcn → b ∈ l) →
      ProcOk (cfg.eagerNelem p) (fun a => (cfg.spec a).ignores p)
        { dropMask (s.proc p) (s.gcn a p) with nextGcn := l }
        (Function.update (fun b => s.gcn b p) a
          { s.gcn a p with phase := .failed (0 < minfree) }) := by
    intro l hl
    exact (h.proc p).drop (by rw [hph]; nofun) hcalm hl nofun rfl rfl rfl
      fun hw => Bool.noConfusion hw.2
  unfold failAlloc
  split
  · next hc =>
    have hl : a ∈ (s.proc p).nextGcn := hp.listed ⟨hc.1, by simp only [hph]; rfl⟩ hc.2
    rw [removeGcn, if_pos hl]
    exact hmove (hdrop fun b hb hm => (mem_erase_of_ne hb).2 hm)
  · exact hmove (hdrop fun b _ hm => hm)

theorem Ok.free (h : s.Ok cfg) {id : Nat} (hmem : (a, id) ∈ (s.proc p).live) :
    ∃ m, freeContextid (s.proc p).contextMask id = some m ∧
      Ok cfg { s with
        proc := Function.update s.proc p
          { s.proc p with contextMask := m, live := (s.proc p).live.erase (a, id) } } := by
  obtain ⟨m, hm, hbits, hlive⟩ := (h.proc p).live.free hmem
  refine ⟨m, hm, fun q => ?_, h.rounds⟩
  by_cases hq : q = p
  · subst hq
    have hp := h.proc q
    simp only [update_self]
    refine ⟨hp.alive, fun b => ?_, hp.eagerUniq, hp.maskUniq, hlive⟩
    have hb := hp.member b
    refine ⟨hb.eager, hb.mask, hb.own, hb.listed, fun hr hi k hk => ?_⟩
    exact ⟨hbits k (hb.offer hr hi k hk).1, (hb.offer hr hi k hk).2⟩
  · simp only [update_of_ne hq]
    exact h.proc q

theorem Ok.step (h : s.Ok cfg) {act : CtxAct P} (hcalm : Calm s act)
    (hs : CtxSt.step cfg s act = some s') : s'.Ok cfg := by
  obtain ⟨-, hs⟩ := ite_none_right_eq_some.1 hs
  cases act with
  | call a p =>
    obtain ⟨⟨hph, hmem⟩, hs⟩ := ite_none_right_eq_some.1 hs
    cases hs
    exact h.call hph hmem
  | copyMask a p =>
    obtain ⟨hph, hs⟩ := ite_none_right_eq_some.1 hs
    cases hs
    obtain ⟨x, g, heq, hok⟩ := h.copyMask hph
    rw [heq]
    exact hok
  | allocate a p =>
    obtain ⟨⟨hph, hready⟩, hs⟩ := ite_none_right_eq_some.1 hs
    cases hs
    obtain ⟨x, g, heq, hok, -⟩ := h.allocateCid hph hready
    rw [heq]
    exact hok
  | enlist a p =>
    obtain ⟨hph, hs⟩ := ite_none_right_eq_some.1 hs
    cases hs
    exact h.enlist hph
  | release a p =>
    obtain ⟨hph, hs⟩ := ite_none_right_eq_some.1 hs
    cases hs
    refine h.move (by rw [hph]; rfl) (by rw [hph]; nofun) (by rw [hph]; nofun) rfl
      (fun o ho => by rw [hph] at ho; exact ho) ?_
    exact (h.proc p).drop (by rw [hph]; nofun) hcalm (fun b _ hb => hb) nofun rfl rfl rfl
      fun hw hi => ((h.proc p).member a).listed ⟨hw.1, by simp only [hph]; rfl⟩ hi
  | count a p =>
    obtain ⟨hph, hs⟩ := ite_none_right_eq_some.1 hs
    cases hs
    have hp := (h.proc p).member a
    refine h.move (by rw [hph]; rfl) (by rw [hph]; nofun) (by rw [hph]; nofun) rfl
      (fun o ho => by rw [hph] at ho; exact ho) ?_
    exact (h.proc p).setPhase rfl nofun (hp.not_eager (by rw [hph]; nofun)) hp.own
      fun hw hi => hp.listed ⟨hw.1, by simp only [hph]; rfl⟩ hi
  | fail a p =>
    obtain ⟨⟨hph, -⟩, hs⟩ := ite_none_right_eq_some.1 hs
    cases hs
    exact h.fail hph _ hcalm
  | free p a id =>
    obtain ⟨hmem, hs⟩ := ite_none_right_eq_some.1 hs
    obtain ⟨m, hm, hok⟩ := h.free hmem
    rw [hm] at hs
    cases hs
    exact hok

theorem step_allocate (halive : (s.proc q).fault = none) (hph : (s.gcn a q).phase = .reducing)
    (hready : ReadyOf (cfg.spec a) (s.gcn a) (s.round a q)) :
    CtxSt.step cfg s (.allocate a q) = some (s.finish a q
      (CtxSt.allocateCid cfg a q (s.result cfg a (s.round a q)) (s.proc q) (s.gcn a q))) := by
  rw [CtxSt.step, CtxAct.at, if_pos halive]
  exact if_pos ⟨hph, hready⟩

theorem Ok.allocate_found (h : s.Ok cfg) {id : Nat} (hph : (s.gcn a q).phase = .reducing)
    (hready : ReadyOf (cfg.spec a) (s.gcn a) (s.round a q))
    (hout : (resultOf (cfg.spec a) (s.gcn a) (s.round a q)).outcome = .found id)
    (hig : (cfg.spec a).ignores q = false) :
    ∃ s', CtxSt.step cfg s (.allocate a q) = some s' ∧ (s'.gcn a q).phase = .done id := by
  obtain ⟨x, g, heq, -, hfol⟩ := h.allocateCid hph hready
  refine ⟨_, step_allocate (h.proc q).alive hph hready, ?_⟩
  rw [heq]
  have hout' : (s.result cfg a (s.round a q)).outcome = .found id := hout
  rw [hout', hig] at hfol
  simpa [CtxSt.finish, CtxSt.set] using hfol.found

theorem Ok.found_of_allocate (h : s.Ok cfg) {id : Nat}
    (hs : CtxSt.step cfg s (.allocate a p) = some s') (hdone : (s'.gcn a p).phase = .done id)
    (hig : (cfg.spec a).ignores p = false) :
    ReadyOf (cfg.spec a) (s.gcn a) (s.round a p) ∧
      (resultOf (cfg.spec a) (s.gcn a) (s.round a p)).outcome = .found id := by
  obtain ⟨-, hs⟩ := ite_none_right_eq_some.1 hs
  obtain ⟨⟨hph, hready⟩, hs⟩ := ite_none_right_eq_some.1 hs
  cases hs
  obtain ⟨x, g, heq, -, hfol⟩ := h.allocateCid hph hready
  rw [heq] at hdone
  have hg : g.phase = .done id := by simpa [CtxSt.finish, CtxSt.set] using hdone
  rw [hg] at hfol
  obtain ⟨id', hout, hid⟩ := hfol
  exact ⟨hready, by rw [hid hig]; exact hout⟩

end

theorem Ok.found (h : s.Ok cfg) {r id : Nat} (hready : ReadyOf (cfg.spec a) (s.gcn a) r)
    (hout : (resultOf (cfg.spec a) (s.gcn a) r).outcome = .found id)
    (hq : q ∈ (cfg.spec a).members) (hig : (cfg.spec a).ignores q = false) :
    (s.gcn a q).phase = .done id ∨ (s.gcn a q).phase = .reducing ∧ s.round a q = r := by
  obtain ⟨hlen, hcase⟩ := (h.rounds a).final hready (by rw [hout]; nofun) hq
  rcases hcase with hred | hfol
  · exact .inr ⟨hred, hlen⟩
  · rw [hout, hig] at hfol
    exact .inl hfol.found

theorem Ok.found_free (h : s.Ok cfg) {id : Nat} (hph : (s.gcn a q).phase = .reducing)
    (hout : (resultOf (cfg.spec a) (s.gcn a) (s.round a q)).outcome = .found id)
    (hig : (cfg.spec a).ignores q = false) : id ∉ (s.proc q).live.map Prod.snd := by
  intro hmem
  obtain ⟨c, hc, rfl⟩ := mem_map.1 hmem
  obtain ⟨-, -, k, -, hidk, hbit⟩ := LocalMask.outcome_found hout
  obtain ⟨j, -, heq, htaken⟩ := (h.proc q).live.taken c hc
  obtain rfl : j = k := ofPrefix_inj (heq.symm.trans hidk)
  have hfree := (((h.proc q).member a).offer hph hig j (h.result_offer hph hbit)).1
  exact Bool.noConfusion (hfree.symm.trans htaken)

end CtxSt

variable [DecidableEq P] {cfg : CtxCfg P} {s : CtxSt P}

/-- **Agreement and uniqueness of context ids.** In every state that is reached by calm steps:

* no process has died, so that no bit was cleared twice;
* the ids that a process has in use are distinct;
* if a member that does not ignore the id has obtained it, then every other one has obtained the
  same id or obtains it by its next step;
* when a member obtains an id, the id is not in use at any member that has yet to obtain it. -/
theorem context_ids_agree (h : (ctxSys cfg).ReachWhen Calm s) :
    (∀ p, (s.proc p).fault = none) ∧
    (∀ p, ((s.proc p).live.map Prod.snd).Nodup) ∧
    (∀ a p q id, (cfg.spec a).ignores p = false → (s.gcn a p).phase = .done id →
      q ∈ (cfg.spec a).members → (cfg.spec a).ignores q = false →
      (s.gcn a q).phase = .done id ∨
        ∃ s', (ctxSys cfg).step s (.allocate a q) = some s' ∧ (s'.gcn a q).phase = .done id) ∧
    (∀ a p q id s', (cfg.spec a).ignores p = false →
      (ctxSys cfg).step s (.allocate a p) = some s' → (s'.gcn a p).phase = .done id →
      q ∈ (cfg.spec a).members → (cfg.spec a).ignores q = false →
      (s.gcn a q).phase = .done id ∨ id ∉ (s.proc q).live.map Prod.snd) := by
  have hok : s.Ok cfg := h.inv CtxSt.Ok.init fun _ hi hc hs => hi.step hc hs
  refine ⟨fun p => (hok.proc p).alive, fun p => (hok.proc p).live.nodup,
    fun a p q id hp hdone hq hig => ?_, fun a p q id s' hp hs hdone hq hig => ?_⟩
  · obtain ⟨r, hready, hout⟩ := (hok.rounds a).of_done hdone hp
    rcases hok.found hready hout hq hig with hd | ⟨hred, rfl⟩
    · exact .inl hd
    · exact .inr (hok.allocate_found hred hready hout hig)
  · obtain ⟨hready, hout⟩ := hok.found_of_allocate hs hdone hp
    rcases hok.found hready hout hq hig with hd | ⟨hred, hr⟩
    · exact .inl hd
    · rw [← hr] at hout
      exact .inr (hok.found_free hred hout hig)

end

/-! ## Runs -/

def pairCfg : CtxCfg Nat where
  eagerNelem _ := 2
  eagerNelem_lt _ := by decide
  spec _ := ⟨.blocking, [0, 1], fun _ => false, 0, 0⟩

/-- Both processes offer their eager segments, and the first of them has taken the id: the second
takes it next, and it is in use at neither. -/
theorem context_ids_agree_pair :
    ∃ s, (ctxSys pairCfg).ReachWhen Calm s ∧ (s.gcn 0 0).phase = .done 496 ∧
      ((s.gcn 0 1).phase = .done 496 ∨ ∃ s', (ctxSys pairCfg).step s (.allocate 0 1) = some s' ∧
        (s'.gcn 0 1).phase = .done 496) := by
  have hrun : (((ctxSys pairCfg).checked Calm).exec (.init : CtxSt Nat) [.call 0 0, .copyMask 0 0,
      .call 0 1, .copyMask 0 1, .allocate 0 0]).map (fun s => (s.gcn 0 0).phase) =
        some (.done 496) := by decide
  obtain ⟨s, hs, hdone⟩ := map_eq_some_iff.1 hrun
  obtain ⟨he, hcalm⟩ := Sys.checked_along hs
  have hr : (ctxSys pairCfg).ReachWhen Calm s :=
    @Sys.exec_reachWhen _ _ _ _ _ _ _ [] .init rfl hcalm he
  refine ⟨s, hr, hdone, ?_⟩
  exact (context_ids_agree hr).2.2.1 0 0 1 496 rfl hdone (by decide) rfl

/-- The allocation 0 waits for the process 1 and keeps the eager segment of the process 0. -/
def clashCfg : CtxCfg Nat where
  eagerNelem _ := 62
  eagerNelem_lt _ := by decide
  spec a :=
    if a = 0 then ⟨.blocking, [0, 1], fun _ => false, 0, 0⟩
    else if a < 4 then ⟨.blocking, [0], fun _ => false, 4 - a, 0⟩
    else ⟨.nonblocking, [0], fun _ => false, 0, a⟩

/-- The mask of the process 0 after `n` of the ids outside the eager segment are used up. -/
def usedMask (n : Nat) : Mask := fun i =>
  if i.val < 62 then initMask i else BitVec.allOnes 32 >>> (n - 32 * (i.val - 62))

/-- The id that is taken next. -/
def usedId (n : Nat) : Nat := ofPrefix (2015 - n + 64 * (n / 32))

def usedProc (n : Nat) : CtxProc :=
  ⟨usedMask n, true, false, [], (range n).reverse.map fun i => (4 + i, usedId i), none⟩

/-- The allocation 0 holds the eager segment, and the allocations from 4 on have taken `n` ids. -/
def usedSt : Nat → CtxSt Nat
  | 0 => CtxSt.init.set 0 0 (usedProc 0)
    ⟨.reducing, true, false, true, [⟨eagerWords 62 initMask, false⟩], none⟩
  | n + 1 => (usedSt n).set (4 + n) 0 (usedProc (n + 1))
    ⟨.done (usedId n), false, true, false, [⟨0, false⟩, ⟨mainWords 62 (usedMask n), true⟩], none⟩

theorem CtxSt.set_proc {s : CtxSt Nat} {a p : Nat} {x : CtxProc} {g : Gcn} :
    (s.set a p x g).proc p = x := by
  simp [CtxSt.set]

theorem CtxSt.set_gcn {s : CtxSt Nat} {a p : Nat} {x : CtxProc} {g : Gcn} :
    (s.set a p x g).gcn a p = g := by
  simp [CtxSt.set]

theorem CtxSt.set_set {s : CtxSt Nat} {a p : Nat} {x y : CtxProc} {g h : Gcn} :
    (s.set a p x g).set a p y h = s.set a p y h := by
  simp [CtxSt.set]

theorem usedSt_proc (n : Nat) : (usedSt n).proc 0 = usedProc n := by
  cases n <;> simp [usedSt, CtxSt.set]

theorem usedSt_gcn {n a : Nat} (ha : 4 + n ≤ a) :
    (usedSt n).gcn a 0 = (CtxSt.init : CtxSt Nat).gcn a 0 := by
  induction n with
  | zero =>
    have h0 : a ≠ 0 := by omega
    simp [usedSt, CtxSt.set, h0]
  | succ n ih =>
    have hn : a ≠ 4 + n := by omega
    rw [← ih (by omega)]
    simp [usedSt, CtxSt.set, hn]

theorem LocalMask.band_ones (x : LocalMask) : x.band .ones = x := by
  show LocalMask.mk (fun i => x.words i &&& BitVec.allOnes 32) (x.allOwn && true) = x
  simp only [BitVec.and_allOnes, Bool.and_true]

theorem usedId_pos {n : Nat} (hn : n < 64) : 0 < usedId n := by
  rw [usedId, ofPrefix, Nat.shiftLeft_eq]
  exact Nat.mul_pos (by omega) (by decide)

theorem usedMask_locate : ∀ n < 64, locateContextBit (mainWords 62 (usedMask n)) = usedId n := by
  decide +kernel

theorem usedMask_succ : ∀ n < 64, usedMask n (wordOf (usedId n)) &&& bitOf (usedId n) ≠ 0 ∧
    ∀ i, update (usedMask n) (wordOf (usedId n))
      (usedMask n (wordOf (usedId n)) &&& ~~~ bitOf (usedId n)) i = usedMask (n + 1) i := by
  decide +kernel

theorem findAndAllocate_used {n : Nat} (hn : n < 64) :
    findAndAllocateContextId (usedMask n) (mainWords 62 (usedMask n)) =
      .ok (usedId n, usedMask (n + 1)) := by
  obtain ⟨hbit, hsucc⟩ := usedMask_succ n hn
  rw [findAndAllocateContextId, usedMask_locate n hn, if_pos (usedId_pos hn).ne',
    allocateContextBit, if_pos hbit, funext hsucc]

theorem usedSt_exec {n : Nat} (hn : n < 64) :
    (ctxSys clashCfg).exec (usedSt n) [.call (4 + n) 0, .copyMask (4 + n) 0, .allocate (4 + n) 0,
      .copyMask (4 + n) 0, .allocate (4 + n) 0] = some (usedSt (n + 1)) := by
  have hspec : clashCfg.spec (4 + n) = ⟨.nonblocking, [0], fun _ => false, 0, 4 + n⟩ := by
    have h0 : 4 + n ≠ 0 := by omega
    have h4 : ¬ 4 + n < 4 := by omega
    simp only [clashCfg, h0, h4, if_false]
  have heager : clashCfg.eagerNelem 0 = 62 := rfl
  have hx := usedSt_proc n
  have hg := usedSt_gcn (Nat.le_refl (4 + n))
  have hpos := usedId_pos hn
  -- the first round finds the eager segment in use, the second one takes the id
  simp [Sys.exec, ctxSys, CtxSt.step, CtxSt.stepAt, CtxAct.at, hx, hg, hspec, heager, usedProc,
    CtxSt.init, CtxSt.copyMask, CtxSt.finish, schedCbGcnCopyMask, copyEager, copyMain, Gcn.reduce,
    CtxSt.round, CtxSt.contribs, CtxSt.result, RoundReady, roundResult, LocalMask.band_ones,
    CtxSt.allocateCid, takeContextId, concludeNonblocking, AllocSpec.ignores, addGcnToList,
    removeGcn, findAndAllocate_used hn, hpos, hpos.ne', usedSt, range_succ, CtxSt.set_proc,
    CtxSt.set_gcn, CtxSt.set_set]

theorem usedSt_reach {n : Nat} (hn : n ≤ 64) : (ctxSys clashCfg).Reach (usedSt n) := by
  induction n with
  | zero =>
    refine @Sys.exec_reach _ _ _ _ _ [.call 0 0, .copyMask 0 0] .init ?_
    have hspec : clashCfg.spec 0 = ⟨.blocking, [0, 1], fun _ => false, 0, 0⟩ := rfl
    have heager : clashCfg.eagerNelem 0 = 62 := rfl
    have hmask : usedMask 0 = initMask := by funext i; revert i; decide
    simp [Sys.exec, ctxSys, CtxSt.step, CtxSt.stepAt, CtxAct.at, CtxSt.init, hspec, heager,
      CtxSt.copyMask, CtxSt.finish, CtxSt.set, copyMaskBlocking, AllocSpec.ignores, copyEager,
      Gcn.reduce, usedSt, usedProc, hmask]
  | succ n ih => exact Sys.exec_reach (ih (by omega)) (usedSt_exec hn)

/-- The allocation 1 finds the ids exhausted, and gives up the mask after 2 has taken it. -/
def clashRun : List (CtxAct Nat) :=
  [.call 1 0, .copyMask 1 0, .allocate 1 0, .enlist 1 0, .copyMask 1 0, .allocate 1 0,
    .call 2 0, .copyMask 2 0, .allocate 2 0, .enlist 2 0, .free 0 4 32240, .copyMask 2 0,
    .release 1 0,
    .call 3 0, .copyMask 3 0, .allocate 3 0, .enlist 3 0, .copyMask 3 0,
    .allocate 2 0, .allocate 3 0]

/-- The allocations 2 and 3 take the same id, and the assertion in `allocate_context_bit` fails. -/
theorem context_ids_clash :
    ∃ s, (ctxSys clashCfg).Reach s ∧ (s.proc 0).fault = some .allocateContextBit := by
  have hrun : ((ctxSys clashCfg).exec (usedSt 64) clashRun).map (fun s => (s.proc 0).fault) =
      some (some .allocateContextBit) := by decide +kernel
  obtain ⟨s, hs, hfault⟩ := map_eq_some_iff.1 hrun
  exact ⟨s, Sys.exec_reach (usedSt_reach (Nat.le_refl _)) hs, hfault⟩

end PsMpi.ContextId
