import PsMpi.ContextId.Alloc

/-!
# The invariants of an allocation of context ids
-/

open PsMpi.Lib List Function

namespace PsMpi.ContextId

/-! ## The decision of a round -/

inductive Outcome
  | found (id : Nat)
  | exhausted
  | again

/-- `contextid.c:542,720-782`. -/
def LocalMask.outcome (m : LocalMask) : Outcome :=
  if locateContextBit m.words ≠ 0 then .found (locateContextBit m.words)
  else if m.allOwn then .exhausted
  else .again

def GcnPhase.Follows (ig : Bool) : GcnPhase → Outcome → Prop
  | .ready, o | .retry, o => o = .again
  | .exhausted, o | .released, o | .counting, o | .failed _, o => o = .exhausted
  | .done id, o => ∃ id', o = .found id' ∧ (ig = false → id = id')
  | .idle, _ | .reducing, _ => False

theorem GcnPhase.Follows.found {ph : GcnPhase} {id : Nat} (h : ph.Follows false (.found id)) :
    ph = .done id := by
  cases ph with
  | done id' =>
    obtain ⟨id'', heq, hid⟩ := h
    cases heq
    rw [hid rfl]
  | idle | reducing => exact h.elim
  | ready | retry | exhausted | released | counting | failed => cases h

namespace LocalMask

variable {m m' : LocalMask} {id k : Nat}

theorem outcome_found (h : m.outcome = .found id) :
    id = locateContextBit m.words ∧ id ≠ 0 ∧ ∃ k < 2048, id = ofPrefix k ∧ m.words.bit k = true := by
  unfold outcome at h
  split at h
  · next hne =>
    cases h
    exact ⟨rfl, hne, locateContextBit_spec hne⟩
  · split at h <;> cases h

theorem bit_band (m m' : Mask) (k : Nat) :
    Mask.bit (fun i => m i &&& m' i) k = (m.bit k && m'.bit k) := by
  unfold Mask.bit
  split
  · exact BitVec.getLsbD_and
  · rfl

theorem band_bit (h : (band m m').words.bit k = true) :
    m.words.bit k = true ∧ m'.words.bit k = true := by
  rw [band, bit_band, Bool.and_eq_true] at h
  exact h

end LocalMask

/-! ## One process -/

def Gcn.offer (g : Gcn) : LocalMask := g.contribs.getD (g.contribs.length - 1) .ones

def Gcn.HoldsMask (g : Gcn) : Prop := g.phase = .reducing ∧ g.ownMask = true

instance (g : Gcn) : Decidable g.HoldsMask :=
  inferInstanceAs (Decidable (g.phase = .reducing ∧ g.ownMask = true))

def GcnPhase.open : GcnPhase → Bool
  | .idle | .done _ | .failed _ => false
  | _ => true

def Gcn.Waits (g : Gcn) : Prop := g.firstIter = false ∧ g.phase.open = true

def Gcn.Owns (n : Nat) (g : Gcn) (k : Nat) : Prop :=
  if k / 32 < n then g.ownEagerMask = true else g.ownMask = true

structure MemberOk (n : Nat) (ig : Bool) (a : Nat) (x : CtxProc) (g : Gcn) : Prop where
  eager : g.ownEagerMask = true →
    g.phase = .reducing ∧ g.firstIter = true ∧ ig = false ∧ x.eagerInUse = true
  mask : g.HoldsMask → x.maskInUse = true
  own : g.ownMask = true → g.firstIter = false ∧ ig = false
  listed : g.Waits → ig = false → a ∈ x.nextGcn
  offer : g.phase = .reducing → ig = false → ∀ k, g.offer.words.bit k = true →
    x.contextMask.bit k = true ∧ g.Owns n k

/-- The ids that are in use are not free, and they are distinct. -/
structure LiveOk (x : CtxProc) : Prop where
  taken : ∀ c ∈ x.live, ∃ k < 2048, c.2 = ofPrefix k ∧ x.contextMask.bit k = false
  nodup : (x.live.map Prod.snd).Nodup

/-- The invariant of a process: its segments are owned by one allocation at a time. -/
structure ProcOk (n : Nat) (ig : Nat → Bool) (x : CtxProc) (g : Nat → Gcn) : Prop where
  alive : x.fault = none
  member : ∀ a, MemberOk n (ig a) a x (g a)
  eagerUniq : ∀ a b, (g a).ownEagerMask = true → (g b).ownEagerMask = true → a = b
  maskUniq : ∀ a b, (g a).HoldsMask → (g b).HoldsMask → a = b
  live : LiveOk x

section
variable {n a k : Nat} {ig : Nat → Bool} {x x' : CtxProc} {g : Nat → Gcn} {g' : Gcn} {m : Mask}

theorem ProcOk.owner_unique (h : ProcOk n ig x g) {b : Nat} (ha : (g a).phase = .reducing)
    (hb : (g b).phase = .reducing) (hak : (g a).Owns n k) (hbk : (g b).Owns n k) : a = b := by
  unfold Gcn.Owns at hak hbk
  split at hak
  · next hk =>
    rw [if_pos hk] at hbk
    exact h.eagerUniq a b hak hbk
  · next hk =>
    rw [if_neg hk] at hbk
    exact h.maskUniq a b ⟨ha, hak⟩ ⟨hb, hbk⟩

theorem ProcOk.update (h : ProcOk n ig x g) (halive : x'.fault = none)
    (heager : ∀ b, b ≠ a → (g b).ownEagerMask = true →
      x'.eagerInUse = true ∧ g'.ownEagerMask = false)
    (hmask : ∀ b, b ≠ a → (g b).HoldsMask → x'.maskInUse = true ∧ ¬ g'.HoldsMask)
    (hlist : ∀ b, b ≠ a → b ∈ x.nextGcn → b ∈ x'.nextGcn)
    (hbits : ∀ k, x.contextMask.bit k = true →
      x'.contextMask.bit k = true ∨ (g a).phase = .reducing ∧ (g a).Owns n k)
    (hself : MemberOk n (ig a) a x' g') (hlive : LiveOk x') :
    ProcOk n ig x' (Function.update g a g') := by
  refine ⟨halive, fun b => ?_, fun b c hb hc => ?_, fun b c hb hc => ?_, hlive⟩
  · by_cases hba : b = a
    · subst hba
      rw [update_self]
      exact hself
    · rw [update_of_ne hba]
      have hm := h.member b
      refine ⟨fun he => ?_, fun hh => (hmask b hba hh).1, hm.own, fun hw hi => ?_,
        fun hr hi k hk => ?_⟩
      · obtain ⟨h1, h2, h3, -⟩ := hm.eager he
        exact ⟨h1, h2, h3, (heager b hba he).1⟩
      · exact hlist b hba (hm.listed hw hi)
      · obtain ⟨hfree, howns⟩ := hm.offer hr hi k hk
        rcases hbits k hfree with hk' | ⟨hra, hak⟩
        · exact ⟨hk', howns⟩
        · exact absurd (h.owner_unique hr hra howns hak) hba
  · by_cases hba : b = a <;> by_cases hca : c = a
    · exact hba.trans hca.symm
    · subst hba
      rw [update_self] at hb
      rw [update_of_ne hca] at hc
      exact absurd hb (by simp [(heager c hca hc).2])
    · subst hca
      rw [update_self] at hc
      rw [update_of_ne hba] at hb
      exact absurd hc (by simp [(heager b hba hb).2])
    · rw [update_of_ne hba] at hb
      rw [update_of_ne hca] at hc
      exact h.eagerUniq b c hb hc
  · by_cases hba : b = a <;> by_cases hca : c = a
    · exact hba.trans hca.symm
    · subst hba
      rw [update_self] at hb
      rw [update_of_ne hca] at hc
      exact absurd hb (hmask c hca hc).2
    · subst hca
      rw [update_self] at hc
      rw [update_of_ne hba] at hb
      exact absurd hc (hmask b hba hb).2
    · rw [update_of_ne hba] at hb
      rw [update_of_ne hca] at hc
      exact h.maskUniq b c hb hc

theorem ProcOk.setPhase (h : ProcOk n ig x g) (hx : x' = x)
    (hphase : g'.phase ≠ .reducing) (heager : g'.ownEagerMask = false)
    (hown : g'.ownMask = true → g'.firstIter = false ∧ ig a = false)
    (hlisted : g'.Waits → ig a = false → a ∈ x.nextGcn) :
    ProcOk n ig x' (Function.update g a g') := by
  subst hx
  refine h.update h.alive (fun b _ hb => ?_) (fun b _ hb => ?_) (fun b _ hb => hb)
    (fun k hk => .inl hk) ?_ h.live
  · exact ⟨((h.member b).eager hb).2.2.2, heager⟩
  · exact ⟨(h.member b).mask hb, fun hh => hphase hh.1⟩
  · exact ⟨fun he => absurd he (by simp [heager]), fun hh => absurd hh.1 hphase, hown, hlisted,
      fun hr => absurd hr hphase⟩

theorem MemberOk.not_eager {ig : Bool} {g : Gcn} (h : MemberOk n ig a x g)
    (hr : g.phase ≠ .reducing) : g.ownEagerMask = false :=
  Bool.eq_false_iff.2 fun he => hr (h.eager he).1

/-! ## Offers -/

theorem Gcn.offer_reduce (g : Gcn) (m : LocalMask) : (g.reduce m).offer = m := by
  simp [Gcn.offer, Gcn.reduce]

theorem bit_zero (k : Nat) : Mask.bit 0 k = false := by
  unfold Mask.bit
  split
  · exact BitVec.getLsbD_zero
  · rfl

theorem bit_eagerWords (h : (eagerWords n m).bit k = true) : m.bit k = true ∧ k / 32 < n := by
  unfold Mask.bit eagerWords at h
  unfold Mask.bit
  split at h
  · next hk =>
    split at h
    · next hn => exact ⟨by rw [dif_pos hk]; exact h, hn⟩
    · simp at h
  · cases h

theorem bit_mainWords (h : (mainWords n m).bit k = true) : m.bit k = true ∧ ¬ k / 32 < n := by
  unfold Mask.bit mainWords at h
  unfold Mask.bit
  split at h
  · next hk =>
    split at h
    · simp at h
    · next hn => exact ⟨by rw [dif_pos hk]; exact h, hn⟩
  · cases h

theorem ProcOk.offerNone (h : ProcOk n ig x g) (hx : x' = x) {lm : LocalMask}
    (heager : g'.ownEagerMask = false) (hown : g'.ownMask = false)
    (hlisted : g'.firstIter = false → ig a = false → a ∈ x.nextGcn)
    (hzero : ig a = false → lm.words = 0) :
    ProcOk n ig x' (Function.update g a (g'.reduce lm)) := by
  subst hx
  have hnot : ¬ (g'.reduce lm).HoldsMask := fun hh => Bool.noConfusion (hown.symm.trans hh.2)
  refine h.update h.alive (fun b _ hb => ?_) (fun b _ hb => ?_) (fun b _ hb => hb)
    (fun k hk => .inl hk) ?_ h.live
  · exact ⟨((h.member b).eager hb).2.2.2, heager⟩
  · exact ⟨(h.member b).mask hb, hnot⟩
  · refine ⟨fun he => ?_, fun hh => absurd hh hnot, fun ho => ?_, fun hw hi => hlisted hw.1 hi,
      fun _ hi k hk => ?_⟩
    · exact Bool.noConfusion (heager.symm.trans he)
    · exact Bool.noConfusion (hown.symm.trans ho)
    · rw [Gcn.offer_reduce, hzero hi, bit_zero] at hk
      cases hk

theorem ProcOk.copyEager (h : ProcOk n ig x g) (hfirst : (g a).firstIter = true)
    (hig : ig a = false) (b : Bool) :
    ProcOk n ig (copyEager n x (g a)).1 (Function.update g a
      ((copyEager n x (g a)).2.1.reduce ⟨(copyEager n x (g a)).2.2, b⟩)) := by
  have hown : (g a).ownMask = false := Bool.eq_false_iff.2 fun ho =>
    Bool.noConfusion (hfirst.symm.trans ((h.member a).own ho).1)
  have hnl : ∀ {l : List Nat}, (g a).firstIter = false → ig a = false → a ∈ l := fun hf =>
    Bool.noConfusion (hfirst.symm.trans hf)
  unfold PsMpi.ContextId.copyEager
  split
  · next hc =>
    obtain ⟨hfree, hn⟩ := hc
    have hnot : ∀ c, (g c).ownEagerMask ≠ true := fun c hc =>
      Bool.noConfusion (hfree.symm.trans ((h.member c).eager hc).2.2.2)
    refine h.update h.alive (fun c _ hc => absurd hc (hnot c)) (fun c _ hc => ?_) (fun c _ hc => hc)
      (fun k hk => .inl hk) ?_ ⟨h.live.taken, h.live.nodup⟩
    · refine ⟨(h.member c).mask hc, fun hh => ?_⟩
      exact Bool.noConfusion (hown.symm.trans hh.2)
    · refine ⟨fun _ => ⟨rfl, hfirst, hig, rfl⟩, fun hh => ?_, fun ho => ?_, fun hw hi => hnl hw.1 hi,
        fun _ _ k hk => ?_⟩
      · exact Bool.noConfusion (hown.symm.trans hh.2)
      · exact Bool.noConfusion (hown.symm.trans ho)
      · rw [Gcn.offer_reduce] at hk
        obtain ⟨h1, h2⟩ := bit_eagerWords hk
        exact ⟨h1, by rw [Gcn.Owns, if_pos h2]; rfl⟩
  · exact h.offerNone rfl rfl hown hnl fun _ => rfl

theorem ProcOk.copyMain (h : ProcOk n ig x g) (hphase : (g a).phase = .ready)
    (hfirst : (g a).firstIter = false) (hig : ig a = false) (b : Bool) :
    ProcOk n ig (copyMain n a x (g a)).1 (Function.update g a
      ((copyMain n a x (g a)).2.1.reduce ⟨(copyMain n a x (g a)).2.2, b⟩)) := by
  have heager : (g a).ownEagerMask = false := (h.member a).not_eager (by rw [hphase]; nofun)
  have hlist : a ∈ x.nextGcn := (h.member a).listed ⟨hfirst, by rw [hphase]; rfl⟩ hig
  unfold PsMpi.ContextId.copyMain
  split
  · exact h.offerNone rfl heager rfl (fun _ _ => hlist) fun _ => rfl
  · next hc =>
    have hfree : x.maskInUse = false := Bool.eq_false_iff.2 fun hu => hc (.inl hu)
    have hnot : ∀ c, ¬ (g c).HoldsMask := fun c hc =>
      Bool.noConfusion (hfree.symm.trans ((h.member c).mask hc))
    refine h.update h.alive (fun c _ hc => ⟨((h.member c).eager hc).2.2.2, heager⟩)
      (fun c _ hc => absurd hc (hnot c)) (fun c _ hc => hc) (fun k hk => .inl hk) ?_
      ⟨h.live.taken, h.live.nodup⟩
    refine ⟨fun he => ?_, fun _ => rfl, fun _ => ⟨hfirst, hig⟩, fun _ _ => hlist,
      fun _ _ k hk => ?_⟩
    · exact Bool.noConfusion (heager.symm.trans he)
    · rw [Gcn.offer_reduce] at hk
      obtain ⟨h1, h2⟩ := bit_mainWords hk
      exact ⟨h1, by rw [Gcn.Owns, if_neg h2]; rfl⟩

/-! ## Decisions -/

def CtxProc.giveUp (x : CtxProc) (g : Gcn) : CtxProc :=
  { x with
    eagerInUse := x.eagerInUse && !g.ownEagerMask
    maskInUse := x.maskInUse && !g.ownMask }

theorem ProcOk.leave (h : ProcOk n ig x g) (hred : (g a).phase = .reducing)
    (halive : x'.fault = none) (hx : x'.eagerInUse = (x.giveUp (g a)).eagerInUse)
    (hx' : x'.maskInUse = (x.giveUp (g a)).maskInUse)
    (hlist : ∀ b, b ≠ a → b ∈ x.nextGcn → b ∈ x'.nextGcn)
    (hbits : ∀ k, x.contextMask.bit k = true → x'.contextMask.bit k = true ∨ (g a).Owns n k)
    (hphase : g'.phase ≠ .reducing) (heager : g'.ownEagerMask = false)
    (hown : g'.ownMask = true → g'.firstIter = false ∧ ig a = false)
    (hlisted : g'.Waits → ig a = false → a ∈ x'.nextGcn) (hlive : LiveOk x') :
    ProcOk n ig x' (Function.update g a g') := by
  refine h.update halive (fun b hb he => ⟨?_, heager⟩) (fun b hb hh => ⟨?_, fun hh => hphase hh.1⟩)
    hlist (fun k hk => (hbits k hk).imp_right fun ho => ⟨hred, ho⟩) ?_ hlive
  · have hno : (g a).ownEagerMask = false :=
      Bool.eq_false_iff.2 fun ha => hb (h.eagerUniq b a he ha)
    rw [hx, CtxProc.giveUp, hno, ((h.member b).eager he).2.2.2]
    rfl
  · have hno : (g a).ownMask = false :=
      Bool.eq_false_iff.2 fun ha => hb (h.maskUniq b a hh ⟨hred, ha⟩)
    rw [hx', CtxProc.giveUp, hno, (h.member b).mask hh]
    rfl
  · exact ⟨fun he => Bool.noConfusion (heager.symm.trans he), fun hh => absurd hh.1 hphase, hown,
      hlisted, fun hr => absurd hr hphase⟩

theorem takeContextId_none {ig : Bool} {g : Gcn} (h : MemberOk n ig a x g)
    (hm : locateContextBit m = 0) :
    takeContextId a ig m x g = .ok (0, x.giveUp g, { g with ownEagerMask := false }) := by
  have hfind : findAndAllocateContextId x.contextMask m = .ok (0, x.contextMask) := by
    rw [findAndAllocateContextId, if_neg (not_not.2 hm)]
  obtain ⟨mask, eagerInUse, maskInUse, nextGcn, live, fault⟩ := x
  obtain ⟨phase, firstIter, ownMask, ownEagerMask, contribs, minfree⟩ := g
  have hown := h.own
  have heager := h.eager
  simp only at hfind hown heager
  cases ig <;> cases ownEagerMask <;> cases ownMask <;>
    simp_all [takeContextId, CtxProc.giveUp]

theorem takeContextId_found {g : Gcn} (h : MemberOk n false a x g) (hred : g.phase = .reducing)
    (hk : k < 2048) (hne : ofPrefix k ≠ 0) (hm : locateContextBit m = ofPrefix k)
    (hfree : x.contextMask.bit k = true) (howns : g.Owns n k) :
    ∃ m', (∀ j, m'.bit j = if j = k then false else x.contextMask.bit j) ∧
      takeContextId a false m x g = .ok (ofPrefix k,
        { x.giveUp g with
          contextMask := m'
          nextGcn := if g.ownMask then x.nextGcn.erase a else x.nextGcn },
        { g with ownEagerMask := false }) := by
  obtain ⟨m', hm', hbit⟩ := allocateContextBit_ofPrefix hk hfree
  have hfind : findAndAllocateContextId x.contextMask m = .ok (ofPrefix k, m') := by
    rw [findAndAllocateContextId, hm, if_pos hne, hm']
  refine ⟨m', hbit, ?_⟩
  have hone : g.ownEagerMask = true ∨ g.ownMask = true := by
    unfold Gcn.Owns at howns
    split at howns
    · exact .inl howns
    · exact .inr howns
  have hlist : g.ownMask = true → a ∈ x.nextGcn := fun ho =>
    h.listed ⟨(h.own ho).1, by rw [hred]; rfl⟩ rfl
  have hexcl : g.ownEagerMask = true → g.ownMask = false := fun he =>
    Bool.eq_false_iff.2 fun ho => Bool.noConfusion ((h.eager he).2.1.symm.trans (h.own ho).1)
  have hpos : 0 < ofPrefix k := Nat.pos_of_ne_zero hne
  unfold takeContextId
  rw [if_neg Bool.false_ne_true]
  by_cases he : g.ownEagerMask = true
  · rw [if_pos he, hfind, hexcl he]
    simp [CtxProc.giveUp, he, hexcl he]
  · have ho := hone.resolve_left he
    rw [if_neg he, if_pos ho, hfind]
    simp only [if_pos hpos, removeGcn, if_pos (hlist ho), ho, if_true]
    obtain ⟨phase, firstIter, ownMask, ownEagerMask, contribs, minfree⟩ := g
    rw [Bool.not_eq_true] at he
    simp only at he ho
    simp [CtxProc.giveUp, he, ho]

theorem ProcOk.drop (h : ProcOk n ig x g) (hph : (g a).phase ≠ .reducing)
    (hcalm : (g a).ownMask = true → ∀ b ∈ x.nextGcn, ¬ (g b).HoldsMask) {l : List Nat}
    (hl : ∀ b, b ≠ a → b ∈ x.nextGcn → b ∈ l) (hphase : g'.phase ≠ .reducing)
    (heager : g'.ownEagerMask = (g a).ownEagerMask) (hown : g'.ownMask = (g a).ownMask)
    (hfirst : g'.firstIter = (g a).firstIter) (hlisted : g'.Waits → ig a = false → a ∈ l) :
    ProcOk n ig { dropMask x (g a) with nextGcn := l } (Function.update g a g') := by
  have he : g'.ownEagerMask = false := heager.trans ((h.member a).not_eager hph)
  refine h.update h.alive (fun b _ hb => ⟨((h.member b).eager hb).2.2.2, he⟩)
    (fun b hb hh => ⟨?_, fun hh => hphase hh.1⟩) hl (fun k hk => .inl hk) ?_
    ⟨h.live.taken, h.live.nodup⟩
  · show (if (g a).ownMask then false else x.maskInUse) = true
    have hmem := h.member b
    have hno : ¬ (g a).ownMask = true := fun ho =>
      hcalm ho b (hmem.listed ⟨(hmem.own hh.2).1, by rw [hh.1]; rfl⟩ (hmem.own hh.2).2) hh
    rw [if_neg hno]
    exact hmem.mask hh
  · refine ⟨fun he' => Bool.noConfusion (he.symm.trans he'), fun hh => absurd hh.1 hphase,
      fun ho => ?_, hlisted, fun hr => absurd hr hphase⟩
    rw [hfirst]
    exact (h.member a).own (hown ▸ ho)

theorem mem_addGcnToList {P : Type*} (spec : Nat → AllocSpec P) (l : List Nat) {b : Nat} :
    b ∈ addGcnToList spec a l ↔ b = a ∨ b ∈ l := by
  induction l with
  | nil => simp [addGcnToList]
  | cons c l ih =>
    unfold addGcnToList
    split
    · simp
    · simp only [mem_cons, ih]
      exact or_left_comm

theorem LiveOk.of_eq (h : LiveOk x) (hm : x'.contextMask = x.contextMask) (hl : x'.live = x.live) :
    LiveOk x' := by
  refine ⟨fun c hc => ?_, by rw [hl]; exact h.nodup⟩
  rw [hl] at hc
  rw [hm]
  exact h.taken c hc

theorem LiveOk.take (h : LiveOk x) (hk : k < 2048) (hfree : x.contextMask.bit k = true)
    (hm : ∀ j, x'.contextMask.bit j = if j = k then false else x.contextMask.bit j)
    (hl : x'.live = (a, ofPrefix k) :: x.live) : LiveOk x' := by
  have hnew : ∀ c ∈ x.live, c.2 ≠ ofPrefix k := by
    intro c hc heq
    obtain ⟨j, -, hj, hbit⟩ := h.taken c hc
    obtain rfl : j = k := ofPrefix_inj (hj.symm.trans heq)
    exact Bool.noConfusion (hfree.symm.trans hbit)
  constructor
  · intro c hc
    rw [hl] at hc
    rcases mem_cons.1 hc with rfl | hc
    · exact ⟨k, hk, rfl, by rw [hm, if_pos rfl]⟩
    · obtain ⟨j, hj, heq, hbit⟩ := h.taken c hc
      refine ⟨j, hj, heq, ?_⟩
      rw [hm, hbit, ite_self]
  · rw [hl, map_cons, nodup_cons]
    refine ⟨fun hmem => ?_, h.nodup⟩
    obtain ⟨c, hc, heq⟩ := mem_map.1 hmem
    exact hnew c hc heq

theorem LiveOk.free (h : LiveOk x) {id : Nat} (hmem : (a, id) ∈ x.live) :
    ∃ m', freeContextid x.contextMask id = some m' ∧
      (∀ j, x.contextMask.bit j = true → m'.bit j = true) ∧
      LiveOk { x with contextMask := m', live := x.live.erase (a, id) } := by
  obtain ⟨k, hk, rfl, hbit⟩ := h.taken _ hmem
  obtain ⟨m', hm', hset⟩ := freeContextid_ofPrefix hk hbit
  refine ⟨m', hm', fun j hj => ?_, fun c hc => ?_, ?_⟩
  · rw [hset, hj, ite_self]
  · have hnd : x.live.Nodup := h.nodup.of_map _
    obtain ⟨hne, hcl⟩ := (List.Nodup.mem_erase_iff hnd).1 hc
    obtain ⟨j, hj, heq, hb⟩ := h.taken c hcl
    refine ⟨j, hj, heq, ?_⟩
    have hjk : j ≠ k := by
      rintro rfl
      exact hne (inj_on_of_nodup_map h.nodup hcl hmem heq)
    show m'.bit j = false
    rw [hset, if_neg hjk]
    exact hb
  · exact h.nodup.sublist ((erase_sublist).map _)

end

section
variable {P : Type*} {cfg : CtxCfg P} {p : P} {n a : Nat} {x : CtxProc} {g : Nat → Gcn}
  {lm : LocalMask}

theorem ProcOk.allocateCid_none (h : ProcOk n (fun a => (cfg.spec a).ignores p) x g)
    (hred : (g a).phase = .reducing) (hzero : locateContextBit lm.words = 0) :
    ∃ x' g', CtxSt.allocateCid cfg a p lm x (g a) = .ok (x', g') ∧
      ProcOk n (fun a => (cfg.spec a).ignores p) x' (Function.update g a g') ∧
      g'.contribs = (g a).contribs ∧ g'.phase.Follows ((cfg.spec a).ignores p) lm.outcome := by
  have hmem := h.member a
  have htake := takeContextId_none hmem hzero
  have hout : lm.outcome = if lm.allOwn then .exhausted else .again := by
    rw [LocalMask.outcome, if_neg (not_not.2 hzero)]
  have hwait : (g a).firstIter = false → (cfg.spec a).ignores p = false → a ∈ x.nextGcn :=
    fun hf => hmem.listed ⟨hf, by rw [hred]; rfl⟩
  have hlive : LiveOk (x.giveUp (g a)) := h.live.of_eq rfl rfl
  -- the member keeps its place in the list
  have hstay : ∀ ph : GcnPhase, ph ≠ .reducing →
      ProcOk n (fun a => (cfg.spec a).ignores p) (x.giveUp (g a))
        (Function.update g a { g a with ownEagerMask := false, phase := ph }) := by
    intro ph hph
    exact h.leave hred h.alive rfl rfl (fun b _ hb => hb) (fun k hk => .inl hk) hph rfl hmem.own
      (fun hw hi => hwait hw.1 hi) hlive
  unfold CtxSt.allocateCid
  simp only [htake]
  cases hkind : (cfg.spec a).kind with
  | blocking =>
    simp only [concludeBlocking, if_true]
    cases hall : lm.allOwn with
    | true =>
      rw [hall, if_pos rfl] at hout
      exact ⟨_, _, rfl, hstay .exhausted nofun, rfl, hout⟩
    | false =>
      rw [hall, if_neg Bool.false_ne_true] at hout
      exact ⟨_, _, rfl, hstay .retry nofun, rfl, hout⟩
  | nonblocking =>
    have hig : (cfg.spec a).ignores p = false := by rw [AllocSpec.ignores, hkind]
    simp only [concludeNonblocking, if_true]
    cases hall : lm.allOwn with
    | true =>
      rw [hall, if_pos rfl] at hout
      simp only [if_true]
      split
      · exact ⟨_, _, rfl, hstay (.failed _) nofun, rfl, hout⟩
      · next hfirst =>
        have hl : a ∈ (x.giveUp (g a)).nextGcn := hwait (Bool.eq_false_iff.2 hfirst) hig
        simp only [removeGcn, if_pos hl]
        refine ⟨_, _, rfl, h.leave hred h.alive rfl rfl (fun b hb hm => ?_) (fun k hk => .inl hk)
          nofun rfl hmem.own (fun hw => Bool.noConfusion hw.2) (h.live.of_eq rfl rfl), rfl, hout⟩
        exact (mem_erase_of_ne hb).2 hm
    | false =>
      rw [hall, if_neg Bool.false_ne_true] at hout
      simp only [Bool.false_eq_true, if_false]
      split
      · next hfirst =>
        have hown : (g a).ownMask ≠ true := fun ho =>
          Bool.noConfusion (hfirst.symm.trans (hmem.own ho).1)
        refine ⟨_, _, rfl, h.leave hred h.alive rfl rfl (fun b hb hm => ?_) (fun k hk => .inl hk)
          nofun rfl (fun ho => absurd ho hown) (fun _ _ => ?_) (h.live.of_eq rfl rfl), rfl, hout⟩
        · exact (mem_addGcnToList _ _).2 (.inr hm)
        · exact (mem_addGcnToList _ _).2 (.inl rfl)
      · exact ⟨_, _, rfl, hstay .ready nofun, rfl, hout⟩

theorem ProcOk.allocateCid_found (h : ProcOk n (fun a => (cfg.spec a).ignores p) x g)
    (hred : (g a).phase = .reducing) {id : Nat} (hid : lm.outcome = .found id)
    (hoffer : (cfg.spec a).ignores p = false →
      ∀ k, lm.words.bit k = true → (g a).offer.words.bit k = true) :
    ∃ x' g', CtxSt.allocateCid cfg a p lm x (g a) = .ok (x', g') ∧
      ProcOk n (fun a => (cfg.spec a).ignores p) x' (Function.update g a g') ∧
      g'.contribs = (g a).contribs ∧ g'.phase.Follows ((cfg.spec a).ignores p) lm.outcome := by
  have hmem := h.member a
  obtain ⟨heq, hne, k, hk, hidk, hbit⟩ := LocalMask.outcome_found hid
  unfold CtxSt.allocateCid
  cases hig : (cfg.spec a).ignores p with
  | true =>
    have hkind : (cfg.spec a).kind = .blocking := by
      cases hkind : (cfg.spec a).kind with
      | blocking => rfl
      | nonblocking => simp [AllocSpec.ignores, hkind] at hig
    have hown : (g a).ownMask ≠ true := fun ho => Bool.noConfusion (hig.symm.trans (hmem.own ho).2)
    have heager : (g a).ownEagerMask = false := Bool.eq_false_iff.2 fun he =>
      Bool.noConfusion (hig.symm.trans (hmem.eager he).2.2.1)
    have htake : takeContextId a true lm.words x (g a) = .ok (id, x, g a) := by
      rw [takeContextId, if_pos rfl, heq]
    simp only [hig, htake, hkind, concludeBlocking, if_neg hne, ↓reduceIte]
    refine ⟨_, _, rfl, h.leave hred h.alive ?_ ?_ (fun b _ hb => hb) (fun k hk => .inl hk) nofun
      heager (fun ho => absurd ho hown) (fun hw => Bool.noConfusion hw.2) h.live, rfl, id, hid,
      nofun⟩
    · simp [CtxProc.giveUp, heager]
    · simp [CtxProc.giveUp, hown]
  | false =>
    obtain ⟨hfree, howns⟩ := hmem.offer hred hig k (hoffer hig k hbit)
    have hm : MemberOk n false a x (g a) := hig ▸ hmem
    obtain ⟨m', hm', htake⟩ := takeContextId_found hm hred hk (hidk ▸ hne)
      (heq.symm.trans hidk) hfree howns
    have hbits : ∀ j, x.contextMask.bit j = true → m'.bit j = true ∨ (g a).Owns n j := by
      intro j hj
      by_cases hjk : j = k
      · exact .inr (hjk ▸ howns)
      · exact .inl (by rw [hm', if_neg hjk]; exact hj)
    have hlist : ∀ b, b ≠ a → b ∈ x.nextGcn →
        b ∈ (if (g a).ownMask = true then x.nextGcn.erase a else x.nextGcn) := by
      intro b hb hm
      split
      · exact (mem_erase_of_ne hb).2 hm
      · exact hm
    have hlive : LiveOk { x.giveUp (g a) with
        contextMask := m'
        nextGcn := if (g a).ownMask then x.nextGcn.erase a else x.nextGcn
        live := (a, ofPrefix k) :: x.live } := h.live.take hk hfree hm' rfl
    have hfollows : GcnPhase.Follows false (.done (ofPrefix k)) lm.outcome :=
      ⟨id, hid, fun _ => hidk.symm⟩
    simp only [hig, htake]
    cases hkind : (cfg.spec a).kind with
    | blocking =>
      simp only [concludeBlocking, ← hidk, if_neg hne, Bool.false_eq_true, ↓reduceIte]
      rw [← hidk] at hlive hfollows
      exact ⟨_, _, rfl, h.leave hred h.alive rfl rfl hlist hbits nofun rfl
        (fun ho => ⟨rfl, hig⟩) (fun hw => Bool.noConfusion hw.2) hlive, rfl, hfollows⟩
    | nonblocking =>
      simp only [concludeNonblocking, ← hidk, if_neg hne]
      rw [← hidk] at hlive hfollows
      exact ⟨_, _, rfl, h.leave hred h.alive rfl rfl hlist hbits nofun rfl
        hmem.own (fun hw => Bool.noConfusion hw.2) hlive, rfl, hfollows⟩

end

/-! ## The rounds of an allocation -/

section
variable {P : Type*} {sp : AllocSpec P} {g : P → Gcn} {g' : Gcn} {p q : P} {r : Nat}

def resultOf (sp : AllocSpec P) (g : P → Gcn) (r : Nat) : LocalMask :=
  roundResult .band .ones sp.members (fun q => (g q).contribs) r

def ReadyOf (sp : AllocSpec P) (g : P → Gcn) (r : Nat) : Prop :=
  RoundReady sp.members (fun q => (g q).contribs) r

/-- The invariant of an allocation: who goes into a further round has seen a round without a
decision, and who has left the rounds has done so by the outcome of the last one. -/
structure RoundsOk (sp : AllocSpec P) (g : P → Gcn) : Prop where
  member : ∀ q, (g q).phase ≠ .idle → q ∈ sp.members
  begun : ∀ q, (g q).contribs = [] →
    ((g q).phase = .idle ∨ (g q).phase = .ready) ∧ (g q).firstIter = true
  past : ∀ q r, r + 1 < (g q).contribs.length →
    ReadyOf sp g r ∧ (resultOf sp g r).outcome = .again
  last : ∀ q, (g q).contribs ≠ [] → (g q).phase ≠ .reducing →
    ReadyOf sp g ((g q).contribs.length - 1) ∧
      (g q).phase.Follows (sp.ignores q) (resultOf sp g ((g q).contribs.length - 1)).outcome

theorem RoundsOk.contribs_ne (h : RoundsOk sp g) (h1 : (g p).phase ≠ .idle)
    (h2 : (g p).phase ≠ .ready) : (g p).contribs ≠ [] :=
  fun hc => (h.begun p hc).1.elim h1 h2

section
variable [DecidableEq P]

theorem RoundsOk.update (h : RoundsOk sp g) (hp : p ∈ sp.members)
    (hpre : (g p).contribs <+: g'.contribs)
    (hbegun : g'.contribs = [] → g'.phase = .ready ∧ g'.firstIter = true)
    (hpast : ∀ r, r + 1 < g'.contribs.length →
      ReadyOf sp g r ∧ (resultOf sp g r).outcome = .again)
    (hlast : g'.contribs ≠ [] → g'.phase ≠ .reducing →
      ReadyOf sp g (g'.contribs.length - 1) ∧
        g'.phase.Follows (sp.ignores p) (resultOf sp g (g'.contribs.length - 1)).outcome) :
    RoundsOk sp (Function.update g p g') := by
  have hall : ∀ q, (g q).contribs <+: (Function.update g p g' q).contribs := by
    intro q
    by_cases hq : q = p
    · subst hq
      rw [update_self]
      exact hpre
    · rw [update_of_ne hq]
  have hready : ∀ {r}, ReadyOf sp g r → ReadyOf sp (Function.update g p g') r :=
    fun hr => RoundReady.of_prefix hr fun q _ => hall q
  have hres : ∀ {r}, ReadyOf sp g r →
      resultOf sp (Function.update g p g') r = resultOf sp g r :=
    fun hr => roundResult_of_prefix hr fun q _ => hall q
  refine ⟨fun q hq => ?_, fun q hq => ?_, fun q r hr => ?_, fun q hq hph => ?_⟩ <;>
    by_cases hqp : q = p
  · exact hqp ▸ hp
  · rw [update_of_ne hqp] at hq
    exact h.member q hq
  · subst hqp
    rw [update_self] at hq ⊢
    exact ⟨.inr (hbegun hq).1, (hbegun hq).2⟩
  · rw [update_of_ne hqp] at hq ⊢
    exact h.begun q hq
  · subst hqp
    rw [update_self] at hr
    obtain ⟨h1, h2⟩ := hpast r hr
    exact ⟨hready h1, by rw [hres h1]; exact h2⟩
  · rw [update_of_ne hqp] at hr
    obtain ⟨h1, h2⟩ := h.past q r hr
    exact ⟨hready h1, by rw [hres h1]; exact h2⟩
  · subst hqp
    rw [update_self] at hq hph ⊢
    obtain ⟨h1, h2⟩ := hlast hq hph
    exact ⟨hready h1, by rw [hres h1]; exact h2⟩
  · rw [update_of_ne hqp] at hq hph ⊢
    obtain ⟨h1, h2⟩ := h.last q hq hph
    exact ⟨hready h1, by rw [hres h1]; exact h2⟩

theorem RoundsOk.reduce (h : RoundsOk sp g) (hph : (g p).phase = .ready) (m : LocalMask)
    (hc : g'.contribs = (g p).contribs) : RoundsOk sp (Function.update g p (g'.reduce m)) := by
  have hmem : p ∈ sp.members := h.member p (by rw [hph]; nofun)
  have hcon : (g'.reduce m).contribs = (g p).contribs ++ [m] := congrArg (· ++ [m]) hc
  refine h.update hmem (by rw [hcon]; exact prefix_append _ _) (fun hn => ?_) (fun r hr => ?_)
    fun _ hr => absurd rfl hr
  · rw [hcon] at hn
    simp at hn
  · rw [hcon, length_append, length_singleton] at hr
    by_cases hlt : r + 1 < (g p).contribs.length
    · exact h.past p r hlt
    · have hr' : r = (g p).contribs.length - 1 := by omega
      obtain ⟨h1, h2⟩ := h.last p (ne_nil_of_length_pos (by omega)) (by rw [hph]; nofun)
      rw [hph] at h2
      rw [hr']
      exact ⟨h1, h2⟩

theorem RoundsOk.move (h : RoundsOk sp g) (hp : p ∈ sp.members)
    (hc : g'.contribs = (g p).contribs) (hne : (g p).phase ≠ .reducing)
    (hbegun : (g p).contribs = [] → g'.phase = .ready ∧ g'.firstIter = true)
    (hfol : ∀ o, (g p).phase.Follows (sp.ignores p) o → g'.phase.Follows (sp.ignores p) o) :
    RoundsOk sp (Function.update g p g') := by
  refine h.update hp (by rw [hc]) (fun hn => hbegun (hc ▸ hn)) (fun r hr => ?_) fun hn _ => ?_
  · rw [hc] at hr
    exact h.past p r hr
  · rw [hc] at hn ⊢
    obtain ⟨h1, h2⟩ := h.last p hn hne
    exact ⟨h1, hfol _ h2⟩

theorem RoundsOk.decide (h : RoundsOk sp g) (hph : (g p).phase = .reducing)
    (hc : g'.contribs = (g p).contribs) (hready : ReadyOf sp g ((g p).contribs.length - 1))
    (hfol : g'.phase.Follows (sp.ignores p)
      (resultOf sp g ((g p).contribs.length - 1)).outcome) :
    RoundsOk sp (Function.update g p g') := by
  have hmem : p ∈ sp.members := h.member p (by rw [hph]; nofun)
  refine h.update hmem (by rw [hc]) (fun hn => ?_) (fun r hr => ?_) fun _ _ => ?_
  · exact absurd (hc ▸ hn) (h.contribs_ne (by rw [hph]; nofun) (by rw [hph]; nofun))
  · rw [hc] at hr
    exact h.past p r hr
  · rw [hc]
    exact ⟨hready, hfol⟩

end

theorem RoundsOk.final (h : RoundsOk sp g) (hready : ReadyOf sp g r)
    (hout : (resultOf sp g r).outcome ≠ .again) (hq : q ∈ sp.members) :
    (g q).contribs.length - 1 = r ∧ ((g q).phase = .reducing ∨
      (g q).phase.Follows (sp.ignores q) (resultOf sp g r).outcome) := by
  have hlt : r < (g q).contribs.length := hready q hq
  have hlen : ¬ r + 1 < (g q).contribs.length := fun hc => hout (h.past q r hc).2
  have heq : (g q).contribs.length - 1 = r := by omega
  refine ⟨heq, ?_⟩
  by_cases hph : (g q).phase = .reducing
  · exact .inl hph
  · have hl := (h.last q (ne_nil_of_length_pos (by omega)) hph).2
    rw [heq] at hl
    exact .inr hl

theorem RoundsOk.of_done (h : RoundsOk sp g) {id : Nat} (hdone : (g p).phase = .done id)
    (hig : sp.ignores p = false) :
    ∃ r, ReadyOf sp g r ∧ (resultOf sp g r).outcome = .found id := by
  have hne : (g p).contribs ≠ [] := h.contribs_ne (by rw [hdone]; nofun) (by rw [hdone]; nofun)
  obtain ⟨h1, h2⟩ := h.last p hne (by rw [hdone]; nofun)
  rw [hdone] at h2
  obtain ⟨id', h3, h4⟩ := h2
  exact ⟨_, h1, by rw [h3, h4 hig]⟩

end

end PsMpi.ContextId
