import PsMpi.ContextId.AllocOk

/-!
# A blocking allocation that fails

See `MPIR_Get_contextid_sparse_group` (`mpich2/src/mpi/comm/contextid.c:352`).
-/

open List PsMpi.Lib

namespace PsMpi.ContextId

inductive CallAct
  | copyMask
  | allocate (m : LocalMask)
  | enlist
  | release
  | count
  | fail (minfree : Nat)
  | reduceFail
  | others (x : CtxProc)

structure CallSt where
  x : CtxProc
  g : Gcn
  eagerHeld : Bool
  maskHeld : Bool
  changed : Bool

namespace CallSt

def move (s : CallSt) (r : CtxProc × Gcn) : CallSt where
  x := r.1
  g := r.2
  eagerHeld := r.1.eagerInUse && (s.eagerHeld || !s.x.eagerInUse)
  maskHeld := r.1.maskInUse && (s.maskHeld || !s.x.maskInUse)
  changed := s.changed || decide (r.1.contextMask ≠ s.x.contextMask)

variable {P : Type*}

def step (cfg : CtxCfg P) (a : Nat) (p : P) (s : CallSt) : CallAct → Option CallSt
  | .copyMask =>
    if s.g.phase = .ready then
      (copyMaskBlocking (cfg.eagerNelem p) a ((cfg.spec a).ignoreId p) s.x s.g).toOption.map s.move
    else none
  | .allocate m =>
    if s.g.phase = .reducing then
      (takeContextId a ((cfg.spec a).ignoreId p) m.words s.x s.g).toOption.map fun r =>
        s.move (concludeBlocking a ((cfg.spec a).ignoreId p) m.allOwn r.1 r.2.1 r.2.2)
    else none
  | .enlist =>
    if s.g.phase = .retry then
      some (s.move (
        if s.g.firstIter = true ∧ (cfg.spec a).ignoreId p = false then
          { s.x with nextGcn := addGcnToList cfg.spec a s.x.nextGcn }
        else s.x, { s.g with phase := .ready, firstIter := false }))
    else none
  | .release =>
    if s.g.phase = .exhausted then
      some (s.move (dropMask s.x s.g, { s.g with phase := .released }))
    else none
  | .count =>
    if s.g.phase = .released then
      some (s.move (s.x, countFree ((cfg.spec a).ignoreId p) s.x s.g))
    else none
  | .fail minfree =>
    if s.g.phase = .counting then
      (failAlloc a minfree ((cfg.spec a).ignoreId p) s.x s.g).toOption.map s.move
    else none
  | .reduceFail =>
    if s.g.phase = .reducing then
      (failAlloc a 0 ((cfg.spec a).ignoreId p) s.x s.g).toOption.map s.move
    else none
  | .others x =>
    if x.nextGcn.count a = s.x.nextGcn.count a ∧ (s.eagerHeld = true → x.eagerInUse = true) then
      some { s with x := x }
    else none

def Clean (a : Nat) (s : CallSt) : Prop :=
  s.eagerHeld = false ∧ s.maskHeld = false ∧ a ∉ s.x.nextGcn ∧ s.changed = false

end CallSt

def callSys {P : Type*} (cfg : CtxCfg P) (a : Nat) (p : P) (x : CtxProc) : Sys CallSt CallAct :=
  ⟨⟨x, ⟨.ready, true, false, false, [], none⟩, false, false, false⟩, CallSt.step cfg a p⟩

section

variable {P : Type*} {cfg : CtxCfg P} {a : Nat} {p : P} {x : CtxProc} {s s' : CallSt}
  {act : CallAct} {ig : Bool}

def Gcn.entries (ig : Bool) (g : Gcn) : Nat := if g.firstIter = false ∧ ig = false then 1 else 0

structure CallSt.Ok (a : Nat) (ig : Bool) (s : CallSt) : Prop where
  eager : s.eagerHeld = s.g.ownEagerMask
  own : s.g.ownEagerMask = true → s.x.eagerInUse = true ∧ s.g.firstIter = true ∧ ig = false
  reducing : s.g.ownEagerMask = true → s.g.phase = .reducing ∨ ∃ e, s.g.phase = .failed e
  mask : s.maskHeld = true → s.g.phase = .reducing ∧ s.g.ownMask = true
  main : s.g.ownMask = true → s.g.firstIter = false ∧ ig = false
  changed : s.changed = true → ∃ id, s.g.phase = .done id
  listed : s.g.phase.open = true → s.x.nextGcn.count a = s.g.entries ig
  unlisted : ∀ e, s.g.phase = .failed e → s.x.nextGcn.count a = 0

theorem count_addGcnToList (spec : Nat → AllocSpec P) (l : List Nat) :
    (addGcnToList spec a l).count a = l.count a + 1 := by
  induction l with
  | nil => simp [addGcnToList]
  | cons b l ih =>
    unfold addGcnToList
    split
    · exact count_cons_self
    · rw [count_cons, count_cons, ih]
      omega

theorem findAndAllocateContextId_zero {mask m m' : Mask}
    (h : findAndAllocateContextId mask m = .ok (0, m')) : m' = mask := by
  unfold findAndAllocateContextId at h
  split at h
  · rename_i hne
    split at h
    · exact absurd (Prod.mk.inj (Except.ok.inj h)).1 hne
    · cases h
  · cases h
    rfl

theorem map_toOption {α β : Type*} {e : Except CtxFault α} {f : α → β} {b : β}
    (h : e.toOption.map f = some b) : ∃ r, e = .ok r ∧ f r = b := by
  cases e with
  | error f => cases h
  | ok r => exact ⟨r, rfl, Option.some.inj h⟩

theorem CallSt.Ok.unchanged (h : s.Ok a ig) (hp : s.g.phase.open = true) : s.changed = false := by
  refine Bool.eq_false_iff.2 fun hc => ?_
  obtain ⟨id, h⟩ := h.changed hc
  rw [h] at hp
  cases hp

theorem CallSt.Ok.between {phase : GcnPhase} (h : s.Ok a ig) (heq : s.g.phase = phase)
    (hp : phase.open = true) (hr : phase ≠ .reducing) :
    s.g.ownEagerMask = false ∧ s.eagerHeld = false ∧ s.maskHeld = false ∧ s.changed = false ∧
      s.x.nextGcn.count a = s.g.entries ig ∧
        (s.g.ownMask = true → s.g.firstIter = false ∧ ig = false) := by
  subst heq
  have hown : s.g.ownEagerMask = false := Bool.eq_false_iff.2 fun ho => by
    rcases h.reducing ho with h | ⟨e, h⟩
    · exact hr h
    · rw [h] at hp
      cases hp
  exact ⟨hown, h.eager.trans hown, Bool.eq_false_iff.2 fun hm => hr (h.mask hm).1, h.unchanged hp,
    h.listed hp, h.main⟩

/-- A step that leaves the call without the eager segment. -/
theorem CallSt.Ok.moved {r : CtxProc × Gcn} (hown : r.2.ownEagerMask = false)
    (heager : (s.move r).eagerHeld = false)
    (hmask : (s.move r).maskHeld = true → r.2.phase = .reducing ∧ r.2.ownMask = true)
    (hmain : r.2.ownMask = true → r.2.firstIter = false ∧ ig = false)
    (hchanged : (s.move r).changed = true → ∃ id, r.2.phase = .done id)
    (hlisted : r.2.phase.open = true → r.1.nextGcn.count a = r.2.entries ig)
    (hunlisted : ∀ e, r.2.phase = .failed e → r.1.nextGcn.count a = 0) : (s.move r).Ok a ig :=
  ⟨heager.trans hown.symm, fun ho => Bool.noConfusion (hown.symm.trans ho),
    fun ho => Bool.noConfusion (hown.symm.trans ho), hmask, hmain, hchanged, hlisted, hunlisted⟩

theorem CallSt.Ok.dropped {r : CtxProc × Gcn} (hown : r.2.ownEagerMask = false)
    (heager : (s.move r).eagerHeld = false) (hmask : (s.move r).maskHeld = false)
    (hmain : r.2.ownMask = true → r.2.firstIter = false ∧ ig = false)
    (hchanged : (s.move r).changed = false)
    (hlisted : r.2.phase.open = true → r.1.nextGcn.count a = r.2.entries ig)
    (hunlisted : ∀ e, r.2.phase = .failed e → r.1.nextGcn.count a = 0) : (s.move r).Ok a ig :=
  .moved hown heager (fun hm => Bool.noConfusion (hmask.symm.trans hm)) hmain
    (fun hc => Bool.noConfusion (hchanged.symm.trans hc)) hlisted hunlisted

theorem not_held {held used : Bool} (h : held = false) : (used && (held || !used)) = false := by
  rw [h]
  cases used <;> rfl

theorem dropMask_not_held (h : s.maskHeld = true → s.g.ownMask = true) :
    ((dropMask s.x s.g).maskInUse && (s.maskHeld || !s.x.maskInUse)) = false := by
  unfold dropMask
  cases hm : s.maskHeld with
  | true => simp [h hm]
  | false => cases s.x.maskInUse <;> cases s.g.ownMask <;> rfl

theorem CallSt.changed_move {r : CtxProc × Gcn} (hc : s.changed = false)
    (h : r.1.contextMask = s.x.contextMask) : (s.move r).changed = false := by
  simp [CallSt.move, hc, h]

theorem not_failed {phase : GcnPhase} {C : Prop} (h : phase = .reducing) (e : Bool)
    (hf : phase = .failed e) : C := by
  rw [h] at hf
  cases hf

theorem CallSt.Ok.copyMask {n : Nat} (h : s.Ok a ig) (hp : s.g.phase = .ready)
    {r : CtxProc × Gcn} (hr : copyMaskBlocking n a ig s.x s.g = .ok r) : (s.move r).Ok a ig := by
  obtain ⟨hown, heager, hmask, hchanged, hlisted, hmain⟩ := h.between hp rfl nofun
  have hkept : ∀ {r : CtxProc × Gcn}, r.1.contextMask = s.x.contextMask →
      (s.move r).changed = false := CallSt.changed_move hchanged
  unfold copyMaskBlocking copyEager copyMain at hr
  split at hr
  · cases hr
    exact .dropped hown (not_held heager) (not_held hmask)
      (absurd · Bool.false_ne_true) (hkept rfl) (fun _ => hlisted) (not_failed rfl)
  · next hig =>
    rw [Bool.not_eq_true] at hig
    split at hr
    · next hfirst =>
      dsimp only at hr
      split at hr
      · next hc =>
        cases hr
        refine ⟨?_, fun _ => ⟨rfl, hfirst, hig⟩, fun _ => .inl rfl,
          fun hm => Bool.noConfusion ((not_held hmask).symm.trans hm), hmain,
          fun hc => Bool.noConfusion ((hkept rfl).symm.trans hc), fun _ => hlisted, not_failed rfl⟩
        simp [CallSt.move, Gcn.reduce, hc.1]
      · cases hr
        exact .dropped rfl (not_held heager) (not_held hmask) hmain (hkept rfl)
          (fun _ => hlisted) (not_failed rfl)
    · next hfirst =>
      rw [Bool.not_eq_true] at hfirst
      split at hr
      · cases hr
      · dsimp only at hr
        split at hr
        · cases hr
          exact .dropped hown (not_held heager) (not_held hmask)
            (absurd · Bool.false_ne_true) (hkept rfl) (fun _ => hlisted) (not_failed rfl)
        · cases hr
          exact .moved hown (not_held heager) (fun _ => ⟨rfl, rfl⟩) (fun _ => ⟨hfirst, hig⟩)
            (fun hc => Bool.noConfusion ((hkept rfl).symm.trans hc)) (fun _ => hlisted)
            (not_failed rfl)

theorem takeContextId_cases {m : Mask} {id : Nat} {g g' : Gcn} {x' : CtxProc}
    (hown : g.ownEagerMask = true → g.ownMask = false ∧ ig = false)
    (hmain : g.ownMask = true → ig = false)
    (h : takeContextId a ig m x g = .ok (id, x', g')) :
    g' = { g with ownEagerMask := false } ∧
      x'.eagerInUse = (x.eagerInUse && !g.ownEagerMask) ∧
      x'.maskInUse = (x.maskInUse && !g.ownMask) ∧
      (id = 0 → x'.contextMask = x.contextMask ∧ x'.nextGcn = x.nextGcn) := by
  obtain ⟨phase, firstIter, ownMask, ownEagerMask, contribs, minfree⟩ := g
  unfold takeContextId at h
  cases ig with
  | true => cases h; simp_all
  | false =>
    cases ownEagerMask with
    | true =>
      simp only [Bool.false_eq_true, if_false, if_true] at h
      split at h
      · cases h
        have hmask : ownMask = false := (hown rfl).1
        refine ⟨rfl, by simp, by simp [hmask], ?_⟩
        rintro rfl
        exact ⟨findAndAllocateContextId_zero ‹_›, rfl⟩
      · cases h
    | false =>
      cases ownMask with
      | true =>
        simp only [Bool.false_eq_true, if_false, if_true] at h
        split at h
        · split at h
          · split at h
            · cases h
              exact ⟨rfl, by simp, by simp, fun hid => by omega⟩
            · cases h
          · cases h
            refine ⟨rfl, by simp, by simp, ?_⟩
            rintro rfl
            exact ⟨findAndAllocateContextId_zero ‹_›, rfl⟩
        · cases h
      | false => cases h; simp

theorem CallSt.Ok.allocate (h : s.Ok a ig) (hp : s.g.phase = .reducing) {m : LocalMask}
    {r : Nat × CtxProc × Gcn} (hr : takeContextId a ig m.words s.x s.g = .ok r) :
    (s.move (concludeBlocking a ig m.allOwn r.1 r.2.1 r.2.2)).Ok a ig := by
  obtain ⟨id, x', g'⟩ := r
  have hlisted := h.listed (by rw [hp]; rfl)
  have hchanged := h.unchanged (by rw [hp]; rfl)
  have hmain := h.main
  have hmask : s.maskHeld = true → s.g.ownMask = true := fun hm => (h.mask hm).2
  have hnot : s.g.ownEagerMask = true → s.g.ownMask = false := fun ho => Bool.eq_false_iff.2
    fun hm => Bool.noConfusion ((h.own ho).2.1.symm.trans (hmain hm).1)
  obtain ⟨rfl, heager, hmask', hzero⟩ := takeContextId_cases
    (fun ho => ⟨hnot ho, (h.own ho).2.2⟩) (fun hm => (hmain hm).2) hr
  have heager' : (x'.eagerInUse && (s.eagerHeld || !s.x.eagerInUse)) = false := by
    rw [heager, h.eager]
    cases s.x.eagerInUse <;> cases s.g.ownEagerMask <;> rfl
  have hmask'' : (x'.maskInUse && (s.maskHeld || !s.x.maskInUse)) = false := by
    rw [hmask']
    cases hm : s.maskHeld with
    | true => rw [hmask hm]; cases s.x.maskInUse <;> rfl
    | false => cases s.x.maskInUse <;> cases s.g.ownMask <;> rfl
  unfold concludeBlocking
  dsimp only
  split
  · next hid =>
    obtain ⟨hsame, hnext⟩ := hzero hid
    have hkept := CallSt.changed_move (s := s) (r := (x', s.g)) hchanged hsame
    split <;>
      exact .dropped rfl heager' hmask'' hmain hkept
        (fun _ => (congrArg (count a) hnext).trans hlisted) nofun
  · split <;>
      exact .moved rfl heager' (fun hm => Bool.noConfusion (hmask''.symm.trans hm))
        (fun hm => ⟨rfl, (hmain hm).2⟩) (fun _ => ⟨_, rfl⟩) nofun nofun

theorem CallSt.Ok.failAlloc (h : s.Ok a ig) (hp : s.g.phase = .reducing ∨ s.g.phase = .counting)
    {minfree : Nat} {r : CtxProc × Gcn} (hr : failAlloc a minfree ig s.x s.g = .ok r) :
    (s.move r).Ok a ig ∧ (s.move r).maskHeld = false ∧ (s.move r).changed = false ∧
      (s.move r).eagerHeld = s.g.ownEagerMask ∧ a ∉ r.1.nextGcn := by
  have hopen : s.g.phase.open = true := by rcases hp with h | h <;> rw [h] <;> rfl
  have hlisted := h.listed hopen
  have hdrop := dropMask_not_held fun hm => (h.mask hm).2
  have hkeep : (s.x.eagerInUse && (s.eagerHeld || !s.x.eagerInUse)) = s.g.ownEagerMask := by
    rw [h.eager]
    cases ho : s.g.ownEagerMask with
    | true => simp [(h.own ho).1]
    | false => exact not_held rfl
  have hfailed : ∀ {l : List Nat}, l.count a = 0 →
      ∀ r, r = ({ dropMask s.x s.g with nextGcn := l },
        { s.g with phase := .failed (0 < minfree) }) →
      (s.move r).Ok a ig ∧ (s.move r).maskHeld = false ∧ (s.move r).changed = false ∧
        (s.move r).eagerHeld = s.g.ownEagerMask ∧ a ∉ r.1.nextGcn := by
    rintro l hcount r rfl
    have hkept := CallSt.changed_move (s := s)
      (r := ({ dropMask s.x s.g with nextGcn := l }, s.g)) (h.unchanged hopen) rfl
    refine ⟨⟨hkeep, h.own, fun _ => .inr ⟨_, rfl⟩, ?_, h.main, ?_, nofun, fun _ _ => hcount⟩,
      hdrop, hkept, hkeep, count_eq_zero.1 hcount⟩
    · exact fun hm => Bool.noConfusion (hdrop.symm.trans hm)
    · exact fun hc => Bool.noConfusion (hkept.symm.trans hc)
  unfold PsMpi.ContextId.failAlloc at hr
  dsimp only at hr
  split at hr
  · next hlist =>
    split at hr
    · next l hl =>
      have hcount : l.count a = 0 := by
        unfold removeGcn at hl
        split at hl
        · cases hl
          rw [count_erase_self, hlisted, Gcn.entries, if_pos hlist]
        · cases hl
      cases hr
      exact hfailed hcount _ rfl
    · cases hr
  · next hlist =>
    have hcount : s.x.nextGcn.count a = 0 := by rw [hlisted, Gcn.entries, if_neg hlist]
    cases hr
    exact hfailed hcount _ rfl

theorem CallSt.Ok.step (h : s.Ok a ((cfg.spec a).ignoreId p))
    (hst : s.step cfg a p act = some s') : s'.Ok a ((cfg.spec a).ignoreId p) := by
  cases act with
  | copyMask =>
    obtain ⟨hp, hst⟩ := Option.ite_none_right_eq_some.1 hst
    obtain ⟨r, hr, rfl⟩ := map_toOption hst
    exact h.copyMask hp hr
  | allocate m =>
    obtain ⟨hp, hst⟩ := Option.ite_none_right_eq_some.1 hst
    obtain ⟨r, hr, rfl⟩ := map_toOption hst
    exact h.allocate hp hr
  | enlist =>
    obtain ⟨hp, hst⟩ := Option.ite_none_right_eq_some.1 hst
    obtain ⟨hown, heager, hmask, hchanged, hlisted, hmain⟩ := h.between hp rfl nofun
    cases hst
    have hkept := CallSt.changed_move (r := (s.x, s.g)) hchanged rfl
    split
    · next hc =>
      have hcount : (addGcnToList cfg.spec a s.x.nextGcn).count a = 1 := by
        rw [count_addGcnToList, hlisted, Gcn.entries, hc.1, if_neg (fun hc => nomatch hc.1)]
      refine .dropped hown (not_held heager) (not_held hmask) (fun hm => ⟨rfl, (hmain hm).2⟩) hkept
        (fun _ => hcount.trans ?_) nofun
      rw [Gcn.entries, if_pos ⟨rfl, hc.2⟩]
    · next hc =>
      refine .dropped hown (not_held heager) (not_held hmask) (fun hm => ⟨rfl, (hmain hm).2⟩) hkept
        (fun _ => hlisted.trans ?_) nofun
      cases hf : s.g.firstIter with
      | true =>
        have hi : ¬ (cfg.spec a).ignoreId p = false := fun hi => hc ⟨hf, hi⟩
        rw [Gcn.entries, Gcn.entries, if_neg (fun h => hi h.2), if_neg (fun h => hi h.2)]
      | false => rw [Gcn.entries, Gcn.entries, hf]
  | release =>
    obtain ⟨hp, hst⟩ := Option.ite_none_right_eq_some.1 hst
    obtain ⟨hown, heager, hmask, hchanged, hlisted, hmain⟩ := h.between hp rfl nofun
    cases hst
    have hkept := CallSt.changed_move (r := (s.x, s.g)) hchanged rfl
    have hdrop := dropMask_not_held fun hm => Bool.noConfusion (hmask.symm.trans hm)
    exact .dropped hown (not_held heager) hdrop hmain hkept (fun _ => hlisted) nofun
  | count =>
    obtain ⟨hp, hst⟩ := Option.ite_none_right_eq_some.1 hst
    obtain ⟨hown, heager, hmask, hchanged, hlisted, hmain⟩ := h.between hp rfl nofun
    cases hst
    have hkept := CallSt.changed_move (r := (s.x, s.g)) hchanged rfl
    exact .dropped hown (not_held heager) (not_held hmask) hmain hkept (fun _ => hlisted) nofun
  | fail minfree =>
    obtain ⟨hp, hst⟩ := Option.ite_none_right_eq_some.1 hst
    obtain ⟨r, hr, rfl⟩ := map_toOption hst
    exact (h.failAlloc (.inr hp) hr).1
  | reduceFail =>
    obtain ⟨hp, hst⟩ := Option.ite_none_right_eq_some.1 hst
    obtain ⟨r, hr, rfl⟩ := map_toOption hst
    exact (h.failAlloc (.inl hp) hr).1
  | others x =>
    obtain ⟨⟨hcount, hkeep⟩, hst⟩ := Option.ite_none_right_eq_some.1 hst
    cases hst
    exact { h with
      own := fun ho => ⟨hkeep (h.eager.trans ho), (h.own ho).2⟩
      listed := fun hp => hcount.trans (h.listed hp)
      unlisted := fun e hp => hcount.trans (h.unlisted e hp) }

theorem callSys_ok (hx : a ∉ x.nextGcn) (h : (callSys cfg a p x).Reach s) :
    s.Ok a ((cfg.spec a).ignoreId p) := by
  refine h.inv ?_ fun h hst => CallSt.Ok.step h hst
  constructor <;> simp [callSys, Gcn.entries, GcnPhase.open, count_eq_zero.2 hx]

/-- A call that fails leaves nothing behind if and only if it is not a reduction that fails while
the call owns the eager segment. -/
theorem get_contextid_clean_iff (hx : a ∉ x.nextGcn) (hr : (callSys cfg a p x).Reach s)
    (hact : act = .reduceFail ∨ ∃ minfree, act = .fail minfree)
    (hst : (callSys cfg a p x).step s act = some s') :
    s'.Clean a ↔ ¬ (act = .reduceFail ∧ s.g.ownEagerMask = true) := by
  have h := callSys_ok hx hr
  rcases hact with rfl | ⟨minfree, rfl⟩
  · obtain ⟨hp, hst⟩ := Option.ite_none_right_eq_some.1 hst
    obtain ⟨r, hr, rfl⟩ := map_toOption hst
    obtain ⟨-, hmask, hchanged, heager, hmem⟩ := h.failAlloc (.inl hp) hr
    refine ⟨fun hc h => ?_, fun h => ⟨?_, hmask, hmem, hchanged⟩⟩
    · exact Bool.noConfusion (h.2.symm.trans (heager.symm.trans hc.1))
    · exact heager.trans (Bool.eq_false_iff.2 fun ho => h ⟨rfl, ho⟩)
  · obtain ⟨hp, hst⟩ := Option.ite_none_right_eq_some.1 hst
    obtain ⟨r, hr, rfl⟩ := map_toOption hst
    obtain ⟨-, hmask, hchanged, heager, hmem⟩ := h.failAlloc (.inr hp) hr
    obtain ⟨hown, -⟩ := h.between hp rfl nofun
    exact iff_of_true ⟨heager.trans hown, hmask, hmem, hchanged⟩ fun h => nomatch h.1

def onlyCall : Sys CallSt CallAct :=
  callSys
    ⟨fun _ : Unit => 2, fun _ => by decide, fun _ => ⟨.blocking, [()], fun _ => false, 0, 0⟩⟩ 0 ()
    ⟨initMask, false, false, [], [], none⟩

theorem get_contextid_clean_iff_second :
    ∃ s s', onlyCall.exec onlyCall.init [.copyMask, .allocate ⟨0, false⟩, .enlist, .copyMask] =
      some s ∧
      onlyCall.step s .reduceFail = some s' ∧ s'.Clean 0 := by
  obtain ⟨s, hs, hown, s', hs'⟩ : ∃ s, onlyCall.exec onlyCall.init
      [.copyMask, .allocate ⟨0, false⟩, .enlist, .copyMask] = some s ∧ s.g.ownEagerMask = false ∧
      ∃ s', onlyCall.step s .reduceFail = some s' := ⟨_, rfl, rfl, _, rfl⟩
  have hr : onlyCall.Reach s := Sys.exec_reach .init hs
  refine ⟨s, s', hs, hs', (get_contextid_clean_iff not_mem_nil hr (.inl rfl) hs').2 fun h => ?_⟩
  exact Bool.noConfusion (hown.symm.trans h.2)

theorem get_contextid_keeps_eager :
    ∃ s, onlyCall.exec onlyCall.init [.copyMask, .reduceFail] = some s ∧ s.g.phase = .failed false ∧
      s.x.eagerInUse = true ∧ ¬ s.Clean 0 :=
  ⟨_, rfl, rfl, rfl, fun h => nomatch h.1⟩

end

end PsMpi.ContextId
