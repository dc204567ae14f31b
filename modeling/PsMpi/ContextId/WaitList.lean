import PsMpi.ContextId.FailOk

/-!
# The list of pending allocations of a process
-/

open List Option PsMpi.Lib

namespace PsMpi.ContextId

/-- What a process does: the steps of its allocations, with the results of the reductions and with
`sched`, whether the schedule of a nonblocking allocation can be extended. -/
inductive WaitAct
  | call (a : Nat)
  | copyMask (a : Nat) (sched : Bool)
  | allocate (a : Nat) (m : LocalMask) (sched : Bool)
  | enlist (a : Nat)
  | release (a : Nat)
  | count (a : Nat)
  | fail (a minfree : Nat)
  | reduceFail (a : Nat)
  | free (a id : Nat)

/-- A process, its allocations, and when each of them has last come to the list. -/
structure WaitSt where
  x : CtxProc
  gcn : Nat → Gcn
  arrived : Nat → Nat
  clock : Nat

/-- `fn_fail` (`contextid.c:783-799`). The error code is not recorded. -/
def failNonblocking (a : Nat) (x : CtxProc) (g : Gcn) : Except CtxFault (CtxProc × Gcn) :=
  if g.firstIter then .ok (x, { g with phase := .failed false })
  else
    match removeGcn x.nextGcn a with
    | .ok l => .ok ({ x with nextGcn := l }, { g with phase := .failed false })
    | .error f => .error f

section

variable {P : Type*}

/-- `sched_cb_gcn_allocate_cid` (:720-799). -/
def concludeSched (spec : Nat → AllocSpec P) (a : Nat) (allOwn sched : Bool) (id : Nat)
    (x : CtxProc) (g : Gcn) : Except CtxFault (CtxProc × Gcn) :=
  if id = 0 then
    if allOwn then failNonblocking a x g
    else
      let x' := if g.firstIter then { x with nextGcn := addGcnToList spec a x.nextGcn } else x
      let g' : Gcn := { g with phase := .ready, firstIter := false }
      if sched then .ok (x', g') else failNonblocking a x' g'
  else if sched then .ok ({ x with live := (a, id) :: x.live }, { g with phase := .done id })
  else failNonblocking a x g

namespace WaitSt

def move (s : WaitSt) (a : Nat) (r : CtxProc × Gcn) : WaitSt where
  x := r.1
  gcn := Function.update s.gcn a r.2
  arrived := if a ∈ r.1.nextGcn ∧ a ∉ s.x.nextGcn then Function.update s.arrived a s.clock
    else s.arrived
  clock := s.clock + 1

def finish (s : WaitSt) (a : Nat) : Except CtxFault (CtxProc × Gcn) → WaitSt
  | .ok r => s.move a r
  | .error f => { s with x := { s.x with fault := some f } }

/-- If `sched_cb_gcn_copy_mask` (:802) fails, its allocation is left as it is. -/
def copyMask (cfg : CtxCfg P) (p : P) (a : Nat) (sched : Bool) (x : CtxProc) (g : Gcn) :
    Except CtxFault (CtxProc × Gcn) :=
  match (cfg.spec a).kind with
  | .blocking => copyMaskBlocking (cfg.eagerNelem p) a ((cfg.spec a).ignores p) x g
  | .nonblocking =>
    let r := schedCbGcnCopyMask (cfg.eagerNelem p) a x g
    .ok (r.1, if sched then r.2 else { r.2 with phase := .failed false })

/-- `:472-593,686-799`. -/
def allocateCid (cfg : CtxCfg P) (p : P) (a : Nat) (m : LocalMask) (sched : Bool) (x : CtxProc)
    (g : Gcn) : Except CtxFault (CtxProc × Gcn) :=
  match takeContextId a ((cfg.spec a).ignores p) m.words x g with
  | .ok (id, x, g) =>
    match (cfg.spec a).kind with
    | .blocking => .ok (concludeBlocking a ((cfg.spec a).ignores p) m.allOwn id x g)
    | .nonblocking => concludeSched cfg.spec a m.allOwn sched id x g
  | .error f => .error f

local instance : LawfulBEq (Nat × Nat) := inferInstance

def stepAt (cfg : CtxCfg P) (p : P) (s : WaitSt) : WaitAct → Option WaitSt
  | .call a =>
    if (s.gcn a).phase = .idle then some (s.move a (s.x, { s.gcn a with phase := .ready }))
    else none
  | .copyMask a sched =>
    if (s.gcn a).phase = .ready then some (s.finish a (copyMask cfg p a sched s.x (s.gcn a)))
    else none
  | .allocate a m sched =>
    if (s.gcn a).phase = .reducing then
      some (s.finish a (allocateCid cfg p a m sched s.x (s.gcn a)))
    else none
  | .enlist a =>
    if (s.gcn a).phase = .retry then
      some (s.move a
        (if (s.gcn a).firstIter = true ∧ (cfg.spec a).ignores p = false then
          { s.x with nextGcn := addGcnToList cfg.spec a s.x.nextGcn }
        else s.x, { s.gcn a with phase := .ready, firstIter := false }))
    else none
  | .release a =>
    if (s.gcn a).phase = .exhausted then
      some (s.move a (dropMask s.x (s.gcn a), { s.gcn a with phase := .released }))
    else none
  | .count a =>
    if (s.gcn a).phase = .released then
      some (s.move a (s.x, countFree ((cfg.spec a).ignores p) s.x (s.gcn a)))
    else none
  | .fail a minfree =>
    if (s.gcn a).phase = .counting then
      some (s.finish a (failAlloc a minfree ((cfg.spec a).ignores p) s.x (s.gcn a)))
    else none
  | .reduceFail a =>
    if (s.gcn a).phase = .reducing ∧ (cfg.spec a).kind = .blocking then
      some (s.finish a (failAlloc a 0 ((cfg.spec a).ignores p) s.x (s.gcn a)))
    else none
  | .free a id =>
    if (a, id) ∈ s.x.live then
      match freeContextid s.x.contextMask id with
      | some m => some { s with
          x := { s.x with contextMask := m, live := s.x.live.erase (a, id) } }
      | none => some { s with x := { s.x with fault := some .freeContextid } }
    else none

def step (cfg : CtxCfg P) (p : P) (s : WaitSt) (act : WaitAct) : Option WaitSt :=
  if s.x.fault = none then s.stepAt cfg p act else none

/-- `b` stands before `c` in the list: by context id and tag, and by arrival if both are equal. -/
def Before (spec : Nat → AllocSpec P) (s : WaitSt) (b c : Nat) : Prop :=
  (spec c).before (spec b) = false ∧
    ((spec b).before (spec c) = false → s.arrived b < s.arrived c)

end WaitSt

def waitSys (cfg : CtxCfg P) (p : P) : Sys WaitSt WaitAct :=
  ⟨⟨⟨initMask, false, false, [], [], none⟩, fun _ => ⟨.idle, true, false, false, [], none⟩,
    fun _ => 0, 0⟩, WaitSt.step cfg p⟩

/-- The schedule of a nonblocking allocation that owns the mask and gets an id can be extended. -/
def SchedOk (cfg : CtxCfg P) (s : WaitSt) : WaitAct → Prop
  | .allocate a m sched => (cfg.spec a).kind = .nonblocking → (s.gcn a).ownMask = true →
      locateContextBit m.words ≠ 0 → sched = true
  | _ => True

instance (cfg : CtxCfg P) (s : WaitSt) : ∀ act, Decidable (SchedOk cfg s act)
  | .allocate .. => inferInstanceAs (Decidable (_ → _ → _ → _))
  | .call _ | .copyMask .. | .enlist _ | .release _ | .count _ | .fail .. | .reduceFail _
  | .free .. => .isTrue trivial

/-! ## The order of the list -/

variable {cfg : CtxCfg P} {p : P} {spec : Nat → AllocSpec P} {s s' : WaitSt} {a : Nat}
  {x x' : CtxProc} {g g' : Gcn} {ig : Bool}

theorem addGcnToList_sorted {s s' : WaitSt} {l : List Nat} (h : l.Pairwise (s.Before spec))
    (hold : ∀ b ∈ l, s'.arrived b = s.arrived b ∧ s.arrived b < s'.arrived a) :
    (addGcnToList spec a l).Pairwise (s'.Before spec) := by
  induction l with
  | nil => exact pairwise_singleton _ _
  | cons b l ih =>
    obtain ⟨hb, hl⟩ := pairwise_cons.1 h
    have hold' : ∀ c ∈ l, _ := fun c hc => hold c (mem_cons_of_mem _ hc)
    have hb' : ∀ c ∈ l, s'.Before spec b c := fun c hc => by
      unfold WaitSt.Before
      rw [(hold b mem_cons_self).1, (hold' c hc).1]
      exact hb c hc
    unfold addGcnToList
    split
    · rename_i hlt
      refine pairwise_cons.2 ⟨fun c hc => ?_, pairwise_cons.2 ⟨hb', ?_⟩⟩
      · have hab : (spec a).before (spec c) = true ∧ (spec c).before (spec a) = false := by
          rcases mem_cons.1 hc with rfl | hc
          · simp only [AllocSpec.before, Bool.or_eq_true, Bool.and_eq_true, decide_eq_true_eq,
              beq_iff_eq, Bool.eq_false_iff, ne_eq] at hlt ⊢
            omega
          · have hbc := (hb c hc).1
            simp only [AllocSpec.before, Bool.or_eq_true, Bool.and_eq_true, decide_eq_true_eq,
              beq_iff_eq, Bool.eq_false_iff, ne_eq] at hlt hbc ⊢
            omega
        exact ⟨hab.2, fun h => absurd hab.1 (by rw [h]; decide)⟩
      · refine hl.imp_of_mem fun {c d} hc hd hcd => ?_
        unfold WaitSt.Before
        rw [(hold' c hc).1, (hold' d hd).1]
        exact hcd
    · rename_i hle
      refine pairwise_cons.2 ⟨fun c hc => ?_, ih hl hold'⟩
      rcases (mem_addGcnToList spec l).1 hc with rfl | hc
      · refine ⟨Bool.eq_false_iff.2 hle, fun _ => ?_⟩
        rw [(hold b mem_cons_self).1]
        exact (hold b mem_cons_self).2
      · exact hb' c hc

theorem erase_addGcnToList {l : List Nat} (h : a ∉ l) : (addGcnToList spec a l).erase a = l := by
  induction l with
  | nil => simp [addGcnToList]
  | cons b l ih =>
    have hne : b ≠ a := fun hb => h (hb ▸ mem_cons_self)
    unfold addGcnToList
    split
    · exact erase_cons_head ..
    · rw [erase_cons_tail (by simpa using hne), ih fun hl => h (mem_cons_of_mem _ hl)]

/-! ## The allocations and the list -/

structure Gcn.WaitOk (ig : Bool) (mem : Prop) (g : Gcn) : Prop where
  listed : g.phase.open = true → (mem ↔ g.firstIter = false ∧ ig = false)
  idle : g.phase = .idle → g.firstIter = true ∧ g.ownEagerMask = false ∧ ¬ mem
  main : g.ownMask = true → g.firstIter = false ∧ ig = false
  own : g.ownEagerMask = true → g.firstIter = true ∧ ig = false ∧
    (g.phase = .reducing ∨ ∃ e, g.phase = .failed e)

def ListStep (spec : Nat → AllocSpec P) (a : Nat) (l l' : List Nat) : Prop :=
  l' = l ∨ a ∉ l ∧ l' = addGcnToList spec a l ∨ l' = l.erase a

def GoodStep (spec : Nat → AllocSpec P) (ig : Bool) (a : Nat) (x : CtxProc) :
    Except CtxFault (CtxProc × Gcn) → Prop
  | .ok r => ListStep spec a x.nextGcn r.1.nextGcn ∧ r.1.fault = x.fault ∧
      r.2.WaitOk ig (a ∈ r.1.nextGcn)
  | .error f => f ≠ .notListed

structure WaitSt.Ok (spec : Nat → AllocSpec P) (p : P) (s : WaitSt) : Prop where
  sorted : s.x.nextGcn.Pairwise (s.Before spec)
  arrived : ∀ b ∈ s.x.nextGcn, s.arrived b < s.clock
  member : ∀ a, (s.gcn a).WaitOk ((spec a).ignores p) (a ∈ s.x.nextGcn)
  found : s.x.fault ≠ some .notListed

theorem GoodStep.of_eq {r : Except CtxFault (CtxProc × Gcn)} (h : GoodStep spec ig a x' r)
    (hnext : x'.nextGcn = x.nextGcn) (hfault : x'.fault = x.fault) : GoodStep spec ig a x r := by
  cases r with
  | error f => exact h
  | ok r => exact ⟨hnext ▸ h.1, h.2.1.trans hfault, h.2.2⟩

theorem WaitSt.Ok.nodup (h : s.Ok spec p) : s.x.nextGcn.Nodup :=
  h.sorted.imp fun {b c} hbc hne => by
    subst hne
    exact absurd (hbc.2 hbc.1) (lt_irrefl _)

theorem WaitSt.Ok.finish (h : s.Ok spec p) {r : Except CtxFault (CtxProc × Gcn)}
    (hr : GoodStep spec ((spec a).ignores p) a s.x r) : (s.finish a r).Ok spec p := by
  cases r with
  | error f => exact { h with found := fun hf => hr (some.inj hf) }
  | ok r =>
    obtain ⟨hl, hfault, hg⟩ := hr
    have hother : ∀ b, b ≠ a → (b ∈ r.1.nextGcn ↔ b ∈ s.x.nextGcn) := fun b hb => by
      rcases hl with hl | ⟨-, hl⟩ | hl <;> rw [hl]
      · exact (mem_addGcnToList spec _).trans (or_iff_right hb)
      · exact mem_erase_of_ne hb
    have hmember : ∀ b, Gcn.WaitOk ((spec b).ignores p) (b ∈ r.1.nextGcn)
        (Function.update s.gcn a r.2 b) := fun b => by
      by_cases hb : b = a
      · subst hb
        rwa [Function.update_self]
      · rw [Function.update_of_ne hb, propext (hother b hb)]
        exact h.member b
    have hfound : r.1.fault ≠ some .notListed := hfault ▸ h.found
    by_cases hnew : a ∈ r.1.nextGcn ∧ a ∉ s.x.nextGcn
    · have hadd : r.1.nextGcn = addGcnToList spec a s.x.nextGcn := by
        rcases hl with hl | ⟨-, hl⟩ | hl
        · exact absurd (hl ▸ hnew.1) hnew.2
        · exact hl
        · exact absurd (mem_of_mem_erase (hl ▸ hnew.1)) hnew.2
      have harr : (s.move a r).arrived = Function.update s.arrived a s.clock := if_pos hnew
      have hold : ∀ b ∈ s.x.nextGcn, (s.move a r).arrived b = s.arrived b := fun b hb => by
        rw [harr, Function.update_of_ne]
        rintro rfl
        exact hnew.2 hb
      have ha : (s.move a r).arrived a = s.clock := by rw [harr, Function.update_self]
      refine ⟨?_, fun b hb => ?_, hmember, hfound⟩
      · change r.1.nextGcn.Pairwise _
        rw [hadd]
        exact addGcnToList_sorted h.sorted fun b hb => ⟨hold b hb, ha ▸ h.arrived b hb⟩
      · change r.1.nextGcn.Mem b at hb
        rcases (mem_addGcnToList spec _).1 (hadd ▸ hb) with rfl | hb
        · exact ha ▸ Nat.lt_succ_self _
        · exact hold b hb ▸ Nat.lt_succ_of_lt (h.arrived b hb)
    · have harr : (s.move a r).arrived = s.arrived := if_neg hnew
      have hsub : r.1.nextGcn <+ s.x.nextGcn := by
        rcases hl with hl | ⟨hmem, hl⟩ | hl
        · exact hl ▸ Sublist.refl _
        · exact absurd ⟨hl ▸ (mem_addGcnToList spec _).2 (.inl rfl), hmem⟩ hnew
        · exact hl ▸ erase_sublist
      refine ⟨?_, fun b hb => ?_, hmember, hfound⟩
      · have hsorted := h.sorted.sublist hsub
        unfold WaitSt.Before at hsorted ⊢
        rwa [show (WaitSt.finish s a (.ok r)).arrived = s.arrived from harr]
      · exact harr ▸ Nat.lt_succ_of_lt (h.arrived b (hsub.subset hb))

/-! ## The steps -/

theorem removeGcn_mem {l : List Nat} (h : a ∈ l) : removeGcn l a = .ok (l.erase a) := if_pos h

theorem Gcn.WaitOk.between {mem : Prop} (hg : g.WaitOk ig mem) (hp : g.phase.open = true)
    (hr : g.phase ≠ .reducing) : g.ownEagerMask = false := by
  refine Bool.eq_false_iff.2 fun ho => ?_
  rcases (hg.own ho).2.2 with h | ⟨e, h⟩
  · exact hr h
  · rw [h] at hp
    cases hp

theorem Gcn.WaitOk.set {mem : Prop} (hg : g.WaitOk ig mem) (hp : g.phase.open = true)
    (hr : g.phase ≠ .reducing) (hfirst : g'.firstIter = g.firstIter)
    (hown : g'.ownMask = true → g.ownMask = true) (heager : g'.ownEagerMask = g.ownEagerMask)
    (hidle : g'.phase ≠ .idle) : g'.WaitOk ig mem where
  listed _ := hfirst ▸ hg.listed hp
  idle h := absurd h hidle
  main h := hfirst ▸ hg.main (hown h)
  own h := by
    rw [heager, hg.between hp hr] at h
    cases h

theorem copyMask_good (hp : g.phase = .ready) (hg : g.WaitOk ((cfg.spec a).ignores p)
    (a ∈ x.nextGcn)) (sched : Bool) :
    GoodStep cfg.spec ((cfg.spec a).ignores p) a x (WaitSt.copyMask cfg p a sched x g) := by
  have heager := hg.between (by rw [hp]; rfl) (by simp [hp])
  have hlisted := hg.listed (by rw [hp]; rfl)
  have hmain := hg.main
  unfold WaitSt.copyMask
  cases hk : (cfg.spec a).kind with
  | blocking =>
    unfold copyMaskBlocking copyEager copyMain
    dsimp only
    split
    · refine ⟨.inl rfl, rfl, ?_⟩
      constructor <;> simp_all [Gcn.reduce, GcnPhase.open]
    · split
      · split <;> refine ⟨.inl rfl, rfl, ?_⟩ <;> constructor <;>
          simp_all [Gcn.reduce, GcnPhase.open]
      · split
        · exact fun h => by cases h
        · split <;> refine ⟨.inl rfl, rfl, ?_⟩ <;> constructor <;>
            simp_all [Gcn.reduce, GcnPhase.open]
  | nonblocking =>
    have hig : (cfg.spec a).ignores p = false := by rw [AllocSpec.ignores, hk]
    unfold schedCbGcnCopyMask copyEager copyMain
    dsimp only
    split <;> split <;> cases sched <;> refine ⟨.inl rfl, rfl, ?_⟩ <;> constructor <;>
      simp_all [Gcn.reduce, GcnPhase.open]

theorem failNonblocking_good (hg : g.WaitOk false (a ∈ x.nextGcn)) (hp : g.phase.open = true) :
    GoodStep spec false a x (failNonblocking a x g) := by
  have hlisted := hg.listed hp
  have hmain := hg.main
  have hown := hg.own
  unfold failNonblocking
  split
  · refine ⟨.inl rfl, rfl, ?_⟩
    constructor <;> simp_all [GcnPhase.open]
  · rename_i hfirst
    rw [removeGcn_mem (hlisted.2 ⟨Bool.eq_false_iff.2 hfirst, rfl⟩)]
    refine ⟨.inr (.inr rfl), rfl, ?_⟩
    constructor <;> simp_all [GcnPhase.open]

theorem failAlloc_good (hp : g.phase.open = true) (hg : g.WaitOk ig (a ∈ x.nextGcn))
    (minfree : Nat) : GoodStep spec ig a x (failAlloc a minfree ig x g) := by
  have hlisted := hg.listed hp
  have hmain := hg.main
  have hown := hg.own
  unfold failAlloc
  dsimp only
  split
  · rename_i hl
    rw [removeGcn_mem (hlisted.2 hl)]
    refine ⟨.inr (.inr rfl), rfl, ?_⟩
    constructor <;> simp_all [GcnPhase.open]
  · refine ⟨.inl rfl, rfl, ?_⟩
    constructor <;> simp_all [GcnPhase.open, dropMask]

theorem findAndAllocateContextId_id {mask mask' m : Mask} {id : Nat}
    (h : findAndAllocateContextId mask m = .ok (id, mask')) : id = locateContextBit m := by
  unfold findAndAllocateContextId at h
  split at h
  · split at h
    · cases h
      rfl
    · cases h
  · rename_i hz
    cases h
    exact (not_not.1 hz).symm

theorem findAndAllocateContextId_error {mask m : Mask} {f : CtxFault}
    (h : findAndAllocateContextId mask m = .error f) : f ≠ .notListed := by
  unfold findAndAllocateContextId at h
  split at h
  · split at h
    · cases h
    · cases h
      nofun
  · cases h

theorem takeContextId_good (hp : g.phase = .reducing) (hg : g.WaitOk ig (a ∈ x.nextGcn))
    (m : Mask) :
    match takeContextId a ig m x g with
    | .error f => f ≠ .notListed
    | .ok (id, x', g') => x'.fault = x.fault ∧ g' = { g with ownEagerMask := false } ∧
        (id ≠ 0 → locateContextBit m ≠ 0) ∧
        (ig = false → id ≠ 0 → g.firstIter = true ∨ g.ownMask = true) ∧
        x'.nextGcn = if g.firstIter = false ∧ ig = false ∧ id ≠ 0 then x.nextGcn.erase a
          else x.nextGcn := by
  have hlisted := hg.listed (by rw [hp]; rfl)
  have hmain := hg.main
  have hown := hg.own
  obtain ⟨phase, firstIter, ownMask, ownEagerMask, contribs, minfree⟩ := g
  unfold takeContextId
  cases ig with
  | true =>
    cases ownEagerMask with
    | true => exact nomatch (hown rfl).2.1
    | false => simp
  | false =>
    cases ownEagerMask with
    | true =>
      obtain rfl : firstIter = true := (hown rfl).1
      cases hf : findAndAllocateContextId x.contextMask m with
      | error f => exact findAndAllocateContextId_error hf
      | ok r => simp [← findAndAllocateContextId_id hf]
    | false =>
      cases ownMask with
      | false => simp
      | true =>
        obtain rfl : firstIter = false := (hmain rfl).1
        cases hf : findAndAllocateContextId x.contextMask m with
        | error f => exact findAndAllocateContextId_error hf
        | ok r =>
          have hmem : a ∈ x.nextGcn := hlisted.2 ⟨rfl, rfl⟩
          by_cases hpos : 0 < r.1
          · simp [hpos, ← findAndAllocateContextId_id hf, removeGcn_mem hmem, hpos.ne']
          · simp [Nat.eq_zero_of_not_pos hpos]

theorem allocateCid_good (hp : g.phase = .reducing) (hg : g.WaitOk ((cfg.spec a).ignores p)
    (a ∈ x.nextGcn)) {m : LocalMask} {sched : Bool}
    (hs : (cfg.spec a).kind = .nonblocking → g.ownMask = true →
      locateContextBit m.words ≠ 0 → sched = true) :
    GoodStep cfg.spec ((cfg.spec a).ignores p) a x
      (WaitSt.allocateCid cfg p a m sched x g) := by
  have htake := takeContextId_good hp hg m.words
  have hlisted := hg.listed (by rw [hp]; rfl)
  have hmain := hg.main
  unfold WaitSt.allocateCid
  cases ht : takeContextId a ((cfg.spec a).ignores p) m.words x g with
  | error f =>
    rw [ht] at htake
    exact htake
  | ok r =>
    obtain ⟨id, x', g'⟩ := r
    rw [ht] at htake
    obtain ⟨hfault, rfl, hloc, hown, hnext⟩ := htake
    cases hk : (cfg.spec a).kind with
    | blocking =>
      dsimp only
      have hstep : ListStep cfg.spec a x.nextGcn x'.nextGcn := by
        rw [hnext]
        split
        · exact .inr (.inr rfl)
        · exact .inl rfl
      unfold concludeBlocking
      split
      · rename_i hid
        rw [if_neg fun h => h.2.2 hid] at hnext
        split <;> refine ⟨hstep, hfault, ?_⟩ <;> constructor <;> simp_all
      · split <;> refine ⟨hstep, hfault, ?_⟩ <;> constructor <;> simp_all [GcnPhase.open]
    | nonblocking =>
      dsimp only
      have hig : (cfg.spec a).ignores p = false := by rw [AllocSpec.ignores, hk]
      rw [hig] at hg hnext hlisted hmain hown ⊢
      unfold concludeSched
      split
      · rename_i hid
        rw [if_neg fun h => h.2.2 hid] at hnext
        have hg' : Gcn.WaitOk false (a ∈ x'.nextGcn) { g with ownEagerMask := false } := by
          constructor <;> simp_all
        split
        · exact (failNonblocking_good hg' (by rw [hp]; rfl)).of_eq hnext hfault
        · dsimp only
          have hmem : a ∈ x'.nextGcn ↔ g.firstIter = false := by simp [hnext, hlisted]
          cases hfirst : g.firstIter with
          | true =>
            have hnew : a ∉ x'.nextGcn := by simp [hmem, hfirst]
            refine GoodStep.of_eq ?_ hnext hfault
            cases sched with
            | true =>
              refine ⟨.inr (.inl ⟨hnew, rfl⟩), rfl, ?_⟩
              constructor <;> simp_all [mem_addGcnToList]
            | false =>
              have hrm := removeGcn_mem
                ((mem_addGcnToList cfg.spec x'.nextGcn).2 (.inl (Eq.refl a)))
              unfold failNonblocking
              simp only [Bool.false_eq_true, if_false, if_true, hrm]
              refine ⟨.inl (erase_addGcnToList hnew), rfl, ?_⟩
              constructor <;> simp_all [GcnPhase.open]
          | false =>
            refine GoodStep.of_eq ?_ hnext hfault
            cases sched with
            | true =>
              refine ⟨.inl rfl, rfl, ?_⟩
              constructor <;> simp_all
            | false =>
              simp only [Bool.false_eq_true, if_false]
              refine failNonblocking_good ?_ ?_
              · constructor <;> simp_all
              · rfl
      · rename_i hid
        split
        · refine ⟨?_, hfault, ?_⟩
          · change ListStep _ _ _ x'.nextGcn
            rw [hnext]
            split
            · exact .inr (.inr rfl)
            · exact .inl rfl
          · constructor <;> simp_all [GcnPhase.open]
        · -- without its schedule, the allocation has taken the id from the eager segment
          rename_i hsched
          have hfirst : g.firstIter = true := (hown rfl hid).resolve_right fun ho =>
            hsched (hs hk ho (hloc hid))
          rw [if_neg fun h => Bool.noConfusion (hfirst.symm.trans h.1)] at hnext
          unfold failNonblocking
          rw [if_pos hfirst]
          refine ⟨.inl hnext, hfault, ?_⟩
          constructor <;> simp_all [GcnPhase.open]

theorem WaitSt.Ok.step (h : s.Ok cfg.spec p) {act : WaitAct} (hc : SchedOk cfg s act)
    (hst : s.step cfg p act = some s') : s'.Ok cfg.spec p := by
  obtain ⟨-, hst⟩ := ite_none_right_eq_some.1 hst
  cases act with
  | call a =>
    obtain ⟨hp, hst⟩ := ite_none_right_eq_some.1 hst
    cases hst
    obtain ⟨hfirst, heager, hmem⟩ := (h.member a).idle hp
    refine h.finish (r := .ok _) ⟨.inl rfl, rfl, ?_⟩
    have hmain : (s.gcn a).ownMask = false := Bool.eq_false_iff.2 fun ho => by
      cases hfirst.symm.trans ((h.member a).main ho).1
    constructor <;> simp [hfirst, heager, hmem, hmain]
  | copyMask a sched =>
    obtain ⟨hp, hst⟩ := ite_none_right_eq_some.1 hst
    cases hst
    exact h.finish (copyMask_good hp (h.member a) sched)
  | allocate a m sched =>
    obtain ⟨hp, hst⟩ := ite_none_right_eq_some.1 hst
    cases hst
    exact h.finish (allocateCid_good hp (h.member a) hc)
  | enlist a =>
    obtain ⟨hp, hst⟩ := ite_none_right_eq_some.1 hst
    cases hst
    have hlisted := (h.member a).listed (by rw [hp]; rfl)
    have hmain := (h.member a).main
    have heager := (h.member a).between (by rw [hp]; rfl) (by rw [hp]; nofun)
    refine h.finish (r := .ok _) ?_
    by_cases hc : (s.gcn a).firstIter = true ∧ (cfg.spec a).ignores p = false
    · rw [if_pos hc]
      refine ⟨.inr (.inl ⟨by simp [hlisted, hc.1], rfl⟩), rfl, ?_⟩
      constructor <;> simp_all [mem_addGcnToList]
    · rw [if_neg hc]
      refine ⟨.inl rfl, rfl, ?_⟩
      cases hfirst : (s.gcn a).firstIter <;> constructor <;> simp_all
  | release a =>
    obtain ⟨hp, hst⟩ := ite_none_right_eq_some.1 hst
    cases hst
    refine h.finish (r := .ok _) ⟨.inl rfl, rfl, ?_⟩
    exact (h.member a).set (by rw [hp]; rfl) (by rw [hp]; nofun) rfl id rfl nofun
  | count a =>
    obtain ⟨hp, hst⟩ := ite_none_right_eq_some.1 hst
    cases hst
    refine h.finish (r := .ok _) ⟨.inl rfl, rfl, ?_⟩
    exact (h.member a).set (by rw [hp]; rfl) (by rw [hp]; nofun) rfl id rfl nofun
  | fail a minfree =>
    obtain ⟨hp, hst⟩ := ite_none_right_eq_some.1 hst
    cases hst
    exact h.finish (failAlloc_good (by rw [hp]; rfl) (h.member a) minfree)
  | reduceFail a =>
    obtain ⟨hp, hst⟩ := ite_none_right_eq_some.1 hst
    cases hst
    exact h.finish (failAlloc_good (by rw [hp.1]; rfl) (h.member a) 0)
  | free a id =>
    obtain ⟨-, hst⟩ := ite_none_right_eq_some.1 hst
    split at hst
    · cases hst
      exact { h with }
    · cases hst
      exact { h with found := nofun }

/-- In every run in which the schedule of a nonblocking allocation that owns the mask and gets an id
can be extended, the list is sorted by context id, tag and arrival, no allocation is in it twice,
and no removal runs off its end. -/
theorem wait_list_ordered (h : (waitSys cfg p).ReachWhen (SchedOk cfg) s) :
    s.x.nextGcn.Pairwise (s.Before cfg.spec) ∧ s.x.nextGcn.Nodup ∧
      s.x.fault ≠ some .notListed := by
  have hok : s.Ok cfg.spec p := by
    refine h.inv ⟨.nil, fun _ hb => (not_mem_nil hb).elim, fun a => ?_, fun hf => ?_⟩
      fun {_ _ _} _ h hc hst => h.step hc hst
    · constructor <;> simp [waitSys, GcnPhase.open]
    · cases hf
  exact ⟨hok.sorted, hok.nodup, hok.found⟩

theorem two_lt_numbers (_ : Unit) : 2 < 63 := by decide

def dupsCfg : CtxCfg Unit :=
  ⟨fun _ => 2, two_lt_numbers, fun _ => ⟨.nonblocking, [()], fun _ => false, 0, 0⟩⟩

theorem wait_list_ordered_two : ∃ s, (waitSys dupsCfg ()).exec (waitSys dupsCfg ()).init
    [.call 0, .call 1, .copyMask 0 true, .copyMask 1 true, .allocate 1 ⟨0, false⟩ true,
      .allocate 0 ⟨0, false⟩ true, .copyMask 1 true, .allocate 1 ⟨initMask, true⟩ true] = some s ∧
    s.x.nextGcn = [0] ∧ s.x.nextGcn.Pairwise (s.Before dupsCfg.spec) ∧ s.x.nextGcn.Nodup ∧
      s.x.fault ≠ some .notListed := by
  obtain ⟨s, hs, hl⟩ : ∃ s, ((waitSys dupsCfg ()).checked (SchedOk dupsCfg)).exec
      (waitSys dupsCfg ()).init
      [.call 0, .call 1, .copyMask 0 true, .copyMask 1 true, .allocate 1 ⟨0, false⟩ true,
        .allocate 0 ⟨0, false⟩ true, .copyMask 1 true, .allocate 1 ⟨initMask, true⟩ true] =
      some s ∧ s.x.nextGcn = [0] := ⟨_, rfl, rfl⟩
  obtain ⟨he, hc⟩ := Sys.checked_along hs
  exact ⟨s, he, hl, wait_list_ordered (@Sys.exec_reachWhen _ _ _ _ _ _ _ [] .init rfl hc he)⟩

/-- The allocation leaves the list with its id, its schedule cannot be extended, and it is looked
for in the list again. -/
theorem wait_list_runs_off : ∃ s, (waitSys dupsCfg ()).exec (waitSys dupsCfg ()).init
    [.call 0, .copyMask 0 true, .allocate 0 ⟨0, false⟩ true, .copyMask 0 true,
      .allocate 0 ⟨initMask, true⟩ false] = some s ∧ s.x.fault = some .notListed :=
  ⟨_, rfl, rfl⟩

end

end PsMpi.ContextId
