import PsMpi.Rma.Atomic

/-!
# The atomic calls are serializable

The serial order is the order in which the calls take effect at the target.
-/

open PsMpi.Lib List Function

namespace PsMpi.Rma

section
variable {V : Type} [DecidableEq V] {cfg : ElemCfg} {v₀ val val' : V} {s s' : ElemSt V}
  {o : Nat} {c : AtomicCall V}

/-! ## The calls -/

theorem AtomicFn.second_some {fn : AtomicFn V} {v : V} {f : V → V} (h : fn.second v = some f) :
    f v = fn.update v := by
  cases fn with
  | getAccumulate op contig =>
    obtain rfl : op = some f := h
    rfl
  | fetchAndOp op =>
    obtain rfl : op = some f := h
    rfl
  | compareAndSwap compare origin =>
    simp only [AtomicFn.second] at h
    split at h
    · next heq =>
      cases h
      simp [AtomicFn.update, heq]
    · cases h

theorem AtomicFn.second_none {fn : AtomicFn V} {v : V} (h : fn.second v = none) :
    fn.update v = v := by
  cases fn with
  | getAccumulate op contig =>
    obtain rfl : op = none := h
    rfl
  | fetchAndOp op =>
    obtain rfl : op = none := h
    rfl
  | compareAndSwap compare origin =>
    have hne : ¬ compare = v := fun heq => by simp [AtomicFn.second, heq] at h
    simp [AtomicFn.update, Ne.symm hne]

theorem AtomicFn.update_of_get {fn : AtomicFn V} {rmaApi : Bool}
    (h : fn.path rmaApi = .get) (v : V) : fn.update v = v := by
  cases fn with
  | getAccumulate op contig =>
    cases op with
    | none => rfl
    | some f => simp only [AtomicFn.path] at h; split at h <;> cases h
  | fetchAndOp op =>
    cases op with
    | none => rfl
    | some f => simp only [AtomicFn.path] at h; split at h <;> cases h
  | compareAndSwap compare origin =>
    simp only [AtomicFn.path] at h
    split at h <;> cases h

theorem replay_append {v : V} {l : List (AtomicCall V × V)} {r : V} (h : replay v l = some r) :
    replay v (l ++ [(c, r)]) = some (c.fn.update r) := by
  induction l generalizing v with
  | nil =>
    cases h
    simp [replay]
  | cons x l ih =>
    obtain ⟨c', r'⟩ := x
    obtain ⟨rfl, h⟩ := Option.ite_none_right_eq_some.1 h
    simp only [cons_append, replay, ↓reduceIte]
    exact ih h

/-! ## The phases of an origin -/

def AtomicMsg.isLock : AtomicMsg V → Bool
  | .read _ => false
  | .rmw _ => false
  | _ => true

/-- The states of an origin: whether it holds the internal lock, where it is in a call, its messages
of the lock path, the answers to it, and how often it waits for the lock. -/
inductive Phase (val : V) : Bool → LockPc V → List (AtomicMsg V) → List (AtomicAns V) → Nat → Prop
  | idle : Phase val false .idle [] [] 0
  | asked (c : AtomicCall V) : Phase val false (.waitLock c) [.lockReq] [] 0
  | queued (c : AtomicCall V) : Phase val false (.waitLock c) [] [] 1
  | granted (c : AtomicCall V) : Phase val true (.waitLock c) [] [.lockAns] 0
  | getting (c : AtomicCall V) : Phase val true (.waitGet c) [.get] [] 0
  | fetched (c : AtomicCall V) : Phase val true (.waitGet c) [] [.getAns val] 0
  | got (c : AtomicCall V) : Phase val true (.got c val) [] [] 0
  | posted (c : AtomicCall V) (f : V → V) (hf : f val = c.fn.update val) :
      Phase val true .accumulated [.accumulate c val f] [] 0
  | updated : Phase val true .accumulated [] [] 0
  | releasing (c : AtomicCall V) (f : V → V) (hf : f val = c.fn.update val) :
      Phase val true .waitUnlock [.accumulate c val f, .unlockReq] [] 0
  | unlocking : Phase val true .waitUnlock [.unlockReq] [] 0
  | unlocked : Phase val false .waitUnlock [] [.unlockAns] 0

section
variable {held : Bool} {pc : LockPc V} {l : List (AtomicMsg V)} {b : List (AtomicAns V)} {n : Nat}

theorem Phase.idle_inv (h : Phase val held .idle l b n) :
    held = false ∧ l = [] ∧ b = [] ∧ n = 0 := by
  cases h
  exact ⟨rfl, rfl, rfl, rfl⟩

theorem Phase.lockReq_inv (h : Phase val held pc (.lockReq :: l) b n) :
    held = false ∧ (∃ c, pc = .waitLock c) ∧ l = [] ∧ b = [] ∧ n = 0 := by
  cases h
  exact ⟨rfl, ⟨_, rfl⟩, rfl, rfl, rfl⟩

theorem Phase.lockAns_inv {c : AtomicCall V} (h : Phase val held (.waitLock c) l (.lockAns :: b) n) :
    held = true ∧ l = [] ∧ b = [] ∧ n = 0 := by
  cases h
  exact ⟨rfl, rfl, rfl, rfl⟩

theorem Phase.get_inv (h : Phase val held pc (.get :: l) b n) :
    held = true ∧ (∃ c, pc = .waitGet c) ∧ l = [] ∧ b = [] ∧ n = 0 := by
  cases h
  exact ⟨rfl, ⟨_, rfl⟩, rfl, rfl, rfl⟩

theorem Phase.getAns_inv {c : AtomicCall V} {v : V}
    (h : Phase val held (.waitGet c) l (.getAns v :: b) n) :
    held = true ∧ v = val ∧ l = [] ∧ b = [] ∧ n = 0 := by
  cases h
  exact ⟨rfl, rfl, rfl, rfl, rfl⟩

theorem Phase.got_inv {c : AtomicCall V} {v : V} (h : Phase val held (.got c v) l b n) :
    held = true ∧ v = val ∧ l = [] ∧ b = [] ∧ n = 0 := by
  cases h
  exact ⟨rfl, rfl, rfl, rfl, rfl⟩

theorem Phase.accumulate_inv {c : AtomicCall V} {v : V} {f : V → V}
    (h : Phase val held pc (.accumulate c v f :: l) b n) :
    held = true ∧ v = val ∧ f val = c.fn.update val ∧ ∀ w, Phase w true pc l b n := by
  cases h with
  | posted c f hf => exact ⟨rfl, rfl, hf, fun _ => .updated⟩
  | releasing c f hf => exact ⟨rfl, rfl, hf, fun _ => .unlocking⟩

theorem Phase.accumulated_inv (h : Phase val held .accumulated l b n) :
    held = true ∧ b = [] ∧ n = 0 ∧
      (l = [] ∨ ∃ c f, l = [.accumulate c val f] ∧ f val = c.fn.update val) := by
  cases h with
  | posted c f hf => exact ⟨rfl, rfl, rfl, .inr ⟨c, f, rfl, hf⟩⟩
  | updated => exact ⟨rfl, rfl, rfl, .inl rfl⟩

theorem Phase.unlockReq_inv (h : Phase val held pc (.unlockReq :: l) b n) :
    held = true ∧ pc = .waitUnlock ∧ l = [] ∧ b = [] ∧ n = 0 := by
  cases h
  exact ⟨rfl, rfl, rfl, rfl, rfl⟩

theorem Phase.unlockAns_inv (h : Phase val held .waitUnlock l (.unlockAns :: b) n) :
    held = false ∧ l = [] ∧ b = [] ∧ n = 0 := by
  cases h
  exact ⟨rfl, rfl, rfl, rfl⟩

end

def ElemSt.PhaseOf (s : ElemSt V) (held : Bool) (o : Nat) : Prop :=
  Phase s.val held (s.site o).pc ((s.site o).out.filter AtomicMsg.isLock) (s.site o).back
    (s.lockList.count o)

theorem Phase.of_closed {held : Bool} {t : Site V} {n : Nat}
    (h : Phase val held t.pc (t.out.filter AtomicMsg.isLock) t.back n)
    (hc : val' = val ∨ ¬ t.Open) :
    Phase val' held t.pc (t.out.filter AtomicMsg.isLock) t.back n := by
  rcases hc with rfl | hc
  · exact h
  obtain ⟨pc, out, back⟩ := t
  have hacc : ∀ c v f, .accumulate c v f ∉ out.filter AtomicMsg.isLock := fun c v f hm =>
    hc (.inr (.inr ⟨c, v, f, mem_of_mem_filter hm⟩))
  generalize out.filter AtomicMsg.isLock = ctl at h hacc
  dsimp only at h ⊢
  cases h with
  | idle => exact .idle
  | asked => exact .asked _
  | queued => exact .queued _
  | granted => exact .granted _
  | getting => exact .getting _
  | fetched => exact absurd (.inl ⟨val, mem_singleton_self _⟩) hc
  | got c => exact absurd (.inr (.inl ⟨c, val, rfl⟩)) hc
  | posted c f => exact absurd mem_cons_self (hacc c val f)
  | updated => exact .updated
  | releasing c f => exact absurd mem_cons_self (hacc c val f)
  | unlocking => exact .unlocking
  | unlocked => exact .unlocked

theorem Phase.not_open {t : Site V} {n : Nat}
    (h : Phase val false t.pc (t.out.filter AtomicMsg.isLock) t.back n) : ¬ t.Open := by
  obtain ⟨pc, out, back⟩ := t
  have hacc : ∀ c v f, .accumulate c v f ∈ out →
      .accumulate c v f ∈ out.filter AtomicMsg.isLock := fun c v f hm =>
    mem_filter.2 ⟨hm, rfl⟩
  generalize out.filter AtomicMsg.isLock = ctl at h hacc
  rintro (⟨v, hv⟩ | ⟨c, v, hpc⟩ | ⟨c, v, f, hm⟩)
  · dsimp only at h hv
    cases h <;> simp at hv
  · dsimp only at h hpc
    subst hpc
    cases h
  · have hctl := hacc c v f hm
    dsimp only at h
    clear hacc
    cases h <;> simp at hctl

/-- What is said about a message: a read does not change the element, and the target does not send
accumulates to itself. -/
def AtomicMsg.Ok (cfg : ElemCfg) (o : Nat) : AtomicMsg V → Prop
  | .read c => ∀ v, c.fn.update v = v
  | .accumulate _ _ _ => o ≠ cfg.target
  | _ => True

/-- The invariant: the origin `hd` holds the internal lock, and the calls in the order in which they
have taken effect give the value of the element. -/
structure ElemSt.Ok (cfg : ElemCfg) (v₀ : V) (hd : Option Nat) (s : ElemSt V) : Prop where
  phase : ∀ o, s.PhaseOf (decide (hd = some o)) o
  free : s.lockInternal = false → hd = none
  serial : replay v₀ s.effects = some s.val
  msgs : ∀ o, ∀ m ∈ (s.site o).out, m.Ok cfg o

theorem ElemSt.Ok.init (cfg : ElemCfg) (v₀ : V) : (ElemSt.init v₀).Ok cfg v₀ none where
  phase := fun _ => Phase.idle
  free := fun _ => rfl
  serial := rfl
  msgs := nofun

variable {hd hd' : Option Nat}

/-! ## One origin at a time -/

omit [DecidableEq V] in
@[simp] theorem ElemSt.setSite_self (s : ElemSt V) (o : Nat) (t : Site V) :
    (s.setSite o t).site o = t := update_self ..

omit [DecidableEq V] in
@[simp] theorem ElemSt.setSite_of_ne {o' : Nat} (h : o' ≠ o) (s : ElemSt V) (t : Site V) :
    (s.setSite o t).site o' = s.site o' := update_of_ne h ..

theorem ElemSt.Ok.of_site (h : s.Ok cfg v₀ hd)
    (hsite : ∀ o' ≠ o, s'.site o' = s.site o')
    (hcount : ∀ o' ≠ o, s'.lockList.count o' = s.lockList.count o')
    (hheld : ∀ o' ≠ o, (hd' = some o' ↔ hd = some o'))
    (hval : s'.val = s.val ∨ ∀ o' ≠ o, ¬ (s.site o').Open)
    (ho : s'.PhaseOf (decide (hd' = some o)) o) (hfree : s'.lockInternal = false → hd' = none)
    (hserial : replay v₀ s'.effects = some s'.val)
    (hmsgs : ∀ m ∈ (s'.site o).out, m.Ok cfg o) : s'.Ok cfg v₀ hd' := by
  refine ⟨fun o' => ?_, hfree, hserial, fun o' => ?_⟩
  · by_cases heq : o' = o
    · exact heq ▸ ho
    · have hp := h.phase o'
      unfold ElemSt.PhaseOf at hp ⊢
      rw [hsite o' heq, hcount o' heq, decide_eq_decide.2 (hheld o' heq)]
      exact hp.of_closed (hval.imp id fun hno => hno o' heq)
  · by_cases heq : o' = o
    · exact heq ▸ hmsgs
    · rw [hsite o' heq]
      exact h.msgs o'

theorem ElemSt.Ok.setSite (h : s.Ok cfg v₀ hd) {t : Site V}
    (ho : Phase s.val (decide (hd = some o)) t.pc (t.out.filter AtomicMsg.isLock) t.back
      (s.lockList.count o)) (hmsgs : ∀ m ∈ t.out, m.Ok cfg o) : (s.setSite o t).Ok cfg v₀ hd := by
  refine h.of_site (o := o) (fun o' hne => ElemSt.setSite_of_ne hne s t) (fun _ _ => rfl)
    (fun _ _ => Iff.rfl) (.inl rfl) ?_ h.free h.serial ?_
  · unfold ElemSt.PhaseOf
    rw [ElemSt.setSite_self]
    exact ho
  · rw [ElemSt.setSite_self]
    exact hmsgs

theorem ElemSt.Ok.others_closed (h : s.Ok cfg v₀ (some o)) :
    ∀ o' ≠ o, ¬ (s.site o').Open := by
  intro o' hne
  have hp := h.phase o'
  rw [decide_eq_false fun heq => hne (Option.some.inj heq).symm] at hp
  exact hp.not_open

theorem ElemSt.Ok.effect (h : s.Ok cfg v₀ hd)
    (hval : c.fn.update s.val = s.val ∨ ∀ o', ¬ (s.site o').Open) :
    (s.effect c s.val (c.fn.update s.val)).Ok cfg v₀ hd := by
  refine ⟨fun o => ?_, h.free, replay_append h.serial, h.msgs⟩
  exact Phase.of_closed (h.phase o) (hval.imp id fun hno => hno o)

theorem ElemSt.Ok.doUnlockInternal
    (h : ({ s with lockInternal := false } : ElemSt V).Ok cfg v₀ none) :
    ∃ hd, s.doUnlockInternal.Ok cfg v₀ hd := by
  unfold ElemSt.doUnlockInternal
  split
  · exact ⟨none, h⟩
  · next o rest hlist =>
    refine ⟨some o, ?_⟩
    simp only [ElemSt.doTrylockInternal, Bool.false_eq_true, ↓reduceIte]
    have hp := h.phase o
    simp only [ElemSt.PhaseOf, hlist, count_cons_self, reduceCtorEq, decide_false] at hp
    generalize hpc : (s.site o).pc = pc at hp
    generalize hout : (s.site o).out.filter AtomicMsg.isLock = out at hp
    generalize hback : (s.site o).back = back at hp
    generalize hcnt : rest.count o + 1 = n at hp
    cases hp with
    | queued c =>
      refine h.of_site (o := o) (fun o' hne => ElemSt.setSite_of_ne hne _ _) ?_ ?_ (.inl rfl) ?_
        nofun h.serial ?_
      · intro o' hne
        show rest.count o' = s.lockList.count o'
        rw [hlist, count_cons_of_ne (Ne.symm hne)]
      · intro o' hne
        simp [Ne.symm hne]
      · have hzero : rest.count o = 0 := by omega
        simp only [ElemSt.PhaseOf, ElemSt.answer, ElemSt.setSite_self, hpc, hout, hback,
          nil_append, decide_true]
        show Phase _ _ _ _ _ (rest.count o)
        rw [hzero]
        exact .granted c
      · intro m hm
        simp only [ElemSt.answer, ElemSt.setSite_self] at hm
        exact h.msgs o m hm
    | _ => omega

/-! ## The steps -/

theorem ElemSt.Ok.call (h : s.Ok cfg v₀ hd) {fn : AtomicFn V} (hpc : (s.site o).pc = .idle)
    (hapart : o = cfg.target → fn.path cfg.rmaApi = .callback →
      fn.update s.val = s.val ∨ ∀ o', ¬ (s.site o').Open) :
    ∃ hd, (s.call cfg o fn).Ok cfg v₀ hd := by
  have h' : ({ s with issued := s.issued + 1 } : ElemSt V).Ok cfg v₀ hd :=
    ⟨h.phase, h.free, h.serial, h.msgs⟩
  have hp := h.phase o
  rw [ElemSt.PhaseOf, hpc] at hp
  obtain ⟨hheld, hout, hback, hcnt⟩ := hp.idle_inv
  have happ : ∀ m : AtomicMsg V, m.Ok cfg o → ∀ m' ∈ (s.site o).out ++ [m], m'.Ok cfg o := by
    intro m hm m' hm'
    rcases mem_append.1 hm' with hm' | hm'
    · exact h.msgs o m' hm'
    · exact mem_singleton.1 hm' ▸ hm
  unfold ElemSt.call
  dsimp only
  split
  · next hpath =>
    have hid := AtomicFn.update_of_get hpath
    split
    · refine ⟨hd, ?_⟩
      have heff := h'.effect (c := ⟨s.issued, fn⟩) (.inl (hid _))
      simp only [hid] at heff
      exact heff
    · refine ⟨hd, h'.setSite ?_ (happ _ hid)⟩
      simpa [AtomicMsg.isLock, ElemSt.PhaseOf] using h.phase o
  · next hpath =>
    split
    · next ho => exact ⟨hd, h'.effect (hapart ho hpath)⟩
    · refine ⟨hd, h'.setSite ?_ (happ _ trivial)⟩
      simpa [AtomicMsg.isLock, ElemSt.PhaseOf] using h.phase o
  · split
    · next hlocal =>
      refine ⟨some o, h'.of_site (o := o) (fun o' hne => ElemSt.setSite_of_ne hne _ _)
        (fun _ _ => rfl) (fun o' hne => ?_) (.inl rfl) ?_ nofun h.serial ?_⟩
      · rw [h.free hlocal.2]
        simp [Ne.symm hne]
      · simp only [ElemSt.PhaseOf, ElemSt.setSite_self, hout, hback, decide_true]
        show Phase _ _ _ _ _ (s.lockList.count o)
        rw [hcnt]
        exact .got _
      · intro m hm
        simp only [ElemSt.setSite_self] at hm
        exact h.msgs o m hm
    · refine ⟨hd, h'.setSite ?_ (happ _ trivial)⟩
      show Phase _ _ _ _ _ (s.lockList.count o)
      simp only [filter_append, hout, hback, hcnt, hheld]
      exact .asked _

theorem ElemSt.Ok.msgs_tail (h : s.Ok cfg v₀ hd) {m : AtomicMsg V} {rest : List (AtomicMsg V)}
    (hout : (s.site o).out = m :: rest) : ∀ m' ∈ rest, m'.Ok cfg o := fun m' hm' =>
  h.msgs o m' (hout ▸ mem_cons_of_mem _ hm')

theorem ElemSt.Ok.recv_data (h : s.Ok cfg v₀ hd) {m : AtomicMsg V} {rest : List (AtomicMsg V)}
    (hout : (s.site o).out = m :: rest) (hm : m.isLock = false) :
    (s.setSite o { s.site o with out := rest }).Ok cfg v₀ hd := by
  refine h.setSite ?_ (h.msgs_tail hout)
  have hp := h.phase o
  rw [ElemSt.PhaseOf, hout, filter_cons_of_neg (by simp [hm])] at hp
  exact hp

theorem ElemSt.Ok.recv_lockReq (h : s.Ok cfg v₀ hd) {rest : List (AtomicMsg V)}
    (hout : (s.site o).out = .lockReq :: rest) :
    ∃ hd, ((s.setSite o { s.site o with out := rest }).doLockInternal o).Ok cfg v₀ hd := by
  have hp := h.phase o
  rw [ElemSt.PhaseOf, hout] at hp
  obtain ⟨hheld, ⟨c, hpc⟩, hrest, hback, hcnt⟩ := hp.lockReq_inv
  unfold ElemSt.doLockInternal ElemSt.doTrylockInternal
  by_cases hlock : s.lockInternal = true
  · refine ⟨hd, ?_⟩
    rw [if_pos (show (s.setSite o _).lockInternal = true from hlock)]
    refine h.of_site (o := o) (fun o' hne => ElemSt.setSite_of_ne hne _ _) ?_ (fun _ _ => Iff.rfl)
      (.inl rfl) ?_ h.free h.serial ?_
    · intro o' hne
      show (s.lockList ++ [o]).count o' = s.lockList.count o'
      simp [count_append, Ne.symm hne]
    · simp only [ElemSt.PhaseOf, ElemSt.setSite_self, hpc, hrest, hback, hheld]
      show Phase _ _ _ _ _ ((s.lockList ++ [o]).count o)
      rw [count_append, hcnt, count_singleton_self]
      exact .queued c
    · simpa using h.msgs_tail hout
  · have hnone := h.free (Bool.eq_false_iff.2 hlock)
    refine ⟨some o, ?_⟩
    rw [if_neg (show ¬ (s.setSite o _).lockInternal = true from hlock)]
    refine h.of_site (o := o) (fun o' hne => ?_) (fun _ _ => rfl) (fun o' hne => ?_) (.inl rfl) ?_
      nofun h.serial ?_
    · simp [ElemSt.answer, ElemSt.setSite, hne]
    · rw [hnone]
      simp [Ne.symm hne]
    · simp only [ElemSt.PhaseOf, ElemSt.answer, ElemSt.setSite, update_self, hpc, hrest,
        hback, hcnt, decide_true]
      exact .granted c
    · simpa [ElemSt.answer, ElemSt.setSite] using h.msgs_tail hout

theorem ElemSt.Ok.recv_get (h : s.Ok cfg v₀ hd) {rest : List (AtomicMsg V)}
    (hout : (s.site o).out = .get :: rest) :
    ((s.setSite o { s.site o with out := rest }).answer o (.getAns s.val)).Ok cfg v₀ hd := by
  have hp := h.phase o
  rw [ElemSt.PhaseOf, hout] at hp
  obtain ⟨hheld, ⟨c, hpc⟩, hrest, hback, hcnt⟩ := hp.get_inv
  refine h.of_site (o := o) (fun o' hne => ?_) (fun _ _ => rfl) (fun _ _ => Iff.rfl) (.inl rfl) ?_
    h.free h.serial ?_
  · simp [ElemSt.answer, ElemSt.setSite, hne]
  · simp only [ElemSt.PhaseOf, ElemSt.answer, ElemSt.setSite, update_self, hpc, hrest,
      hback, hcnt, hheld]
    exact .fetched c
  · simpa [ElemSt.answer, ElemSt.setSite] using h.msgs_tail hout

theorem ElemSt.Ok.recv_accumulate (h : s.Ok cfg v₀ hd) {v : V} {f : V → V}
    {rest : List (AtomicMsg V)} (hout : (s.site o).out = .accumulate c v f :: rest) :
    ((s.setSite o { s.site o with out := rest }).effect c v (f s.val)).Ok cfg v₀ hd := by
  have hp := h.phase o
  rw [ElemSt.PhaseOf, hout] at hp
  obtain ⟨hheld, rfl, hf, hphase⟩ := hp.accumulate_inv
  obtain rfl : hd = some o := of_decide_eq_true hheld
  refine h.of_site (o := o) (fun o' hne => ElemSt.setSite_of_ne hne _ _) (fun _ _ => rfl)
    (fun _ _ => Iff.rfl) (.inr h.others_closed) ?_ h.free ?_ ?_
  · unfold ElemSt.PhaseOf ElemSt.effect
    rw [hheld]
    simp only [ElemSt.setSite_self]
    exact hphase _
  · show replay v₀ (s.effects ++ [(c, s.val)]) = some (f s.val)
    rw [hf]
    exact replay_append h.serial
  · simpa [ElemSt.effect] using h.msgs_tail hout

theorem ElemSt.Ok.recv_unlockReq (h : s.Ok cfg v₀ hd) {rest : List (AtomicMsg V)}
    (hout : (s.site o).out = .unlockReq :: rest) : ∃ hd,
    ((s.setSite o { s.site o with out := rest }).answer o .unlockAns).doUnlockInternal.Ok
      cfg v₀ hd := by
  have hp := h.phase o
  rw [ElemSt.PhaseOf, hout] at hp
  obtain ⟨hheld, hpc, hrest, hback, hcnt⟩ := hp.unlockReq_inv
  obtain rfl : hd = some o := of_decide_eq_true hheld
  refine ElemSt.Ok.doUnlockInternal (h.of_site (o := o) (fun o' hne => ?_) (fun _ _ => rfl)
    (fun o' hne => ?_) (.inl rfl) ?_ (fun _ => rfl) h.serial ?_)
  · simp [ElemSt.answer, ElemSt.setSite, hne]
  · simp [Ne.symm hne]
  · simp only [ElemSt.PhaseOf, ElemSt.answer, ElemSt.setSite, update_self, hpc, hrest,
      hback, hcnt]
    exact .unlocked
  · simpa [ElemSt.answer, ElemSt.setSite] using h.msgs_tail hout

theorem ElemSt.Ok.recv (h : s.Ok cfg v₀ hd) {m : AtomicMsg V} {rest : List (AtomicMsg V)}
    (hout : (s.site o).out = m :: rest)
    (hapart : ∀ c, m = .rmw c → c.fn.update s.val = s.val ∨ ∀ o', ¬ (s.site o').Open) :
    ∃ hd, ((s.setSite o { s.site o with out := rest }).recv o m).Ok cfg v₀ hd := by
  cases m with
  | lockReq => exact h.recv_lockReq hout
  | get => exact ⟨hd, h.recv_get hout⟩
  | read c =>
    have hid : ∀ v, c.fn.update v = v := h.msgs o (.read c) (hout ▸ mem_cons_self)
    have heff := (h.recv_data hout rfl).effect (c := c) (.inl (hid _))
    simp only [hid] at heff
    exact ⟨hd, heff⟩
  | rmw c =>
    refine ⟨hd, (h.recv_data hout rfl).effect ((hapart c rfl).imp id fun hno o' => ?_)⟩
    by_cases heq : o' = o
    · subst heq
      rintro (hop | hop | ⟨c, v, f, hop⟩)
      · exact hno o' (.inl (by simpa using hop))
      · exact hno o' (.inr (.inl (by simpa using hop)))
      · exact hno o' (.inr (.inr ⟨c, v, f, by
          rw [hout]
          exact mem_cons_of_mem _ (by simpa using hop)⟩))
    · rw [ElemSt.setSite_of_ne heq]
      exact hno o'
  | accumulate c v f => exact ⟨hd, h.recv_accumulate hout⟩
  | unlockReq => exact h.recv_unlockReq hout

theorem ElemSt.Ok.lockAns (h : s.Ok cfg v₀ hd) {b : List (AtomicAns V)}
    (hpc : (s.site o).pc = .waitLock c) (hback : (s.site o).back = .lockAns :: b) :
    (s.lockAns cfg o c b).Ok cfg v₀ hd := by
  have hp := h.phase o
  rw [ElemSt.PhaseOf, hpc, hback] at hp
  obtain ⟨hheld, hout, rfl, hcnt⟩ := hp.lockAns_inv
  unfold ElemSt.lockAns
  dsimp only
  split
  · refine h.setSite ?_ (h.msgs o)
    rw [hheld, hout, hcnt]
    exact .got c
  · refine h.setSite ?_ fun m hm => ?_
    · rw [hheld, filter_append, hout, hcnt]
      exact .getting c
    · rcases mem_append.1 hm with hm | hm
      · exact h.msgs o m hm
      · rw [mem_singleton.1 hm]
        trivial

theorem ElemSt.Ok.getAns (h : s.Ok cfg v₀ hd) {v : V} {b : List (AtomicAns V)}
    (hpc : (s.site o).pc = .waitGet c) (hback : (s.site o).back = .getAns v :: b) :
    (s.setSite o { s.site o with pc := .got c v, back := b }).Ok cfg v₀ hd := by
  have hp := h.phase o
  rw [ElemSt.PhaseOf, hpc, hback] at hp
  obtain ⟨hheld, rfl, hout, rfl, hcnt⟩ := hp.getAns_inv
  refine h.setSite ?_ (h.msgs o)
  rw [hheld, hout, hcnt]
  exact .got c

theorem ElemSt.Ok.accumulate (h : s.Ok cfg v₀ hd) {v : V} (hpc : (s.site o).pc = .got c v) :
    (s.accumulate cfg o c v).Ok cfg v₀ hd := by
  have hp := h.phase o
  rw [ElemSt.PhaseOf, hpc] at hp
  obtain ⟨hheld, rfl, hout, hback, hcnt⟩ := hp.got_inv
  obtain rfl : hd = some o := of_decide_eq_true hheld
  have hupd : ∀ w, Phase w true LockPc.accumulated
      ((s.site o).out.filter AtomicMsg.isLock) (s.site o).back (s.lockList.count o) := by
    intro w
    rw [hout, hback, hcnt]
    exact .updated
  have heff : ∀ w, w = c.fn.update s.val →
      ((s.setSite o { s.site o with pc := .accumulated }).effect c s.val w).Ok cfg v₀
        (some o) := by
    rintro w rfl
    refine h.of_site (o := o) (fun o' hne => ElemSt.setSite_of_ne hne _ _) (fun _ _ => rfl)
      (fun _ _ => Iff.rfl) (.inr h.others_closed) ?_ h.free (replay_append h.serial) ?_
    · unfold ElemSt.PhaseOf ElemSt.effect
      rw [hheld]
      simp only [ElemSt.setSite_self]
      exact hupd _
    · simpa [ElemSt.effect] using h.msgs o
  unfold ElemSt.accumulate
  dsimp only
  split
  · next hsec => exact heff _ (AtomicFn.second_none hsec).symm
  · next f hsec =>
    split
    · exact heff _ (AtomicFn.second_some hsec)
    · next hne =>
      refine h.setSite ?_ fun m hm => ?_
      · rw [hheld, filter_append, hout, hback, hcnt]
        exact .posted c f (AtomicFn.second_some hsec)
      · rcases mem_append.1 hm with hm | hm
        · exact h.msgs o m hm
        · rw [mem_singleton.1 hm]
          exact hne

theorem ElemSt.Ok.unlock (h : s.Ok cfg v₀ hd) (hpc : (s.site o).pc = .accumulated) :
    ∃ hd, (s.unlock cfg o).Ok cfg v₀ hd := by
  have hp := h.phase o
  rw [ElemSt.PhaseOf, hpc] at hp
  obtain ⟨hheld, hback, hcnt, hout⟩ := hp.accumulated_inv
  obtain rfl : hd = some o := of_decide_eq_true hheld
  unfold ElemSt.unlock
  dsimp only
  split
  · next ho =>
    have hnil : (s.site o).out.filter AtomicMsg.isLock = [] := by
      rcases hout with hnil | ⟨c, f, hacc, -⟩
      · exact hnil
      · have hm : AtomicMsg.accumulate c s.val f ∈ (s.site o).out :=
          mem_of_mem_filter (hacc ▸ mem_singleton_self _)
        exact absurd ho (h.msgs o _ hm)
    refine ElemSt.Ok.doUnlockInternal (h.of_site (o := o)
      (fun o' hne => ElemSt.setSite_of_ne hne _ _) (fun _ _ => rfl) (fun o' hne => ?_) (.inl rfl) ?_
      (fun _ => rfl) h.serial ?_)
    · simp [Ne.symm hne]
    · simp only [ElemSt.PhaseOf, ElemSt.setSite_self, hnil, hback]
      show Phase _ _ _ _ _ (s.lockList.count o)
      rw [hcnt]
      exact .idle
    · simpa using h.msgs o
  · refine ⟨some o, h.setSite ?_ fun m hm => ?_⟩
    · rw [hheld, filter_append, hback, hcnt]
      rcases hout with hnil | ⟨c, f, hacc, hf⟩
      · rw [hnil]
        exact .unlocking
      · rw [hacc]
        exact .releasing c f hf
    · rcases mem_append.1 hm with hm | hm
      · exact h.msgs o m hm
      · rw [mem_singleton.1 hm]
        trivial

theorem ElemSt.Ok.unlockAns (h : s.Ok cfg v₀ hd) {b : List (AtomicAns V)}
    (hpc : (s.site o).pc = .waitUnlock) (hback : (s.site o).back = .unlockAns :: b) :
    (s.setSite o { s.site o with pc := .idle, back := b }).Ok cfg v₀ hd := by
  have hp := h.phase o
  rw [ElemSt.PhaseOf, hpc, hback] at hp
  obtain ⟨hheld, hout, rfl, hcnt⟩ := hp.unlockAns_inv
  refine h.setSite ?_ (h.msgs o)
  rw [hheld, hout, hcnt]
  exact .idle

theorem ElemSt.step_cases {a : ElemAct V} (hs : s.step cfg a = some s') :
    ∃ o < cfg.size,
      (∃ fn, a = .call o fn ∧ (s.site o).pc = .idle ∧ s' = s.call cfg o fn) ∨
      (∃ m rest, a = .recv o ∧ (s.site o).out = m :: rest ∧
        s' = (s.setSite o { s.site o with out := rest }).recv o m) ∨
      (∃ c b, (s.site o).pc = .waitLock c ∧ (s.site o).back = .lockAns :: b ∧
        s' = s.lockAns cfg o c b) ∨
      (∃ c v b, (s.site o).pc = .waitGet c ∧ (s.site o).back = .getAns v :: b ∧
        s' = s.setSite o { s.site o with pc := .got c v, back := b }) ∨
      (∃ c v, (s.site o).pc = .got c v ∧ s' = s.accumulate cfg o c v) ∨
      ((s.site o).pc = .accumulated ∧ s' = s.unlock cfg o) ∨
      (∃ b, (s.site o).pc = .waitUnlock ∧ (s.site o).back = .unlockAns :: b ∧
        s' = s.setSite o { s.site o with pc := .idle, back := b }) := by
  obtain ⟨ho, hs⟩ := Option.ite_none_right_eq_some.1 hs
  refine ⟨a.origin, ho, ?_⟩
  cases a with
  | call o fn =>
    simp only [ElemSt.stepAt] at hs
    split at hs
    · next hpc => exact .inl ⟨fn, rfl, hpc, (Option.some.inj hs).symm⟩
    · cases hs
  | recv o =>
    simp only [ElemSt.stepAt] at hs
    split at hs
    · next m rest hout => exact .inr (.inl ⟨m, rest, rfl, hout, (Option.some.inj hs).symm⟩)
    · cases hs
  | lockAns o =>
    simp only [ElemSt.stepAt] at hs
    split at hs
    · next c b hpc hback =>
      exact .inr (.inr (.inl ⟨c, b, hpc, hback, (Option.some.inj hs).symm⟩))
    · cases hs
  | getAns o =>
    simp only [ElemSt.stepAt] at hs
    split at hs
    · next c v b hpc hback =>
      exact .inr (.inr (.inr (.inl ⟨c, v, b, hpc, hback, (Option.some.inj hs).symm⟩)))
    · cases hs
  | accumulate o =>
    simp only [ElemSt.stepAt] at hs
    split at hs
    · next c v hpc =>
      exact .inr (.inr (.inr (.inr (.inl ⟨c, v, hpc, (Option.some.inj hs).symm⟩))))
    · cases hs
  | unlock o =>
    simp only [ElemSt.stepAt] at hs
    split at hs
    · next hpc =>
      exact .inr (.inr (.inr (.inr (.inr (.inl ⟨hpc, (Option.some.inj hs).symm⟩)))))
    · cases hs
  | unlockAns o =>
    simp only [ElemSt.stepAt] at hs
    split at hs
    · next b hpc hback =>
      exact .inr (.inr (.inr (.inr (.inr (.inr ⟨b, hpc, hback, (Option.some.inj hs).symm⟩)))))
    · cases hs

theorem ElemSt.Ok.step (h : s.Ok cfg v₀ hd) {a : ElemAct V} (ha : s.Apart cfg a)
    (hs : s.step cfg a = some s') : ∃ hd, s'.Ok cfg v₀ hd := by
  obtain ⟨o, -, ⟨fn, rfl, hpc, rfl⟩ | ⟨m, rest, rfl, hout, rfl⟩ | ⟨c, b, hpc, hback, rfl⟩ |
    ⟨c, v, b, hpc, hback, rfl⟩ | ⟨c, v, hpc, rfl⟩ | ⟨hpc, rfl⟩ | ⟨b, hpc, hback, rfl⟩⟩ :=
    ElemSt.step_cases hs
  · exact h.call hpc ha
  · exact h.recv hout fun c hm => ha c rest (hm ▸ hout)
  · exact ⟨hd, h.lockAns hpc hback⟩
  · exact ⟨hd, h.getAns hpc hback⟩
  · exact ⟨hd, h.accumulate hpc⟩
  · exact h.unlock hpc
  · exact ⟨hd, h.unlockAns hpc hback⟩

/-! ## Every call takes effect once -/

def LockPc.ids : LockPc V → List Nat
  | .waitLock c => [c.id]
  | .waitGet c => [c.id]
  | .got c _ => [c.id]
  | _ => []

def AtomicMsg.ids : AtomicMsg V → List Nat
  | .read c => [c.id]
  | .rmw c => [c.id]
  | .accumulate c _ _ => [c.id]
  | _ => []

def Site.ids (t : Site V) : List Nat := t.pc.ids ++ t.out.flatMap AtomicMsg.ids

def ElemSt.copies (cfg : ElemCfg) (s : ElemSt V) (k : Nat) : Nat :=
  (s.effects.map fun x => x.1.id).count k + ∑ o ∈ Finset.range cfg.size, (s.site o).ids.count k

omit [DecidableEq V] in
theorem ElemSt.copies_setSite (ho : o < cfg.size) (t : Site V) (k : Nat) :
    (s.setSite o t).copies cfg k + (s.site o).ids.count k = s.copies cfg k + t.ids.count k := by
  have hmem : o ∈ Finset.range cfg.size := Finset.mem_range.2 ho
  have hold := Finset.add_sum_erase _ (fun x => (s.site x).ids.count k) hmem
  have hnew := Finset.add_sum_erase _ (fun x => ((s.setSite o t).site x).ids.count k) hmem
  have hrest : ∑ x ∈ (Finset.range cfg.size).erase o, ((s.setSite o t).site x).ids.count k =
      ∑ x ∈ (Finset.range cfg.size).erase o, (s.site x).ids.count k :=
    Finset.sum_congr rfl fun x hx => by rw [ElemSt.setSite_of_ne (Finset.mem_erase.1 hx).1]
  have heff : (s.setSite o t).effects = s.effects := rfl
  simp only [ElemSt.setSite_self] at hnew
  simp only [ElemSt.copies, heff]
  omega

omit [DecidableEq V] in
theorem ElemSt.copies_setSite_of_ids (ho : o < cfg.size) {t : Site V}
    (ht : t.ids = (s.site o).ids) (k : Nat) : (s.setSite o t).copies cfg k = s.copies cfg k := by
  have := ElemSt.copies_setSite (s := s) ho t k
  rw [ht] at this
  omega

omit [DecidableEq V] in
theorem ElemSt.copies_effect (c : AtomicCall V) (v w : V) (k : Nat) :
    (s.effect c v w).copies cfg k = s.copies cfg k + [c.id].count k := by
  simp only [ElemSt.copies, ElemSt.effect, map_append, map_cons, map_nil,
    count_append]
  omega

omit [DecidableEq V] in
theorem ElemSt.copies_congr (heff : s'.effects = s.effects)
    (hids : ∀ o, (s'.site o).ids = (s.site o).ids) (k : Nat) :
    s'.copies cfg k = s.copies cfg k := by
  simp only [ElemSt.copies, heff, hids]

omit [DecidableEq V] in
theorem ElemSt.ids_answer (o : Nat) (a : AtomicAns V) (o' : Nat) :
    ((s.answer o a).site o').ids = (s.site o').ids := by
  by_cases heq : o' = o
  · subst heq
    simp [ElemSt.answer, Site.ids]
  · simp [ElemSt.answer, heq]

omit [DecidableEq V] in
theorem ElemSt.copies_answer (o : Nat) (a : AtomicAns V) (k : Nat) :
    (s.answer o a).copies cfg k = s.copies cfg k := by
  refine ElemSt.copies_congr ?_ (ElemSt.ids_answer o a) k
  rfl

omit [DecidableEq V] in
theorem ElemSt.copies_doLockInternal (o k : Nat) :
    (s.doLockInternal o).copies cfg k = s.copies cfg k := by
  unfold ElemSt.doLockInternal ElemSt.doTrylockInternal
  by_cases hl : s.lockInternal = true
  · rw [if_pos hl]
    rfl
  · rw [if_neg hl]
    exact ElemSt.copies_answer o _ k

omit [DecidableEq V] in
theorem ElemSt.copies_doUnlockInternal (k : Nat) :
    s.doUnlockInternal.copies cfg k = s.copies cfg k := by
  unfold ElemSt.doUnlockInternal
  split
  · rfl
  · next o rest _ =>
    simp only [ElemSt.doTrylockInternal, Bool.false_eq_true, ↓reduceIte]
    exact ElemSt.copies_answer o _ k

theorem ElemSt.copies_call (ho : o < cfg.size) (hpc : (s.site o).pc = .idle) (fn : AtomicFn V)
    (k : Nat) : (s.call cfg o fn).copies cfg k = s.copies cfg k + [s.issued].count k := by
  have hissue : ∀ n, ({ s with issued := n } : ElemSt V).copies cfg k = s.copies cfg k :=
    fun _ => rfl
  have hset : ∀ (n : Nat) (t : Site V), t.ids = (s.site o).ids ++ [s.issued] ∨
      t.ids = s.issued :: (s.site o).ids →
      (ElemSt.setSite { s with issued := n } o t).copies cfg k =
        s.copies cfg k + [s.issued].count k := by
    intro n t ht
    have := ElemSt.copies_setSite (s := { s with issued := n }) ho t k
    rw [hissue] at this
    have hcount : t.ids.count k = (s.site o).ids.count k + [s.issued].count k := by
      rcases ht with ht | ht
      · rw [ht, count_append]
      · rw [ht, count_cons, count_singleton]
    simp only at this
    omega
  unfold ElemSt.call
  dsimp only
  split
  · split
    · rw [ElemSt.copies_effect, hissue]
    · exact hset _ _ (.inl (by simp [Site.ids, AtomicMsg.ids, hpc, LockPc.ids]))
  · split
    · rw [ElemSt.copies_effect, hissue]
    · exact hset _ _ (.inl (by simp [Site.ids, AtomicMsg.ids, hpc, LockPc.ids]))
  · split
    · exact hset _ _ (.inr (by simp [Site.ids, hpc, LockPc.ids]))
    · exact hset _ _ (.inr (by simp [Site.ids, AtomicMsg.ids, hpc, LockPc.ids]))

omit [DecidableEq V] in
theorem ElemSt.copies_setSite_effect (ho : o < cfg.size) {t : Site V} {v w : V} {k : Nat}
    (ht : (s.site o).ids.count k = t.ids.count k + [c.id].count k) :
    ((s.setSite o t).effect c v w).copies cfg k = s.copies cfg k := by
  have hset := ElemSt.copies_setSite (s := s) ho t k
  rw [ElemSt.copies_effect]
  omega

theorem ElemSt.copies_recv (ho : o < cfg.size) {m : AtomicMsg V} {t : Site V} {k : Nat}
    (ht : (s.site o).ids.count k = t.ids.count k + m.ids.count k) :
    ((s.setSite o t).recv o m).copies cfg k = s.copies cfg k := by
  have hset := ElemSt.copies_setSite (s := s) ho t k
  cases m with
  | lockReq =>
    rw [ElemSt.recv, ElemSt.copies_doLockInternal]
    simp only [AtomicMsg.ids, count_nil] at ht
    omega
  | get =>
    rw [ElemSt.recv, ElemSt.copies_answer]
    simp only [AtomicMsg.ids, count_nil] at ht
    omega
  | read c => exact ElemSt.copies_setSite_effect ho ht
  | rmw c => exact ElemSt.copies_setSite_effect ho ht
  | accumulate c v f => exact ElemSt.copies_setSite_effect ho ht
  | unlockReq =>
    rw [ElemSt.recv, ElemSt.copies_doUnlockInternal, ElemSt.copies_answer]
    simp only [AtomicMsg.ids, count_nil] at ht
    omega

theorem ElemSt.copies_accumulate (ho : o < cfg.size) {v : V} (hpc : (s.site o).pc = .got c v)
    (k : Nat) : (s.accumulate cfg o c v).copies cfg k = s.copies cfg k := by
  have hids : (s.site o).ids.count k =
      (Site.ids { s.site o with pc := .accumulated }).count k + [c.id].count k := by
    simp only [Site.ids, hpc, LockPc.ids, nil_append, count_append]
    omega
  unfold ElemSt.accumulate
  dsimp only
  split
  · exact ElemSt.copies_setSite_effect ho hids
  · next f _ =>
    split
    · exact ElemSt.copies_setSite_effect ho hids
    · have hset := ElemSt.copies_setSite (s := s) ho
        ⟨.accumulated, (s.site o).out ++ [AtomicMsg.accumulate c v f], (s.site o).back⟩ k
      have hids' : (Site.ids ⟨.accumulated, (s.site o).out ++ [AtomicMsg.accumulate c v f],
          (s.site o).back⟩).count k = (s.site o).ids.count k := by
        rw [hids]
        simp [Site.ids, LockPc.ids, AtomicMsg.ids, count_append]
      omega

omit [DecidableEq V] in
@[simp] theorem ElemSt.issued_doUnlockInternal : s.doUnlockInternal.issued = s.issued := by
  unfold ElemSt.doUnlockInternal
  split
  · rfl
  · simp only [ElemSt.doTrylockInternal, Bool.false_eq_true, ↓reduceIte]
    rfl

theorem ElemSt.issued_recv (o : Nat) (m : AtomicMsg V) : (s.recv o m).issued = s.issued := by
  cases m with
  | lockReq =>
    unfold ElemSt.recv ElemSt.doLockInternal ElemSt.doTrylockInternal
    by_cases hl : s.lockInternal = true
    · rw [if_pos hl]
    · rw [if_neg hl]
      rfl
  | unlockReq => exact ElemSt.issued_doUnlockInternal
  | _ => rfl

theorem ElemSt.copies_issued {a : ElemAct V} (hs : s.step cfg a = some s') (k : Nat) :
    s'.copies cfg k = s.copies cfg k ∧ s'.issued = s.issued ∨
    s'.copies cfg k = s.copies cfg k + [s.issued].count k ∧ s'.issued = s.issued + 1 := by
  obtain ⟨o, ho, ⟨fn, rfl, hpc, rfl⟩ | ⟨m, rest, rfl, hout, rfl⟩ | ⟨c, b, hpc, hback, rfl⟩ |
    ⟨c, v, b, hpc, hback, rfl⟩ | ⟨c, v, hpc, rfl⟩ | ⟨hpc, rfl⟩ | ⟨b, hpc, hback, rfl⟩⟩ :=
    ElemSt.step_cases hs
  · refine .inr ⟨ElemSt.copies_call ho hpc fn k, ?_⟩
    unfold ElemSt.call
    dsimp only
    split <;> split <;> rfl
  · refine .inl ⟨ElemSt.copies_recv ho ?_, ElemSt.issued_recv _ _⟩
    simp only [Site.ids, hout, flatMap_cons, count_append]
    omega
  · unfold ElemSt.lockAns
    dsimp only
    split
    · exact .inl ⟨ElemSt.copies_setSite_of_ids ho (by simp [Site.ids, hpc, LockPc.ids]) k, rfl⟩
    · exact .inl ⟨ElemSt.copies_setSite_of_ids ho
        (by simp [Site.ids, hpc, LockPc.ids, AtomicMsg.ids]) k, rfl⟩
  · exact .inl ⟨ElemSt.copies_setSite_of_ids ho (by simp [Site.ids, hpc, LockPc.ids]) k, rfl⟩
  · refine .inl ⟨ElemSt.copies_accumulate ho hpc k, ?_⟩
    unfold ElemSt.accumulate
    dsimp only
    split
    · rfl
    · split <;> rfl
  · unfold ElemSt.unlock
    dsimp only
    split
    · refine .inl ⟨?_, ElemSt.issued_doUnlockInternal⟩
      rw [ElemSt.copies_doUnlockInternal]
      exact ElemSt.copies_setSite_of_ids ho (by simp [Site.ids, hpc, LockPc.ids]) k
    · exact .inl ⟨ElemSt.copies_setSite_of_ids ho
        (by simp [Site.ids, hpc, LockPc.ids, AtomicMsg.ids]) k, rfl⟩
  · exact .inl ⟨ElemSt.copies_setSite_of_ids ho (by simp [Site.ids, hpc, LockPc.ids]) k, rfl⟩

theorem ElemSt.copies_step {a : ElemAct V} (h : ∀ k, s.copies cfg k = if k < s.issued then 1 else 0)
    (hs : s.step cfg a = some s') : ∀ k, s'.copies cfg k = if k < s'.issued then 1 else 0 := by
  intro k
  rcases ElemSt.copies_issued hs k with ⟨hc, hi⟩ | ⟨hc, hi⟩
  · rw [hc, hi, h k]
  · rw [hc, hi, h k, count_singleton]
    by_cases hlt : k < s.issued
    · rw [if_pos hlt, if_neg (by simp; omega), if_pos (by omega)]
    · by_cases heq : s.issued = k
      · rw [if_neg hlt, if_pos (by simp [heq]), if_pos (by omega)]
      · rw [if_neg hlt, if_neg (by simp [heq]), if_neg (by omega)]

omit [DecidableEq V] in
theorem ElemSt.effects_of_quiet (h : ∀ k, s.copies cfg k = if k < s.issued then 1 else 0)
    (hq : s.Quiet cfg) : (s.effects.map fun x => x.1.id).Perm (List.range s.issued) := by
  rw [perm_iff_count]
  intro k
  have hsites : ∑ o ∈ Finset.range cfg.size, (s.site o).ids.count k = 0 := by
    refine Finset.sum_eq_zero fun o ho => ?_
    obtain ⟨hpc, hout⟩ := hq o (Finset.mem_range.1 ho)
    simp [Site.ids, hpc, hout, LockPc.ids]
  have hk := h k
  rw [ElemSt.copies, hsites, Nat.add_zero] at hk
  rw [hk, nodup_range.count]
  simp [mem_range]

end

/-- **The atomic calls are serializable.** In all runs in which no callback changes the element
between the get and the accumulate of a call of the lock path, there is an order of the calls that
have taken effect in which they fetch what they have fetched and give the value of the element; and
when no call is going on, these are all calls, each of them once. -/
theorem rma_atomics_serializable {V : Type} [DecidableEq V] (cfg : ElemCfg) (v₀ : V) (s : ElemSt V)
    (hr : (elemSys cfg v₀).ReachWhen (ElemSt.Apart cfg) s) :
    s.Serializable v₀ ∧
      (s.Quiet cfg → (s.effects.map fun x => x.1.id).Perm (List.range s.issued)) := by
  have hok : ∃ hd, s.Ok cfg v₀ hd := by
    refine Sys.ReachWhen.inv (I := fun s : ElemSt V => ∃ hd, s.Ok cfg v₀ hd) ⟨none, ElemSt.Ok.init cfg v₀⟩ ?_ hr
    intro s a s' _ hok ha hs
    obtain ⟨hd, hok⟩ := hok
    exact hok.step ha hs
  have hcopies : ∀ k, s.copies cfg k = if k < s.issued then 1 else 0 := by
    refine Sys.ReachWhen.inv (I := fun s : ElemSt V => ∀ k, s.copies cfg k = if k < s.issued then 1 else 0)
      (fun k => ?_) (fun _ hi _ hs => ElemSt.copies_step hi hs) hr
    simp [ElemSt.copies, elemSys, ElemSt.init, Site.ids, LockPc.ids]
  obtain ⟨hd, hok⟩ := hok
  exact ⟨⟨s.effects, List.Perm.refl _, hok.serial⟩, ElemSt.effects_of_quiet hcopies⟩

def threeCfg : ElemCfg := ⟨3, 0, true⟩

/-- A call of the callback path and then a call of the lock path add two to the element. -/
theorem rma_atomics_serializable_three :
    ∃ s : ElemSt Nat, s.val = 2 ∧ s.Quiet threeCfg ∧ s.Serializable 0 := by
  have h₁ : (elemSys threeCfg 0).ReachWhen (ElemSt.Apart threeCfg) _ :=
    .step (a := ElemAct.call 2 (.fetchAndOp (some (· + 1)))) .init nofun rfl
  have hclosed : ∀ o', ¬ (Site.Open (Function.update (fun _ => (⟨.idle, [], []⟩ : Site Nat)) 2
      ⟨.idle, [.rmw ⟨0, .fetchAndOp (some (· + 1))⟩], []⟩ o')) := by
    intro o'
    by_cases heq : o' = 2
    · subst heq
      simp [Site.Open]
    · simp [Site.Open, heq]
  have h₂ := Sys.ReachWhen.step (a := ElemAct.recv 2) h₁ (fun _ _ _ => .inr hclosed) rfl
  have h₃ := Sys.ReachWhen.step (a := ElemAct.call 1 (.getAccumulate (some (· + 1)) false)) h₂ nofun rfl
  have h₄ := Sys.ReachWhen.step (a := ElemAct.recv 1) h₃ nofun rfl
  have h₅ := Sys.ReachWhen.step (a := ElemAct.lockAns 1) h₄ trivial rfl
  have h₆ := Sys.ReachWhen.step (a := ElemAct.recv 1) h₅ nofun rfl
  have h₇ := Sys.ReachWhen.step (a := ElemAct.getAns 1) h₆ trivial rfl
  have h₈ := Sys.ReachWhen.step (a := ElemAct.accumulate 1) h₇ trivial rfl
  have h₉ := Sys.ReachWhen.step (a := ElemAct.recv 1) h₈ nofun rfl
  have h₁₀ := Sys.ReachWhen.step (a := ElemAct.unlock 1) h₉ trivial rfl
  have h₁₁ := Sys.ReachWhen.step (a := ElemAct.recv 1) h₁₀ nofun rfl
  have h₁₂ := Sys.ReachWhen.step (a := ElemAct.unlockAns 1) h₁₁ trivial rfl
  refine ⟨_, rfl, ?_, (rma_atomics_serializable threeCfg 0 _ h₁₂).1⟩
  intro o ho
  match o, ho with
  | 0, _ => exact ⟨rfl, rfl⟩
  | 1, _ => exact ⟨rfl, rfl⟩
  | 2, _ => exact ⟨rfl, rfl⟩

def callbackBetween : List (ElemAct Nat) :=
  [.call 1 (.getAccumulate (some (· + 1)) false), .recv 1, .lockAns 1, .recv 1,
    .call 2 (.fetchAndOp (some (· + 1))), .recv 2, .getAns 1, .accumulate 1, .recv 1]

theorem rma_atomics_mixed : ∃ s, (elemSys threeCfg 0).Reach s ∧ ¬ s.Serializable 0 := by
  obtain ⟨s, he, hval, heff⟩ : ∃ s, (elemSys threeCfg 0).exec (.init 0) callbackBetween = some s ∧
      s.val = 2 ∧ s.effects = [(⟨1, .fetchAndOp (some (· + 1))⟩, 0),
        (⟨0, .getAccumulate (some (· + 1)) false⟩, 0)] := ⟨_, rfl, rfl, rfl⟩
  refine ⟨s, Sys.exec_reach .init he, ?_⟩
  rintro ⟨order, hperm, hreplay⟩
  rw [heff] at hperm
  have hmem : ∀ x ∈ order, x.2 = 0 ∧ ∀ v, x.1.fn.update v = v + 1 := by
    intro x hx
    rcases mem_cons.1 (hperm.subset hx) with rfl | hx
    · exact ⟨rfl, fun _ => rfl⟩
    · rw [mem_singleton.1 hx]
      exact ⟨rfl, fun _ => rfl⟩
  obtain ⟨x, y, rfl⟩ := length_eq_two.1 hperm.length_eq
  obtain ⟨hx, hux⟩ := hmem x mem_cons_self
  obtain ⟨hy, -⟩ := hmem y (mem_cons_of_mem _ mem_cons_self)
  simp [replay, hx, hy, hux] at hreplay

end PsMpi.Rma
