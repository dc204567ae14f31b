import PsMpi.Nbc.Sched
import Mathlib.Data.List.Nodup

/-!
# Schedules run in order and to their end
-/

open List Option

namespace PsMpi.Nbc

open PsMpi.Lib

/-! ## Entries -/

def EntryType.hasReq : EntryType → Bool
  | .send => true
  | .recv => true
  | .pt2ptSend => true
  | .pt2ptRecv => true
  | _ => false

/-- An entry that has been started once, in time; it has a request if it is not finished. -/
structure StartedOk (e : Entry) : Prop where
  status : e.status ≠ .notStarted
  starts : e.starts = 1
  early : e.early = false
  finished : e.status.isFinished = true → e.req = none
  waits : e.status = .started → e.req.isSome = true ∧ e.type.hasReq = true

structure WaitingOk (e : Entry) : Prop where
  status : e.status = .notStarted
  starts : e.starts = 0
  early : e.early = false
  req : e.req = none

/-- What is returned does not end the run: no error of a local operation, and none at all if errors are
fatal; a failed receive leaves a request. -/
structure Clean (fatal : Bool) (r : Results) : Prop where
  local_ok : r.localErr = false
  recv_req : r.recvErr = true → r.recvReq = true
  not_fatal : fatal = true →
    r.sendErr = false ∧ r.recvErr = false ∧ r.pt2ptErr = false ∧ r.cbErr = false

section entries

variable {s s' : Sched} {i j : Nat} {e : Entry} {f : Entry → Entry}

theorem WaitingOk.new (type : EntryType) : WaitingOk (.new type) := ⟨rfl, rfl, rfl, rfl⟩

theorem isFinished_eq (h : s.entries[i]? = some e) : s.isFinished i = e.status.isFinished := by
  rw [Sched.isFinished, h]
  rfl

theorem isBarrier_eq (h : s.entries[i]? = some e) : s.isBarrier i = e.isBarrier := by
  rw [Sched.isBarrier, h]
  rfl

theorem isFinished_congr (h : s'.entries[i]? = s.entries[i]?) : s'.isFinished i = s.isFinished i := by
  rw [Sched.isFinished, Sched.isFinished, h]

theorem isBarrier_congr (h : s'.entries[i]? = s.entries[i]?) : s'.isBarrier i = s.isBarrier i := by
  rw [Sched.isBarrier, Sched.isBarrier, h]

theorem lt_of_isFinished (h : s.isFinished i = true) : i < s.entries.length := by
  by_contra hlt
  rw [Sched.isFinished, List.getElem?_eq_none (Nat.le_of_not_lt hlt)] at h
  cases h

@[simp] theorem length_modifyEntry : (s.modifyEntry i f).entries.length = s.entries.length :=
  length_modify _ _ _

theorem getElem?_modifyEntry_self (h : s.entries[i]? = some e) :
    (s.modifyEntry i f).entries[i]? = some (f e) := by
  rw [Sched.modifyEntry, List.getElem?_modify_eq, h]
  rfl

theorem getElem?_modifyEntry_of_ne (h : i ≠ j) :
    (s.modifyEntry i f).entries[j]? = s.entries[j]? := by
  rw [Sched.modifyEntry, List.getElem?_modify_ne _ _ h]

end entries

/-! ## The invariant of a run -/

structure Run (s : Sched) (f : Nat) : Prop where
  idx_le : s.idx ≤ f
  le : f ≤ s.entries.length
  done : ∀ j < s.idx, s.isFinished j = true
  started : ∀ j e, j < f → s.entries[j]? = some e → StartedOk e
  waiting : ∀ j e, f ≤ j → s.entries[j]? = some e → WaitingOk e
  barrier : ∀ b < f, s.isBarrier b = true → b < s.idx ∨ b + 1 = f

/-- While entries are started: no barrier has been reached, and `i` is the next entry. -/
structure Mid (s : Sched) (i : Nat) : Prop where
  run : Run s i
  crossed : ∀ b < i, s.isBarrier b = true → b < s.idx
  first : s.idx < i → s.isFinished s.idx = false

/-- Between two calls: the cursor is at the first entry that is not finished, and if not all entries
have been started, the last that has been is a barrier that is not finished. -/
structure Between (s : Sched) (f : Nat) : Prop where
  run : Run s f
  first : s.idx < s.entries.length → s.isFinished s.idx = false
  stopped : f < s.entries.length → s.idx < f ∧ s.isBarrier (f - 1) = true

structure SameRun (s s' : Sched) : Prop where
  phase : s'.phase = s.phase
  completions : s'.completions = s.completions
  kind : s'.kind = s.kind

theorem SameRun.refl (s : Sched) : SameRun s s := ⟨rfl, rfl, rfl⟩

theorem SameRun.trans {s s' s'' : Sched} (h : SameRun s s') (h' : SameRun s' s'') : SameRun s s'' :=
  ⟨h'.phase.trans h.phase, h'.completions.trans h.completions, h'.kind.trans h.kind⟩

section run

variable {s s' : Sched} {f i : Nat} {fatal : Bool}

theorem Between.waits (h : Between s f) (hlt : s.idx < s.entries.length) :
    ∃ e, s.entries[s.idx]? = some e ∧ e.status = .started ∧ e.req.isSome = true ∧
      e.type.hasReq = true := by
  have hf : s.idx < f := by
    by_cases hstop : f < s.entries.length
    · exact (h.stopped hstop).1
    · have := h.run.le
      omega
  have hget := List.getElem?_eq_getElem hlt
  have hok := h.run.started _ _ hf hget
  have hno := h.first hlt
  rw [isFinished_eq hget] at hno
  have hstatus : s.entries[s.idx].status = .started := by
    have hne := hok.status
    cases hst : s.entries[s.idx].status with
    | notStarted => exact absurd hst hne
    | started => rfl
    | complete =>
      rw [hst] at hno
      cases hno
    | failed =>
      rw [hst] at hno
      cases hno
  obtain ⟨hreq, htype⟩ := hok.waits hstatus
  exact ⟨_, hget, hstatus, hreq, htype⟩

/-! ### Callbacks -/

/-- What building calls do to a schedule behind an entry `i` that has been started. -/
structure Grown (i : Nat) (s s' : Sched) (n : Nat) : Prop where
  same : SameRun s s'
  idx : s'.idx = s.idx
  before : ∀ j < i, s'.entries[j]? = s.entries[j]?
  entry : ∀ e, s.entries[i]? = some e → ∃ b, s'.entries[i]? = some { e with isBarrier := b }
  after : ∀ j e, i < j → s'.entries[j]? = some e → WaitingOk e
  length_le : s.entries.length ≤ s'.entries.length
  le_length : s'.entries.length ≤ s.entries.length + n

theorem Grown.add {s₀ : Sched} {n : Nat} (h : Grown i s₀ s n) (hi : i < s₀.entries.length) (a : Add) :
    Grown i s₀ (s.add a) (n + 1) := by
  have hlen := h.length_le
  have hlen' := h.le_length
  cases a with
  | entry type =>
    refine ⟨⟨h.same.phase, h.same.completions, h.same.kind⟩, h.idx, fun j hj => ?_, fun e he => ?_,
      fun j e hj he => ?_, ?_, ?_⟩
    · rw [← h.before j hj]
      exact List.getElem?_append_left (by omega)
    · obtain ⟨b, hb⟩ := h.entry e he
      refine ⟨b, ?_⟩
      rw [← hb]
      exact List.getElem?_append_left (by omega)
    · have he : (s.entries ++ [Entry.new type])[j]? = some e := he
      rw [List.getElem?_append] at he
      split at he
      · exact h.after j e hj he
      · obtain rfl := mem_singleton.1 (mem_of_getElem? he)
        exact .new type
    · show _ ≤ (s.entries ++ [Entry.new type]).length
      rw [length_append]
      omega
    · show (s.entries ++ [Entry.new type]).length ≤ _
      rw [length_append, length_singleton]
      omega
  | barrier =>
    -- the last entry is marked: `i` itself or one behind it
    have hle : i ≤ s.entries.length - 1 := by omega
    refine ⟨⟨h.same.phase, h.same.completions, h.same.kind⟩, h.idx, fun j hj => ?_, fun e he => ?_,
      fun j e hj he => ?_, ?_, ?_⟩
    · rw [← h.before j hj]
      exact getElem?_modifyEntry_of_ne (by omega)
    · obtain ⟨b, hb⟩ := h.entry e he
      by_cases heq : s.entries.length - 1 = i
      · refine ⟨true, ?_⟩
        rw [Sched.add, heq, getElem?_modifyEntry_self hb]
      · exact ⟨b, (getElem?_modifyEntry_of_ne heq).trans hb⟩
    · by_cases heq : s.entries.length - 1 = j
      · have hget : s.entries[j]? = some s.entries[j] := List.getElem?_eq_getElem (by omega)
        rw [Sched.add, heq, getElem?_modifyEntry_self hget] at he
        cases he
        have hok := h.after j _ hj hget
        exact ⟨hok.status, hok.starts, hok.early, hok.req⟩
      · rw [Sched.add, getElem?_modifyEntry_of_ne heq] at he
        exact h.after j e hj he
    · rw [Sched.add, length_modifyEntry]
      exact hlen
    · rw [Sched.add, length_modifyEntry]
      omega

theorem grown_callback (append : List Add) (hi : i < s.entries.length)
    (hafter : ∀ j e, i < j → s.entries[j]? = some e → WaitingOk e) :
    Grown i s (s.callback append) append.length := by
  have hself : Grown i s s 0 :=
    ⟨.refl s, rfl, fun _ _ => rfl, fun e he => ⟨e.isBarrier, he⟩, hafter, Nat.le_refl _,
      Nat.le_refl _⟩
  have hfold : ∀ (append : List Add) (s' : Sched) (n : Nat), Grown i s s' n →
      Grown i s (append.foldl Sched.add s') (n + append.length) := by
    intro append
    induction append with
    | nil => exact fun s' n h => h
    | cons a append ih =>
      intro s' n h
      have := ih (s'.add a) (n + 1) (h.add hi a)
      rw [length_cons]
      rwa [Nat.add_assoc, Nat.add_comm 1] at this
  unfold Sched.callback
  split
  · simpa using hfold append s 0 hself
  · exact ⟨hself.same, hself.idx, hself.before, hself.entry, hself.after, hself.length_le,
      Nat.le_add_right _ _⟩

/-! ### Starting an entry -/

structure StartedAt (i : Nat) (s s' : Sched) (n : Nat) : Prop where
  same : SameRun s s'
  idx : s'.idx = s.idx
  before : ∀ j < i, s'.entries[j]? = s.entries[j]?
  entry : ∃ e, s'.entries[i]? = some e ∧ StartedOk e
  after : ∀ j e, i < j → s'.entries[j]? = some e → WaitingOk e
  length_le : s.entries.length ≤ s'.entries.length
  le_length : s'.entries.length ≤ s.entries.length + n

theorem Mid.barriersDone (h : Mid s i) : s.barriersDone i = true := by
  refine all_eq_true.2 fun b hb => ?_
  have hb := mem_range.1 hb
  cases hbar : s.isBarrier b with
  | false => rfl
  | true =>
    have hlt := h.crossed b hb hbar
    refine all_eq_true.2 fun k hk => ?_
    have hk := mem_range.1 hk
    exact h.run.done k (by omega)

theorem startedAt_of_grown {s₁ : Sched} {e : Entry} {n : Nat} (status : Status) (req : Option Req)
    (errflag mpiError : Bool) (hget : s.entries[i]? = some e) (hok : WaitingOk e)
    (hdone : s.barriersDone i = true) (hgrown : Grown i (s.noteStart i) s₁ n)
    (hstatus : status ≠ .notStarted) (hfin : status.isFinished = true → req = none)
    (hwaits : status = .started → req.isSome = true ∧ e.type.hasReq = true) :
    StartedAt i s { s₁.setStatus i status req with errflag := errflag, mpiError := mpiError } n := by
  have hnote := getElem?_modifyEntry_self
    (f := fun e => { e with starts := e.starts + 1, early := e.early || !s.barriersDone i }) hget
  obtain ⟨b, hb⟩ := hgrown.entry _ hnote
  have hlen : (s.noteStart i).entries.length = s.entries.length := length_modifyEntry
  refine ⟨⟨hgrown.same.phase, hgrown.same.completions, hgrown.same.kind⟩, hgrown.idx, fun j hj => ?_,
    ⟨_, getElem?_modifyEntry_self hb, ?_⟩, fun j x hj hx => ?_, ?_, ?_⟩
  · refine (getElem?_modifyEntry_of_ne (by omega)).trans ?_
    rw [hgrown.before j hj]
    exact getElem?_modifyEntry_of_ne (by omega)
  · refine ⟨hstatus, ?_, ?_, hfin, hwaits⟩
    · show e.starts + 1 = 1
      rw [hok.starts]
    · show (e.early || !s.barriersDone i) = false
      rw [hok.early, hdone]
      rfl
  · refine hgrown.after j x hj ?_
    exact (getElem?_modifyEntry_of_ne (by omega)).symm.trans hx
  · show _ ≤ (s₁.setStatus i status req).entries.length
    rw [Sched.setStatus, length_modifyEntry, ← hlen]
    exact hgrown.length_le
  · show (s₁.setStatus i status req).entries.length ≤ _
    rw [Sched.setStatus, length_modifyEntry, ← hlen]
    exact hgrown.le_length

theorem startEntry_spec {e : Entry} {r : Results} (h : Mid s i) (hget : s.entries[i]? = some e)
    (hclean : Clean fatal r) :
    ∃ s', startEntry fatal s i e.type r = (s', false) ∧ StartedAt i s s' r.append.length := by
  have hi := (List.getElem?_eq_some_iff.1 hget).1
  have hok := h.run.waiting i e (Nat.le_refl _) hget
  have hdone := h.barriersDone
  have hafter : ∀ j x, i < j → (s.noteStart i).entries[j]? = some x → WaitingOk x := by
    intro j x hj hx
    refine h.run.waiting j x (Nat.le_of_lt hj) ?_
    exact (getElem?_modifyEntry_of_ne (by omega)).symm.trans hx
  have hi' : i < (s.noteStart i).entries.length := by rwa [Sched.noteStart, length_modifyEntry]
  have hcb := grown_callback r.append hi' hafter
  have hself : Grown i (s.noteStart i) (s.noteStart i) r.append.length :=
    ⟨.refl _, rfl, fun _ _ => rfl, fun x hx => ⟨x.isBarrier, hx⟩, hafter, Nat.le_refl _,
      Nat.le_add_right _ _⟩
  have hfatal : ∀ b : Bool, b = true → (fatal = true → b = false) → fatal = false := by
    intro b hb hno
    cases fatal with
    | false => rfl
    | true => exact absurd (hb.symm.trans (hno rfl)) nofun
  have hnf := hclean.not_fatal
  have hpending : ∀ (q : Req) (errflag mpiError : Bool), e.type.hasReq = true →
      StartedAt i s { (s.noteStart i).setStatus i .started (some q) with
        errflag := errflag, mpiError := mpiError } r.append.length :=
    fun q errflag mpiError htype => startedAt_of_grown .started (some q) errflag mpiError hget hok
      hdone hself nofun nofun fun _ => ⟨rfl, htype⟩
  have hfinished : ∀ (s₁ : Sched) (status : Status) (errflag mpiError : Bool),
      Grown i (s.noteStart i) s₁ r.append.length → status.isFinished = true →
      StartedAt i s { s₁.setStatus i status none with errflag := errflag, mpiError := mpiError }
        r.append.length := by
    intro s₁ status errflag mpiError hgrown hfin
    refine startedAt_of_grown status none errflag mpiError hget hok hdone hgrown ?_ (fun _ => rfl) ?_
    · rintro rfl
      cases hfin
    · rintro rfl
      cases hfin
  unfold startEntry
  cases ht : e.type with
  | send =>
    simp only
    split
    · next herr =>
      rw [hfatal _ herr fun hf => (hnf hf).1]
      exact ⟨_, rfl, hfinished _ .failed _ _ hself rfl⟩
    · exact ⟨_, rfl, hpending r.req _ _ (by rw [ht]; rfl)⟩
  | recv =>
    simp only
    split
    · next herr =>
      rw [hfatal _ herr fun hf => (hnf hf).2.1, if_pos (hclean.recv_req herr)]
      exact ⟨_, rfl, hpending r.req _ _ (by rw [ht]; rfl)⟩
    · exact ⟨_, rfl, hpending r.req _ _ (by rw [ht]; rfl)⟩
  | pt2ptSend | pt2ptRecv =>
    simp only
    split
    · next herr =>
      rw [hfatal _ herr fun hf => (hnf hf).2.2.1]
      exact ⟨_, rfl, hfinished _ .failed _ _ hself rfl⟩
    · exact ⟨_, rfl, hpending r.req _ _ (by rw [ht]; rfl)⟩
  | reduce | copy =>
    simp only [hclean.local_ok, Bool.false_eq_true, if_false]
    exact ⟨_, rfl, hfinished _ .complete _ _ hself rfl⟩
  | cb =>
    simp only
    split
    · next herr =>
      rw [hfatal _ herr fun hf => (hnf hf).2.2.2]
      exact ⟨_, rfl, hfinished _ .failed _ _ hcb rfl⟩
    · exact ⟨_, rfl, hfinished _ .complete _ _ hcb rfl⟩

theorem StartedAt.advance {n : Nat} (h : Mid s i) (hs : StartedAt i s s' n) :
    Run (s'.advance i) (i + 1) ∧ SameRun s (s'.advance i) ∧ s.idx ≤ (s'.advance i).idx ∧
      (s'.advance i).entries = s'.entries ∧
      ((s'.advance i).idx < i + 1 → (s'.advance i).isFinished (s'.advance i).idx = false) ∧
      ((s'.advance i).idx = i + 1 → (s'.advance i).isFinished i = true) := by
  obtain ⟨e, he, hok⟩ := hs.entry
  have hi := (List.getElem?_eq_some_iff.1 he).1
  have hidx := h.run.idx_le
  have hrun : ∀ k, k ≤ i + 1 → (∀ j < k, s'.isFinished j = true) → s.idx ≤ k →
      Run { s' with idx := k } (i + 1) := by
    intro k hk hdone hle
    refine ⟨hk, hi, hdone, fun j x hj hx => ?_, fun j x hj hx => hs.after j x hj hx, fun b hb hbar => ?_⟩
    · by_cases hji : j = i
      · subst hji
        obtain rfl := Option.some.inj (he.symm.trans hx)
        exact hok
      · have hlt : j < i := by omega
        exact h.run.started j x hlt ((hs.before j hlt).symm.trans hx)
    · by_cases hbi : b = i
      · exact .inr (by omega)
      · have hlt : b < i := by omega
        have hbar : s'.isBarrier b = true := hbar
        rw [isBarrier_congr (hs.before b hlt)] at hbar
        have := h.crossed b hlt hbar
        exact .inl (show b < k by omega)
  have hdone : ∀ j < s.idx, s'.isFinished j = true := by
    intro j hj
    rw [isFinished_congr (hs.before j (by omega))]
    exact h.run.done j hj
  unfold Sched.advance
  split
  · next hadv =>
    rw [hs.idx] at hadv ⊢
    refine ⟨?_, ⟨hs.same.phase, hs.same.completions, hs.same.kind⟩, Nat.le_succ _, rfl, ?_, ?_⟩
    · refine hrun _ (by omega) (fun j hj => ?_) (Nat.le_succ _)
      by_cases hji : j = i
      · exact hji ▸ hadv.2
      · exact hdone j (by omega)
    · intro hlt
      have hlt : s.idx + 1 < i + 1 := hlt
      omega
    · exact fun _ => hadv.2
  · next hadv =>
    refine ⟨?_, hs.same, Nat.le_of_eq hs.idx.symm, rfl, fun _ => ?_, fun heq => ?_⟩
    · have := hrun s.idx (by omega) hdone (Nat.le_refl _)
      rwa [← hs.idx] at this
    · rw [hs.idx] at hadv ⊢
      by_cases heq : i = s.idx
      · rw [heq] at hadv
        simpa using hadv
      · rw [isFinished_congr (hs.before _ (by omega))]
        exact h.first (by omega)
    · rw [hs.idx] at heq
      omega

def growthFrom (results : List Results) (i : Nat) : Nat := growth (results.drop i)

theorem growthFrom_le (results : List Results) (i : Nat) : growthFrom results i ≤ growth results := by
  have hsum : growth results = growth (results.take i) + growthFrom results i := by
    rw [growthFrom, growth, growth, growth, ← sum_append, ← map_append,
      take_append_drop]
  omega

theorem growthFrom_succ (results : List Results) (i : Nat) :
    growthFrom results i = (results.getD i .ok).append.length + growthFrom results (i + 1) := by
  unfold growthFrom growth
  by_cases hi : i < results.length
  · rw [drop_eq_getElem_cons hi, map_cons, sum_cons, getD_eq_getElem?_getD,
      List.getElem?_eq_getElem hi]
    rfl
  · rw [drop_of_length_le (by omega), drop_of_length_le (by omega),
      getD_eq_getElem?_getD, List.getElem?_eq_none (by omega)]
    rfl

theorem clean_getD {results : List Results} (h : ∀ r ∈ results, Clean fatal r) (i : Nat) :
    Clean fatal (results.getD i .ok) := by
  rw [getD_eq_getElem?_getD]
  cases hr : results[i]? with
  | none => exact ⟨rfl, nofun, fun _ => ⟨rfl, rfl, rfl, rfl⟩⟩
  | some r => exact h r (mem_of_getElem? hr)

theorem continueLoop_spec {results : List Results} (hclean : ∀ r ∈ results, Clean fatal r)
    (fuel : Nat) (h : Mid s i) (hfuel : s.entries.length - i + growthFrom results i < fuel) :
    ∃ s' f, continueLoop fatal results fuel s i = some (s', false) ∧ Between s' f ∧ SameRun s s' ∧
      s.idx ≤ s'.idx ∧
      s'.entries.length + growthFrom results f ≤ s.entries.length + growthFrom results i := by
  induction fuel generalizing s i with
  | zero => exact absurd hfuel (Nat.not_lt_zero _)
  | succ fuel ih =>
    unfold continueLoop
    cases hget : s.entries[i]? with
    | none =>
      have hlen := List.getElem?_eq_none_iff.1 hget
      have hle := h.run.le
      exact ⟨s, i, rfl, ⟨h.run, fun hlt => h.first (by omega), fun hlt => absurd hlt (by omega)⟩,
        .refl s, Nat.le_refl _, Nat.le_refl _⟩
    | some e =>
      have hi := (List.getElem?_eq_some_iff.1 hget).1
      have hwait := h.run.waiting i e (Nat.le_refl _) hget
      obtain ⟨s₁, hstart, hat⟩ := startEntry_spec h hget (clean_getD hclean i)
      obtain ⟨hrun, hsame, hidx, hentries, hfirst, hfin⟩ := hat.advance h
      have hgrow := growthFrom_succ results i
      have hlen := hat.le_length
      simp only [startNext, if_pos hwait.status, hstart, Bool.false_eq_true, if_false]
      split
      · next hbar =>
        -- a barrier that is not finished, or entries before it that are not
        have hlt : (s₁.advance i).idx < i + 1 := by
          have hle := hrun.idx_le
          by_contra hno
          have heq : (s₁.advance i).idx = i + 1 := by omega
          rcases hbar.2 with hb | hb
          · exact absurd (hb.symm.trans (hfin heq)) nofun
          · exact hb heq
        refine ⟨_, i + 1, rfl, ⟨hrun, fun _ => hfirst hlt, fun _ => ⟨hlt, hbar.1⟩⟩, hsame, hidx, ?_⟩
        rw [hentries]
        omega
      · next hbar =>
        have hmid : Mid (s₁.advance i) (i + 1) := by
          refine ⟨hrun, fun b hb hbb => ?_, hfirst⟩
          rcases hrun.barrier b hb hbb with hlt | heq
          · exact hlt
          · obtain rfl : b = i := by omega
            have hidx' : (s₁.advance b).idx = b + 1 := by
              by_contra hne
              exact hbar ⟨hbb, .inr hne⟩
            omega
        obtain ⟨s', f, hrest, hbetween, hsame', hidx', hroom⟩ := ih hmid (by rw [hentries]; omega)
        refine ⟨s', f, hrest, hbetween, hsame.trans hsame', Nat.le_trans hidx hidx', ?_⟩
        rw [hentries] at hroom
        omega

theorem schedContinue_spec {results : List Results} (hclean : ∀ r ∈ results, Clean fatal r)
    (h : Mid s s.idx) :
    ∃ s' f, schedContinue fatal results s = some (s', false) ∧ Between s' f ∧ SameRun s s' ∧
      s.idx ≤ s'.idx ∧
      s'.entries.length + growthFrom results f ≤ s.entries.length + growthFrom results s.idx := by
  have := growthFrom_le results s.idx
  exact continueLoop_spec hclean _ h (by omega)

/-! ### Looking at requests -/

structure Look (s : Sched) (f i : Nat) : Prop where
  run : Run s f
  first : s.idx < i → s.isFinished s.idx = false
  stopped : f < s.entries.length → s.idx < f ∧ s.isBarrier (f - 1) = true

theorem Between.look (h : Between s f) : Look s f s.idx :=
  ⟨h.run, fun hlt => absurd hlt (Nat.lt_irrefl _), h.stopped⟩

theorem Run.lt_of_isFinished (h : Run s f) (hfin : s.isFinished i = true) : i < f := by
  by_contra hle
  have hget := List.getElem?_eq_getElem (Nbc.lt_of_isFinished hfin)
  have hwait := h.waiting i _ (Nat.le_of_not_lt hle) hget
  rw [isFinished_eq hget, hwait.status] at hfin
  cases hfin

theorem Run.of_req {e : Entry} (h : Run s f) (hget : s.entries[i]? = some e)
    (hreq : e.req.isSome = true) : StartedOk e ∧ i < f ∧ s.idx ≤ i := by
  have hlt : i < f := by
    by_contra hle
    rw [(h.waiting i e (Nat.le_of_not_lt hle) hget).req] at hreq
    cases hreq
  have hok := h.started i e hlt hget
  refine ⟨hok, hlt, ?_⟩
  by_contra hno
  have hfin := h.done i (Nat.lt_of_not_le hno)
  rw [isFinished_eq hget] at hfin
  rw [hok.finished hfin] at hreq
  cases hreq

theorem Run.modifyEntry {e : Entry} {g : Entry → Entry} (h : Run s f)
    (hget : s.entries[i]? = some e) (hreq : e.req.isSome = true) (hok : StartedOk (g e))
    (hbar : (g e).isBarrier = e.isBarrier) :
    Run (s.modifyEntry i g) f ∧ ∀ j, (s.modifyEntry i g).isBarrier j = s.isBarrier j := by
  obtain ⟨-, hlt, hidx⟩ := h.of_req hget hreq
  have hne : ∀ j, j ≠ i → (s.modifyEntry i g).entries[j]? = s.entries[j]? :=
    fun j hj => getElem?_modifyEntry_of_ne (Ne.symm hj)
  have hbars : ∀ j, (s.modifyEntry i g).isBarrier j = s.isBarrier j := by
    intro j
    by_cases hj : j = i
    · subst hj
      rw [isBarrier_eq hget, isBarrier_eq (getElem?_modifyEntry_self hget), hbar]
    · exact isBarrier_congr (hne j hj)
  refine ⟨⟨h.idx_le, ?_, fun j hj => ?_, fun j x hj hx => ?_, fun j x hj hx => ?_,
    fun b hb hbb => ?_⟩, hbars⟩
  · rw [length_modifyEntry]
    exact h.le
  · have hj : j < s.idx := hj
    rw [isFinished_congr (hne j (by omega))]
    exact h.done j hj
  · by_cases hji : j = i
    · subst hji
      rw [getElem?_modifyEntry_self hget] at hx
      cases hx
      exact hok
    · exact h.started j x hj ((hne j hji).symm.trans hx)
  · exact h.waiting j x hj ((hne j (by omega)).symm.trans hx)
  · rw [hbars] at hbb
    exact h.barrier b hb hbb

theorem Run.poll {e : Entry} (h : Run s f) (hget : s.entries[i]? = some e) :
    Run (s.poll i e) f ∧ SameRun s (s.poll i e) ∧ (s.poll i e).idx = s.idx ∧
      (s.poll i e).entries.length = s.entries.length ∧
      (∀ j, (s.poll i e).isBarrier j = s.isBarrier j) ∧
      ∀ j, j ≠ i → (s.poll i e).isFinished j = s.isFinished j := by
  have hsame : Run s f ∧ SameRun s s ∧ s.idx = s.idx ∧ s.entries.length = s.entries.length ∧
      (∀ j, s.isBarrier j = s.isBarrier j) ∧ ∀ j, j ≠ i → s.isFinished j = s.isFinished j :=
    ⟨h, .refl s, rfl, rfl, fun _ => rfl, fun _ _ => rfl⟩
  have hdone : ∀ failed, e.req.isSome = true →
      Run (s.setStatus i (doneStatus failed) none) f ∧
        SameRun s (s.setStatus i (doneStatus failed) none) ∧
        (s.setStatus i (doneStatus failed) none).idx = s.idx ∧
        (s.setStatus i (doneStatus failed) none).entries.length = s.entries.length ∧
        (∀ j, (s.setStatus i (doneStatus failed) none).isBarrier j = s.isBarrier j) ∧
        ∀ j, j ≠ i → (s.setStatus i (doneStatus failed) none).isFinished j = s.isFinished j := by
    intro failed hreq
    obtain ⟨hok, -, -⟩ := h.of_req hget hreq
    have hok' : StartedOk { e with status := doneStatus failed, req := none } := by
      refine ⟨?_, hok.starts, hok.early, fun _ => rfl, ?_⟩
      · cases failed <;> exact nofun
      · cases failed <;> exact nofun
    obtain ⟨hrun, hbars⟩ := h.modifyEntry
      (g := fun e => { e with status := doneStatus failed, req := none }) hget hreq hok' rfl
    exact ⟨hrun, ⟨rfl, rfl, rfl⟩, rfl, length_modifyEntry, hbars, fun j hj =>
      isFinished_congr (getElem?_modifyEntry_of_ne (Ne.symm hj))⟩
  unfold Sched.poll
  split
  · next hreq => exact hdone _ (by rw [hreq]; rfl)
  · next hreq => exact hdone _ (by rw [hreq]; rfl)
  · next hreq => exact hdone _ (by rw [hreq]; rfl)
  · next hreq => exact hdone _ (by rw [hreq]; rfl)
  · exact hsame

theorem Run.next (h : Run s f) (hfin : s.isFinished s.idx = true) :
    Run { s with idx := s.idx + 1 } f := by
  refine ⟨h.lt_of_isFinished hfin, h.le, fun j hj => ?_, h.started, h.waiting, fun b hb hbb => ?_⟩
  · have hj : j < s.idx + 1 := hj
    by_cases heq : j = s.idx
    · exact heq ▸ hfin
    · exact h.done j (by omega)
  · rcases h.barrier b hb hbb with hlt | heq
    · exact .inl (Nat.lt_succ_of_lt hlt)
    · exact .inr heq

theorem Run.passes (h : Run s f) (hfin : s.isFinished s.idx = true)
    (hbar : s.isBarrier s.idx = true) :
    s.idx + 1 = f ∧ Mid { s with idx := s.idx + 1 } (s.idx + 1) := by
  have hf : s.idx + 1 = f := by
    rcases h.barrier _ (h.lt_of_isFinished hfin) hbar with hlt | heq
    · exact absurd hlt (Nat.lt_irrefl _)
    · exact heq
  refine ⟨hf, ?_, fun b hb _ => hb, fun hlt => absurd hlt (Nat.lt_irrefl _)⟩
  have := h.next hfin
  rwa [← hf] at this

theorem progressLoop_spec {results : List Results} (hclean : ∀ r ∈ results, Clean fatal r)
    (fuel : Nat) (h : Look s f i) (hfuel : s.entries.length - i + growthFrom results f < fuel) :
    ∃ s' f', progressLoop fatal results fuel s i = some (s', false) ∧ Between s' f' ∧
      SameRun s s' := by
  induction fuel generalizing s i f with
  | zero => exact absurd hfuel (Nat.not_lt_zero _)
  | succ fuel ih =>
    unfold progressLoop
    cases hget : s.entries[i]? with
    | none =>
      have hlen := List.getElem?_eq_none_iff.1 hget
      exact ⟨s, f, rfl, ⟨h.run, fun hlt => h.first (by omega), h.stopped⟩, .refl s⟩
    | some e =>
      have hi := (List.getElem?_eq_some_iff.1 hget).1
      obtain ⟨hrun, hsame, hidx, hlen, hbars, hfins⟩ := h.run.poll hget
      have hstop : f < (s.poll i e).entries.length →
          (s.poll i e).idx < f ∧ (s.poll i e).isBarrier (f - 1) = true := by
        rw [hlen, hidx, hbars]
        exact h.stopped
      have hfirst : (s.poll i e).idx < i →
          (s.poll i e).isFinished (s.poll i e).idx = false := by
        intro hlt
        rw [hfins _ (Nat.ne_of_lt hlt), hidx]
        exact h.first (hidx ▸ hlt)
      simp only
      generalize s.poll i e = s₁ at hrun hsame hidx hlen hbars hfins hstop hfirst ⊢
      split
      · next hat =>
        obtain ⟨rfl, hfin⟩ := hat
        split
        · next hbar =>
          obtain ⟨rfl, hmid⟩ := hrun.passes hfin hbar
          obtain ⟨s₂, f', hcont, hbetween, hsame', hle, hroom⟩ := schedContinue_spec hclean hmid
          have hle : s₁.idx + 1 ≤ s₂.idx := hle
          have hroom : s₂.entries.length + growthFrom results f' ≤
              s₁.entries.length + growthFrom results (s₁.idx + 1) := hroom
          have hlen' : s₂.idx ≤ s₂.entries.length :=
            Nat.le_trans hbetween.run.idx_le hbetween.run.le
          obtain ⟨s', f'', hrest, hb, hs⟩ :=
            ih (s := s₂) (i := s₁.idx + 1) (f := f')
              ⟨hbetween.run, fun hlt => absurd hlt (by omega), hbetween.stopped⟩ (by omega)
          have hsame'' : SameRun s₁ s₂ := ⟨hsame'.phase, hsame'.completions, hsame'.kind⟩
          simp only [hcont]
          exact ⟨s', f'', hrest, hb, (hsame.trans hsame'').trans hs⟩
        · next hbar =>
          -- the last entry that has been started is not this one, unless it is the last of all
          have hlook : Look { s₁ with idx := s₁.idx + 1 } f (s₁.idx + 1) := by
            refine ⟨hrun.next hfin, fun hlt => absurd hlt (Nat.lt_irrefl _), fun hlt => ?_⟩
            obtain ⟨hlt', hb⟩ := hstop hlt
            refine ⟨?_, hb⟩
            show s₁.idx + 1 < f
            by_contra hno
            obtain rfl : f = s₁.idx + 1 := by omega
            exact hbar hb
          obtain ⟨s', f'', hrest, hb, hs⟩ := ih hlook (show s₁.entries.length - _ + _ < _ by omega)
          have hs' : SameRun s₁ s' := ⟨hs.phase, hs.completions, hs.kind⟩
          exact ⟨s', f'', hrest, hb, hsame.trans hs'⟩
      · next hat =>
        split
        · next hbar =>
          refine ⟨s₁, f, rfl, ⟨hrun, fun _ => ?_, hstop⟩, hsame⟩
          have hle : s₁.idx ≤ i := by
            by_contra hno
            have := hrun.done i (by omega)
            exact absurd (hbar.2.symm.trans this) nofun
          by_cases heq : s₁.idx = i
          · rw [heq]
            exact hbar.2
          · exact hfirst (by omega)
        · next hbar =>
          have hlook : Look s₁ f (i + 1) := by
            refine ⟨hrun, fun hlt => ?_, hstop⟩
            by_cases heq : i = s₁.idx
            · subst heq
              simpa using hat
            · exact hfirst (by omega)
          obtain ⟨s', f'', hrest, hb, hs⟩ := ih hlook (by omega)
          exact ⟨s', f'', hrest, hb, hsame.trans hs⟩

theorem progressSched_spec {results : List Results} (hclean : ∀ r ∈ results, Clean fatal r)
    (h : Between s f) :
    ∃ s' f', progressSched fatal results s = some (s', false) ∧ Between s' f' ∧ SameRun s s' := by
  have := growthFrom_le results f
  exact progressLoop_spec hclean _ h.look (by omega)

end run

/-! ## All schedules -/

def PhaseOk (s : Sched) : Prop :=
  match s.phase with
  | .built => s.idx = 0 ∧ s.completions = 0 ∧ ∀ e ∈ s.entries, WaitingOk e
  | .running => s.completions = 0 ∧ ∃ f, Between s f
  | .complete => s.completions = 1 ∧ s.idx = s.entries.length ∧ Between s s.entries.length
  | .broken => False

/-- The invariant of all schedules: those that are running are in the list, once. -/
structure StOk (st : St) : Prop where
  scheds : ∀ (k : Nat) s, st.scheds[k]? = some s → PhaseOk s
  nodup : st.queue.Nodup
  queue : ∀ k : Nat, k ∈ st.queue ↔ ∃ s, st.scheds[k]? = some s ∧ s.phase = .running

def StepOk (fatal : Bool) (_ : St) : Act → Prop
  | .start _ results => ∀ r ∈ results, Clean fatal r
  | .progress results => ∀ k, ∀ r ∈ results k, Clean fatal r
  | _ => True

section scheds

variable {s s' : Sched} {f k : Nat} {fatal : Bool} {st : St}

theorem PhaseOk.mid (h : PhaseOk s) (hp : s.phase = .built) (errflag mpiError : Bool) :
    Mid { s with errflag := errflag, mpiError := mpiError } s.idx := by
  rw [PhaseOk, hp] at h
  obtain ⟨hidx, -, hwait⟩ := h
  have hnone : ∀ j, ¬j < s.idx := by
    rw [hidx]
    exact Nat.not_lt_zero
  refine ⟨⟨Nat.le_refl _, ?_, fun j hj => absurd hj (hnone j), fun j e hj => absurd hj (hnone j),
    fun j e _ he => hwait e (mem_of_getElem? he), fun b hb => absurd hb (hnone b)⟩,
    fun b hb => absurd hb (hnone b), fun hlt => absurd hlt (Nat.lt_irrefl _)⟩
  rw [hidx]
  exact Nat.zero_le _

theorem Between.of_eq (h : Between s f) (hentries : s'.entries = s.entries) (hidx : s'.idx = s.idx) :
    Between s' f := by
  obtain ⟨entries, idx, kind, errflag, mpiError, phase, completions⟩ := s
  obtain ⟨entries', idx', kind', errflag', mpiError', phase', completions'⟩ := s'
  obtain rfl : entries' = entries := hentries
  obtain rfl : idx' = idx := hidx
  exact ⟨⟨h.run.idx_le, h.run.le, h.run.done, h.run.started, h.run.waiting, h.run.barrier⟩, h.first,
    h.stopped⟩

theorem Between.completeReq (h : Between s f) (hc : s.completions = 0)
    (hend : s.idx = s.entries.length) : PhaseOk s.completeReq := by
  have hf : f = s.entries.length := by
    have := h.run.idx_le
    have := h.run.le
    omega
  subst hf
  show s.completions + 1 = 1 ∧ s.idx = s.entries.length ∧ Between s.completeReq s.entries.length
  exact ⟨by rw [hc], hend, h.of_eq rfl rfl⟩

theorem StOk.set_of_phase (h : StOk st) (hget : st.scheds[k]? = some s) (hok : PhaseOk s')
    (hphase : s'.phase = .running ↔ s.phase = .running) :
    StOk { st with scheds := st.scheds.set k s' } := by
  have hk := (List.getElem?_eq_some_iff.1 hget).1
  refine ⟨fun j x hx => ?_, h.nodup, fun j => ?_⟩
  · have hx : (st.scheds.set k s')[j]? = some x := hx
    by_cases hj : k = j
    · subst hj
      rw [List.getElem?_set_self hk] at hx
      cases hx
      exact hok
    · rw [List.getElem?_set_ne hj] at hx
      exact h.scheds j x hx
  · show j ∈ st.queue ↔ ∃ x, (st.scheds.set k s')[j]? = some x ∧ x.phase = .running
    rw [h.queue]
    by_cases hj : k = j
    · subst hj
      rw [List.getElem?_set_self hk, hget]
      simp [hphase]
    · rw [List.getElem?_set_ne hj]

theorem StOk.create (h : StOk st) (kind : Kind) :
    StOk { st with scheds := st.scheds ++ [Sched.create kind] } := by
  have hlast : ∀ j x, ¬j < st.scheds.length → [Sched.create kind][j - st.scheds.length]? = some x →
      x = .create kind := fun j x _ hx => mem_singleton.1 (mem_of_getElem? hx)
  refine ⟨fun j x hx => ?_, h.nodup, fun j => ?_⟩
  · have hx : (st.scheds ++ [Sched.create kind])[j]? = some x := hx
    rw [List.getElem?_append] at hx
    split at hx
    · exact h.scheds j x hx
    · next hj =>
      rw [hlast j x hj hx]
      exact ⟨rfl, rfl, fun e he => absurd he not_mem_nil⟩
  · show j ∈ st.queue ↔ ∃ x, (st.scheds ++ [Sched.create kind])[j]? = some x ∧ x.phase = .running
    rw [h.queue, List.getElem?_append]
    split
    · exact Iff.rfl
    · next hj =>
      rw [List.getElem?_eq_none (Nat.le_of_not_lt hj)]
      constructor
      · rintro ⟨x, hx, -⟩
        cases hx
      · rintro ⟨x, hx, hphase⟩
        rw [hlast j x hj hx] at hphase
        cases hphase

theorem PhaseOk.add (h : PhaseOk s) (hp : s.phase = .built) (a : Add) : PhaseOk (s.add a) := by
  rw [PhaseOk, hp] at h
  obtain ⟨hidx, hc, hwait⟩ := h
  cases a with
  | entry type =>
    unfold PhaseOk
    rw [show (s.add (.entry type)).phase = .built from hp]
    refine ⟨hidx, hc, fun e he => ?_⟩
    rcases mem_append.1 he with he | he
    · exact hwait e he
    · rw [mem_singleton.1 he]
      exact .new type
  | barrier =>
    unfold PhaseOk
    rw [show (s.add .barrier).phase = .built from hp]
    refine ⟨hidx, hc, fun e he => ?_⟩
    obtain ⟨j, hj⟩ := List.getElem?_of_mem he
    by_cases hlast : s.entries.length - 1 = j
    · rw [Sched.add, Sched.modifyEntry, hlast, List.getElem?_modify_eq] at hj
      obtain ⟨x, hx, rfl⟩ := map_eq_some_iff.1 hj
      have hok := hwait x (mem_of_getElem? hx)
      exact ⟨hok.status, hok.starts, hok.early, hok.req⟩
    · rw [Sched.add, getElem?_modifyEntry_of_ne hlast] at hj
      exact hwait e (mem_of_getElem? hj)

theorem Between.finished_of_end (h : Between s f) (hend : s.idx = s.entries.length) {e : Entry}
    (he : e ∈ s.entries) : StartedOk e ∧ e.status.isFinished = true := by
  obtain ⟨j, hj⟩ := List.getElem?_of_mem he
  have hlt := (List.getElem?_eq_some_iff.1 hj).1
  have hle := h.run.idx_le
  refine ⟨h.run.started j e (by omega) hj, ?_⟩
  rw [← isFinished_eq hj]
  exact h.run.done j (by omega)

theorem PhaseOk.reset (h : PhaseOk s) (hp : s.phase = .complete) : PhaseOk s.reset := by
  rw [PhaseOk, hp] at h
  obtain ⟨-, hend, hb⟩ := h
  refine ⟨rfl, rfl, fun e he => ?_⟩
  obtain ⟨x, hx, rfl⟩ := mem_map.1 he
  obtain ⟨hok, hfin⟩ := hb.finished_of_end hend hx
  exact ⟨rfl, rfl, rfl, hok.finished hfin⟩

theorem PhaseOk.finish {i : Nat} {e : Entry} (h : PhaseOk s) (hget : s.entries[i]? = some e)
    (hreq : e.req = some .pending) (err : Bool) :
    s.phase = .running ∧ PhaseOk (s.modifyEntry i (Entry.finish err)) := by
  have hmem := mem_of_getElem? hget
  unfold PhaseOk at h
  cases hp : s.phase with
  | built =>
    rw [hp] at h
    rw [(h.2.2 e hmem).req] at hreq
    cases hreq
  | complete =>
    rw [hp] at h
    obtain ⟨hok, hfin⟩ := h.2.2.finished_of_end h.2.1 hmem
    rw [hok.finished hfin] at hreq
    cases hreq
  | broken =>
    rw [hp] at h
    exact h.elim
  | running =>
    rw [hp] at h
    obtain ⟨hc, f, hb⟩ := h
    have hsome : e.req.isSome = true := by rw [hreq]; rfl
    obtain ⟨hok, hlt, hidx⟩ := hb.run.of_req hget hsome
    have hok' : StartedOk (e.finish err) :=
      ⟨hok.status, hok.starts, hok.early, fun hfin => absurd ((hok.finished hfin).symm.trans hreq) nofun,
        fun hst => ⟨rfl, (hok.waits hst).2⟩⟩
    obtain ⟨hrun, hbars⟩ := hb.run.modifyEntry (g := Entry.finish err) hget hsome hok' rfl
    have hfins : ∀ j, (s.modifyEntry i (Entry.finish err)).isFinished j = s.isFinished j := by
      intro j
      by_cases hj : i = j
      · subst hj
        rw [isFinished_eq hget, isFinished_eq (getElem?_modifyEntry_self hget)]
        rfl
      · exact isFinished_congr (getElem?_modifyEntry_of_ne hj)
    refine ⟨rfl, ?_⟩
    unfold PhaseOk
    rw [show (s.modifyEntry i (Entry.finish err)).phase = .running from hp]
    refine ⟨hc, f, hrun, fun hlt => ?_, fun hlt => ?_⟩
    · rw [length_modifyEntry] at hlt
      exact (hfins _).trans (hb.first hlt)
    · rw [length_modifyEntry] at hlt
      exact ⟨(hb.stopped hlt).1, (hbars _).trans (hb.stopped hlt).2⟩

theorem StOk.start (h : StOk st) {results : List Results} (hclean : ∀ r ∈ results, Clean fatal r)
    (hget : st.scheds[k]? = some s) (hp : s.phase = .built) :
    ∃ st', schedStart fatal st k results = some st' ∧ StOk st' := by
  have hok := h.scheds k s hget
  obtain ⟨s', f, hcont, hb, hsame, -, -⟩ := schedContinue_spec hclean (hok.mid hp false false)
  have hk := (List.getElem?_eq_some_iff.1 hget).1
  have hnot : k ∉ st.queue := by
    intro hmem
    obtain ⟨x, hx, hrun⟩ := (h.queue k).1 hmem
    obtain rfl := Option.some.inj (hget.symm.trans hx)
    exact absurd (hp.symm.trans hrun) nofun
  have hc : s'.completions = 0 := by
    rw [PhaseOk, hp] at hok
    rw [hsame.completions]
    exact hok.2.1
  refine ⟨⟨st.scheds.set k { s' with phase := .running }, st.queue ++ [k]⟩, ?_, ?_, ?_, ?_⟩
  · simp only [schedStart, hget, bind_eq_bind, bind_some, if_pos hp, hcont,
      Bool.false_eq_true, if_false]
  · intro j x hx
    have hx : (st.scheds.set k { s' with phase := .running })[j]? = some x := hx
    by_cases hj : k = j
    · subst hj
      rw [List.getElem?_set_self hk] at hx
      cases hx
      exact ⟨hc, f, hb.of_eq rfl rfl⟩
    · rw [List.getElem?_set_ne hj] at hx
      exact h.scheds j x hx
  · exact nodup_append.2 ⟨h.nodup, nodup_singleton k, fun a ha b hb => by
      rw [mem_singleton.1 hb]
      rintro rfl
      exact hnot ha⟩
  · intro j
    show j ∈ st.queue ++ [k] ↔
      ∃ x, (st.scheds.set k { s' with phase := .running })[j]? = some x ∧ x.phase = .running
    rw [mem_append, mem_singleton]
    by_cases hj : k = j
    · subst hj
      rw [List.getElem?_set_self hk]
      exact ⟨fun _ => ⟨_, rfl, rfl⟩, fun _ => .inr rfl⟩
    · rw [List.getElem?_set_ne hj, h.queue]
      exact ⟨fun hor => hor.resolve_right (Ne.symm hj), .inl⟩

def Running (scheds : List Sched) (k : Nat) : Prop :=
  ∃ s f, scheds[k]? = some s ∧ s.phase = .running ∧ s.completions = 0 ∧ Between s f

theorem progressState_spec {results : Nat → List Results}
    (hclean : ∀ k, ∀ r ∈ results k, Clean fatal r) (queue : List Nat) (scheds : List Sched)
    (hnodup : queue.Nodup) (hrun : ∀ k ∈ queue, Running scheds k) :
    ∃ scheds' queue', progressState fatal results queue scheds = some (scheds', queue') ∧
      queue'.Sublist queue ∧ (∀ k, k ∉ queue → scheds'[k]? = scheds[k]?) ∧
      (∀ k ∈ queue', Running scheds' k) ∧
      (∀ k ∈ queue', ∀ s, scheds'[k]? = some s → s.idx < s.entries.length) ∧
      ∀ k ∈ queue, k ∉ queue' → ∃ s, scheds'[k]? = some s ∧ s.phase = .complete ∧ PhaseOk s := by
  induction queue generalizing scheds with
  | nil =>
    exact ⟨scheds, [], rfl, .refl [], fun _ _ => rfl, hrun, fun k hk => absurd hk not_mem_nil,
      fun k hk => absurd hk not_mem_nil⟩
  | cons k queue ih =>
    obtain ⟨hk, hnodup⟩ := nodup_cons.1 hnodup
    obtain ⟨s, f, hget, hp, hc, hb⟩ := hrun k mem_cons_self
    obtain ⟨s', f', hprog, hb', hsame⟩ := progressSched_spec (hclean k) hb
    have hlt := (List.getElem?_eq_some_iff.1 hget).1
    have hc' := hsame.completions.trans hc
    have hothers : ∀ x, ∀ j ∈ queue, Running (scheds.set k x) j := by
      intro x j hj
      obtain ⟨y, g, hy, hrest⟩ := hrun j (mem_cons_of_mem _ hj)
      refine ⟨y, g, ?_, hrest⟩
      have hne : k ≠ j := fun heq => hk (heq ▸ hj)
      rw [List.getElem?_set_ne hne]
      exact hy
    by_cases hend : s'.idx = s'.entries.length
    · obtain ⟨scheds', queue', heq, hsub, hframe, hrun', hlt', hdone⟩ :=
        ih (scheds.set k s'.completeReq) hnodup (hothers _)
      have hgot : scheds'[k]? = some s'.completeReq := by
        rw [hframe k hk, List.getElem?_set_self hlt]
      refine ⟨scheds', queue', ?_, hsub.cons k, fun j hj => ?_, hrun', hlt', fun j hj hnot => ?_⟩
      · simp [progressState, hget, hprog, hend, heq]
      · have hne : k ≠ j := fun heq => hj (heq ▸ mem_cons_self)
        rw [hframe j fun hmem => hj (mem_cons_of_mem _ hmem), List.getElem?_set_ne hne]
      · rcases mem_cons.1 hj with rfl | hj
        · exact ⟨_, hgot, rfl, hb'.completeReq hc' hend⟩
        · exact hdone j hj hnot
    · obtain ⟨scheds', queue', heq, hsub, hframe, hrun', hlt', hdone⟩ :=
        ih (scheds.set k s') hnodup (hothers _)
      have hgot : scheds'[k]? = some s' := by rw [hframe k hk, List.getElem?_set_self hlt]
      refine ⟨scheds', k :: queue', ?_, hsub.cons_cons k, fun j hj => ?_, fun j hj => ?_,
        fun j hj x hx => ?_, fun j hj hnot => ?_⟩
      · simp [progressState, hget, hprog, hend, heq]
      · have hne : k ≠ j := fun heq => hj (heq ▸ mem_cons_self)
        rw [hframe j fun hmem => hj (mem_cons_of_mem _ hmem), List.getElem?_set_ne hne]
      · rcases mem_cons.1 hj with rfl | hj
        · exact ⟨s', f', hgot, hsame.phase.trans hp, hc', hb'⟩
        · exact hrun' j hj
      · rcases mem_cons.1 hj with rfl | hj
        · obtain rfl := Option.some.inj (hgot.symm.trans hx)
          have := hb'.run.idx_le
          have := hb'.run.le
          omega
        · exact hlt' j hj x hx
      · rcases mem_cons.1 hj with rfl | hj
        · exact absurd mem_cons_self hnot
        · exact hdone j hj fun hmem => hnot (mem_cons_of_mem _ hmem)

theorem StOk.progress (h : StOk st) {results : Nat → List Results}
    (hclean : ∀ k, ∀ r ∈ results k, Clean fatal r) :
    ∃ st', step fatal st (.progress results) = some st' ∧ StOk st' ∧
      ∀ (k : Nat) s, st'.scheds[k]? = some s → s.phase = .running → s.idx < s.entries.length := by
  have hrun : ∀ k ∈ st.queue, Running st.scheds k := by
    intro k hk
    obtain ⟨s, hs, hp⟩ := (h.queue k).1 hk
    have hok := h.scheds k s hs
    rw [PhaseOk, hp] at hok
    obtain ⟨hc, f, hb⟩ := hok
    exact ⟨s, f, hs, hp, hc, hb⟩
  obtain ⟨scheds', queue', heq, hsub, hframe, hrun', hlt, hdone⟩ :=
    progressState_spec hclean st.queue st.scheds h.nodup hrun
  have hqueue : ∀ k, k ∈ queue' ↔ ∃ s, scheds'[k]? = some s ∧ s.phase = .running := by
    intro k
    constructor
    · intro hk
      obtain ⟨s, f, hs, hp, -⟩ := hrun' k hk
      exact ⟨s, hs, hp⟩
    · rintro ⟨s, hs, hp⟩
      by_contra hnot
      by_cases hk : k ∈ st.queue
      · obtain ⟨x, hx, hcomplete, -⟩ := hdone k hk hnot
        obtain rfl := Option.some.inj (hs.symm.trans hx)
        exact absurd (hp.symm.trans hcomplete) nofun
      · rw [hframe k hk] at hs
        exact hk ((h.queue k).2 ⟨s, hs, hp⟩)
  refine ⟨⟨scheds', queue'⟩, ?_, ⟨fun k s hs => ?_, hsub.nodup h.nodup, hqueue⟩, fun k s hs hp => ?_⟩
  · simp [step, heq]
  · by_cases hk : k ∈ st.queue
    · by_cases hk' : k ∈ queue'
      · obtain ⟨x, f, hx, hp, hc, hb⟩ := hrun' k hk'
        obtain rfl := Option.some.inj (Eq.symm hs |>.trans hx)
        unfold PhaseOk
        rw [hp]
        exact ⟨hc, f, hb⟩
      · obtain ⟨x, hx, -, hok⟩ := hdone k hk hk'
        obtain rfl := Option.some.inj (Eq.symm hs |>.trans hx)
        exact hok
    · have hs : scheds'[k]? = some s := hs
      rw [hframe k hk] at hs
      exact h.scheds k s hs
  · exact hlt k ((hqueue k).2 ⟨s, hs, hp⟩) s hs

theorem StOk.step {a : Act} {st' : St} (h : StOk st) (hclean : StepOk fatal st a)
    (hs : Nbc.step fatal st a = some st') : StOk st' := by
  cases a with
  | create kind =>
    cases hs
    exact h.create kind
  | add k a =>
    obtain ⟨s, hget, hs⟩ := bind_eq_some_iff.1 hs
    obtain ⟨hp, hs⟩ := ite_none_right_eq_some.1 hs
    cases hs
    refine h.set_of_phase hget ((h.scheds k s hget).add hp a) ?_
    have hphase : (s.add a).phase = s.phase := by cases a <;> rfl
    rw [hphase]
  | start k results =>
    obtain ⟨s, hget, hs'⟩ := bind_eq_some_iff.1 hs
    obtain ⟨hp, -⟩ := ite_none_right_eq_some.1 hs'
    obtain ⟨x, hx, hok⟩ := h.start hclean hget hp
    obtain rfl := Option.some.inj (hx.symm.trans hs)
    exact hok
  | finish k i err =>
    obtain ⟨s, hget, hs⟩ := bind_eq_some_iff.1 hs
    obtain ⟨e, he, hs⟩ := bind_eq_some_iff.1 hs
    obtain ⟨hreq, hs⟩ := ite_none_right_eq_some.1 hs
    cases hs
    obtain ⟨-, hok⟩ := (h.scheds k s hget).finish he hreq err
    exact h.set_of_phase hget hok Iff.rfl
  | progress results =>
    obtain ⟨x, hx, hok, -⟩ := h.progress hclean
    obtain rfl := Option.some.inj (hx.symm.trans hs)
    exact hok
  | reset k =>
    obtain ⟨s, hget, hs⟩ := bind_eq_some_iff.1 hs
    obtain ⟨⟨-, hp⟩, hs⟩ := ite_none_right_eq_some.1 hs
    cases hs
    refine h.set_of_phase hget ((h.scheds k s hget).reset hp) ⟨fun hno => ?_, fun hno => ?_⟩
    · cases hno
    · exact absurd (hp.symm.trans hno) nofun

theorem stOk (h : (sys fatal).ReachWhen (StepOk fatal) st) : StOk st := by
  refine Sys.ReachWhen.inv (M := sys fatal) (I := StOk) ?_ (fun _ hi hc hs => hi.step hc hs) h
  refine ⟨fun k s hs => ?_, nodup_nil, fun k => ?_⟩
  · cases hs
  · refine ⟨fun hk => absurd hk not_mem_nil, ?_⟩
    rintro ⟨s, hs, -⟩
    cases hs

end scheds

/-! ## Order and completion -/

structure OrderOk (s : Sched) : Prop where
  /-- An entry is started at most once in a run, and only when all entries up to the last barrier
  before it are finished. -/
  once : ∀ e ∈ s.entries, e.starts ≤ 1 ∧ e.early = false
  idx_le : s.idx ≤ s.entries.length
  /-- The cursor is the length of the longest prefix of finished entries. -/
  longest : ∀ n ≤ s.entries.length, n ≤ s.idx ↔ ∀ j < n, s.isFinished j = true
  /-- The request is completed once. -/
  completed : s.completions = if s.phase = .complete then 1 else 0
  all_done : s.phase = .complete → ∀ e ∈ s.entries, e.starts = 1 ∧ e.status.isFinished = true
  not_broken : s.phase ≠ .broken
  /-- Some entry up to the first barrier that is not finished waits for its request. -/
  waits : s.phase = .running → s.idx < s.entries.length → ∃ i e, s.entries[i]? = some e ∧
    e.status = .started ∧ e.req.isSome = true ∧
    ∀ b, s.isBarrier b = true → s.isFinished b = false → i ≤ b

theorem longest_of_first {s : Sched} (hdone : ∀ j < s.idx, s.isFinished j = true)
    (hfirst : s.idx < s.entries.length → s.isFinished s.idx = false) (n : Nat)
    (hn : n ≤ s.entries.length) : n ≤ s.idx ↔ ∀ j < n, s.isFinished j = true := by
  refine ⟨fun hle j hj => hdone j (Nat.lt_of_lt_of_le hj hle), fun hall => ?_⟩
  by_contra hlt
  have hlt := Nat.lt_of_not_le hlt
  have hno := hfirst (Nat.lt_of_lt_of_le hlt hn)
  exact absurd (hno.symm.trans (hall _ hlt)) nofun

theorem Between.once {s : Sched} {f : Nat} (h : Between s f) {e : Entry} (he : e ∈ s.entries) :
    e.starts ≤ 1 ∧ e.early = false := by
  obtain ⟨j, hj⟩ := List.getElem?_of_mem he
  by_cases hlt : j < f
  · have hok := h.run.started j e hlt hj
    exact ⟨Nat.le_of_eq hok.starts, hok.early⟩
  · have hok := h.run.waiting j e (Nat.le_of_not_lt hlt) hj
    exact ⟨by rw [hok.starts]; exact Nat.zero_le _, hok.early⟩

theorem PhaseOk.order {s : Sched} (h : PhaseOk s) : OrderOk s := by
  unfold PhaseOk at h
  cases hp : s.phase with
  | built =>
    rw [hp] at h
    obtain ⟨hidx, hc, hwait⟩ := h
    refine ⟨fun e he => ?_, ?_, ?_, ?_, ?_, ?_, ?_⟩
    · exact ⟨by rw [(hwait e he).starts]; exact Nat.zero_le _, (hwait e he).early⟩
    · rw [hidx]
      exact Nat.zero_le _
    · refine longest_of_first (fun j hj => absurd hj (by omega)) fun hlt => ?_
      have hget := List.getElem?_eq_getElem hlt
      rw [isFinished_eq hget, (hwait _ (mem_of_getElem? hget)).status]
      rfl
    · rw [hp, hc]
      rfl
    · exact fun hno => absurd (hp.symm.trans hno) nofun
    · exact fun hno => absurd (hp.symm.trans hno) nofun
    · exact fun hno => absurd (hp.symm.trans hno) nofun
  | running =>
    rw [hp] at h
    obtain ⟨hc, f, hb⟩ := h
    refine ⟨fun e he => hb.once he, Nat.le_trans hb.run.idx_le hb.run.le,
      longest_of_first hb.run.done hb.first, ?_, ?_, ?_, fun _ hlt => ?_⟩
    · rw [hp, hc]
      rfl
    · exact fun hno => absurd (hp.symm.trans hno) nofun
    · exact fun hno => absurd (hp.symm.trans hno) nofun
    · obtain ⟨e, hget, hst, hreq, -⟩ := hb.waits hlt
      refine ⟨s.idx, e, hget, hst, hreq, fun b _ hno => ?_⟩
      by_contra hlt'
      exact absurd (hno.symm.trans (hb.run.done b (Nat.lt_of_not_le hlt'))) nofun
  | complete =>
    rw [hp] at h
    obtain ⟨hc, hend, hb⟩ := h
    refine ⟨fun e he => hb.once he, Nat.le_of_eq hend, longest_of_first hb.run.done hb.first, ?_,
      fun _ e he => ?_, ?_, ?_⟩
    · rw [hp, hc]
      rfl
    · obtain ⟨hok, hfin⟩ := hb.finished_of_end hend he
      exact ⟨hok.starts, hfin⟩
    · exact fun hno => absurd (hp.symm.trans hno) nofun
    · exact fun hno => absurd (hp.symm.trans hno) nofun
  | broken =>
    rw [hp] at h
    exact h.elim

/-- In every run in which no start of an entry returns an error and no failed receive stays without a
request, entries are started once and in the order the barriers give, the cursor is at the first
entry that is not finished, requests are completed once and at the end, and no schedule gets stuck:
it can be started and progressed, and an entry of it waits for its request until it is complete. -/
theorem schedule_order {fatal : Bool} {st : St} (h : (sys fatal).ReachWhen (StepOk fatal) st) :
    (∀ (k : Nat) s, st.scheds[k]? = some s → OrderOk s) ∧
      (∀ (k : Nat) s results, st.scheds[k]? = some s → s.phase = .built →
        (∀ r ∈ results, Clean fatal r) → ∃ st', step fatal st (.start k results) = some st') ∧
      ∀ results, (∀ k, ∀ r ∈ results k, Clean fatal r) →
        ∃ st', step fatal st (.progress results) = some st' ∧
          ∀ (k : Nat) s, st'.scheds[k]? = some s → s.phase = .running →
            s.idx < s.entries.length := by
  have hok := stOk h
  refine ⟨fun k s hs => (hok.scheds k s hs).order, fun k s results hs hp hclean => ?_,
    fun results hclean => ?_⟩
  · obtain ⟨st', hst, -⟩ := hok.start hclean hs hp
    exact ⟨st', hst⟩
  · obtain ⟨st', hst, -, hlt⟩ := hok.progress hclean
    exact ⟨st', hst, hlt⟩

/-- A persistent schedule of a send, a barrier and a callback runs and is started again. -/
def restarted : List Act :=
  [.create .persistent, .add 0 (.entry .send), .add 0 .barrier, .add 0 (.entry .cb), .start 0 [],
    .progress fun _ => [], .finish 0 0 false, .progress fun _ => [], .reset 0, .start 0 []]

theorem schedule_order_restarted : ∃ st, (sys false).ReachWhen (StepOk false) st ∧
    (sys false).exec ⟨[], []⟩ restarted = some st ∧
    (∃ s, st.scheds[0]? = some s ∧ OrderOk s ∧ s.phase = .running ∧ s.idx = 0 ∧
      s.entries.length = 2) ∧
    ∃ st', step false st (.progress fun _ => []) = some st' := by
  have hrun : ((sys false).exec ⟨[], []⟩ restarted).map
      (fun st => st.scheds.map fun s => (s.phase, s.idx, s.entries.length)) =
      some [(.running, 0, 2)] := by
    decide
  obtain ⟨st, hst, hval⟩ := map_eq_some_iff.1 hrun
  have hclean : (sys false).Along (StepOk false) ([] ++ restarted) := by
    intro pre a s hpre _
    have hmem : a ∈ restarted := hpre.subset (by simp)
    simp only [restarted, mem_cons, not_mem_nil, or_false] at hmem
    rcases hmem with rfl | rfl | rfl | rfl | rfl | rfl | rfl | rfl | rfl | rfl <;>
      simp [StepOk]
  have hreach := Sys.exec_reachWhen (M := sys false) .init rfl hclean hst
  obtain ⟨hall, -, hprog⟩ := schedule_order hreach
  obtain ⟨st', hst', -⟩ := hprog (fun _ => []) fun _ r hr => absurd hr not_mem_nil
  refine ⟨st, hreach, hst, ?_, st', hst'⟩
  obtain ⟨scheds, queue⟩ := st
  obtain ⟨s, rfl, heq⟩ := map_eq_singleton_iff.1 hval
  injection heq with hp heq
  injection heq with hidx hlen
  exact ⟨s, rfl, hall 0 s rfl, hp, hidx, hlen⟩

/-- A local operation fails: after a send that is a barrier comes a copy that fails and another send. -/
def failingCopy : List Act :=
  [.create .regular, .add 0 (.entry .send), .add 0 .barrier, .add 0 (.entry .copy),
    .add 0 (.entry .send), .start 0 [], .finish 0 0 false,
    .progress fun _ => [.ok, { Results.ok with localErr := true }], .progress fun _ => []]

/-- The second send is never started, and the progress engine leaves the schedule as it is. -/
theorem schedule_order_fails : ∃ st, (sys false).Reach st ∧
    step false st (.progress fun _ => []) = some st ∧
    ∃ s, st.scheds[0]? = some s ∧ s.phase = .running ∧ s.idx < s.entries.length ∧
      (∀ e ∈ s.entries, e.status ≠ .started) ∧ ¬OrderOk s := by
  have hrun : ((sys false).exec ⟨[], []⟩ failingCopy).map
      (fun st => (decide (step false st (.progress fun _ => []) = some st),
        st.scheds.map fun s => (s.phase, s.idx, s.entries.map Entry.status))) =
      some (true, [(.running, 2, [.complete, .failed, .notStarted])]) := by
    decide
  obtain ⟨st, hst, hval⟩ := map_eq_some_iff.1 hrun
  injection hval with hstuck hval
  obtain ⟨scheds, queue⟩ := st
  obtain ⟨s, rfl, heq⟩ := map_eq_singleton_iff.1 hval
  injection heq with hp heq
  injection heq with hidx hstatus
  have hlen : s.entries.length = 3 := by
    rw [← length_map (f := Entry.status), hstatus]
    rfl
  have hno : ∀ e ∈ s.entries, e.status ≠ .started := by
    intro e he hst
    have hmem := mem_map_of_mem (f := Entry.status) he
    rw [hstatus, hst] at hmem
    simp at hmem
  refine ⟨_, Sys.exec_reach .init hst, of_decide_eq_true hstuck, s, rfl, hp, by omega, hno, ?_⟩
  intro hok
  obtain ⟨i, e, he, hst, -⟩ := hok.waits hp (by omega)
  exact hno e (mem_of_getElem? he) hst

end PsMpi.Nbc
