import PsMpi.Lib.Trans
import Mathlib.Data.List.Basic

/-!
# The tags of schedules

See `mpich2/src/mpid/common/sched/mpidu_sched.c`, built with error checking.
-/

open List Option

namespace PsMpi.Nbc.Tag

open PsMpi.Lib

/-- `MPIR_FIRST_NBC_TAG` (`mpir_tags.h:43`). -/
def firstNbcTag : Nat := 31 + 255 + 1

inductive Phase where
  | idle
  | running
  | done
deriving DecidableEq

/-- `MPIDU_Sched` (`mpidu_sched.h`). -/
structure Sched where
  comm : Nat
  tag : Nat
  persistent : Bool
  phase : Phase
  entered : Nat

structure St where
  next : Nat → Nat
  entered : Nat → Nat
  scheds : List Sched

def setAt (f : Nat → Nat) (c n : Nat) : Nat → Nat := fun d => if d = c then n else f d

/-- `MPIDU_Sched_next_tag` (:171). -/
def half (tagUb next : Nat) : Option (Nat × Nat) :=
  if next = tagUb / 2 then some (tagUb / 2, tagUb)
  else if next = tagUb then some (firstNbcTag, tagUb / 2)
  else none

/-- A schedule of the communicator in the list of all schedules has a tag between the bounds.
Line 180. -/
def St.busy (st : St) (c start stop : Nat) : Bool :=
  st.scheds.any fun s =>
    decide (s.phase = .running) && decide (s.comm = c) && decide (start ≤ s.tag ∧ s.tag < stop)

/-- Line 193. -/
def wrap (tagUb next : Nat) : Nat := if next = tagUb then firstNbcTag else next

/-- The next tag of a communicator, or an error if too many schedules are in progress; then the
counter is not wrapped around. Line 151. -/
def nextTag (tagUb : Nat) (st : St) (c : Nat) : St × Option Nat :=
  let tag := st.next c
  let next := tag + 1
  match half tagUb next with
  | some (start, stop) =>
    let st := { st with entered := setAt st.entered c (st.entered c + 1) }
    if st.busy c start stop then ({ st with next := setAt st.next c next }, none)
    else ({ st with next := setAt st.next c (wrap tagUb next) }, some tag)
  | none => ({ st with next := setAt st.next c (wrap tagUb next) }, some tag)

/-- `MPII_SCHED_CREATE_SCHED_P` (`coll_impl.h:68`). -/
def create (tagUb : Nat) (st : St) (c : Nat) (persistent : Bool) : St :=
  match nextTag tagUb st c with
  | (st', some tag) =>
    { st' with scheds := st'.scheds ++ [⟨c, tag, persistent, .idle, st.entered c⟩] }
  | (st', none) => st'

/-- `MPIDU_Sched_start` (:560), `MPIDU_Sched_reset` (:522). -/
def Sched.startable (s : Sched) : Bool :=
  match s.phase with
  | .idle => true
  | .running => false
  | .done => s.persistent

inductive Act where
  | create (c : Nat) (persistent : Bool)
  | start (k : Nat)
  | complete (k : Nat)

def step (tagUb : Nat) (st : St) : Act → Option St
  | .create c persistent => some (create tagUb st c persistent)
  | .start k => do
    let s ← st.scheds[k]?
    if s.startable then some { st with scheds := st.scheds.set k { s with phase := .running } }
    else none
  | .complete k => do
    let s ← st.scheds[k]?
    if s.phase = .running then
      some { st with scheds := st.scheds.set k { s with phase := .done } }
    else none

def sys (tagUb : Nat) : Sys St Act := ⟨⟨fun _ => firstNbcTag, fun _ => 0, []⟩, step tagUb⟩

/-! ## The condition -/

/-- When the counter enters a half, no schedule in progress has a tag in it; when a schedule is
started, the counter has not come back to the half of its tag. -/
def StepOk (tagUb : Nat) (st : St) : Act → Prop
  | .create c _ => ∀ start stop, half tagUb (st.next c + 1) = some (start, stop) →
      st.busy c start stop = false
  | .start k => ∀ s, st.scheds[k]? = some s → st.entered s.comm ≤ s.entered + 1
  | .complete _ => True

/-! ## The invariant -/

def InHalf (tagUb n t : Nat) : Prop :=
  if n % 2 = 0 then firstNbcTag ≤ t ∧ t < tagUb / 2 else tagUb / 2 ≤ t ∧ t < tagUb

structure Inv (tagUb : Nat) (st : St) : Prop where
  next : ∀ c, InHalf tagUb (st.entered c) (st.next c)
  tag : ∀ s ∈ st.scheds, InHalf tagUb s.entered s.tag
  entered_le : ∀ s ∈ st.scheds, s.entered ≤ st.entered s.comm
  lt_next : ∀ s ∈ st.scheds, s.entered = st.entered s.comm → s.tag < st.next s.comm
  recent : ∀ s ∈ st.scheds, s.phase = .running → st.entered s.comm ≤ s.entered + 1
  distinct : st.scheds.Pairwise fun s s' =>
    s.comm = s'.comm → s.entered = s'.entered → s.tag ≠ s'.tag

section

variable {tagUb c n t : Nat} {st st' : St}

@[simp] theorem setAt_self (f : Nat → Nat) (c n : Nat) : setAt f c n c = n := if_pos rfl

theorem setAt_of_ne (f : Nat → Nat) {c d : Nat} (n : Nat) (h : d ≠ c) : setAt f c n d = f d :=
  if_neg h

theorem InHalf.bounds (hub : 32767 ≤ tagUb) (h : InHalf tagUb n t) :
    firstNbcTag ≤ t ∧ t < tagUb := by
  unfold InHalf at h
  have : firstNbcTag = 287 := rfl
  split at h <;> omega

theorem InHalf.ne_of_succ {t' : Nat} (h : InHalf tagUb n t) (h' : InHalf tagUb (n + 1) t') :
    t ≠ t' := by
  unfold InHalf at h h'
  split at h <;> split at h' <;> omega

theorem half_cases (hub : 32767 ≤ tagUb) (h : InHalf tagUb n t) :
    (half tagUb (t + 1) = none ∧ wrap tagUb (t + 1) = t + 1 ∧ InHalf tagUb n (t + 1)) ∨
      ∃ start stop, half tagUb (t + 1) = some (start, stop) ∧
        InHalf tagUb (n + 1) (wrap tagUb (t + 1)) ∧
        ∀ t', InHalf tagUb (n + 1) t' → start ≤ t' ∧ t' < stop := by
  have h287 : firstNbcTag = 287 := rfl
  unfold InHalf at h
  split at h
  · next heven =>
    have hodd : ¬(n + 1) % 2 = 0 := by omega
    by_cases hhalf : t + 1 = tagUb / 2
    · refine .inr ⟨tagUb / 2, tagUb, if_pos hhalf, ?_, fun t' ht' => ?_⟩
      · rw [InHalf, if_neg hodd, wrap, if_neg (by omega)]
        omega
      · rwa [InHalf, if_neg hodd] at ht'
    · refine .inl ⟨?_, ?_, ?_⟩
      · rw [half, if_neg hhalf, if_neg (by omega)]
      · rw [wrap, if_neg (by omega)]
      · rw [InHalf, if_pos heven]
        omega
  · next hodd =>
    have heven : (n + 1) % 2 = 0 := by omega
    by_cases hend : t + 1 = tagUb
    · refine .inr ⟨firstNbcTag, tagUb / 2, ?_, ?_, fun t' ht' => ?_⟩
      · rw [half, if_neg (by omega), if_pos hend]
      · rw [InHalf, if_pos heven, wrap, if_pos hend]
        omega
      · rwa [InHalf, if_pos heven] at ht'
    · refine .inl ⟨?_, ?_, ?_⟩
      · rw [half, if_neg (by omega), if_neg hend]
      · rw [wrap, if_neg hend]
      · rw [InHalf, if_neg hodd]
        omega

theorem not_running_of_not_busy {start stop : Nat} (h : st.busy c start stop = false) {s : Sched}
    (hs : s ∈ st.scheds) (hc : s.comm = c) (ht : start ≤ s.tag ∧ s.tag < stop) :
    s.phase ≠ .running := by
  intro hrun
  have htrue : st.busy c start stop = true := by
    refine any_eq_true.2 ⟨s, hs, ?_⟩
    simp [hrun, hc, ht]
  exact absurd (h.symm.trans htrue) nofun

theorem Inv.push (next' entered' : Nat) (h : Inv tagUb st) (persistent : Bool)
    (hnext : InHalf tagUb entered' next')
    (hstep : entered' = st.entered c ∧ next' = st.next c + 1 ∨ entered' = st.entered c + 1)
    (hrecent : ∀ s ∈ st.scheds, s.comm = c → s.phase = .running → entered' ≤ s.entered + 1) :
    Inv tagUb ⟨setAt st.next c next', setAt st.entered c entered',
      st.scheds ++ [⟨c, st.next c, persistent, .idle, st.entered c⟩]⟩ := by
  refine ⟨fun d => ?_, fun s hs => ?_, fun s hs => ?_, fun s hs => ?_, fun s hs => ?_, ?_⟩
  · by_cases hd : d = c
    · subst hd
      simpa using hnext
    · show InHalf tagUb (setAt st.entered c entered' d) (setAt st.next c next' d)
      rw [setAt_of_ne _ _ hd, setAt_of_ne _ _ hd]
      exact h.next d
  · rcases mem_append.1 hs with hs | hs
    · exact h.tag s hs
    · rw [mem_singleton.1 hs]
      exact h.next c
  · show s.entered ≤ setAt st.entered c entered' s.comm
    rcases mem_append.1 hs with hs | hs
    · have hle := h.entered_le s hs
      by_cases hd : s.comm = c
      · rw [hd, setAt_self]
        rw [hd] at hle
        omega
      · rwa [setAt_of_ne _ _ hd]
    · rw [mem_singleton.1 hs, setAt_self]
      show st.entered c ≤ entered'
      omega
  · show s.entered = setAt st.entered c entered' s.comm → s.tag < setAt st.next c next' s.comm
    rcases mem_append.1 hs with hs | hs
    · have hle := h.entered_le s hs
      have hlt := h.lt_next s hs
      by_cases hd : s.comm = c
      · rw [hd] at hle hlt ⊢
        rw [setAt_self, setAt_self]
        intro heq
        rcases hstep with ⟨he, hn⟩ | he
        · have := hlt (heq.trans he)
          omega
        · omega
      · rwa [setAt_of_ne _ _ hd, setAt_of_ne _ _ hd]
    · rw [mem_singleton.1 hs, setAt_self, setAt_self]
      intro heq
      have heq : st.entered c = entered' := heq
      show st.next c < next'
      omega
  · show s.phase = .running → setAt st.entered c entered' s.comm ≤ s.entered + 1
    rcases mem_append.1 hs with hs | hs
    · by_cases hd : s.comm = c
      · rw [hd, setAt_self]
        exact hrecent s hs hd
      · rw [setAt_of_ne _ _ hd]
        exact h.recent s hs
    · rw [mem_singleton.1 hs]
      exact nofun
  · refine pairwise_append.2 ⟨h.distinct, pairwise_singleton _ _, fun s hs s' hs' => ?_⟩
    rw [mem_singleton.1 hs']
    intro hc he
    have hc : s.comm = c := hc
    have hlt := h.lt_next s hs
    rw [hc] at hlt
    exact Nat.ne_of_lt (hlt he)

theorem Inv.create (hub : 32767 ≤ tagUb) (h : Inv tagUb st) (persistent : Bool)
    (hok : StepOk tagUb st (.create c persistent)) : Inv tagUb (create tagUb st c persistent) := by
  unfold Tag.create nextTag
  rcases half_cases hub (h.next c) with ⟨hnone, hwrap, hin⟩ | ⟨start, stop, hsome, hin, hall⟩
  · simp only [hnone, hwrap]
    have hself : setAt st.entered c (st.entered c) = st.entered := by
      funext d
      unfold setAt
      split
      · next hd => rw [hd]
      · rfl
    have := h.push (c := c) (st.next c + 1) (st.entered c) persistent hin
      (.inl ⟨rfl, rfl⟩) fun s hs hc hrun => hc ▸ h.recent s hs hrun
    rwa [hself] at this
  · have hfree : st.busy c start stop = false := hok start stop hsome
    have hfree' : St.busy { st with entered := setAt st.entered c (st.entered c + 1) } c start stop =
        false := hfree
    simp only [hsome, hfree', Bool.false_eq_true, if_false]
    refine h.push _ _ persistent hin (.inr rfl) fun s hs hc hrun => ?_
    -- a schedule of the half that was entered before the last one is not in progress
    have hrecent := h.recent s hs hrun
    rw [hc] at hrecent
    by_contra hlt
    have htag := h.tag s hs
    have hhalf : InHalf tagUb (st.entered c + 1) s.tag := by
      have hmod : (st.entered c + 1) % 2 = s.entered % 2 := by omega
      unfold InHalf
      rw [hmod]
      exact htag
    exact not_running_of_not_busy hfree hs hc (hall _ hhalf) hrun

theorem Inv.set {s : Sched} {k : Nat} (h : Inv tagUb st) (hget : st.scheds[k]? = some s)
    (phase : Phase) (hrecent : phase = .running → st.entered s.comm ≤ s.entered + 1) :
    Inv tagUb { st with scheds := st.scheds.set k { s with phase := phase } } := by
  have hmem := mem_of_getElem? hget
  have hcases : ∀ x ∈ st.scheds.set k { s with phase := phase },
      x ∈ st.scheds ∨ x = { s with phase := phase } := fun x hx => mem_or_eq_of_mem_set hx
  refine ⟨h.next, fun x hx => ?_, fun x hx => ?_, fun x hx => ?_, fun x hx => ?_, ?_⟩
  · rcases hcases x hx with hx | rfl
    · exact h.tag x hx
    · exact h.tag s hmem
  · rcases hcases x hx with hx | rfl
    · exact h.entered_le x hx
    · exact h.entered_le s hmem
  · rcases hcases x hx with hx | rfl
    · exact h.lt_next x hx
    · exact h.lt_next s hmem
  · rcases hcases x hx with hx | rfl
    · exact h.recent x hx
    · exact hrecent
  · refine pairwise_iff_getElem.2 fun i j hi hj hij => ?_
    have hpair := pairwise_iff_getElem.1 h.distinct i j (by simpa using hi) (by simpa using hj)
      hij
    obtain ⟨hk, rfl⟩ := List.getElem?_eq_some_iff.1 hget
    rw [getElem_set, getElem_set]
    split
    · next hki =>
      subst hki
      rw [if_neg (by omega)]
      exact hpair
    · split
      · next hkj =>
        subst hkj
        exact hpair
      · exact hpair

theorem Inv.step {a : Act} (hub : 32767 ≤ tagUb) (h : Inv tagUb st) (hok : StepOk tagUb st a)
    (hs : Tag.step tagUb st a = some st') : Inv tagUb st' := by
  cases a with
  | create c persistent =>
    cases hs
    exact h.create hub persistent hok
  | start k =>
    obtain ⟨s, hget, hs⟩ := bind_eq_some_iff.1 hs
    obtain ⟨-, hs⟩ := ite_none_right_eq_some.1 hs
    cases hs
    exact h.set hget .running fun _ => hok s hget
  | complete k =>
    obtain ⟨s, hget, hs⟩ := bind_eq_some_iff.1 hs
    obtain ⟨-, hs⟩ := ite_none_right_eq_some.1 hs
    cases hs
    exact h.set hget .done nofun

theorem inv (hub : 32767 ≤ tagUb) (h : (sys tagUb).ReachWhen (StepOk tagUb) st) :
    Inv tagUb st := by
  refine Sys.ReachWhen.inv (M := sys tagUb) (I := Inv tagUb) ?_
    (fun _ hi hc hs => hi.step hub hc hs) h
  have hnone : ∀ s : Sched, s ∉ ([] : List Sched) := fun s => not_mem_nil
  refine ⟨fun c => ?_, fun s hs => absurd hs (hnone s), fun s hs => absurd hs (hnone s),
    fun s hs => absurd hs (hnone s), fun s hs => absurd hs (hnone s), .nil⟩
  show InHalf tagUb 0 firstNbcTag
  have : firstNbcTag = 287 := rfl
  rw [InHalf, if_pos rfl]
  omega

end

/-- In every run in which the check succeeds whenever the counter enters a half, and no schedule is
started after the counter has come back to the half of its tag, all tags are in the range, and two
schedules of a communicator that are in progress have different tags. `32767 ≤ tag_ub` is asserted
by `MPII_init_tag_ub` (`local_proc_attrs.c:100`). -/
theorem tags_distinct {tagUb : Nat} (hub : 32767 ≤ tagUb) {st : St}
    (h : (sys tagUb).ReachWhen (StepOk tagUb) st) :
    (∀ s ∈ st.scheds, firstNbcTag ≤ s.tag ∧ s.tag < tagUb) ∧
      ∀ (i j : Nat) s s', i ≠ j → st.scheds[i]? = some s → st.scheds[j]? = some s' →
        s.phase = .running → s'.phase = .running → s.comm = s'.comm → s.tag ≠ s'.tag := by
  have hinv := inv hub h
  refine ⟨fun s hs => (hinv.tag s hs).bounds hub, ?_⟩
  -- the two schedules in the order in which they got their tags
  have hlt : ∀ (i j : Nat) s s', i < j → st.scheds[i]? = some s → st.scheds[j]? = some s' →
      s.phase = .running → s'.phase = .running → s.comm = s'.comm → s.tag ≠ s'.tag := by
    intro i j s s' hij hi hj hrun hrun' hc
    have hs := mem_of_getElem? hi
    have hs' := mem_of_getElem? hj
    have hle := hinv.entered_le s hs
    have hle' := hinv.entered_le s' hs'
    have hr := hinv.recent s hs hrun
    have hr' := hinv.recent s' hs' hrun'
    rw [hc] at hle hr
    have hcases : s.entered = s'.entered ∨ s'.entered = s.entered + 1 ∨
        s.entered = s'.entered + 1 := by omega
    rcases hcases with heq | hsucc | hsucc
    · obtain ⟨hi', rfl⟩ := List.getElem?_eq_some_iff.1 hi
      obtain ⟨hj', rfl⟩ := List.getElem?_eq_some_iff.1 hj
      exact pairwise_iff_getElem.1 hinv.distinct i j hi' hj' hij hc heq
    · exact (hinv.tag s hs).ne_of_succ (hsucc ▸ hinv.tag s' hs')
    · exact ((hinv.tag s' hs').ne_of_succ (hsucc ▸ hinv.tag s hs)).symm
  intro i j s s' hne hi hj hrun hrun' hc
  rcases Nat.lt_or_gt_of_ne hne with hij | hij
  · exact hlt i j s s' hij hi hj hrun hrun' hc
  · exact (hlt j i s' s hij hj hi hrun' hrun hc.symm).symm

/-- Two schedules of a communicator in progress, the second of them persistent and started again. -/
theorem tags_distinct_two : ∃ (st : St) (s s' : Sched),
    (sys 268435455).ReachWhen (StepOk 268435455) st ∧ st.scheds[0]? = some s ∧
    st.scheds[1]? = some s' ∧ s.phase = .running ∧ s'.phase = .running ∧ s.tag ≠ s'.tag := by
  have h₁ := Sys.ReachWhen.step (M := sys 268435455) (C := StepOk 268435455)
    (a := Act.create 0 false) .init nofun rfl
  have h₂ := Sys.ReachWhen.step (a := Act.create 0 true) h₁ nofun rfl
  have h₃ := Sys.ReachWhen.step (a := Act.start 0) h₂ (by rintro s ⟨⟩; exact Nat.zero_le _) rfl
  have h₄ := Sys.ReachWhen.step (a := Act.start 1) h₃ (by rintro s ⟨⟩; exact Nat.zero_le _) rfl
  have h₅ := Sys.ReachWhen.step (a := Act.complete 1) h₄ trivial rfl
  have h₆ := Sys.ReachWhen.step (a := Act.start 1) h₅ (by rintro s ⟨⟩; exact Nat.zero_le _) rfl
  exact ⟨_, _, _, h₆, rfl, rfl, rfl, rfl,
    (tags_distinct (by decide) h₆).2 0 1 _ _ (by decide) rfl rfl rfl rfl rfl⟩

/-! ## Runs in which a check fails or a schedule sleeps -/

section

variable {tagUb c n : Nat} {st : St}

theorem exists_creates (h : (sys tagUb).Reach st)
    (hfirst : ∀ s ∈ st.scheds, s.phase = .running → s.tag < tagUb / 2) (k : Nat)
    (hk : st.next c + k < tagUb) :
    ∃ st' new, (sys tagUb).Reach st' ∧ st'.next c = st.next c + k ∧
      st'.scheds = st.scheds ++ new ∧ ∀ s ∈ new, s.phase = .idle := by
  induction k with
  | zero =>
    exact ⟨st, [], h, rfl, (append_nil _).symm, fun s hs => absurd hs not_mem_nil⟩
  | succ k ih =>
    obtain ⟨st', new, hreach, hnext, hscheds, hidle⟩ := ih (by omega)
    have hfree : ∀ start stop, half tagUb (st'.next c + 1) = some (start, stop) →
        st'.busy c start stop = false := by
      intro start stop hhalf
      rw [half] at hhalf
      split at hhalf
      · obtain ⟨rfl, rfl⟩ := Prod.mk.inj (Option.some.inj hhalf)
        refine any_eq_false.2 fun s hs => ?_
        rw [hscheds] at hs
        rcases mem_append.1 hs with hs | hs
        · have := hfirst s hs
          by_cases hrun : s.phase = .running
          · have := this hrun
            simp [hrun]
            omega
          · simp [hrun]
        · simp [hidle s hs]
      · rw [if_neg (by omega)] at hhalf
        cases hhalf
    have hwrap : wrap tagUb (st'.next c + 1) = st'.next c + 1 := if_neg (by omega)
    have hstep : ∃ entered, create tagUb st' c false = ⟨setAt st'.next c (st'.next c + 1), entered,
        st'.scheds ++ [⟨c, st'.next c, false, .idle, st'.entered c⟩]⟩ := by
      unfold create nextTag
      cases hhalf : half tagUb (st'.next c + 1) with
      | none =>
        simp only [hhalf, hwrap]
        exact ⟨_, rfl⟩
      | some range =>
        obtain ⟨start, stop⟩ := range
        have hno : St.busy { st' with entered := setAt st'.entered c (st'.entered c + 1) } c start
            stop = false := hfree start stop hhalf
        simp only [hhalf, hno, hwrap, Bool.false_eq_true, if_false]
        exact ⟨_, rfl⟩
    obtain ⟨entered, hcreate⟩ := hstep
    refine ⟨create tagUb st' c false, new ++ [⟨c, st'.next c, false, .idle, st'.entered c⟩],
      .step (a := Act.create c false) hreach trivial rfl, ?_, ?_, ?_⟩
    · rw [hcreate]
      show setAt st'.next c (st'.next c + 1) c = _
      rw [setAt_self, hnext]
      omega
    · rw [hcreate, ← append_assoc, ← hscheds]
    · intro s hs
      rcases mem_append.1 hs with hs | hs
      · exact hidle s hs
      · rw [mem_singleton.1 hs]

theorem create_after_error (hub : 32767 ≤ tagUb) (hnext : st.next c + 1 = tagUb)
    (hbusy : st.busy c firstNbcTag (tagUb / 2) = true) :
    ∃ s ∈ (create tagUb (create tagUb st c false) c false).scheds, s.tag = tagUb := by
  have hhalf : half tagUb (st.next c + 1) = some (firstNbcTag, tagUb / 2) := by
    rw [half, if_neg (by omega), if_pos hnext]
  have herr : create tagUb st c false =
      ⟨setAt st.next c tagUb, setAt st.entered c (st.entered c + 1), st.scheds⟩ := by
    have hyes : St.busy { st with entered := setAt st.entered c (st.entered c + 1) } c firstNbcTag
        (tagUb / 2) = true := hbusy
    unfold create nextTag
    simp only [hhalf, hyes, if_true]
    rw [hnext]
  have hnone : half tagUb (tagUb + 1) = none := by
    rw [half, if_neg (by omega), if_neg (by omega)]
  rw [herr]
  refine ⟨⟨c, tagUb, false, .idle, st.entered c + 1⟩, ?_, rfl⟩
  unfold create nextTag
  simp only [setAt_self, hnone]
  exact mem_append_right _ (mem_singleton_self _)

theorem create_after_wrap (hub : 32767 ≤ tagUb) (hnext : st.next c + 1 = tagUb)
    (hidle : ∀ s ∈ st.scheds, s.phase ≠ .running) :
    ∃ s s' : Sched, (create tagUb (create tagUb st c false) c false).scheds = st.scheds ++ [s, s'] ∧
      s'.comm = c ∧ s'.tag = firstNbcTag ∧ s'.phase = .idle := by
  have hhalf : half tagUb (st.next c + 1) = some (firstNbcTag, tagUb / 2) := by
    rw [half, if_neg (by omega), if_pos hnext]
  have hno : St.busy { st with entered := setAt st.entered c (st.entered c + 1) } c firstNbcTag
      (tagUb / 2) = false := by
    refine any_eq_false.2 fun s hs => ?_
    simp [hidle s hs]
  have h287 : firstNbcTag = 287 := rfl
  have hnone : half tagUb (firstNbcTag + 1) = none := by
    rw [half, if_neg (by omega), if_neg (by omega)]
  have hwrapped : create tagUb st c false =
      ⟨setAt st.next c firstNbcTag, setAt st.entered c (st.entered c + 1),
        st.scheds ++ [⟨c, st.next c, false, .idle, st.entered c⟩]⟩ := by
    unfold create nextTag
    simp only [hhalf, hno, Bool.false_eq_true, if_false, wrap, if_pos hnext]
  rw [hwrapped]
  refine ⟨⟨c, st.next c, false, .idle, st.entered c⟩,
    ⟨c, firstNbcTag, false, .idle, st.entered c + 1⟩, ?_, rfl, rfl, rfl⟩
  unfold create nextTag
  simp only [setAt_self, hnone, append_assoc]
  rfl

end

/-- With a schedule in progress while the counter goes once round, a tag that is not in the range is
handed out; and a persistent schedule that is not in progress meanwhile is then started beside one
with the same tag. -/
theorem tags_collide :
    (∃ st, (sys 268435455).Reach st ∧ ∃ s ∈ st.scheds, s.tag = 268435455) ∧
      ∃ st, (sys 268435455).Reach st ∧ ∃ (i j : Nat) (s s' : Sched), i ≠ j ∧
        st.scheds[i]? = some s ∧ st.scheds[j]? = some s' ∧ s.phase = .running ∧
        s'.phase = .running ∧ s.comm = s'.comm ∧ s.tag = s'.tag := by
  have hub : 32767 ≤ 268435455 := by decide
  constructor
  · have hstart : (sys 268435455).exec (sys 268435455).init [.create 0 false, .start 0] =
        some ⟨setAt (fun _ => firstNbcTag) 0 288, fun _ => 0, [⟨0, 287, false, .running, 0⟩]⟩ := rfl
    obtain ⟨st, new, hreach, hnext, hscheds, -⟩ := exists_creates (c := 0)
      (Sys.exec_reach .init hstart) (fun s hs _ => by rw [mem_singleton.1 hs]; decide)
      (268435454 - 288) (by decide)
    have hnext : st.next 0 + 1 = 268435455 := by rw [hnext]; rfl
    have hbusy : st.busy 0 firstNbcTag (268435455 / 2) = true := by
      refine any_eq_true.2 ⟨⟨0, 287, false, .running, 0⟩, ?_, by decide⟩
      rw [hscheds]
      exact mem_append_left _ (mem_singleton_self _)
    obtain ⟨s, hs, htag⟩ := create_after_error hub hnext hbusy
    exact ⟨_, .step (a := Act.create 0 false) (.step (a := Act.create 0 false) hreach trivial rfl)
      trivial rfl, s, hs, htag⟩
  · have hstart : (sys 268435455).exec (sys 268435455).init [.create 0 true] =
        some ⟨setAt (fun _ => firstNbcTag) 0 288, fun _ => 0, [⟨0, 287, true, .idle, 0⟩]⟩ := rfl
    obtain ⟨st, new, hreach, hnext, hscheds, hidle⟩ := exists_creates (c := 0)
      (Sys.exec_reach .init hstart)
      (fun s hs hrun => by rw [mem_singleton.1 hs] at hrun; exact nomatch hrun)
      (268435454 - 288) (by decide)
    have hnext : st.next 0 + 1 = 268435455 := by rw [hnext]; rfl
    have hnone : ∀ s ∈ st.scheds, s.phase ≠ .running := by
      intro s hs
      rw [hscheds] at hs
      rcases mem_append.1 hs with hs | hs
      · rw [mem_singleton.1 hs]
        exact nofun
      · rw [hidle s hs]
        exact nofun
    obtain ⟨s, s', hlast, hc, htag, hphase⟩ := create_after_wrap hub hnext hnone
    have hreach' := Sys.ReachWhen.step (a := Act.create 0 false)
      (Sys.ReachWhen.step (a := Act.create 0 false) hreach trivial rfl) trivial rfl
    generalize hst' : create 268435455 (create 268435455 st 0 false) 0 false = st' at hreach' hlast
    rw [hscheds, append_assoc] at hlast
    have hget : st'.scheds[0]? = some ⟨0, 287, true, .idle, 0⟩ := by rw [hlast]; rfl
    have hlen : st'.scheds.length = new.length + 3 := by
      rw [hlast]
      simp
    have hget' : st'.scheds[new.length + 2]? = some s' := by
      rw [hlast]
      simp
    have hstep : step 268435455 st' (.start 0) =
        some { st' with scheds := st'.scheds.set 0 ⟨0, 287, true, .running, 0⟩ } := by
      simp [step, hget, Sched.startable]
    have hstep' : step 268435455 { st' with scheds := st'.scheds.set 0 ⟨0, 287, true, .running, 0⟩ }
        (.start (new.length + 2)) = some { st' with
          scheds := (st'.scheds.set 0 ⟨0, 287, true, .running, 0⟩).set (new.length + 2)
            { s' with phase := .running } } := by
      simp [step, hget', Sched.startable, hphase]
    refine ⟨_, .step (a := Act.start (new.length + 2))
      (.step (a := Act.start 0) hreach' trivial hstep) trivial hstep', 0, new.length + 2,
      ⟨0, 287, true, .running, 0⟩, { s' with phase := .running }, by omega, ?_, ?_, rfl, rfl,
      hc.symm, htag.symm⟩
    · rw [List.getElem?_set_ne (by omega), List.getElem?_set_self (by omega)]
    · rw [List.getElem?_set_self (by rw [length_set]; omega)]

end PsMpi.Nbc.Tag
