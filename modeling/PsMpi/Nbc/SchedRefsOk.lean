import PsMpi.Nbc.SchedRefs
import PsMpi.Nbc.SchedOk
import Mathlib.Algebra.BigOperators.Intervals
import Mathlib.Algebra.Order.BigOperators.Group.Finset
import Mathlib.Algebra.Order.Group.Int
import Mathlib.Data.List.GetD

/-!
# References of schedules are balanced
-/

open List Option Function

namespace PsMpi.Nbc

open PsMpi.Lib PsMpi.Handle

/-! ## Counting references -/

namespace Ref

def count (h : Nat) (r : Ref) : Int := if r.isCounted = true ∧ r.handle = h then 1 else 0

def counts (h : Nat) (args : List Ref) : Int := (args.map (count h)).sum

theorem count_nonneg (h : Nat) (r : Ref) : 0 ≤ r.count h := by
  unfold count
  split <;> decide

theorem counts_append (h : Nat) (args args' : List Ref) :
    counts h (args ++ args') = counts h args + counts h args' := by
  rw [counts, map_append, sum_append]
  rfl

theorem counts_nonneg (h : Nat) (args : List Ref) : 0 ≤ counts h args :=
  sum_nonneg fun x hx => by
    obtain ⟨r, -, rfl⟩ := mem_map.1 hx
    exact count_nonneg h r

theorem counts_eq_zero {args : List Ref} :
    (∀ h, counts h args = 0) ↔ ∀ r ∈ args, r.isCounted = false := by
  constructor
  · intro hz r hr
    by_contra hc
    have hone : r.count r.handle = 1 := if_pos ⟨by simpa using hc, rfl⟩
    have hle : r.count r.handle ≤ counts r.handle args :=
      single_le_sum (fun x hx => by
        obtain ⟨s, -, rfl⟩ := mem_map.1 hx
        exact count_nonneg _ s) _ (mem_map_of_mem hr)
    have := hz r.handle
    omega
  · intro hno h
    refine sum_eq_zero fun x hx => ?_
    obtain ⟨r, hr, rfl⟩ := mem_map.1 hx
    exact if_neg fun hc => absurd hc.1 (by rw [hno r hr]; decide)

theorem add_apply (refs : Nat → Int) (r : Ref) (h : Nat) : add refs r h = refs h + r.count h := by
  unfold add count
  by_cases hc : r.isCounted = true
  · by_cases hh : r.handle = h
    · subst hh
      rw [if_pos hc, if_pos ⟨hc, rfl⟩, update_self]
    · rw [if_pos hc, if_neg fun hx => hh hx.2, update_of_ne (Ne.symm hh), add_zero]
  · rw [if_neg hc, if_neg fun hx => hc hx.1, add_zero]

theorem release_apply (refs : Nat → Int) (r : Ref) (h : Nat) :
    release refs r h = refs h - r.count h := by
  unfold release count
  by_cases hc : r.isCounted = true
  · by_cases hh : r.handle = h
    · subst hh
      rw [if_pos hc, if_pos ⟨hc, rfl⟩, update_self]
    · rw [if_pos hc, if_neg fun hx => hh hx.2, update_of_ne (Ne.symm hh), sub_zero]
  · rw [if_neg hc, if_neg fun hx => hc hx.1, sub_zero]

theorem foldl_add (args : List Ref) (refs : Nat → Int) (h : Nat) :
    args.foldl add refs h = refs h + counts h args := by
  induction args generalizing refs with
  | nil => exact (add_zero _).symm
  | cons r args ih =>
    rw [foldl_cons, ih, add_apply, add_assoc]
    rfl

theorem foldl_release (args : List Ref) (refs : Nat → Int) (h : Nat) :
    args.foldl release refs h = refs h - counts h args := by
  induction args generalizing refs with
  | nil => exact (sub_zero _).symm
  | cons r args ih =>
    rw [foldl_cons, ih, release_apply, sub_sub]
    rfl

theorem releaseHandle_eq (refs : Nat → Int) (r : Ref) :
    releaseHandle refs r.handle = some (release refs r) := by
  unfold releaseHandle release
  cases r with
  | comm h =>
    have hk : handleGetMpiKind (Ref.comm h).handle = mpirComm := h.2
    simp only [if_pos hk, isCounted, if_true]
  | datatype h =>
    have hk : handleGetMpiKind (Ref.datatype h).handle = mpirDatatype := h.2
    rw [if_neg (by rw [hk]; decide), if_pos hk]
    rfl
  | op h =>
    have hk : handleGetMpiKind (Ref.op h).handle = mpirOp := h.2
    rw [if_neg (by rw [hk]; decide), if_neg (by rw [hk]; decide), if_pos hk]
    rfl

theorem releaseHandles (args : List Ref) (refs : Nat → Int) :
    (args.map handle).foldlM releaseHandle refs = some (args.foldl release refs) := by
  induction args generalizing refs with
  | nil => rfl
  | cons r args ih =>
    rw [map_cons, foldlM_cons, releaseHandle_eq, foldl_cons]
    exact ih _

end Ref

/-! ## What is held -/

def EntryType.isTransfer : EntryType → Bool
  | .send => true
  | .recv => true
  | .pt2ptSend => true
  | .pt2ptRecv => true
  | _ => false

/-- In a generalized schedule, the references of an entry have been released if and only if its
request has completed, and it has a request only while it is started. -/
structure EntryOk (e : Entry) (released failed : Bool) : Prop where
  released : released = (e.type.isTransfer && e.status.isFinished && !failed)
  failed : failed = true → e.type.isTransfer = true ∧ e.status.isFinished = true
  req : e.req.isSome = true → e.type.isTransfer = true ∧ e.status = .started

theorem EntryOk.of_failed {e : Entry} (h : e.type.isTransfer = true) :
    EntryOk { e with status := .failed, req := none } false true :=
  ⟨by simp, fun _ => ⟨h, rfl⟩, (nomatch ·)⟩

theorem EntryOk.of_started {e : Entry} (h : e.type.isTransfer = true) (req : Option Req) :
    EntryOk { e with status := .started, req := req } false false :=
  ⟨by simp [Status.isFinished], (nomatch ·), fun _ => ⟨h, rfl⟩⟩

theorem EntryOk.of_local {e : Entry} (h : e.type.isTransfer = false) (status : Status) :
    EntryOk { e with status := status, req := none } false false :=
  ⟨by simp [h], (nomatch ·), (nomatch ·)⟩

namespace Counted

def held (c : Counted) (h : Nat) : Int :=
  ∑ i ∈ Finset.range c.args.length,
    if c.released i then 0 else Ref.counts h (c.args.getD i [])

def requestRefs (c : Counted) (h : Nat) : Int :=
  if c.schedRef || c.userRef then Ref.count h (.comm c.comm) else 0

structure RefsOk (c : Counted) : Prop where
  length : c.args.length = c.sched.entries.length
  refs : ∀ h, c.refs h = c.requestRefs h +
    if c.freed = true ∧ c.sched.kind ≠ .generalized then 0 else c.held h
  kept : c.sched.kind = .generalized → c.handles = []
  handles : c.sched.kind ≠ .generalized → c.freed = false →
    c.handles = c.args.flatten.map Ref.handle
  unreleased : c.sched.kind ≠ .generalized → ∀ i, c.released i = false
  entries : c.sched.kind = .generalized → ∀ i e, c.sched.entries[i]? = some e →
    EntryOk e (c.released i) (c.failed i)
  fresh : ∀ i, c.args.length ≤ i → c.released i = false ∧ c.failed i = false
  idx_le : c.sched.idx ≤ c.sched.entries.length
  finished : ∀ j e, j < c.sched.idx → c.sched.entries[j]? = some e → e.status.isFinished = true
  ended : c.freed = true → c.sched.kind = .generalized → c.sched.entries.length ≤ c.sched.idx

variable {c c' : Counted} {s' : Sched} {i : Nat} {e : Entry}

theorem held_of_unreleased (h : ∀ i, c.released i = false) (x : Nat) :
    c.held x = Ref.counts x c.args.flatten := by
  have key : ∀ args : List (List Ref), ∑ i ∈ Finset.range args.length,
      Ref.counts x (args.getD i []) = Ref.counts x args.flatten := by
    intro args
    induction args with
    | nil => rfl
    | cons a args ih =>
      rw [length_cons, Finset.sum_range_succ', flatten_cons, Ref.counts_append, add_comm]
      exact congrArg _ ih
  rw [← key]
  exact Finset.sum_congr rfl fun i _ => by rw [h i]; rfl

theorem RefsOk.create (kind : Kind) (comm : CommHandle) : RefsOk (create kind comm) where
  length := rfl
  refs := fun h => by
    simp only [Counted.create, requestRefs, held]
    simp
  kept := fun _ => rfl
  handles := fun _ _ => rfl
  unreleased := fun _ _ => rfl
  entries := fun _ i e h => by simp [Counted.create, Sched.create] at h
  fresh := fun _ _ => ⟨rfl, rfl⟩
  idx_le := le_rfl
  finished := fun j _ h => absurd h (Nat.not_lt_zero j)
  ended := fun h => nomatch h

theorem RefsOk.change (hok : RefsOk c) (failed : Nat → Bool) (hkind : s'.kind = c.sched.kind)
    (hlen : s'.entries.length = c.sched.entries.length) (hidx : s'.idx = c.sched.idx)
    (hentries : ∀ j e, s'.entries[j]? = some e →
      (c.sched.kind = .generalized → EntryOk e (c.released j) (failed j)) ∧
        (j < c.sched.idx → e.status.isFinished = true))
    (hfailed : ∀ j, c.args.length ≤ j → failed j = false) :
    RefsOk { c with sched := s', failed := failed } where
  length := hok.length.trans hlen.symm
  refs := fun h => by
    rw [hkind]
    exact hok.refs h
  kept := fun h => hok.kept (hkind ▸ h)
  handles := fun h => hok.handles (hkind ▸ h)
  unreleased := fun h => hok.unreleased (hkind ▸ h)
  entries := fun h j e he => (hentries j e he).1 (hkind ▸ h)
  fresh := fun j hj => ⟨(hok.fresh j hj).1, hfailed j hj⟩
  idx_le := hidx ▸ hlen ▸ hok.idx_le
  finished := fun j e hj he => (hentries j e he).2 (hidx ▸ hj)
  ended := fun hf h => by
    change s'.entries.length ≤ s'.idx
    rw [hlen, hidx]
    exact hok.ended hf (hkind ▸ h)

theorem RefsOk.setEntry (hok : RefsOk c) (failed : Nat → Bool) (hkind : s'.kind = c.sched.kind)
    (hidx : s'.idx = c.sched.idx) {f : Entry → Entry}
    (hentries : s'.entries = c.sched.entries.modify i f) (hi : i < c.sched.entries.length)
    (hf : ∀ e, c.sched.entries[i]? = some e →
      (c.sched.kind = .generalized → EntryOk (f e) (c.released i) (failed i)) ∧
        (i < c.sched.idx → (f e).status.isFinished = true))
    (hfailed : ∀ j, j ≠ i → failed j = c.failed j) :
    RefsOk { c with sched := s', failed := failed } := by
  refine hok.change failed hkind (by rw [hentries, length_modify]) hidx (fun j e he => ?_)
    fun j hj => ?_
  · rw [hentries] at he
    by_cases hji : i = j
    · subst hji
      rw [List.getElem?_modify_eq] at he
      obtain ⟨e₀, he₀, rfl⟩ := map_eq_some_iff.1 he
      exact hf e₀ he₀
    · rw [List.getElem?_modify_ne _ _ hji] at he
      rw [hfailed j (Ne.symm hji)]
      exact ⟨fun hg => hok.entries hg j e he, fun hlt => hok.finished j e hlt he⟩
  · rw [hfailed j (by have := hok.length; omega)]
    exact (hok.fresh j hj).2

theorem RefsOk.relabel (hok : RefsOk c) (i : Nat) {f : Entry → Entry}
    (hf : ∀ e, (f e).type = e.type ∧ (f e).status = e.status ∧ (f e).req = e.req) :
    RefsOk { c with sched := c.sched.modifyEntry i f } := by
  rcases Nat.lt_or_ge i c.sched.entries.length with hi | hi
  · refine hok.setEntry c.failed rfl rfl rfl hi (fun e he => ?_) fun _ _ => rfl
    obtain ⟨htype, hstatus, hreq⟩ := hf e
    refine ⟨fun hg => ?_, fun hlt => ?_⟩
    · have hold := hok.entries hg i e he
      exact ⟨by rw [htype, hstatus]; exact hold.released,
        by rw [htype, hstatus]; exact hold.failed,
        by rw [htype, hstatus, hreq]; exact hold.req⟩
    · rw [hstatus]
      exact hok.finished i e hlt he
  · rw [Sched.modifyEntry, modify_eq_self hi]
    exact hok

theorem RefsOk.next (hok : RefsOk c) (hfin : c.sched.isFinished c.sched.idx = true) :
    RefsOk { c with sched := { c.sched with idx := c.sched.idx + 1 } } where
  length := hok.length
  refs := hok.refs
  kept := hok.kept
  handles := hok.handles
  unreleased := hok.unreleased
  entries := hok.entries
  fresh := hok.fresh
  idx_le := lt_of_isFinished hfin
  finished := fun j e hj he => by
    rcases Nat.lt_or_eq_of_le (Nat.lt_succ_iff.1 hj) with hlt | heq
    · exact hok.finished j e hlt he
    · rw [← isFinished_eq he, heq]
      exact hfin
  ended := fun hf h => (hok.ended hf h).trans (Nat.le_succ _)

structure SameRefs (c c' : Counted) : Prop where
  freed : c'.freed = c.freed
  schedRef : c'.schedRef = c.schedRef
  userRef : c'.userRef = c.userRef
  comm : c'.comm = c.comm
  kind : c'.sched.kind = c.sched.kind
  phase : c'.sched.phase = c.sched.phase

theorem SameRefs.refl (c : Counted) : SameRefs c c := ⟨rfl, rfl, rfl, rfl, rfl, rfl⟩

theorem SameRefs.trans {c'' : Counted} (h : SameRefs c c') (h' : SameRefs c' c'') :
    SameRefs c c'' :=
  ⟨h'.freed.trans h.freed, h'.schedRef.trans h.schedRef, h'.userRef.trans h.userRef,
    h'.comm.trans h.comm, h'.kind.trans h.kind, h'.phase.trans h.phase⟩

theorem SameRefs.sched (c : Counted) (s' : Sched) (hkind : s'.kind = c.sched.kind)
    (hphase : s'.phase = c.sched.phase) : SameRefs c { c with sched := s' } :=
  ⟨rfl, rfl, rfl, rfl, hkind, hphase⟩

/-! ## Building -/

theorem held_takeArgs (args : List Ref) (hnew : c.released c.args.length = false) (h : Nat) :
    (c.takeArgs args).held h = c.held h + Ref.counts h args := by
  change ∑ i ∈ Finset.range (c.args ++ [args]).length,
    (if c.released i then 0 else Ref.counts h ((c.args ++ [args]).getD i [])) = _
  rw [length_append, length_singleton, Finset.sum_range_succ, hnew]
  refine congrArg₂ _ (Finset.sum_congr rfl fun i hi => ?_) ?_
  · rw [getD_append _ _ _ _ (Finset.mem_range.1 hi)]
  · rw [getD_append_right _ _ _ _ le_rfl, Nat.sub_self]
    rfl

theorem RefsOk.entry (hok : RefsOk c) (hf : c.freed = false) (args : List Ref) (type : EntryType) :
    RefsOk { c.takeArgs args with sched := c.sched.add (.entry type) } where
  length := by
    simp only [takeArgs, Sched.add, length_append, hok.length, length_singleton]
  refs := fun h => by
    have hheld := held_takeArgs args (hok.fresh _ le_rfl).1 h
    have hnot : ¬(c.freed = true ∧ c.sched.kind ≠ .generalized) := by simp [hf]
    have hold := hok.refs h
    rw [if_neg hnot] at hold
    change args.foldl Ref.add c.refs h = c.requestRefs h +
      if c.freed = true ∧ c.sched.kind ≠ .generalized then 0 else (c.takeArgs args).held h
    rw [if_neg hnot, Ref.foldl_add, hold, hheld, add_assoc]
  kept := fun h => (if_pos h).trans (hok.kept h)
  handles := fun h hfr => by
    change (if c.sched.kind = .generalized then c.handles else c.handles ++ args.map Ref.handle) =
      (c.args ++ [args]).flatten.map Ref.handle
    have hkind : c.sched.kind ≠ .generalized := h
    rw [if_neg hkind, hok.handles h hfr, flatten_append, flatten_singleton,
      map_append]
  unreleased := hok.unreleased
  entries := fun h i e hget => by
    rcases Nat.lt_or_ge i c.sched.entries.length with hi | hi
    · rw [Sched.add, List.getElem?_append_left hi] at hget
      exact hok.entries h i e hget
    · obtain ⟨hrel, hfail⟩ := hok.fresh i (hok.length ▸ hi)
      rw [Sched.add, List.getElem?_append_right hi] at hget
      have he : e = .new type := by simpa using mem_of_getElem? hget
      subst he
      exact ⟨by simp [takeArgs, hrel, Entry.new, Status.isFinished],
        fun hx => by simp [takeArgs, hfail] at hx, fun hx => by cases hx⟩
  fresh := fun i hi => hok.fresh i (by
    simp only [takeArgs, length_append, length_singleton] at hi
    omega)
  idx_le := hok.idx_le.trans (by simp [Sched.add])
  finished := fun j e hj he => by
    rw [Sched.add, List.getElem?_append_left (lt_of_lt_of_le hj hok.idx_le)] at he
    exact hok.finished j e hj he
  ended := fun h => by simp [takeArgs, hf] at h

theorem RefsOk.add (hok : RefsOk c) (hf : c.freed = false) (call : Call) : RefsOk (c.add call) := by
  cases call with
  | barrier => exact hok.relabel _ fun _ => ⟨rfl, rfl, rfl⟩
  | _ => exact hok.entry hf _ _

theorem SameRefs.add (c : Counted) (call : Call) : SameRefs c (c.add call) := by
  cases call <;> exact ⟨rfl, rfl, rfl, rfl, rfl, rfl⟩

/-! ## Starting entries -/

theorem takeRefs_sched (c : Counted) (call : Call) (s : Sched) (hkind : s.kind = c.sched.kind) :
    { c.takeRefs call with sched := s } = { c with sched := s }.takeRefs call := by
  cases call <;> simp only [takeRefs, takeArgs, hkind]

@[simp] theorem takeRefs_kind (c : Counted) (call : Call) : (c.takeRefs call).sched = c.sched := by
  cases call <;> rfl

@[simp] theorem kind_add (s : Sched) (a : Add) : (s.add a).kind = s.kind := by
  cases a <;> rfl

theorem foldl_takeRefs (calls : List Call) (c : Counted) (s : Sched)
    (hkind : s.kind = c.sched.kind) :
    { calls.foldl takeRefs c with sched := (calls.map Call.toAdd).foldl Sched.add s } =
      calls.foldl Counted.add { c with sched := s } := by
  induction calls generalizing c s with
  | nil => rfl
  | cons call calls ih =>
    simp only [foldl_cons, map_cons]
    rw [ih _ _ (by rw [kind_add, takeRefs_kind, hkind]), Counted.add, ← takeRefs_sched _ _ _ hkind]

theorem getElem?_add {s : Sched} (call : Add) (hget : s.entries[i]? = some e) :
    ∃ e', (s.add call).entries[i]? = some e' ∧ e'.type = e.type ∧ e'.status = e.status := by
  cases call with
  | entry type =>
    have hi : i < s.entries.length := (List.getElem?_eq_some_iff.1 hget).1
    exact ⟨e, (List.getElem?_append_left hi).trans hget, rfl, rfl⟩
  | barrier =>
    by_cases hi : s.entries.length - 1 = i
    · subst hi
      exact ⟨_, getElem?_modifyEntry_self hget, rfl, rfl⟩
    · exact ⟨e, (getElem?_modifyEntry_of_ne hi).trans hget, rfl, rfl⟩

theorem RefsOk.adds (calls : List Call) (hok : RefsOk c) (hf : c.freed = false)
    (hget : c.sched.entries[i]? = some e) :
    RefsOk (calls.foldl Counted.add c) ∧ SameRefs c (calls.foldl Counted.add c) ∧
      ∃ e', (calls.foldl Counted.add c).sched.entries[i]? = some e' ∧ e'.type = e.type ∧
        e'.status = e.status := by
  induction calls generalizing c e with
  | nil => exact ⟨hok, .refl c, e, hget, rfl, rfl⟩
  | cons call calls ih =>
    obtain ⟨e₁, hget₁, htype₁, hstatus₁⟩ := getElem?_add call.toAdd hget
    have hsame : SameRefs c (c.add call) := .add c call
    obtain ⟨h1, h2, e', hget', htype, hstatus⟩ :=
      ih (hok.add hf call) (hsame.freed.trans hf) hget₁
    exact ⟨h1, hsame.trans h2, e', hget', htype.trans htype₁, hstatus.trans hstatus₁⟩

theorem RefsOk.setStatus (hok : RefsOk c) (s' : Sched) (fail : Bool)
    (hget : c.sched.entries[i]? = some e)
    (hstatus : e.status = .notStarted) {status : Status} {req : Option Req}
    (hkind : s'.kind = c.sched.kind) (hidx : s'.idx = c.sched.idx)
    (hentries : s'.entries = (c.sched.setStatus i status req).entries)
    (hnew : EntryOk { e with status := status, req := req } false fail) :
    RefsOk { c with
      sched := s'
      failed := if fail then Function.update c.failed i true else c.failed } := by
  have hi : i < c.sched.entries.length := (List.getElem?_eq_some_iff.1 hget).1
  refine hok.setEntry _ hkind hidx hentries hi (fun e₀ he₀ => ⟨fun hg => ?_, fun hlt => ?_⟩)
    fun j hj => ?_
  · obtain rfl : e = e₀ := Option.some.inj (hget.symm.trans he₀)
    have hold := hok.entries hg i e hget
    have hrel : c.released i = false := by
      rw [hold.released, hstatus]
      simp [Status.isFinished]
    have hfail : c.failed i = false := by
      by_contra hx
      have := (hold.failed (by simpa using hx)).2
      rw [hstatus] at this
      cases this
    rw [hrel]
    cases fail with
    | true =>
      rw [if_pos rfl, update_self]
      exact hnew
    | false =>
      rw [if_neg (by decide), hfail]
      exact hnew
  · obtain rfl : e = e₀ := Option.some.inj (hget.symm.trans he₀)
    have := hok.finished i e hlt hget
    rw [hstatus] at this
    cases this
  · split
    · exact update_of_ne hj _ _
    · rfl

end Counted

def Sched.called (s : Sched) (i : Nat) (type : EntryType) (append : List Add) : Sched :=
  if type = .cb then (s.noteStart i).callback append else s.noteStart i

theorem startEntry_set (fatal : Bool) (s : Sched) (i : Nat) (type : EntryType) (r : Results) :
    ∃ status req errflag mpiError,
      (startEntry fatal s i type r).1 =
        { (s.called i type r.append).setStatus i status req with
          errflag := errflag, mpiError := mpiError } ∧
      ∀ e : Entry, e.type = type →
        EntryOk { e with status := status, req := req } false (type.failsToStart r) := by
  cases herr : type.failsToStart r with
  | true =>
    cases type with
    | send | pt2ptSend | pt2ptRecv =>
      simp only [EntryType.failsToStart] at herr
      exact ⟨.failed, none, _, _, by simp only [startEntry, herr]; rfl,
        fun e he => .of_failed (he ▸ rfl)⟩
    | recv | reduce | copy | cb => cases herr
  | false =>
    cases type with
    | send | pt2ptSend | pt2ptRecv =>
      simp only [EntryType.failsToStart] at herr
      exact ⟨.started, some r.req, _, _, by simp only [startEntry, herr]; rfl,
        fun e he => .of_started (he ▸ rfl) _⟩
    | recv =>
      cases hrecv : r.recvErr with
      | true =>
        exact ⟨.started, if r.recvReq then some r.req else none, _, _,
          by simp only [startEntry, hrecv]; rfl, fun e he => .of_started (he ▸ rfl) _⟩
      | false =>
        exact ⟨.started, some r.req, _, _, by simp only [startEntry, hrecv]; rfl,
          fun e he => .of_started (he ▸ rfl) _⟩
    | reduce | copy =>
      cases hlocal : r.localErr with
      | true =>
        exact ⟨.failed, none, _, _, by simp only [startEntry, hlocal]; rfl,
          fun e he => .of_local (he ▸ rfl) _⟩
      | false =>
        exact ⟨.complete, none, _, _, by simp only [startEntry, hlocal]; rfl,
          fun e he => .of_local (he ▸ rfl) _⟩
    | cb =>
      cases hcb : r.cbErr with
      | true =>
        exact ⟨.failed, none, _, _, by simp only [startEntry, hcb]; rfl,
          fun e he => .of_local (he ▸ rfl) _⟩
      | false =>
        exact ⟨.complete, none, _, _, by simp only [startEntry, hcb]; rfl,
          fun e he => .of_local (he ▸ rfl) _⟩

namespace Counted

variable {c c' : Counted} {s' : Sched} {i : Nat} {e : Entry} {fatal : Bool} {r : RefResults}

theorem RefsOk.startEntry (hok : RefsOk c) (hf : c.freed = false)
    (hget : c.sched.entries[i]? = some e) (hstatus : e.status = .notStarted) :
    RefsOk (c.startEntry fatal i e.type r).1 ∧ SameRefs c (c.startEntry fatal i e.type r).1 := by
  have hnote : RefsOk { c with sched := c.sched.noteStart i } :=
    hok.relabel i fun _ => ⟨rfl, rfl, rfl⟩
  have hgetn : (c.sched.noteStart i).entries[i]? = some _ := getElem?_modifyEntry_self hget
  obtain ⟨status, req, errflag, mpiError, hset, hnew⟩ :=
    startEntry_set fatal c.sched i e.type r.plain
  by_cases hcb : e.type = .cb ∧ c.sched.kind = .generalized
  · -- the callback may add entries
    have hcalled : c.sched.called i e.type r.plain.append =
        (r.append.map Call.toAdd).foldl Sched.add (c.sched.noteStart i) := by
      rw [Sched.called, if_pos hcb.1, Sched.callback]
      exact if_pos hcb.2
    have hfold := foldl_takeRefs r.append c (c.sched.noteStart i) rfl
    obtain ⟨hadds, hsame, e', hget', htype, hstatus'⟩ := RefsOk.adds r.append hnote hf hgetn
    rw [← hfold] at hadds hget' hsame
    have hnew := hadds.setStatus (Nbc.startEntry fatal c.sched i e.type r.plain).1
      (e.type.failsToStart r.results) hget' (hstatus'.trans hstatus)
      (by rw [hset, hcalled]; rfl) (by rw [hset, hcalled]; rfl) (by rw [hset, hcalled])
      (hnew e' htype)
    unfold Counted.startEntry
    rw [if_pos hcb]
    have hx : (Nbc.startEntry fatal c.sched i e.type r.plain).1.kind = c.sched.kind ∧
        (Nbc.startEntry fatal c.sched i e.type r.plain).1.phase = c.sched.phase := by
      rw [hset, hcalled]
      exact ⟨hsame.kind, hsame.phase⟩
    exact ⟨hnew, hsame.freed, hsame.schedRef, hsame.userRef, hsame.comm, hx.1, hx.2⟩
  · have hcalled : c.sched.called i e.type r.plain.append = c.sched.noteStart i := by
      rw [Sched.called, Sched.callback]
      by_cases htype : e.type = .cb
      · rw [if_pos htype]
        exact if_neg fun hg => hcb ⟨htype, hg⟩
      · exact if_neg htype
    have hnew := hnote.setStatus (Nbc.startEntry fatal c.sched i e.type r.plain).1
      (e.type.failsToStart r.results) hgetn hstatus
      (by rw [hset, hcalled]; rfl) (by rw [hset, hcalled]; rfl) (by rw [hset, hcalled]) (hnew _ rfl)
    unfold Counted.startEntry
    rw [if_neg hcb]
    have hx : (Nbc.startEntry fatal c.sched i e.type r.plain).1.kind = c.sched.kind ∧
        (Nbc.startEntry fatal c.sched i e.type r.plain).1.phase = c.sched.phase := by
      rw [hset, hcalled]
      exact ⟨rfl, rfl⟩
    exact ⟨hnew, rfl, rfl, rfl, rfl, hx.1, hx.2⟩

theorem RefsOk.advance (hok : RefsOk c) (i : Nat) :
    RefsOk { c with sched := c.sched.advance i } ∧
      SameRefs c { c with sched := c.sched.advance i } := by
  unfold Sched.advance
  split
  · rename_i hi
    exact ⟨hok.next (hi.1 ▸ hi.2), .sched c _ rfl rfl⟩
  · exact ⟨hok, .refl c⟩

theorem RefsOk.startNext (hok : RefsOk c) (hf : c.freed = false) (fatal : Bool) (r : RefResults)
    (hget : c.sched.entries[i]? = some e) :
    RefsOk (c.startNext fatal i e r).1 ∧ SameRefs c (c.startNext fatal i e r).1 := by
  unfold Counted.startNext
  split
  · exact hok.startEntry hf hget ‹_›
  · exact ⟨hok, .refl c⟩

theorem RefsOk.continueLoop {results : List RefResults} {fuel : Nat} {x : Counted × Bool}
    (hok : RefsOk c) (hf : c.freed = false)
    (h : Counted.continueLoop fatal results fuel c i = some x) : RefsOk x.1 ∧ SameRefs c x.1 := by
  induction fuel generalizing c i with
  | zero => cases h
  | succ fuel ih =>
    cases hget : c.sched.entries[i]? with
    | none =>
      simp only [Counted.continueLoop, hget, Option.some.injEq] at h
      subst h
      exact ⟨hok, .refl c⟩
    | some e =>
      simp only [Counted.continueLoop, hget] at h
      have hnext := hok.startNext hf fatal (results.getD i .ok) hget
      generalize c.startNext fatal i e (results.getD i .ok) = y at h hnext
      obtain ⟨hok₁, hsame₁⟩ := hnext
      obtain ⟨hok₂, hsame₂⟩ := hok₁.advance i
      have hsame := hsame₁.trans hsame₂
      split at h
      · cases h
        exact ⟨hok₁, hsame₁⟩
      · split at h
        · cases h
          exact ⟨hok₂, hsame⟩
        · obtain ⟨h1, h2⟩ := ih hok₂ (hsame.freed.trans hf) h
          exact ⟨h1, hsame.trans h2⟩

theorem RefsOk.schedContinue {results : List RefResults} {x : Counted × Bool}
    (hok : RefsOk c) (hf : c.freed = false) (h : c.schedContinue fatal results = some x) :
    RefsOk x.1 ∧ SameRefs c x.1 :=
  hok.continueLoop hf h

/-! ## Progress -/

theorem held_release (hi : i < c.args.length) (hrel : c.released i = false) (x : Nat) :
    { c with released := Function.update c.released i true }.held x =
      c.held x - Ref.counts x (c.args.getD i []) := by
  have hmem : i ∈ Finset.range c.args.length := Finset.mem_range.2 hi
  unfold held
  rw [← Finset.add_sum_erase _ _ hmem, ← Finset.add_sum_erase _ _ hmem]
  simp only [update_self, hrel, if_true, Bool.false_eq_true, if_false]
  rw [zero_add, add_sub_cancel_left]
  refine Finset.sum_congr rfl fun j hj => ?_
  rw [update_of_ne (Finset.ne_of_mem_erase hj)]

theorem releaseArgs_of_generalized (h : c.sched.kind = .generalized) (i : Nat) :
    c.releaseArgs i = { c with
      refs := (c.args.getD i []).foldl Ref.release c.refs
      released := Function.update c.released i true } := if_pos h

theorem releaseArgs_of_ne (h : c.sched.kind ≠ .generalized) (i : Nat) : c.releaseArgs i = c :=
  if_neg h

theorem RefsOk.done (hok : RefsOk c) (hget : c.sched.entries[i]? = some e)
    (htype : e.type.isTransfer = true) (hreq : e.req.isSome = true) (failed : Bool) :
    RefsOk ({ c with sched := c.sched.setStatus i (doneStatus failed) none }.releaseArgs i) ∧
      SameRefs c
        ({ c with sched := c.sched.setStatus i (doneStatus failed) none }.releaseArgs i) := by
  have hi : i < c.sched.entries.length := (List.getElem?_eq_some_iff.1 hget).1
  have hfin : (doneStatus failed).isFinished = true := by cases failed <;> rfl
  by_cases hg : c.sched.kind = .generalized
  · have hold := hok.entries hg i e hget
    have hstarted : e.status.isFinished = false := by
      rw [(hold.req hreq).2]
      rfl
    have hrel : c.released i = false := by
      rw [hold.released, hstarted, Bool.and_false, Bool.false_and]
    have hfail : c.failed i = false := by
      by_contra hx
      rw [(hold.failed (by simpa using hx)).2] at hstarted
      cases hstarted
    have hentries : ∀ j e', (c.sched.setStatus i (doneStatus failed) none).entries[j]? = some e' →
        (j = i ∧ e' = { e with status := doneStatus failed, req := none }) ∨
          (j ≠ i ∧ c.sched.entries[j]? = some e') := by
      intro j e' he'
      by_cases hji : i = j
      · subst hji
        rw [Sched.setStatus, getElem?_modifyEntry_self hget] at he'
        exact .inl ⟨rfl, (Option.some.inj he').symm⟩
      · rw [Sched.setStatus, getElem?_modifyEntry_of_ne hji] at he'
        exact .inr ⟨Ne.symm hji, he'⟩
    rw [releaseArgs_of_generalized]
    on_goal 2 => exact hg
    refine ⟨?_, rfl, rfl, rfl, rfl, rfl, rfl⟩
    exact {
      length := hok.length.trans (length_modify ..).symm
      refs := fun h => by
        have hnot : ¬(c.freed = true ∧ c.sched.kind ≠ .generalized) := fun hx => hx.2 hg
        have hrefs := hok.refs h
        have hheld := held_release (hok.length ▸ hi) hrel h
        rw [if_neg hnot] at hrefs
        refine Eq.trans ?_ (congrArg _ (if_neg hnot).symm)
        refine Eq.trans ?_ (congrArg _ hheld.symm)
        change (c.args.getD i []).foldl Ref.release c.refs h = c.requestRefs h + _
        rw [Ref.foldl_release, hrefs, add_sub_assoc]
      kept := hok.kept
      handles := hok.handles
      unreleased := fun h => absurd hg h
      entries := fun _ j e' he' => by
        rcases hentries j e' he' with ⟨rfl, rfl⟩ | ⟨hji, he'⟩
        · refine ⟨?_, fun hx => ?_, fun hx => by cases hx⟩
          · simp [htype, hfin, hfail]
          · simp [hfail] at hx
        · change EntryOk e' (Function.update c.released i true j) (c.failed j)
          rw [update_of_ne hji]
          exact hok.entries hg j e' he'
      fresh := fun j hj => by
        have hji : j ≠ i := by
          have hj : c.args.length ≤ j := hj
          have := hok.length
          omega
        change Function.update c.released i true j = false ∧ c.failed j = false
        rw [update_of_ne hji]
        exact hok.fresh j hj
      idx_le := hok.idx_le.trans (length_modify ..).ge
      finished := fun j e' hj he' => by
        rcases hentries j e' he' with ⟨-, rfl⟩ | ⟨-, he'⟩
        · exact hfin
        · exact hok.finished j e' hj he'
      ended := fun hf h => (length_modify ..).le.trans (hok.ended hf h) }
  · rw [releaseArgs_of_ne]
    on_goal 2 => exact hg
    exact ⟨hok.setEntry c.failed rfl rfl rfl hi
      (fun e' _ => ⟨fun h => absurd h hg, fun _ => hfin⟩) fun _ _ => rfl, .sched c _ rfl rfl⟩

theorem RefsOk.poll (hok : RefsOk c) (hget : c.sched.entries[i]? = some e) :
    RefsOk (c.poll i e) ∧ SameRefs c (c.poll i e) := by
  unfold Counted.poll Sched.poll
  cases htype : e.type with
  | send | recv | pt2ptSend | pt2ptRecv =>
    rcases hreq : e.req with _ | _ | err
    · exact ⟨hok, .refl c⟩
    · exact ⟨hok, .refl c⟩
    · exact hok.done hget (by rw [htype]; rfl) (by rw [hreq]; rfl) _
  | reduce | copy | cb => exact ⟨hok, .refl c⟩

theorem RefsOk.progressLoop {results : List RefResults} {fuel : Nat} {x : Counted × Bool}
    (hok : RefsOk c) (hf : c.freed = false)
    (h : Counted.progressLoop fatal results fuel c i = some x) : RefsOk x.1 ∧ SameRefs c x.1 := by
  induction fuel generalizing c i with
  | zero => cases h
  | succ fuel ih =>
    cases hget : c.sched.entries[i]? with
    | none =>
      simp only [Counted.progressLoop, hget, Option.some.injEq] at h
      subst h
      exact ⟨hok, .refl c⟩
    | some e =>
      simp only [Counted.progressLoop, hget] at h
      obtain ⟨hok₁, hsame₁⟩ := hok.poll hget
      generalize c.poll i e = c₁ at h hok₁ hsame₁
      split at h
      · rename_i hi
        have hok₂ := hok₁.next (hi.1 ▸ hi.2)
        have hsame₂ := hsame₁.trans
          (.sched c₁ { c₁.sched with idx := c₁.sched.idx + 1 } rfl rfl)
        split at h
        · cases hcont : Counted.schedContinue fatal results
              { c₁ with sched := { c₁.sched with idx := c₁.sched.idx + 1 } } with
          | none =>
            rw [hcont] at h
            cases h
          | some y =>
            obtain ⟨hok₃, hsame₃⟩ := hok₂.schedContinue (hsame₂.freed.trans hf) hcont
            have hsame := hsame₂.trans hsame₃
            rw [hcont] at h
            obtain ⟨y, _ | _⟩ := y
            · obtain ⟨h1, h2⟩ := ih hok₃ (hsame.freed.trans hf) h
              exact ⟨h1, hsame.trans h2⟩
            · cases h
              exact ⟨hok₃, hsame⟩
        · obtain ⟨h1, h2⟩ := ih hok₂ (hsame₂.freed.trans hf) h
          exact ⟨h1, hsame₂.trans h2⟩
      · split at h
        · cases h
          exact ⟨hok₁, hsame₁⟩
        · obtain ⟨h1, h2⟩ := ih hok₁ (hsame₁.freed.trans hf) h
          exact ⟨h1, hsame₁.trans h2⟩

/-! ## Without references -/

def plain (x : Counted × Bool) : Sched × Bool := (x.1.sched, x.2)

theorem RefsOk.sameEntries (hok : RefsOk c) (s' : Sched) (hkind : s'.kind = c.sched.kind)
    (hentries : s'.entries = c.sched.entries) (hidx : s'.idx = c.sched.idx) :
    RefsOk { c with sched := s' } := by
  refine hok.change c.failed hkind (by rw [hentries]) hidx (fun j e he => ?_)
    fun j hj => (hok.fresh j hj).2
  rw [hentries] at he
  exact ⟨fun hg => hok.entries hg j e he, fun hj => hok.finished j e hj he⟩

theorem RefsOk.request (hok : RefsOk c) (refs : Nat → Int) (schedRef userRef : Bool)
    (hrefs : ∀ h, refs h = c.refs h - c.requestRefs h +
      { c with schedRef := schedRef, userRef := userRef }.requestRefs h) :
    RefsOk { c with refs := refs, schedRef := schedRef, userRef := userRef } where
  length := hok.length
  refs := fun h => by
    change refs h = { c with schedRef := schedRef, userRef := userRef }.requestRefs h +
      if c.freed = true ∧ c.sched.kind ≠ .generalized then 0 else c.held h
    rw [hrefs, hok.refs h, add_sub_cancel_left, add_comm]
  kept := hok.kept
  handles := hok.handles
  unreleased := hok.unreleased
  entries := hok.entries
  fresh := hok.fresh
  idx_le := hok.idx_le
  finished := hok.finished
  ended := hok.ended

theorem RefsOk.freeRequest (hok : RefsOk c) (hheld : (c.schedRef || c.userRef) = true)
    (schedRef userRef : Bool) :
    RefsOk (Counted.freeRequest { c with schedRef := schedRef, userRef := userRef }) := by
  have hold : ∀ h, c.requestRefs h = Ref.count h (.comm c.comm) := fun h => if_pos hheld
  unfold Counted.freeRequest
  by_cases hkeep : (schedRef || userRef) = true
  · rw [if_pos hkeep]
    refine hok.request c.refs schedRef userRef fun h => ?_
    rw [hold, requestRefs, if_pos hkeep, sub_add_cancel]
  · rw [if_neg hkeep]
    refine hok.request _ schedRef userRef fun h => ?_
    rw [Ref.release_apply, hold, requestRefs, if_neg hkeep, add_zero]

theorem RefsOk.free (hok : RefsOk c) (hf : c.freed = false)
    (hend : c.sched.kind = .generalized → c.sched.entries.length ≤ c.sched.idx)
    (h : c.free = some c') :
    RefsOk c' ∧ c' = { c with refs := c'.refs, handles := [], freed := true } := by
  obtain ⟨refs, hrefs, rfl⟩ := map_eq_some_iff.1 h
  refine ⟨?_, rfl⟩
  have hall : ∀ x, refs x = c.requestRefs x +
      if true = true ∧ c.sched.kind ≠ .generalized then 0 else c.held x := by
    intro x
    have hold := hok.refs x
    rw [if_neg fun hx => by rw [hf] at hx; exact nomatch hx.1] at hold
    by_cases hg : c.sched.kind = .generalized
    · rw [hok.kept hg] at hrefs
      obtain rfl : c.refs = refs := Option.some.inj hrefs
      rw [if_neg fun hx => hx.2 hg, hold]
    · rw [hok.handles hg hf, Ref.releaseHandles] at hrefs
      cases hrefs
      rw [if_pos ⟨rfl, hg⟩, Ref.foldl_release, hold, held_of_unreleased (hok.unreleased hg),
        add_sub_cancel_right, add_zero]
  exact {
    length := hok.length
    refs := hall
    kept := fun _ => rfl
    handles := fun _ hx => nomatch hx
    unreleased := hok.unreleased
    entries := hok.entries
    fresh := hok.fresh
    idx_le := hok.idx_le
    finished := hok.finished
    ended := fun _ => hend }

theorem RefsOk.reset (hok : RefsOk c) (hg : c.sched.kind ≠ .generalized) :
    RefsOk { c with sched := c.sched.reset } where
  length := hok.length.trans (length_map _).symm
  refs := hok.refs
  kept := hok.kept
  handles := hok.handles
  unreleased := hok.unreleased
  entries := fun h => absurd h hg
  fresh := hok.fresh
  idx_le := Nat.zero_le _
  finished := fun j _ hj => absurd hj (Nat.not_lt_zero j)
  ended := fun _ h => absurd h hg

/-! ## Runs -/

structure Inv (c : Counted) : Prop where
  refs : RefsOk c
  schedRef : c.schedRef = true ↔ c.sched.phase = .running
  userRef : c.sched.phase = .built → c.userRef = false
  freed : c.freed = true → c.sched.phase ≠ .running

theorem Inv.create (kind : Kind) (comm : CommHandle) : Inv (create kind comm) :=
  ⟨.create kind comm, ⟨(nomatch ·), (nomatch ·)⟩, fun _ => rfl, (nomatch ·)⟩

theorem Inv.same (hinv : Inv c) (hok : RefsOk c') (hsame : SameRefs c c') : Inv c' :=
  ⟨hok, by rw [hsame.schedRef, hsame.phase]; exact hinv.schedRef,
    by rw [hsame.userRef, hsame.phase]; exact hinv.userRef,
    by rw [hsame.freed, hsame.phase]; exact hinv.freed⟩

theorem Inv.start (hinv : Inv c) (hbuilt : c.sched.phase = .built) (hf : c.freed = false)
    {results : List RefResults} (h : c.start fatal results = some c') : Inv c' := by
  have hsched : c.schedRef = false := by
    by_contra hx
    have := hinv.schedRef.1 (by simpa using hx)
    rw [hbuilt] at this
    cases this
  have huser : c.userRef = false := hinv.userRef hbuilt
  simp only [Counted.start, bind_eq_bind, bind_eq_some_iff] at h
  obtain ⟨⟨y, err⟩, hy, h⟩ := h
  have hok₀ : RefsOk { c with
      sched := { c.sched with errflag := false, mpiError := false }
      refs := Ref.add c.refs (.comm c.comm)
      schedRef := true
      userRef := true } := by
    refine (hinv.refs.sameEntries { c.sched with errflag := false, mpiError := false }
      rfl rfl rfl).request _ true true fun h => ?_
    have hnone : c.requestRefs h = 0 := by rw [requestRefs, hsched, huser]; rfl
    change Ref.add c.refs (.comm c.comm) h = c.refs h - c.requestRefs h + Ref.count h (.comm c.comm)
    rw [Ref.add_apply, hnone, sub_zero]
  obtain ⟨hok, hsame⟩ := hok₀.schedContinue hf hy
  have hfy : y.freed = false := hsame.freed.trans hf
  cases err with
  | true =>
    cases h
    have hheld : (y.schedRef || y.userRef) = true := by
      rw [hsame.schedRef]
      rfl
    refine ⟨(hok.sameEntries { y.sched with phase := .broken } rfl rfl rfl).freeRequest
      hheld false false, ⟨(nomatch ·), (nomatch ·)⟩, (nomatch ·), fun _ => (nomatch ·)⟩
  | false =>
    cases h
    exact ⟨hok.sameEntries _ rfl rfl rfl, ⟨fun _ => rfl, fun _ => hsame.schedRef⟩, (nomatch ·),
      fun hx => absurd (hfy.symm.trans hx) (by decide)⟩

@[simp] theorem freeRequest_sched (c : Counted) : c.freeRequest.sched = c.sched := by
  unfold freeRequest
  split <;> rfl

@[simp] theorem freeRequest_schedRef (c : Counted) : c.freeRequest.schedRef = c.schedRef := by
  unfold freeRequest
  split <;> rfl

@[simp] theorem freeRequest_userRef (c : Counted) : c.freeRequest.userRef = c.userRef := by
  unfold freeRequest
  split <;> rfl

@[simp] theorem freeRequest_freed (c : Counted) : c.freeRequest.freed = c.freed := by
  unfold freeRequest
  split <;> rfl

theorem Inv.complete (hinv : Inv c) (hrun : c.sched.phase = .running)
    (hend : c.sched.idx = c.sched.entries.length) (h : c.complete = some c') : Inv c' := by
  have hf : c.freed = false := by
    by_contra hx
    exact hinv.freed (by simpa using hx) hrun
  have hheld : (c.schedRef || c.userRef) = true := by
    rw [hinv.schedRef.2 hrun]
    rfl
  have hok := (hinv.refs.sameEntries c.sched.completeReq rfl rfl rfl).freeRequest hheld
    false c.userRef
  simp only [Counted.complete] at h
  split at h
  · cases h
    refine ⟨hok, ?_, ?_, ?_⟩
    · simp [Sched.completeReq]
    · simp [Sched.completeReq]
    · simp [Sched.completeReq]
  · obtain ⟨hok', heq⟩ := hok.free (by simpa using hf)
      (fun _ => by simp [Sched.completeReq, hend]) h
    refine ⟨hok', ?_, ?_, ?_⟩
    · rw [heq]
      simp [Sched.completeReq]
    · rw [heq]
      simp [Sched.completeReq]
    · rw [heq]
      simp [Sched.completeReq]

theorem Inv.step {a : Act} (hinv : Inv c) (h : c.step fatal a = some c') : Inv c' := by
  cases a with
  | add call =>
    obtain ⟨⟨-, hf⟩, h⟩ := ite_none_right_eq_some.1 h
    cases h
    exact hinv.same (hinv.refs.add hf call) (.add c call)
  | start results =>
    obtain ⟨⟨hbuilt, hf⟩, h⟩ := ite_none_right_eq_some.1 h
    exact hinv.start hbuilt hf h
  | finish i err =>
    obtain ⟨e, hget, h⟩ := bind_eq_some_iff.1 h
    obtain ⟨hreq, h⟩ := ite_none_right_eq_some.1 h
    cases h
    refine hinv.same ?_ (.sched c _ rfl rfl)
    refine hinv.refs.setEntry c.failed rfl rfl rfl (List.getElem?_eq_some_iff.1 hget).1
      (fun e' he' => ?_) fun _ _ => rfl
    obtain rfl : e = e' := Option.some.inj (hget.symm.trans he')
    refine ⟨fun hg => ?_, fun hj => hinv.refs.finished i e hj hget⟩
    have hold := hinv.refs.entries hg i e hget
    exact ⟨hold.released, hold.failed, fun _ => hold.req (by rw [hreq]; rfl)⟩
  | progress results =>
    obtain ⟨hrun, h⟩ := ite_none_right_eq_some.1 h
    obtain ⟨⟨y, err⟩, hy, h⟩ := bind_eq_some_iff.1 h
    have hf : c.freed = false := by
      by_contra hx
      exact hinv.freed (by simpa using hx) hrun
    obtain ⟨hok, hsame⟩ := hinv.refs.progressLoop hf hy
    have hinv' : Inv y := hinv.same hok hsame
    dsimp only at h
    split at h
    · rename_i hend
      exact hinv'.complete (hsame.phase.trans hrun) hend.2 h
    · cases h
      exact hinv'
  | release =>
    obtain ⟨huser, h⟩ := ite_none_right_eq_some.1 h
    cases h
    have hok := hinv.refs.freeRequest (by rw [huser, Bool.or_true]) c.schedRef false
    exact ⟨hok, by simpa using hinv.schedRef, by simp, by simpa using hinv.freed⟩
  | reset =>
    obtain ⟨⟨hkind, hphase, huser, hf⟩, h⟩ := ite_none_right_eq_some.1 h
    cases h
    have hsched : ¬c.schedRef = true := by
      rw [hinv.schedRef]
      rcases hphase with hp | hp <;> rw [hp] <;> decide
    refine ⟨hinv.refs.reset (by rw [hkind]; decide), ⟨fun hx => absurd hx hsched, (nomatch ·)⟩,
      fun _ => huser, fun hx => absurd (hf.symm.trans hx) (by decide)⟩
  | free =>
    obtain ⟨⟨hkind, hphase, hf⟩, h⟩ := ite_none_right_eq_some.1 h
    obtain ⟨hok, heq⟩ := hinv.refs.free hf (fun hg => by rw [hkind] at hg; exact nomatch hg) h
    rw [heq] at hok ⊢
    exact ⟨hok, hinv.schedRef, hinv.userRef, fun _ => hphase⟩

theorem inv {kind : Kind} {comm : CommHandle} (h : (sys fatal kind comm).Reach c) : Inv c :=
  h.inv (.create kind comm) fun hinv hst => hinv.step hst

/-- No reference of an entry of a generalized schedule remains: it takes none if it has no request
of its own, as reductions and copies, or if its operation could not be started. -/
def EntryBalanced (c : Counted) (i : Nat) (e : Entry) : Prop :=
  e.type.isTransfer = false ∨ c.failed i = true → ∀ r ∈ c.args.getD i [], r.isCounted = false

theorem RefsOk.entryBalanced (hok : RefsOk c) (hfreed : c.freed = true)
    (hg : c.sched.kind = .generalized) (hget : c.sched.entries[i]? = some e) :
    (∀ h, (if c.released i then 0 else Ref.counts h (c.args.getD i [])) = 0) ↔
      EntryBalanced c i e := by
  have hi : i < c.sched.entries.length := (List.getElem?_eq_some_iff.1 hget).1
  have hfin := hok.finished i e (hi.trans_le (hok.ended hfreed hg)) hget
  have hrel := (hok.entries hg i e hget).released
  rw [hfin, Bool.and_true] at hrel
  unfold EntryBalanced
  by_cases hr : c.released i = true
  · rw [hr] at hrel
    obtain ⟨htype, hfailed⟩ := Bool.and_eq_true_iff.1 hrel.symm
    refine ⟨fun _ hor => ?_, fun _ h => if_pos hr⟩
    rcases hor with hx | hx
    · exact absurd (htype.symm.trans hx) (by decide)
    · rw [hx] at hfailed
      cases hfailed
  · have hor : e.type.isTransfer = false ∨ c.failed i = true := by
      rw [hrel] at hr
      cases htype : e.type.isTransfer with
      | false => exact .inl rfl
      | true => exact .inr (by simpa [htype] using hr)
    simp only [if_neg hr]
    rw [Ref.counts_eq_zero]
    exact ⟨fun h _ => h, fun h => h hor⟩

theorem RefsOk.balanced (hok : RefsOk c) (hfreed : c.freed = true) (hsched : c.schedRef = false)
    (huser : c.userRef = false) :
    (∀ h, c.refs h = 0) ↔ (c.sched.kind = .generalized →
      ∀ i e, c.sched.entries[i]? = some e → EntryBalanced c i e) := by
  have hnone : ∀ h, c.requestRefs h = 0 := fun h => by rw [requestRefs, hsched, huser]; rfl
  by_cases hg : c.sched.kind = .generalized
  · have hheld : ∀ h, c.refs h = c.held h := fun h => by
      rw [hok.refs, hnone, if_neg fun hx => hx.2 hg, zero_add]
    have hnonneg : ∀ h, ∀ i ∈ Finset.range c.args.length,
        0 ≤ (if c.released i then 0 else Ref.counts h (c.args.getD i []) : Int) := by
      intro h i _
      split
      · exact le_rfl
      · exact Ref.counts_nonneg h _
    constructor
    · intro hz _ i e hget
      refine (hok.entryBalanced hfreed hg hget).1 fun h => ?_
      have hi : i ∈ Finset.range c.args.length := by
        rw [hok.length]
        exact Finset.mem_range.2 (List.getElem?_eq_some_iff.1 hget).1
      exact (Finset.sum_eq_zero_iff_of_nonneg (hnonneg h)).1 ((hheld h).symm.trans (hz h)) i hi
    · intro hall h
      rw [hheld]
      refine Finset.sum_eq_zero fun i hi => ?_
      rw [hok.length] at hi
      have hget := List.getElem?_eq_getElem (Finset.mem_range.1 hi)
      exact (hok.entryBalanced hfreed hg hget).2 (hall hg i _ hget) h
  · refine ⟨fun _ h => absurd h hg, fun _ h => ?_⟩
    rw [hok.refs, hnone, if_pos ⟨hfreed, hg⟩, add_zero]

/-- Once a schedule has completed, or a persistent schedule has been freed, and the user has
released its request, the reference counts are what they were, except for a generalized schedule:
its entries have to be balanced. -/
theorem schedule_refs {fatal : Bool} {kind : Kind} {comm : CommHandle} {c : Counted}
    (h : (sys fatal kind comm).Reach c) (hfreed : c.freed = true) (huser : c.userRef = false) :
    (∀ handle, c.refs handle = 0) ↔ (c.sched.kind = .generalized →
      ∀ i e, c.sched.entries[i]? = some e → EntryBalanced c i e) := by
  have hinv := Counted.inv h
  refine hinv.refs.balanced hfreed ?_ huser
  by_contra hsched
  exact hinv.freed hfreed (hinv.schedRef.1 (by simpa using hsched))

def userComm : CommHandle := ⟨0x84000002, by decide⟩

def derivedType : TypeHandle := ⟨0x8c000005, by decide⟩

def userOp : OpHandle := ⟨0x98000000, by decide⟩

def runTwice : List Act :=
  [.add (.recv derivedType userComm), .add .barrier, .add (.reduce derivedType userOp), .start [],
    .finish 0 false, .progress [], .release, .reset, .start [], .finish 0 false, .progress [],
    .release, .free]

theorem schedule_refs_run_twice : ∃ c, (sys false .persistent userComm).Reach c ∧
    c.sched.entries.length = 2 ∧ c.freed = true ∧ ∀ handle, c.refs handle = 0 := by
  have hrun : ((sys false .persistent userComm).exec (create .persistent userComm) runTwice).map
      (fun c => (c.sched.kind, c.sched.entries.length, c.freed, c.userRef)) =
      some (.persistent, 2, true, false) := by
    decide
  obtain ⟨c, hc, hval⟩ := map_eq_some_iff.1 hrun
  simp only [Prod.mk.injEq] at hval
  obtain ⟨hkind, hlen, hfreed, huser⟩ := hval
  have hreach := Sys.exec_reach .init hc
  exact ⟨c, hreach, hlen, hfreed, (schedule_refs hreach hfreed huser).2 fun hg =>
    absurd (hkind.symm.trans hg) (by decide)⟩

def leaks : List Act × List Act :=
  ([.add (.reduce derivedType userOp), .start [], .progress [], .release],
    [.add (.send derivedType userComm),
      .start [⟨{ Results.ok with sendErr := true }, []⟩], .progress [], .release])

theorem schedule_refs_leak :
    (∃ c, (sys false .generalized userComm).Reach c ∧ c.freed = true ∧ c.userRef = false ∧
      c.refs userOp.1 = 1) ∧
    ∃ c, (sys false .generalized userComm).Reach c ∧ c.freed = true ∧ c.userRef = false ∧
      c.refs userComm.1 = 1 := by
  have hrun : ∀ acts h,
      ((sys false .generalized userComm).exec (create .generalized userComm) acts).map
        (fun c => (c.freed, c.userRef, c.refs h)) = some (true, false, 1) →
      ∃ c, (sys false .generalized userComm).Reach c ∧ c.freed = true ∧ c.userRef = false ∧
        c.refs h = 1 := by
    intro acts h hrun
    obtain ⟨c, hc, hval⟩ := map_eq_some_iff.1 hrun
    simp only [Prod.mk.injEq] at hval
    exact ⟨c, Sys.exec_reach .init hc, hval⟩
  exact ⟨hrun leaks.1 _ (by decide), hrun leaks.2 _ (by decide)⟩

end Counted

end PsMpi.Nbc
