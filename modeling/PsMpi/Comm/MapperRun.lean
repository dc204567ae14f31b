import PsMpi.Comm.MapperOk

/-!
# The tables of a new communicator

The mappers are applied one by one, those into the local group first.
-/

open List Option

namespace PsMpi.Mappers

open PsMpi.Lib PsMpi.Groups

/-! ## Runs -/

section

variable {mappers : List CommMap} {base : List Vcrt} {m : CommMap} {ms : List CommMap}
  {total : Nat} {st0 st : State}

theorem listMap_run {into : CommMap → Bool} {map : CommMap → Nat → State → Option State}
    {P : List CommMap → State → Prop}
    (hskip : ∀ m i st, into m = false → map m i st = some st)
    (hstep : ∀ ms m rest st, mappers.filter into = ms ++ m :: rest → P ms st →
      ∃ st', map m (size ms) st = some st' ∧ P (ms ++ [m]) st')
    {ms rest : List CommMap} (hrest : mappers.filter into = ms ++ rest.filter into)
    (hP : P ms st) :
    ∃ st', listMap into map rest (size ms) st = some st' ∧ P (mappers.filter into) st' := by
  induction rest generalizing ms st with
  | nil =>
    rw [filter_nil, append_nil] at hrest
    exact ⟨st, rfl, hrest ▸ hP⟩
  | cons m rest ih =>
    cases hm : into m with
    | false =>
      rw [filter_cons_of_neg (by simp [hm])] at hrest
      obtain ⟨st', hrun, hP'⟩ := ih hrest hP
      refine ⟨st', ?_, hP'⟩
      rw [listMap, hskip m _ st hm, bind_eq_bind, bind_some, hm]
      exact hrun
    | true =>
      rw [filter_cons_of_pos hm] at hrest
      obtain ⟨st1, hmap, hP1⟩ := hstep ms m _ st hrest hP
      obtain ⟨st', hrun, hP'⟩ := ih (by rw [hrest, append_assoc]; rfl) hP1
      refine ⟨st', ?_, hP'⟩
      rw [listMap, hmap, bind_eq_bind, bind_some, hm]
      rw [size_concat] at hrun
      exact hrun

/-! ## The table `vcrt` -/

structure VcrtState (st0 : State) (total : Nat) (ms : List CommMap) (st : State) : Prop where
  filled : Filled st0.vcrts st.vcrts st.comm.vcrt ms total
  start : ms = [] → st = st0
  vcr : ms ≠ [] → st.comm.vcr = st.comm.vcrt
  kind : st.comm.kind = st0.comm.kind
  localVcrt : st.comm.localVcrt = st0.comm.localVcrt
  localVcr : st.comm.localVcr = st0.comm.localVcr
  localComm : st.localComm = st0.localComm

theorem VcrtState.init (st0 : State) (total : Nat) : VcrtState st0 total [] st0 :=
  ⟨Filled.nil _ _ _, fun _ => rfl, fun h => absurd rfl h, rfl, rfl, rfl, rfl⟩

theorem VcrtState.step (h : VcrtState st0 total ms st) (hms : ∀ m ∈ ms, m.Ok st0.vcrts)
    (hm : m.Ok st0.vcrts) (hfit : size ms + m.mapperSize ≤ total) :
    ∃ st', st.dupVcrt m.srcVcrt m m.srcSize total (size ms) = some st' ∧
      VcrtState st0 total (ms ++ [m]) st' := by
  obtain ⟨vcrts, k, hdup, hfilled, -⟩ := mapperDupVcrt_spec h.filled hms hm hfit
  refine ⟨{ st with vcrts, comm := st.comm.setVcrt k }, ?_, hfilled,
    fun h => absurd h (by simp), fun _ => rfl, h.kind, h.localVcrt, h.localVcr, h.localComm⟩
  rw [State.dupVcrt, hdup]
  rfl

/-! ## The local table of an intercommunicator -/

/-- The alias of the local array stands for no table, or for one that has nothing at rank 0 and is
not the local table. -/
def Stale (base vcrts : List Vcrt) (localVcrt localVcr : Option Nat) : Prop :=
  ∀ k, localVcr = some k → localVcrt ≠ some k ∧ base.length ≤ k ∧
    ∃ table, vcrts[k]? = some table ∧ table[0]? = some none

def Aliased (ms : List CommMap) : Prop := ∃ m ∈ lead ms, m.dir = .l2l

structure LocalState (st0 : State) (total : Nat) (ms : List CommMap) (st : State) : Prop where
  filled : Filled st0.vcrts st.vcrts st.comm.localVcrt ms total
  start : ms = [] → st = st0
  current : Aliased ms → st.comm.localVcr = st.comm.localVcrt
  stale : total ≠ 0 → ¬ Aliased ms →
    Stale st0.vcrts st.vcrts st.comm.localVcrt st.comm.localVcr
  unset : (∀ m ∈ ms, m.dir ≠ .r2l) → st.comm.vcrt = none ∧ st.comm.vcr = none
  isSet : (∃ m ∈ ms, m.dir = .r2l) → st.comm.vcrt ≠ none
  kind : st.comm.kind = st0.comm.kind
  localComm : st.localComm = st0.localComm

theorem aliased_concat (ms : List CommMap) (m : CommMap) :
    Aliased (ms ++ [m]) ↔ m.dir = .l2l ∨ (size ms ≠ 0 ∧ Aliased ms) := by
  unfold Aliased
  rw [lead_concat]
  split
  · next h => simp [h]
  · next h =>
    simp only [mem_append, mem_singleton]
    constructor
    · rintro ⟨a, ha | rfl, hdir⟩
      · exact .inr ⟨h, a, ha, hdir⟩
      · exact .inl hdir
    · rintro (hdir | ⟨-, a, ha, hdir⟩)
      · exact ⟨m, .inr rfl, hdir⟩
      · exact ⟨a, .inl ha, hdir⟩

theorem LocalState.init (h : st0.comm.vcrt = none ∧ st0.comm.vcr = none)
    (hvcr : st0.comm.localVcr = none) (total : Nat) : LocalState st0 total [] st0 where
  filled := Filled.nil _ _ _
  start _ := rfl
  current h := by simp [Aliased, lead] at h
  stale _ _ k hk := by rw [hvcr] at hk; cases hk
  unset _ := h
  isSet h := by simp at h
  kind := rfl
  localComm := rfl

theorem LocalState.null (h : LocalState st0 total ms st) (htotal : total ≠ 0)
    (hnot : ¬ (size ms ≠ 0 ∧ Aliased ms)) {k : Nat} (hk : st.comm.localVcr = some k) :
    (size ms ≠ 0 → st.comm.localVcrt ≠ some k) ∧ st0.vcrts.length ≤ k ∧
      ∃ table, st.vcrts[k]? = some table ∧ table[0]? = some none := by
  by_cases halias : Aliased ms
  · have hzero : size ms = 0 := by
      by_contra hpos
      exact hnot ⟨hpos, halias⟩
    have hcurrent := h.current halias
    obtain ⟨a, ha, -⟩ := halias
    obtain ⟨m0, hm0⟩ : ∃ m0, (lead ms).head? = some m0 := by
      cases hlead : lead ms with
      | nil => rw [hlead] at ha; cases ha
      | cons m0 rest => exact ⟨m0, rfl⟩
    obtain ⟨k', table, hdest, htable, -, hmade⟩ := h.filled.made m0 hm0
    have hkk : k' = k := by
      rw [hcurrent, hdest] at hk
      exact Option.some.inj hk
    subst hkk
    have hm0size := mapperSize_le_size (mem_of_mem_lead (mem_of_head? hm0))
    have hshares : ¬ m0.Shares m0.srcSize total := fun hs => by
      rw [hs.size] at hm0size
      omega
    rw [if_neg hshares] at hmade
    exact ⟨fun hpos => absurd hzero hpos, hmade.new, table, htable,
      hmade.null 0 (by omega) (by omega)⟩
  · obtain ⟨hne, hle, htable⟩ := h.stale htotal halias k hk
    exact ⟨fun _ => hne, hle, htable⟩

theorem LocalState.stale_step {vcrts : List Vcrt} {k : Nat} (h : LocalState st0 total ms st)
    (hframe : Framed st0.vcrts st.vcrts st.comm.localVcrt (size ms) vcrts k) (htotal : total ≠ 0)
    (hnot : ¬ (size ms ≠ 0 ∧ Aliased ms)) :
    Stale st0.vcrts vcrts (some k) st.comm.localVcr := by
  intro k0 hk0
  obtain ⟨hdest, hle, table, htable, hnull⟩ := h.null htotal hnot hk0
  obtain ⟨hlt, -⟩ := List.getElem?_eq_some_iff.1 htable
  refine ⟨fun hkk => ?_, hle, table, ?_, hnull⟩
  · cases hkk
    by_cases hzero : size ms = 0
    · have := hframe.fresh hzero
      omega
    · exact hdest hzero (hframe.same hzero)
  · rw [hframe.tables k0 hlt hdest, htable]

theorem LocalState.step_l2l (h : LocalState st0 total ms st) (hms : ∀ m ∈ ms, m.Ok st0.vcrts)
    (hm : m.Ok st0.vcrts) (hfit : size ms + m.mapperSize ≤ total) (hdir : m.dir = .l2l) :
    ∃ st', st.dupLocalVcrt m.srcVcrt m m.srcSize total (size ms) = some st' ∧
      LocalState st0 total (ms ++ [m]) st' := by
  obtain ⟨vcrts, k, hdup, hfilled, -⟩ := mapperDupVcrt_spec h.filled hms hm hfit
  refine ⟨{ st with vcrts, comm := st.comm.setLocalVcrt k }, by rw [State.dupLocalVcrt, hdup]; rfl,
    hfilled, fun h => absurd h (by simp), fun _ => rfl, fun _ hnot => ?_, fun hall => ?_,
    fun hex => ?_, h.kind, h.localComm⟩
  · exact absurd ((aliased_concat ms m).2 (.inl hdir)) hnot
  · exact h.unset fun a ha => hall a (mem_append_left _ ha)
  · obtain ⟨a, ha, har⟩ := hex
    rcases mem_append.1 ha with ha | ha
    · exact h.isSet ⟨a, ha, har⟩
    · obtain rfl := mem_singleton.1 ha
      rw [hdir] at har
      cases har

theorem LocalState.step_r2l (h : LocalState st0 total ms st) (hms : ∀ m ∈ ms, m.Ok st0.vcrts)
    (hm : m.Ok st0.vcrts) (hfit : size ms + m.mapperSize ≤ total) (hdir : m.dir = .r2l) :
    ∃ st', st.dupLocalVcrtR2l m.srcVcrt m m.srcSize total (size ms) = some st' ∧
      LocalState st0 total (ms ++ [m]) st' := by
  obtain ⟨vcrts, k, hdup, hfilled, hframe⟩ := mapperDupVcrt_spec h.filled hms hm hfit
  have hne : m.dir ≠ .l2l := by
    rw [hdir]
    exact fun h => by cases h
  refine ⟨{ st with vcrts, comm := { st.comm with localVcrt := some k }.setVcrt k },
    by rw [State.dupLocalVcrtR2l, hdup]; rfl, hfilled, fun h => absurd h (by simp),
    fun halias => ?_, fun htotal hnot => ?_, fun hall => ?_,
    fun _ => some_ne_none k, h.kind, h.localComm⟩
  · obtain ⟨hpos, halias⟩ := ((aliased_concat ms m).1 halias).resolve_left hne
    exact (h.current halias).trans (hframe.same hpos)
  · exact h.stale_step hframe htotal fun hboth => hnot ((aliased_concat ms m).2 (.inr hboth))
  · exact absurd hdir (hall m (mem_append_right _ (mem_singleton_self m)))

end

/-! ## What is expected of the tables -/

def locals (mappers : List CommMap) : List CommMap := mappers.filter CommMap.intoLocal

def remotes (mappers : List CommMap) : List CommMap := mappers.filter CommMap.intoRemote

/-- What the code asserts of the mappers onto a new communicator: the remote group of a source or of
the destination is that of an intercommunicator, and members are counted by an `int`. -/
structure Ok (mappers : List CommMap) (st : State) : Prop where
  vcrt : st.comm.vcrt = none ∧ st.comm.vcr = none
  localVcrt : st.comm.localVcrt = none ∧ st.comm.localVcr = none
  named : ∀ m ∈ mappers, m.Ok st.vcrts
  source : ∀ m ∈ mappers, m.dir = .r2l ∨ m.dir = .r2r → m.srcComm.kind = .intercomm
  destination : ∀ m ∈ mappers, m.dir = .l2r ∨ m.dir = .r2r → st.comm.kind = .intercomm
  localSize : (size (locals mappers) : Int) ≤ intMax
  remoteSize : (size (remotes mappers) : Int) ≤ intMax
  localComm : st.comm.kind = .intercomm → st.localComm ≠ none → locals mappers ≠ []

def AtRanks (vcrts : List Vcrt) (vcrt : Option Nat) (vcs : List Nat) : Prop :=
  ∀ (i vc : Nat), vcs[i]? = some vc → readVc vcrts vcrt i = some vc

/-- A table and the alias of its array have what the mappers name at the ranks of their group;
without mappers they are not set. -/
def Holds (base vcrts : List Vcrt) (vcrt vcr : Option Nat) (ms : List CommMap) : Prop :=
  if ms = [] then vcrt = none ∧ vcr = none
  else AtRanks vcrts vcrt (named base ms) ∧ AtRanks vcrts vcr (named base ms)

def Sized (base vcrts : List Vcrt) (vcrt : Option Nat) (ms : List CommMap) : Prop :=
  ms ≠ [] → ∃ k table, vcrt = some k ∧ vcrts[k]? = some table ∧
    table.length = (named base ms).length

/-- The tables of the new communicator, and those of its local communicator, have the connections
that the mappers name. -/
def Mapped (mappers : List CommMap) (st st' : State) : Prop :=
  match st.comm.kind with
  | .intracomm => Holds st.vcrts st'.vcrts st'.comm.vcrt st'.comm.vcr (locals mappers)
  | .intercomm =>
    Holds st.vcrts st'.vcrts st'.comm.localVcrt st'.comm.localVcr (locals mappers) ∧
    Holds st.vcrts st'.vcrts st'.comm.vcrt st'.comm.vcr (remotes mappers) ∧
    ∀ localComm ∈ st'.localComm,
      Holds st.vcrts st'.vcrts localComm.vcrt localComm.vcr (locals mappers)

def Exact (mappers : List CommMap) (st st' : State) : Prop :=
  match st.comm.kind with
  | .intracomm => Sized st.vcrts st'.vcrts st'.comm.vcrt (locals mappers)
  | .intercomm =>
    Sized st.vcrts st'.vcrts st'.comm.localVcrt (locals mappers) ∧
    Sized st.vcrts st'.vcrts st'.comm.vcrt (remotes mappers)

/-- Onto an intercommunicator with local members, a mapper from a local group sets the alias of the
table that is decided on; and where a mapper goes from a remote to the local group, another one goes
into the remote group. -/
def InOrder (mappers : List CommMap) (st : State) : Prop :=
  st.comm.kind = .intercomm →
    (size (locals mappers) ≠ 0 → Aliased (locals mappers)) ∧
    ((∃ m ∈ mappers, m.dir = .r2l) → remotes mappers ≠ [])

def Whole (base : List Vcrt) (ms : List CommMap) : Prop :=
  ∀ m ∈ (lead ms).head?, m.Shares m.srcSize (size ms) →
    ∃ k table, m.srcVcrt = some k ∧ base[k]? = some table ∧ table.length = size ms

/-! ## The result -/

section

variable {mappers : List CommMap} {base vcrts : List Vcrt} {m : CommMap} {ms : List CommMap}
  {st st' : State} {dest : Option Nat}

theorem Ok.of_locals (h : Ok mappers st) : ∀ m ∈ locals mappers, m.Ok st.vcrts :=
  fun m hm => h.named m (mem_of_mem_filter hm)

theorem Ok.of_remotes (h : Ok mappers st) : ∀ m ∈ remotes mappers, m.Ok st.vcrts :=
  fun m hm => h.named m (mem_of_mem_filter hm)

theorem mapLocal_intracomm (hlocal : m.intoLocal = true)
    (hsrc : m.dir = .r2l → m.srcComm.kind = .intercomm) (hkind : st.comm.kind = .intracomm)
    (total i : Nat) : mapLocal m total i st = st.dupVcrt m.srcVcrt m m.srcSize total i := by
  cases hdir : m.dir with
  | l2l => cases hk : m.srcComm.kind <;> simp only [mapLocal, CommMap.srcVcrt, CommMap.srcSize, *]
  | r2l => simp only [mapLocal, CommMap.srcVcrt, CommMap.srcSize, hdir, hsrc hdir, hkind]
  | l2r => simp [CommMap.intoLocal, hdir] at hlocal
  | r2r => simp [CommMap.intoLocal, hdir] at hlocal

theorem mapLocal_l2l (hdir : m.dir = .l2l) (hkind : st.comm.kind = .intercomm) (total i : Nat) :
    mapLocal m total i st = st.dupLocalVcrt m.srcVcrt m m.srcSize total i := by
  cases hk : m.srcComm.kind <;> simp only [mapLocal, CommMap.srcVcrt, CommMap.srcSize, *]

theorem mapLocal_r2l (hdir : m.dir = .r2l) (hsrc : m.srcComm.kind = .intercomm)
    (hkind : st.comm.kind = .intercomm) (total i : Nat) :
    mapLocal m total i st = st.dupLocalVcrtR2l m.srcVcrt m m.srcSize total i := by
  simp only [mapLocal, CommMap.srcVcrt, CommMap.srcSize, *]

theorem mapRemote_intercomm (hremote : m.intoRemote = true)
    (hsrc : m.dir = .r2r → m.srcComm.kind = .intercomm) (hkind : st.comm.kind = .intercomm)
    (total i : Nat) : mapRemote m total i st = st.dupVcrt m.srcVcrt m m.srcSize total i := by
  cases hdir : m.dir with
  | l2r => cases hk : m.srcComm.kind <;> simp only [mapRemote, CommMap.srcVcrt, CommMap.srcSize, *]
  | r2r => simp only [mapRemote, CommMap.srcVcrt, CommMap.srcSize, hdir, hsrc hdir, hkind]
  | l2l => simp [CommMap.intoRemote, hdir] at hremote
  | r2l => simp [CommMap.intoRemote, hdir] at hremote

theorem mapLocal_skip {total : Nat} (m : CommMap) (i : Nat) (st : State)
    (h : m.intoLocal = false) : mapLocal m total i st = some st := by
  cases hdir : m.dir <;> simp_all [CommMap.intoLocal, mapLocal]

theorem mapRemote_skip {total : Nat} (m : CommMap) (i : Nat) (st : State)
    (h : m.intoRemote = false) : mapRemote m total i st = some st := by
  cases hdir : m.dir <;> simp_all [CommMap.intoRemote, mapRemote]

theorem size_append_cons (ms rest : List CommMap) (m : CommMap) :
    size (ms ++ m :: rest) = size ms + m.mapperSize + size rest := by
  simp only [size, map_append, sum_append, map_cons, sum_cons]
  omega

theorem split_fits {l ms rest : List CommMap} {m : CommMap} (h : l = ms ++ m :: rest) :
    (∀ a ∈ ms, a ∈ l) ∧ m ∈ l ∧ size ms + m.mapperSize ≤ size l := by
  subst h
  refine ⟨fun a ha => mem_append_left _ ha, by simp, ?_⟩
  rw [size_append_cons]
  exact Nat.le_add_right _ _

theorem listMapLocalVcr_intracomm (h : Ok mappers st) (hkind : st.comm.kind = .intracomm) :
    ∃ st', listMapLocalVcr (size (locals mappers)) mappers st = some st' ∧
      VcrtState st (size (locals mappers)) (locals mappers) st' := by
  refine listMap_run (P := VcrtState st (size (locals mappers))) mapLocal_skip ?_
    (nil_append _).symm (VcrtState.init st _)
  intro ms m rest st1 hsplit hst1
  obtain ⟨hmem, hm, hfit⟩ := split_fits hsplit
  have hm0 := mem_filter.1 hm
  rw [mapLocal_intracomm hm0.2 (fun hdir => h.source m hm0.1 (.inl hdir)) (hst1.kind.trans hkind)]
  exact hst1.step (fun a ha => h.of_locals a (hmem a ha))
    (h.of_locals m hm) hfit

theorem listMapLocalVcr_intercomm (h : Ok mappers st) (hkind : st.comm.kind = .intercomm) :
    ∃ st', listMapLocalVcr (size (locals mappers)) mappers st = some st' ∧
      LocalState st (size (locals mappers)) (locals mappers) st' := by
  refine listMap_run (P := LocalState st (size (locals mappers))) mapLocal_skip ?_
    (nil_append _).symm (LocalState.init h.vcrt h.localVcrt.2 _)
  intro ms m rest st1 hsplit hst1
  obtain ⟨hmem, hm, hfit⟩ := split_fits hsplit
  have hm0 := mem_filter.1 hm
  have hms : ∀ a ∈ ms, a.Ok st.vcrts := fun a ha =>
    h.of_locals a (hmem a ha)
  have hkind1 := hst1.kind.trans hkind
  rcases of_decide_eq_true hm0.2 with hdir | hdir
  · rw [mapLocal_l2l hdir hkind1]
    exact hst1.step_l2l hms (h.of_locals m hm) hfit hdir
  · rw [mapLocal_r2l hdir (h.source m hm0.1 (.inl hdir)) hkind1]
    exact hst1.step_r2l hms (h.of_locals m hm) hfit hdir

theorem listMapRemoteVcr_spec {st1 : State} (h : Ok mappers st)
    (hkind : st1.comm.kind = st.comm.kind) (hp : st.vcrts <+: st1.vcrts) :
    ∃ st', listMapRemoteVcr (size (remotes mappers)) mappers st1 = some st' ∧
      VcrtState st1 (size (remotes mappers)) (remotes mappers) st' := by
  refine listMap_run (P := VcrtState st1 (size (remotes mappers))) mapRemote_skip ?_
    (nil_append _).symm (VcrtState.init st1 _)
  intro ms m rest st2 hsplit hst2
  obtain ⟨hmem, hm, hfit⟩ := split_fits hsplit
  have hm0 := mem_filter.1 hm
  have hdest : st.comm.kind = .intercomm := h.destination m hm0.1 (of_decide_eq_true hm0.2)
  rw [mapRemote_intercomm hm0.2 (fun hdir => h.source m hm0.1 (.inr hdir))
    (hst2.kind.trans (hkind.trans hdest))]
  exact hst2.step
    (fun a ha => (h.of_remotes a (hmem a ha)).mono hp)
    ((h.of_remotes m hm).mono hp) hfit

/-! ### What the runs leave -/

theorem Filled.exists_table {total : Nat} (h : Filled base vcrts dest ms total) (hne : ms ≠ []) :
    ∃ k table, dest = some k ∧ vcrts[k]? = some table ∧ Begins table (named base ms) := by
  cases hlead : lead ms with
  | nil => exact absurd hlead (lead_ne_nil hne)
  | cons m rest =>
    obtain ⟨k, table, hdest, htable, hbegins, -⟩ := h.made m (by rw [hlead]; rfl)
    exact ⟨k, table, hdest, htable, hbegins⟩

theorem exists_locals : (∃ m ∈ locals mappers, m.dir = .r2l) ↔ ∃ m ∈ mappers, m.dir = .r2l := by
  constructor
  · rintro ⟨m, hm, hdir⟩
    exact ⟨m, mem_of_mem_filter hm, hdir⟩
  · rintro ⟨m, hm, hdir⟩
    exact ⟨m, mem_filter.2 ⟨hm, by simp [CommMap.intoLocal, hdir]⟩, hdir⟩

theorem Filled.atRanks {total : Nat} (h : Filled base vcrts dest ms total) (hne : ms ≠ []) :
    AtRanks vcrts dest (named base ms) := by
  intro i vc hvc
  obtain ⟨k, table, rfl, htable, hbegins⟩ := h.exists_table hne
  simp only [readVc, bind_eq_bind, bind_some, htable, hbegins i vc hvc]

theorem Filled.sized_iff (h : Filled base vcrts dest ms (size ms)) (hms : ∀ m ∈ ms, m.Ok base) :
    Sized base vcrts dest ms ↔ Whole base ms := by
  rw [Sized, Whole, length_named hms]
  cases hlead : lead ms with
  | nil =>
    have hnil : ms = [] := by
      by_contra hne
      exact lead_ne_nil hne hlead
    simp [hnil]
  | cons m rest =>
    have hne : ms ≠ [] := by
      rintro rfl
      cases hlead
    have hmem : m ∈ ms := mem_of_mem_lead (by rw [hlead]; exact mem_cons_self ..)
    obtain ⟨k, table, hdest, htable, -, hmade⟩ := h.made m (by rw [hlead]; rfl)
    have hkept := h.kept
    constructor
    · intro hsized m' hm' hshares
      obtain rfl : m = m' := by simpa using hm'
      rw [if_pos hshares] at hmade
      obtain ⟨k', table', hdest', htable', hlen⟩ := hsized hne
      obtain rfl : k = k' := Option.some.inj (hdest.symm.trans hdest')
      obtain ⟨k', hsrc, hk⟩ := (hms m hmem).src
      obtain rfl : k = k' := Option.some.inj (hmade.symm.trans hsrc)
      obtain ⟨rest, rfl⟩ := hkept
      rw [List.getElem?_append_left hk] at htable'
      exact ⟨k, table', hsrc, htable', hlen⟩
    · intro hwhole _
      by_cases hshares : m.Shares m.srcSize (size ms)
      · obtain ⟨k', table', hsrc, htable', hlen⟩ := hwhole m rfl hshares
        rw [if_pos hshares] at hmade
        obtain rfl : k = k' := Option.some.inj (hmade.symm.trans hsrc)
        obtain ⟨hk, -⟩ := List.getElem?_eq_some_iff.1 htable'
        obtain ⟨rest, rfl⟩ := hkept
        rw [List.getElem?_append_left hk] at htable
        obtain rfl : table = table' := Option.some.inj (htable.symm.trans htable')
        exact ⟨k, table, hdest, by rw [List.getElem?_append_left hk, htable], hlen⟩
      · rw [if_neg hshares] at hmade
        exact ⟨k, table, hdest, htable, hmade.length⟩

theorem readVc_keeps {vcrts' : List Vcrt} (hp : vcrts <+: vcrts') {vcrt : Option Nat} {i vc : Nat}
    (h : readVc vcrts vcrt i = some vc) : readVc vcrts' vcrt i = some vc := by
  obtain ⟨k, rfl, htable⟩ := bind_eq_some_iff.1 h
  obtain ⟨table, hk, -⟩ := bind_eq_some_iff.1 htable
  obtain ⟨hlt, -⟩ := List.getElem?_eq_some_iff.1 hk
  rw [readVc_mono hp hlt, h]

theorem AtRanks.mono {vcrts' : List Vcrt} (hp : vcrts <+: vcrts') {vcrt : Option Nat}
    {vcs : List Nat} (h : AtRanks vcrts vcrt vcs) : AtRanks vcrts' vcrt vcs :=
  fun i vc hvc => readVc_keeps hp (h i vc hvc)

theorem Filled.sized_mono {total : Nat} {vcrts' : List Vcrt}
    (h : Filled base vcrts dest ms total) (hp : vcrts <+: vcrts') :
    Sized base vcrts' dest ms ↔ Sized base vcrts dest ms := by
  refine forall_congr' fun hne => ?_
  obtain ⟨k, table, rfl, htable, -⟩ := h.exists_table hne
  obtain ⟨hlt, -⟩ := List.getElem?_eq_some_iff.1 htable
  obtain ⟨rest, rfl⟩ := hp
  simp only [Option.some.injEq, exists_and_left, exists_eq_left', List.getElem?_append_left hlt]

theorem whole_mono (hp : base <+: vcrts) (hms : ∀ m ∈ ms, m.Ok base) :
    Whole vcrts ms ↔ Whole base ms := by
  refine forall₂_congr fun m hm => ?_
  obtain ⟨k, hsrc, hk⟩ := (hms m (mem_of_mem_lead (mem_of_head? hm))).src
  obtain ⟨rest, rfl⟩ := hp
  simp only [hsrc, Option.some.injEq, exists_and_left, exists_eq_left',
    List.getElem?_append_left hk]

theorem LocalState.alias_iff {vcrts : List Vcrt}
    (h : LocalState st (size ms) ms st') (hms : ∀ m ∈ ms, m.Ok st.vcrts) (hne : ms ≠ [])
    (hp : st'.vcrts <+: vcrts) :
    AtRanks vcrts st'.comm.localVcr (named st.vcrts ms) ↔ (size ms ≠ 0 → Aliased ms) := by
  by_cases hzero : size ms = 0
  · simp [hzero, named_eq_nil hms hzero, AtRanks]
  by_cases halias : Aliased ms
  · refine ⟨fun _ _ => halias, fun _ => ?_⟩
    rw [h.current halias]
    exact (h.filled.atRanks hne).mono hp
  · refine ⟨fun hat => ?_, fun himp => absurd (himp hzero) halias⟩
    have hlen := length_named hms
    obtain ⟨vc, hvc⟩ : ∃ vc, (named st.vcrts ms)[0]? = some vc :=
      ⟨_, List.getElem?_eq_getElem (by omega)⟩
    obtain ⟨k, hvcr, hread⟩ := bind_eq_some_iff.1 (hat 0 vc hvc)
    obtain ⟨-, -, table, htable, hnull⟩ := h.stale hzero halias k hvcr
    obtain ⟨hlt, -⟩ := List.getElem?_eq_some_iff.1 htable
    obtain ⟨rest, rfl⟩ := hp
    rw [List.getElem?_append_left hlt, htable] at hread
    simp [hnull] at hread

/-! ### The communicator -/

theorem intSize_eq {n : Nat} (h : (n : Int) ≤ intMax) : intSize n = some n := if_pos h

theorem Ok.remotes_nil (h : Ok mappers st) (hkind : st.comm.kind = .intracomm) :
    remotes mappers = [] := by
  refine filter_eq_nil_iff.2 fun m hm hremote => ?_
  have hdest := h.destination m hm (of_decide_eq_true hremote)
  rw [hkind] at hdest
  cases hdest

theorem commCreateMapper_run {st1 st2 st3 : State} (h : Ok mappers st) (hne : mappers ≠ [])
    (hlocal : listMapLocalVcr (size (locals mappers)) mappers st = some st1)
    (hremote : listMapRemoteVcr (size (remotes mappers)) mappers st1 = some st2)
    (hset : setLocalComm st2 = some st3) : commCreateMapper mappers st = some st3 := by
  have hlocalSize : intSize (listDestLocalSize mappers) = some (size (locals mappers)) := by
    rw [listDestLocalSize, listDestSize_eq]
    exact intSize_eq h.localSize
  have hremoteSize : intSize (listDestRemoteSize mappers) = some (size (remotes mappers)) := by
    rw [listDestRemoteSize, listDestSize_eq]
    exact intSize_eq h.remoteSize
  simp only [commCreateMapper, if_neg hne, hlocalSize, hremoteSize, bind_eq_bind,
    bind_some, hlocal, hremote, hset]

theorem mapped_intracomm (h : Ok mappers st) (hne : mappers ≠ [])
    (hkind : st.comm.kind = .intracomm) :
    ∃ st', commCreateMapper mappers st = some st' ∧ Mapped mappers st st' ∧
      (Exact mappers st st' ↔ Whole st.vcrts (locals mappers)) := by
  obtain ⟨st1, hlocal, hst1⟩ := listMapLocalVcr_intracomm h hkind
  obtain ⟨st2, hremote, hst2⟩ := listMapRemoteVcr_spec h hst1.kind hst1.filled.kept
  obtain rfl := hst2.start (h.remotes_nil hkind)
  have hkind1 : st2.comm.kind = .intracomm := hst1.kind.trans hkind
  refine ⟨st2, ?_, ?_, ?_⟩
  · exact commCreateMapper_run h hne hlocal hremote (by rw [setLocalComm, hkind1])
  · rw [Mapped, hkind]
    by_cases hnil : locals mappers = []
    · obtain rfl := hst1.start hnil
      rw [Holds, if_pos hnil]
      exact h.vcrt
    · have hat := hst1.filled.atRanks hnil
      rw [Holds, if_neg hnil, hst1.vcr hnil]
      exact ⟨hat, hat⟩
  · rw [Exact, hkind]
    exact hst1.filled.sized_iff h.of_locals

theorem setLocalComm_spec (hkind : st.comm.kind = .intercomm)
    (hlocal : st.localComm ≠ none → st.comm.localVcrt ≠ none) :
    ∃ st', setLocalComm st = some st' ∧ st'.vcrts = st.vcrts ∧ st'.comm = st.comm ∧
      ∀ localComm ∈ st'.localComm,
        localComm.vcrt = st.comm.localVcrt ∧ localComm.vcr = st.comm.localVcrt := by
  cases hcomm : st.localComm with
  | none =>
    refine ⟨st, by rw [setLocalComm, hkind, hcomm], rfl, rfl, fun localComm hmem => ?_⟩
    rw [hcomm] at hmem
    cases hmem
  | some localComm =>
    obtain ⟨k, hk⟩ := ne_none_iff_exists'.1
      (hlocal (by rw [hcomm]; exact fun h => by cases h))
    refine ⟨{ st with localComm := some (localComm.setVcrt k) },
      by rw [setLocalComm, hkind, hcomm, hk]; rfl, rfl, rfl, fun c hc => ?_⟩
    obtain rfl : localComm.setVcrt k = c := Option.some.inj hc
    exact ⟨hk.symm, hk.symm⟩

theorem mapped_intercomm (h : Ok mappers st) (hne : mappers ≠ [])
    (hkind : st.comm.kind = .intercomm) :
    ∃ st', commCreateMapper mappers st = some st' ∧
      (Mapped mappers st st' ↔ InOrder mappers st) ∧
      (Exact mappers st st' ↔
        Whole st.vcrts (locals mappers) ∧ Whole st.vcrts (remotes mappers)) := by
  obtain ⟨st1, hlocal, hst1⟩ := listMapLocalVcr_intercomm h hkind
  obtain ⟨st2, hremote, hst2⟩ := listMapRemoteVcr_spec h hst1.kind hst1.filled.kept
  have hkind2 : st2.comm.kind = .intercomm := hst2.kind.trans (hst1.kind.trans hkind)
  have hset : st2.localComm ≠ none → st2.comm.localVcrt ≠ none := by
    intro hcomm
    rw [hst2.localComm, hst1.localComm] at hcomm
    rw [hst2.localVcrt]
    obtain ⟨k, -, hk, -⟩ := hst1.filled.exists_table (h.localComm hkind hcomm)
    rw [hk]
    exact some_ne_none k
  obtain ⟨st3, hlocalComm, hvcrts, hcomm, hlc⟩ := setLocalComm_spec hkind2 hset
  have hnamed : named st1.vcrts (remotes mappers) = named st.vcrts (remotes mappers) :=
    named_eq h.of_remotes hst1.filled.kept
  refine ⟨st3, commCreateMapper_run h hne hlocal hremote hlocalComm, ?_, ?_⟩
  · have hlocals : Holds st.vcrts st2.vcrts st2.comm.localVcrt st2.comm.localVcr (locals mappers) ↔
        (size (locals mappers) ≠ 0 → Aliased (locals mappers)) := by
      rw [Holds, hst2.localVcrt, hst2.localVcr]
      split
      · next hnil =>
        obtain rfl := hst1.start hnil
        exact iff_of_true h.localVcrt fun hsize => absurd (by rw [hnil]; rfl) hsize
      · next hnil =>
        rw [hst1.alias_iff h.of_locals hnil hst2.filled.kept]
        exact and_iff_right ((hst1.filled.atRanks hnil).mono hst2.filled.kept)
    have hremotes : Holds st.vcrts st2.vcrts st2.comm.vcrt st2.comm.vcr (remotes mappers) ↔
        ((∃ m ∈ mappers, m.dir = .r2l) → remotes mappers ≠ []) := by
      rw [Holds, ← exists_locals]
      split
      · next hnil =>
        obtain rfl := hst2.start hnil
        constructor
        · intro hnone hex
          exact absurd hnone.1 (hst1.isSet hex)
        · intro himp
          refine hst1.unset fun m hm hdir => ?_
          exact himp ⟨m, hm, hdir⟩ hnil
      · next hnil =>
        have hat := hst2.filled.atRanks hnil
        rw [hnamed] at hat
        rw [hst2.vcr hnil]
        exact iff_of_true ⟨hat, hat⟩ fun _ => hnil
    have hlocalComms : ∀ localComm ∈ st3.localComm,
        Holds st.vcrts st2.vcrts localComm.vcrt localComm.vcr (locals mappers) := by
      intro localComm hmem
      obtain ⟨hvcrt, hvcr⟩ := hlc localComm hmem
      rw [hvcrt, hvcr, hst2.localVcrt, Holds]
      split
      · next hnil =>
        obtain rfl := hst1.start hnil
        exact ⟨h.localVcrt.1, h.localVcrt.1⟩
      · next hnil =>
        have hat := (hst1.filled.atRanks hnil).mono hst2.filled.kept
        exact ⟨hat, hat⟩
    simp only [Mapped, InOrder, hkind, hvcrts, hcomm, hlocals, hremotes, true_implies,
      and_iff_left hlocalComms]
  · have hsized : Sized st.vcrts st2.vcrts st2.comm.localVcrt (locals mappers) ↔
        Whole st.vcrts (locals mappers) := by
      rw [← hst1.filled.sized_iff h.of_locals, hst2.localVcrt]
      exact hst1.filled.sized_mono hst2.filled.kept
    have hsized' : Sized st.vcrts st2.vcrts st2.comm.vcrt (remotes mappers) ↔
        Whole st.vcrts (remotes mappers) := by
      rw [← whole_mono hst1.filled.kept h.of_remotes,
        ← hst2.filled.sized_iff fun m hm => (h.of_remotes m hm).mono hst1.filled.kept,
        Sized, Sized, hnamed]
    simp only [Exact, hkind, hvcrts, hcomm, hsized, hsized']

theorem whole_nil (base : List Vcrt) : Whole base [] := fun m hm => by simp [lead] at hm

/-- The tables of a new communicator have the connections that the mappers name just if the mappers
are in order, and no other entries just if tables are shared as a whole only. -/
theorem comm_create_mapper (h : Ok mappers st) (hne : mappers ≠ []) :
    ∃ st', commCreateMapper mappers st = some st' ∧
      (Mapped mappers st st' ↔ InOrder mappers st) ∧
      (Exact mappers st st' ↔
        Whole st.vcrts (locals mappers) ∧ Whole st.vcrts (remotes mappers)) := by
  cases hkind : st.comm.kind with
  | intracomm =>
    obtain ⟨st', hrun, hmapped, hexact⟩ := mapped_intracomm h hne hkind
    refine ⟨st', hrun, iff_of_true hmapped fun hinter => ?_, ?_⟩
    · rw [hkind] at hinter
      cases hinter
    · rw [hexact, h.remotes_nil hkind]
      exact (and_iff_left (whole_nil _)).symm
  | intercomm => exact mapped_intercomm h hne hkind

end

/-! ## Two intercommunicators -/

def parent : Comm := ⟨.intercomm, 2, 1, some 0, some 0, some 1, some 1⟩

def fresh : State where
  vcrts := [[some 30], [some 10, some 20]]
  comm := ⟨.intercomm, 3, 1, none, none, none, none⟩
  localComm := none

def joined : List CommMap :=
  [⟨.irregular [1, 0], parent, .l2l⟩, ⟨.dup, parent, .r2l⟩, ⟨.dup, parent, .r2r⟩]

theorem joined_ok : Ok joined fresh where
  vcrt := ⟨rfl, rfl⟩
  localVcrt := ⟨rfl, rfl⟩
  named m hm := by
    simp only [joined, mem_cons, not_mem_nil, or_false] at hm
    rcases hm with rfl | rfl | rfl <;> exact ⟨⟨_, rfl, by decide⟩, by decide⟩
  source := by decide
  destination := by decide
  localSize := by decide
  remoteSize := by decide
  localComm := by decide

theorem comm_create_mapper_joined :
    ∃ st', commCreateMapper joined fresh = some st' ∧
      (Mapped joined fresh st' ↔ InOrder joined fresh) ∧
      (Exact joined fresh st' ↔
        Whole fresh.vcrts (locals joined) ∧ Whole fresh.vcrts (remotes joined)) :=
  comm_create_mapper joined_ok (by decide)

def exchanged : List CommMap := [⟨.dup, parent, .r2l⟩, ⟨.dup, parent, .l2r⟩]

theorem exchanged_ok : Ok exchanged fresh where
  vcrt := ⟨rfl, rfl⟩
  localVcrt := ⟨rfl, rfl⟩
  named m hm := by
    simp only [exchanged, mem_cons, not_mem_nil, or_false] at hm
    rcases hm with rfl | rfl <;> exact ⟨⟨_, rfl, by decide⟩, by decide⟩
  source := by decide
  destination := by decide
  localSize := by decide
  remoteSize := by decide
  localComm := by decide

theorem comm_create_mapper_fails :
    Ok exchanged fresh ∧ ∃ st', commCreateMapper exchanged fresh = some st' ∧
      st'.comm.localVcr = none ∧ ¬ Mapped exchanged fresh st' := by
  refine ⟨exchanged_ok, _, rfl, rfl, fun hmapped => ?_⟩
  have hread := hmapped.1
  rw [Holds, if_neg (by decide)] at hread
  have hget := hread.2 0 30 (by decide)
  cases hget

end PsMpi.Mappers
