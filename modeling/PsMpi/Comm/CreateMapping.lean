import PsMpi.Group.Subset

/-!
# The processes of a new communicator

See `MPII_Comm_create_calculate_mapping` (`mpich2/src/mpi/comm/comm_impl.c:186`).
-/

open List Option

namespace PsMpi.Groups

open PsMpi.Lib

/-- What the mapping depends on in a process: the number of processes, the communicator of all of
them if there is one, and whether arguments are checked. `MPIR_Process_t`
(`mpir_process.h`). -/
structure MpirProcess where
  size : Nat
  commWorld : Option MpiComm
  doErrorChecks : Bool

/-- `MPIR_init_comm_world` (`builtin_comms.c:14`), `MPID_Init` (`mpid_init.c`). -/
structure MpirProcess.Ok (proc : MpirProcess) : Prop where
  size_lt : proc.size < 2 ^ 31
  world : ∀ w, proc.commWorld = some w →
    w = ⟨.intracomm, proc.size, proc.size, List.range proc.size, []⟩

/-- The result of the calculation: the place of a member that is not in the communicator, or the
mapping and the communicator that it is for, which may be null. -/
inductive Mapping where
  | groupNotInComm (i : Int)
  | ranks (mapping : List Nat) (mappingComm : Option MpiComm)
deriving DecidableEq

/-- `MPII_Comm_create_calculate_mapping` (:221). -/
def subsetOfWorld (proc : MpirProcess) (g : MpiGroup) (comm : MpiComm) : Bool :=
  decide (comm.kind = .intracomm) && g.lpids.all (· < proc.size)

/-- Line 260. -/
def searchMember (comm : MpiComm) (lpid : Nat) : List Nat → Option (Option Nat)
  | [] => some none
  | j :: js => do
    let commLpid ← commGetLpid comm j false
    if commLpid = lpid then some (some j) else searchMember comm lpid js

/-- Line 255. -/
def searchMembers (comm : MpiComm) : List Nat → Nat → Option (Except Nat (List Nat))
  | [], _ => some (.ok [])
  | lpid :: lpids, i => do
    let rank ← searchMember comm lpid (List.range comm.localSize)
    match rank with
    | none => some (.error i)
    | some j => do
      let rest ← searchMembers comm lpids (i + 1)
      return rest.map (j :: ·)

/-- Line 186. -/
def calculateMapping (proc : MpirProcess) (g : MpiGroup) (comm : MpiComm) :
    Option (MpiGroup × Mapping) := do
  let g ← setupLpidList g
  if subsetOfWorld proc g comm then
    if proc.doErrorChecks then do
      let (g, missing) ← checkSubset g comm
      match missing with
      | some i => return (g, .groupNotInComm i)
      | none => return (g, .ranks g.lpids proc.commWorld)
    else return (g, .ranks g.lpids proc.commWorld)
  else do
    let found ← searchMembers comm g.lpids 0
    match found with
    | .error i => return (g, .groupNotInComm i)
    | .ok mapping => return (g, .ranks mapping (some comm))

/-- The mapping that is wanted: it fails if some member is not in the communicator, and otherwise each
member has its rank in a communicator that exists. -/
inductive MappingOk (g : MpiGroup) (comm : MpiComm) : Mapping → Prop where
  | fails (i : Int) : ¬ (∀ x ∈ g.lpids, x ∈ comm.localLpids) → MappingOk g comm (.groupNotInComm i)
  | maps (mapping : List Nat) (mappingComm : MpiComm) : (∀ x ∈ g.lpids, x ∈ comm.localLpids) →
      List.Forall₂ (fun x j => commGetLpid mappingComm j false = some x) g.lpids mapping →
      MappingOk g comm (.ranks mapping (some mappingComm))

/-- When the mapping is right: the members are searched; or all are in the communicator, and there is
a communicator of all processes; or some is not, and the check finds that. -/
inductive MappingCondition (proc : MpirProcess) (g : MpiGroup) (comm : MpiComm) : Prop where
  | searched : subsetOfWorld proc g comm = false → MappingCondition proc g comm
  | world : (∀ x ∈ g.lpids, x ∈ comm.localLpids) → proc.commWorld.isSome = true →
      MappingCondition proc g comm
  | checked (g' : MpiGroup) (i : Int) : ¬ (∀ x ∈ g.lpids, x ∈ comm.localLpids) →
      proc.doErrorChecks = true → checkSubset g comm = some (g', some i) →
      MappingCondition proc g comm

section search

variable {comm : MpiComm} {lpid : Nat}

theorem searchMember_spec (js : List Nat) (hjs : ∀ j ∈ js, j < comm.localLpids.length) :
    ∃ rank, searchMember comm lpid js = some rank ∧
      (∀ j, rank = some j → commGetLpid comm j false = some lpid) ∧
      (rank = none → ∀ j ∈ js, commGetLpid comm j false ≠ some lpid) := by
  induction js with
  | nil => exact ⟨none, rfl, nofun, fun _ _ hj => absurd hj not_mem_nil⟩
  | cons j js ih =>
    obtain ⟨hj, hrest⟩ := forall_mem_cons.1 hjs
    have hget : commGetLpid comm j false = some comm.localLpids[j] := by
      rw [commGetLpid_local, List.getElem?_eq_getElem hj]
    rw [searchMember, hget]
    simp only [bind_eq_bind, bind_some]
    split
    · next heq =>
      refine ⟨some j, rfl, fun j' hj' => ?_, nofun⟩
      rw [← Option.some.inj hj', hget, heq]
    · next hne =>
      obtain ⟨rank, hrun, hfound, hmiss⟩ := ih hrest
      refine ⟨rank, hrun, hfound, fun hnone => forall_mem_cons.2 ⟨?_, hmiss hnone⟩⟩
      rw [hget]
      exact fun hno => hne (Option.some.inj hno)

theorem searchMember_all (hc : comm.Ok) :
    ∃ rank, searchMember comm lpid (List.range comm.localSize) = some rank ∧
      (∀ j, rank = some j → commGetLpid comm j false = some lpid ∧ lpid ∈ comm.localLpids) ∧
      (rank = none → lpid ∉ comm.localLpids) := by
  obtain ⟨rank, hrun, hfound, hmiss⟩ := @searchMember_spec comm lpid (List.range comm.localSize)
    fun j hj => hc.localSize ▸ mem_range.1 hj
  refine ⟨rank, hrun, fun j hj => ⟨hfound j hj, ?_⟩, fun hnone hin => ?_⟩
  · have hget := hfound j hj
    rw [commGetLpid_local] at hget
    exact mem_of_getElem? hget
  · obtain ⟨j, hj⟩ := mem_iff_getElem?.1 hin
    refine hmiss hnone j (mem_range.2 ?_) (by rw [commGetLpid_local, hj])
    rw [hc.localSize]
    exact (List.getElem?_eq_some_iff.1 hj).1

theorem searchMembers_spec (hc : comm.Ok) (lpids : List Nat) (i : Nat) :
    ∃ found, searchMembers comm lpids i = some found ∧
      (∀ k, found = .error k → ¬ ∀ x ∈ lpids, x ∈ comm.localLpids) ∧
      ∀ mapping, found = .ok mapping → (∀ x ∈ lpids, x ∈ comm.localLpids) ∧
        List.Forall₂ (fun x j => commGetLpid comm j false = some x) lpids mapping := by
  induction lpids generalizing i with
  | nil =>
    refine ⟨.ok [], rfl, nofun, fun mapping h => ?_⟩
    obtain rfl := Except.ok.inj h
    exact ⟨fun _ hx => absurd hx not_mem_nil, .nil⟩
  | cons lpid lpids ih =>
    obtain ⟨rank, hrun, hfound, hmiss⟩ := @searchMember_all comm lpid hc
    rw [searchMembers, hrun]
    cases rank with
    | none => exact ⟨.error i, rfl, fun _ _ hall => hmiss rfl (hall lpid mem_cons_self), nofun⟩
    | some j =>
      obtain ⟨hget, hin⟩ := hfound j rfl
      obtain ⟨found, hrest, herr, hok⟩ := ih (i + 1)
      simp only [bind_eq_bind, bind_some, hrest]
      refine ⟨_, rfl, fun k hk hall => ?_, fun mapping hm => ?_⟩
      · cases found with
        | ok rest => cases hk
        | error k' => exact herr k' rfl (forall_mem_cons.1 hall).2
      · cases found with
        | ok rest =>
          obtain rfl := Except.ok.inj hm
          obtain ⟨hall, hmap⟩ := hok rest rfl
          exact ⟨forall_mem_cons.2 ⟨hin, hall⟩, .cons hget hmap⟩
        | error k' => cases hm

end search

section mapping

variable {proc : MpirProcess} {g : MpiGroup} {comm : MpiComm} {me : Nat}

theorem MpirProcess.Ok.world_lpids (hp : proc.Ok) {w : MpiComm} (hw : proc.commWorld = some w)
    {lpids : List Nat} (hl : ∀ x ∈ lpids, x < proc.size) :
    List.Forall₂ (fun x j => commGetLpid w j false = some x) lpids lpids := by
  rw [hp.world w hw]
  refine List.forall₂_same.2 fun x hx => ?_
  rw [commGetLpid, if_pos (.inl rfl), List.getElem?_range (hl x hx)]

theorem setupLpidList_idem {g' : MpiGroup} (h : setupLpidList g = some g') :
    setupLpidList g' = some g' := by
  by_cases hidx' : g'.idxOfFirstLpid = -1
  · by_cases hidx : g.idxOfFirstLpid = -1
    · obtain ⟨a, first, hrun, -, l, hfol, hperm, -⟩ :=
        mergesortLpidarray_spec (keyOf_lpidAt (g := g)) (Nat.le_add_right g.size 2)
      rw [setupLpidList, if_pos hidx, hrun] at h
      cases h
      -- the order of a group without members
      obtain rfl : first = -1 := hidx'
      have hl : l = [] := not_not.1 (mt hfol.nonneg_iff.2 (by decide))
      rw [hl] at hperm
      obtain rfl : a = [] := eq_nil_of_length_eq_zero (by simpa using hperm.length_eq.symm)
      rw [setupLpidList, if_pos rfl]
      show (mergesortLpidarray 0 []).bind _ = _
      unfold mergesortLpidarray
      rfl
    · rw [setupLpidList, if_neg hidx] at h
      cases h
      exact absurd hidx' hidx
  · rw [setupLpidList, if_neg hidx']

theorem checkSubset_setup {g' : MpiGroup} (h : setupLpidList g = some g') :
    checkSubset g' comm = checkSubset g comm := by
  unfold checkSubset
  rw [setupLpidList_idem h, h]

theorem setupLpidList_spec (hg : g.Wf me) : ∃ g', setupLpidList g = some g' ∧ SameGroup me g g' := by
  obtain ⟨g', hneed, hsame, -⟩ := needLpidList_spec hg
  exact ⟨g', needLpidList_eq g ▸ hneed, hsame⟩

theorem calculateMapping_world (hg : g.Wf me) (hc : comm.Ok)
    (hs : subsetOfWorld proc g comm = true) :
    ∃ g' m, calculateMapping proc g comm = some (g', m) ∧ g'.lpids = g.lpids ∧
      ((∃ i g'', proc.doErrorChecks = true ∧ checkSubset g comm = some (g'', some i) ∧
        m = .groupNotInComm i) ∨
      ((∀ i g'', proc.doErrorChecks = true → checkSubset g comm ≠ some (g'', some i)) ∧
        m = .ranks g.lpids proc.commWorld)) := by
  obtain ⟨g₁, hsetup, hsame⟩ := setupLpidList_spec hg
  have hs₁ : subsetOfWorld proc g₁ comm = true := by
    rw [subsetOfWorld, hsame.lpids]
    exact hs
  unfold calculateMapping
  rw [hsetup]
  simp only [bind_eq_bind, bind_some]
  rw [if_pos hs₁]
  by_cases hcheck : proc.doErrorChecks = true
  · obtain ⟨g₂, missing, _, _, hrun, hsame₂, -⟩ := checkSubset_spec hsame.wf hc
    rw [if_pos hcheck, hrun]
    rw [checkSubset_setup hsetup] at hrun
    cases missing with
    | none =>
      refine ⟨g₂, _, rfl, hsame₂.lpids.trans hsame.lpids, .inr ⟨fun i g'' _ hno => ?_, ?_⟩⟩
      · rw [hrun] at hno
        exact nomatch (Prod.ext_iff.1 (Option.some.inj hno)).2
      · rw [hsame₂.lpids, hsame.lpids]
    | some i =>
      exact ⟨g₂, _, rfl, hsame₂.lpids.trans hsame.lpids, .inl ⟨i, g₂, hcheck, hrun, rfl⟩⟩
  · rw [if_neg hcheck]
    exact ⟨g₁, _, rfl, hsame.lpids, .inr ⟨fun _ _ hno => absurd hno hcheck, by rw [hsame.lpids]⟩⟩

theorem calculateMapping_searched (hg : g.Wf me) (hc : comm.Ok)
    (hs : subsetOfWorld proc g comm = false) :
    ∃ g' m, calculateMapping proc g comm = some (g', m) ∧ g'.lpids = g.lpids ∧
      MappingOk g comm m := by
  obtain ⟨g₁, hsetup, hsame⟩ := setupLpidList_spec hg
  obtain ⟨found, hrun, herr, hok⟩ := searchMembers_spec hc g.lpids 0
  have hs₁ : subsetOfWorld proc g₁ comm = false := by
    rw [subsetOfWorld, hsame.lpids]
    exact hs
  unfold calculateMapping
  rw [hsetup]
  simp only [bind_eq_bind, bind_some]
  rw [if_neg (by rw [hs₁]; decide), hsame.lpids, hrun]
  cases found with
  | error i => exact ⟨g₁, _, rfl, hsame.lpids, .fails i (herr i rfl)⟩
  | ok mapping =>
    obtain ⟨hall, hmap⟩ := hok mapping rfl
    exact ⟨g₁, _, rfl, hsame.lpids, .maps mapping comm hall hmap⟩

theorem checkSubset_ne_missing (hp : proc.Ok) (hg : g.Wf me) (hc : comm.Ok)
    (hs : subsetOfWorld proc g comm = true) (hsub : ∀ x ∈ g.lpids, x ∈ comm.localLpids)
    (i : Int) (g'' : MpiGroup) : checkSubset g comm ≠ some (g'', some i) := by
  intro hno
  have hlt : ∀ x ∈ g.lpids, x < 2 ^ 31 := fun x hx => Nat.lt_trans
    (of_decide_eq_true (all_eq_true.1 (Bool.and_eq_true_iff.1 hs).2 x hx)) hp.size_lt
  obtain ⟨g', missing, hrun, -, hiff⟩ := check_subset_of_alike hg hc (alike_of_subset hlt hsub)
  rw [hrun] at hno
  have hmiss := (Prod.ext_iff.1 (Option.some.inj hno)).2
  rw [hiff.2 hsub] at hmiss
  cases hmiss

/-- The mapping of a group is right if and only if its members are searched, or there is a
communicator of all processes and all are members, or the check finds that some is not. -/
theorem calculate_mapping (hp : proc.Ok) (hg : g.Wf me) (hc : comm.Ok) :
    (∃ g' m, calculateMapping proc g comm = some (g', m) ∧ g'.lpids = g.lpids ∧
      MappingOk g comm m) ↔ MappingCondition proc g comm := by
  cases hs : subsetOfWorld proc g comm with
  | false => exact iff_of_true (calculateMapping_searched hg hc hs) (.searched hs)
  | true =>
    obtain ⟨g', m, hrun, hids, hm⟩ := calculateMapping_world hg hc hs
    constructor
    · rintro ⟨_, _, hrun', -, hok⟩
      obtain ⟨rfl, rfl⟩ := Prod.mk.inj (Option.some.inj (hrun.symm.trans hrun'))
      rcases hm with ⟨i, g'', hcheck, hsubset, rfl⟩ | ⟨-, rfl⟩
      · cases hok with
        | fails i hno => exact .checked g'' i hno hcheck hsubset
      · generalize hw : proc.commWorld = w at hok
        cases hok with
        | maps mapping w hall _ => exact .world hall (by rw [hw]; rfl)
    · intro hcond
      refine ⟨g', m, hrun, hids, ?_⟩
      cases hcond with
      | searched hno => exact absurd (hs.symm.trans hno) (by decide)
      | world hall hsome =>
        rcases hm with ⟨i, g'', -, hsubset, -⟩ | ⟨-, rfl⟩
        · exact absurd hsubset (checkSubset_ne_missing hp hg hc hs hall i g'')
        · obtain ⟨w, hw⟩ := isSome_iff_exists.1 hsome
          rw [hw]
          refine .maps g.lpids w hall (hp.world_lpids hw fun x hx => ?_)
          exact of_decide_eq_true (all_eq_true.1 (Bool.and_eq_true_iff.1 hs).2 x hx)
      | checked g'' i hno hcheck hsubset =>
        rcases hm with ⟨i', -, -, -, rfl⟩ | ⟨hnone, -⟩
        · exact .fails i' hno
        · exact absurd hsubset (hnone i g'' hcheck)

end mapping

def worldOfThree : MpirProcess := ⟨3, some ⟨.intracomm, 3, 3, [0, 1, 2], []⟩, true⟩

/-- Two of three processes are mapped to their ranks in the communicator of all. -/
theorem calculate_mapping_two :
    ∃ g' m, calculateMapping worldOfThree (fresh 0 [2, 0]) ⟨.intracomm, 2, 2, [0, 2], []⟩ =
        some (g', m) ∧ g'.lpids = (fresh 0 [2, 0]).lpids ∧
      MappingOk (fresh 0 [2, 0]) ⟨.intracomm, 2, 2, [0, 2], []⟩ m :=
  (@calculate_mapping worldOfThree (fresh 0 [2, 0]) ⟨.intracomm, 2, 2, [0, 2], []⟩ 0
    ⟨by decide, fun _ hw => (Option.some.inj hw).symm⟩ ⟨by decide, fun hno => absurd rfl hno, rfl⟩
    ⟨rfl, fun _ => rfl, by decide⟩).2 (.world (by decide) rfl)

/-- A process that has only sessions gets no communicator for the mapping; and with a communicator of
all processes, a member of the group passes for one that is not in it if its id is the low word of
another. -/
theorem calculate_mapping_fails :
    (calculateMapping ⟨3, none, true⟩ (fresh 0 [2, 0]) ⟨.intracomm, 2, 2, [0, 2], []⟩).map Prod.snd =
      some (.ranks [2, 0] none) ∧
    (∀ m, ¬ MappingOk (fresh 0 [2, 0]) ⟨.intracomm, 2, 2, [0, 2], []⟩ (.ranks m none)) ∧
    (calculateMapping worldOfThree (fresh 0 [0]) ⟨.intracomm, 1, 1, [2 ^ 32], []⟩).map Prod.snd =
      some (.ranks [0] worldOfThree.commWorld) ∧
    ¬ ∀ x ∈ (fresh 0 [0]).lpids, x ∈ [2 ^ 32] :=
  ⟨by decide, fun _ => nofun, by decide, by decide⟩

end PsMpi.Groups
