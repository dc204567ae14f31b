import PsMpi.Group.OpsOk
import PsMpi.Group.RangesOk

/-!
# Groups made by any composition of constructors
-/

open List Option

namespace PsMpi.Groups

open PsMpi.Lib

structure GroupOk (proc : Process) (g : MpiGroup) : Prop where
  wf : g.Wf proc.rank
  dense : g.isLocalDenseMonotonic = true →
    ∀ i, i + 1 < g.size → g.lpidAt (i + 1) = g.lpidAt i + 1

def MpiGroup.InRange (g : MpiGroup) : Prop := ∀ x ∈ g.lpids, x < 2 ^ 31

/-! ## Process sets -/

theorem follows_range' {a : List Pmap} (m k : Nat) (hlen : k + m = a.length) (hm : m ≠ 0)
    (hlink : ∀ i e, a[i]? = some e →
      e.nextLpid = if i + 1 = a.length then -1 else ((i + 1 : Nat) : Int)) :
    Follows (links id a) k (List.range' k m) := by
  induction m generalizing k with
  | zero => exact absurd rfl hm
  | succ m ih =>
    have hk : k < a.length := by omega
    have hget : a[k]? = some a[k] := List.getElem?_eq_getElem hk
    have hnext := hlink k _ hget
    refine ⟨rfl, ?_⟩
    rw [links, hget]
    refine ⟨a[k].nextLpid, rfl, ?_⟩
    by_cases hz : m = 0
    · subst hz
      rw [hnext, if_pos hlen]
      rfl
    · rw [hnext, if_neg (by omega)]
      exact ih (k + 1) (by omega) hz

theorem inOrder_of_sorted {g : MpiGroup} (hsort : g.lpids.Pairwise (· < ·)) (hne : g.size ≠ 0)
    (hfirst : g.idxOfFirstLpid = 0)
    (hlink : ∀ i e, g.lrankToLpid[i]? = some e →
      e.nextLpid = if i + 1 = g.size then -1 else ((i + 1 : Nat) : Int)) : g.InOrder := by
  refine ⟨List.range g.size, ?_, .refl _, ?_⟩
  · rw [hfirst, range_eq_range']
    exact follows_range' g.size 0 (Nat.zero_add _) hne hlink
  · rw [← pairwise_map (f := g.lpidAt) (R := (· < ·)), map_lpidAt_range]
    exact hsort

theorem followEachOther_spec {lpids : List Nat} (hb : ∀ x ∈ lpids, x < 2 ^ 31)
    (h : followEachOther lpids = true) :
    ∀ i, i + 1 < lpids.length → lpids.getD (i + 1) 0 = lpids.getD i 0 + 1 := by
  induction lpids with
  | nil => exact fun i hi => absurd hi (Nat.not_lt_zero _)
  | cons l lpids ih =>
    cases lpids with
    | nil => exact fun i hi => absurd (Nat.lt_of_succ_lt_succ hi) (Nat.not_lt_zero _)
    | cons l' lpids =>
      rw [followEachOther, Bool.and_eq_true, decide_eq_true_iff] at h
      intro i hi
      cases i with
      | zero =>
        have hl := hb l mem_cons_self
        have hl' := hb l' (mem_cons_of_mem _ mem_cons_self)
        show l' = l + 1
        omega
      | succ i =>
        exact ih (fun x hx => hb x (mem_cons_of_mem _ hx)) h.2 i (Nat.lt_of_succ_lt_succ hi)

theorem psetEntries_spec (members : List Nat) :
    (psetEntries members).map Pmap.lpid = members ∧
    ∀ i e, (psetEntries members)[i]? = some e →
      e.nextLpid = (members[i + 1]?.map Int.ofNat).getD (-1) := by
  induction members with
  | nil => exact ⟨rfl, fun i e he => nomatch he⟩
  | cons m members ih =>
    cases members with
    | nil =>
      refine ⟨rfl, fun i e he => ?_⟩
      cases i with
      | zero =>
        cases he
        rfl
      | succ i => cases he
    | cons m' members =>
      refine ⟨congrArg (m :: ·) ih.1, fun i e he => ?_⟩
      cases i with
      | zero =>
        cases he
        rfl
      | succ i => exact ih.2 i e he

section psets

variable {proc : Process}

theorem fromWorldPset_ok : GroupOk proc (fromWorldPset proc) ∧ (fromWorldPset proc).InRange := by
  have hlpids : (fromWorldPset proc).lpids = List.range proc.size := by
    rw [fromWorldPset, MpiGroup.lpids, List.map_map]
    exact map_id _
  have hsize : (fromWorldPset proc).size = proc.size := by
    rw [← length_lpids, hlpids, length_range]
  have hpos := proc.rank_lt
  have hat : ∀ i, i < proc.size → (fromWorldPset proc).lpidAt i = i := by
    intro i hi
    rw [MpiGroup.lpidAt, hlpids, getD_eq_getElem?_getD, List.getElem?_range hi]
    rfl
  refine ⟨⟨⟨?_, fun _ => ?_, ?_⟩, fun _ i hi => ?_⟩, fun x hx => ?_⟩
  · rw [hlpids]
    exact nodup_range
  · refine inOrder_of_sorted (by rw [hlpids]; exact pairwise_lt_range) (by omega) rfl
      fun i e he => ?_
    obtain ⟨j, hj, rfl⟩ := List.getElem?_eq_some_iff.1 he
    simp only [fromWorldPset, getElem_map, getElem_range, MpiGroup.size, length_map,
      length_range]
    have hi : i < proc.size := by simpa [fromWorldPset] using j
    by_cases hlast : i = proc.size - 1
    · rw [if_pos hlast, if_pos (by omega)]
    · rw [if_neg hlast, if_neg (by omega)]
      rfl
  · rw [rankOf, hlpids, if_pos (mem_range.2 hpos)]
    have hidx := (nodup_range (n := proc.size)).idxOf_getElem proc.rank (by simpa using hpos)
    rw [getElem_range] at hidx
    rw [hidx]
    rfl
  · rw [hsize] at hi
    rw [hat _ hi, hat _ (by omega)]
  · rw [hlpids] at hx
    exact Nat.lt_trans (mem_range.1 hx) proc.size_lt

theorem fromSelfPset_ok : GroupOk proc (fromSelfPset proc) ∧ (fromSelfPset proc).InRange := by
  refine ⟨⟨⟨nodup_singleton _, fun _ => ?_, ?_⟩, fun _ i hi => ?_⟩, fun x hx => ?_⟩
  · refine inOrder_of_sorted (pairwise_singleton _ _) Nat.one_ne_zero rfl fun i e he => ?_
    obtain ⟨j, hj, rfl⟩ := List.getElem?_eq_some_iff.1 he
    obtain rfl : i = 0 := Nat.lt_one_iff.1 j
    rfl
  · show 0 = rankOf proc.rank [proc.rank]
    simp [rankOf]
  · exact absurd (Nat.lt_of_succ_lt_succ hi) (Nat.not_lt_zero _)
  · obtain rfl := mem_singleton.1 hx
    exact Nat.lt_trans proc.rank_lt proc.size_lt

theorem fromPset_ok {p : Pset proc}
    (h : ∀ i, i + 1 < p.members.length → p.members[i + 1]? = some (i + 1)) :
    GroupOk proc (fromPset p) ∧ (fromPset p).InRange := by
  obtain ⟨hids, hlinks⟩ := psetEntries_spec p.members
  have hlpids : (fromPset p).lpids = p.members := hids
  have hsize : (fromPset p).size = p.members.length := by rw [← length_lpids, hlpids]
  have hnd : p.members.Nodup := p.sorted.imp Nat.ne_of_lt
  refine ⟨⟨⟨hlpids ▸ hnd, fun _ => ?_, ?_⟩, fun hd i hi => ?_⟩, fun x hx => p.bound x (hlpids ▸ hx)⟩
  · refine inOrder_of_sorted (hlpids ▸ p.sorted) ?_ rfl fun i e he => ?_
    · rw [hsize]
      exact Nat.ne_of_gt (length_pos_of_mem p.own)
    · have hi : i < p.members.length := by
        rw [← hsize]
        exact (List.getElem?_eq_some_iff.1 he).1
      rw [hlinks i e he, hsize]
      by_cases hlast : i + 1 = p.members.length
      · rw [if_pos hlast, List.getElem?_eq_none (by omega)]
        rfl
      · rw [if_neg hlast, h i (by omega)]
        rfl
  · rw [rankOf, hlpids, if_pos p.own]
    rfl
  · rw [hsize] at hi
    have hd : followEachOther p.members = true := hd
    simp only [MpiGroup.lpidAt, hlpids]
    exact followEachOther_spec p.bound hd i hi

end psets

/-! ## Ranks and ranges -/

section ranks

variable {proc : Process} {g : MpiGroup}

theorem fresh_ok {lpids : List Nat} (hnd : lpids.Nodup) (hb : ∀ x ∈ lpids, x < 2 ^ 31) :
    GroupOk proc (fresh proc.rank lpids) ∧ (fresh proc.rank lpids).InRange :=
  ⟨⟨fresh_wf hnd, nofun⟩, fun x hx => hb x (by rwa [fresh_lpids] at hx)⟩

theorem empty_ok : GroupOk proc .empty ∧ MpiGroup.empty.InRange :=
  @fresh_ok proc [] nodup_nil (by simp)

theorem nodup_map_lpidAt {ranks : List Nat} (h : g.lpids.Nodup) (hb : ∀ r ∈ ranks, r < g.size)
    (hnd : ranks.Nodup) : (ranks.map g.lpidAt).Nodup := by
  refine hnd.map_on fun i hi j hj heq => ?_
  have hi' : i < g.lpids.length := by rw [length_lpids]; exact hb i hi
  have hj' : j < g.lpids.length := by rw [length_lpids]; exact hb j hj
  rw [lpidAt_eq hi', lpidAt_eq hj'] at heq
  exact (h.getElem_inj_iff).1 heq

theorem fromRanks_ok (h : GroupOk proc g) (hr : g.InRange) {ranks : List Nat}
    (hb : ∀ r ∈ ranks, r < g.size) (hnd : ranks.Nodup) :
    ∃ g', fromRanks g ranks.length ranks = some g' ∧ GroupOk proc g' ∧ g'.InRange := by
  have hids := nodup_map_lpidAt h.wf.nodup hb hnd
  refine ⟨_, fromRanks_spec h.wf hb hids, fresh_ok hids fun x hx => ?_⟩
  obtain ⟨i, hi, rfl⟩ := mem_map.1 hx
  exact hr _ (lpidAt_mem (hb i hi))

theorem toNat_ranks {size : Nat} {ranks : List Int} (hb : ∀ r ∈ ranks, 0 ≤ r ∧ r < size)
    (hnd : ranks.Nodup) :
    (∀ r ∈ ranks.map Int.toNat, r < size) ∧ (ranks.map Int.toNat).Nodup := by
  refine ⟨fun r hr => ?_, hnd.map_on fun i hi j hj heq => ?_⟩
  · obtain ⟨i, hi, rfl⟩ := mem_map.1 hr
    have := hb i hi
    omega
  · have := hb i hi
    have := hb j hj
    omega

theorem setFlags_spec (ranks : List Int) (flags : List Bool)
    (hb : ∀ r ∈ ranks, 0 ≤ r ∧ r < flags.length) :
    ∃ flags', ranks.foldlM setFlag flags = some flags' ∧ flags'.length = flags.length ∧
      ∀ i : Nat, i < flags.length →
        (flags'[i]? = some true ↔ flags[i]? = some true ∨ (i : Int) ∈ ranks) := by
  induction ranks generalizing flags with
  | nil => exact ⟨flags, rfl, rfl, by simp⟩
  | cons r ranks ih =>
    obtain ⟨h0, hlt⟩ := hb r mem_cons_self
    obtain ⟨n, rfl⟩ := Int.eq_ofNat_of_zero_le h0
    have hn : n < flags.length := by omega
    obtain ⟨flags', hrun, hlen, hflags⟩ := ih (flags.set n true) fun r' hr' => by
      rw [length_set]
      exact hb r' (mem_cons_of_mem _ hr')
    rw [length_set] at hlen hflags
    refine ⟨flags', ?_, hlen, fun i hi => ?_⟩
    · rw [foldlM_cons, setFlag_natCast hn]
      exact hrun
    · rw [hflags i hi, List.getElem?_set]
      by_cases hin : n = i
      · subst hin
        simp [hn]
      · have hne : (i : Int) ≠ n := fun h => hin (by omega)
        simp [hin, hne]

theorem flagged_of_setFlags {size : Nat} {ranks : List Int} (hb : ∀ r ∈ ranks, 0 ≤ r ∧ r < size)
    (hnd : ranks.Nodup) :
    ∃ flags, ranks.foldlM setFlag (List.replicate size false) = some flags ∧
      (∀ r ∈ flagged flags false, r < size) ∧ (flagged flags false).Nodup ∧
      (flagged flags false).length = size - ranks.length := by
  obtain ⟨flags, hrun, hlen, hflags⟩ := setFlags_spec ranks (List.replicate size false)
    (by rwa [length_replicate])
  rw [length_replicate] at hlen hflags
  have hmem : ∀ i, i < size → (flags[i]? = some true ↔ decide ((i : Int) ∈ ranks) = true) := by
    intro i hi
    rw [hflags i hi, List.getElem?_replicate, if_pos hi, decide_eq_true_iff]
    simp
  obtain ⟨-, hfalse⟩ := flagged_eq hlen hmem
  refine ⟨flags, hrun, ?_, ?_, ?_⟩
  · rw [hfalse]
    exact fun r hr => mem_range.1 (mem_of_mem_filter hr)
  · rw [hfalse]
    exact nodup_range.filter _
  · obtain ⟨hb', hnd'⟩ := toNat_ranks hb hnd
    have hperm : ((List.range size).filter fun i : Nat => decide ((i : Int) ∈ ranks)).Perm
        (ranks.map Int.toNat) := by
      refine (perm_ext_iff_of_nodup (nodup_range.filter _) hnd').2 fun i => ?_
      rw [mem_filter, mem_range, decide_eq_true_iff, List.mem_map]
      constructor
      · exact fun hi => ⟨i, hi.2, Int.toNat_natCast i⟩
      · rintro ⟨r, hr, rfl⟩
        refine ⟨hb' _ (mem_map_of_mem hr), ?_⟩
        rwa [Int.toNat_of_nonneg (hb r hr).1]
    have hsplit := length_eq_length_filter_add (l := List.range size)
      fun i => decide ((i : Int) ∈ ranks)
    have hlen' := hperm.length_eq
    rw [length_map] at hlen'
    rw [length_range] at hsplit
    rw [hfalse]
    omega

theorem inclImpl_ok (h : GroupOk proc g) (hr : g.InRange) {ranks : List Int}
    (hb : ∀ r ∈ ranks, 0 ≤ r ∧ r < g.size) (hnd : ranks.Nodup) :
    ∃ g', inclImpl g ranks = some g' ∧ GroupOk proc g' ∧ g'.InRange := by
  unfold inclImpl
  split
  · exact ⟨_, rfl, empty_ok⟩
  · obtain ⟨hb', hnd'⟩ := toNat_ranks hb hnd
    have hfrom := fromRanks_ok h hr hb' hnd'
    rwa [length_map] at hfrom

theorem exclImpl_ok (h : GroupOk proc g) (hr : g.InRange) {ranks : List Int}
    (hb : ∀ r ∈ ranks, 0 ≤ r ∧ r < g.size) (hnd : ranks.Nodup) :
    ∃ g', exclImpl g ranks = some g' ∧ GroupOk proc g' ∧ g'.InRange := by
  obtain ⟨flags, hrun, hb', hnd', hlen⟩ := flagged_of_setFlags hb hnd
  rw [exclImpl, hrun, ← hlen]
  exact fromRanks_ok h hr hb' hnd'

theorem rangeInclImpl_ok (h : GroupOk proc g) (hr : g.InRange) {ranges : List Range}
    (hv : Visits g.size ranges) :
    ∃ g', rangeInclImpl g ranges = some g' ∧ GroupOk proc g' ∧ g'.InRange := by
  unfold rangeInclImpl
  simp only [← hv.count]
  split
  · exact ⟨_, rfl, empty_ok⟩
  · obtain ⟨hb', hnd'⟩ := toNat_ranks hv.bound hv.nodup
    have hfrom := fromRanks_ok h hr hb' hnd'
    rw [length_map] at hfrom
    rw [hv.visitAll, Int.toNat_natCast]
    exact hfrom

theorem rangeExclImpl_ok (h : GroupOk proc g) (hr : g.InRange) {ranges : List Range}
    (hv : Visits g.size ranges) :
    ∃ g', rangeExclImpl g ranges = some g' ∧ GroupOk proc g' ∧ g'.InRange := by
  obtain ⟨flags, hrun, hb', hnd', hlen⟩ := flagged_of_setFlags hv.bound hv.nodup
  unfold rangeExclImpl
  simp only [← hv.count]
  split
  · exact ⟨_, rfl, empty_ok⟩
  · rw [hv.visitAll]
    simp only [bind_eq_bind, bind_some, hrun]
    rw [Int.toNat_sub, ← hlen]
    exact fromRanks_ok h hr hb' hnd'

end ranks

/-! ## Runs -/

/-- What the calls have to meet: the process sets number the processes from zero on, ranks are
distinct, and the checks of ranges and the loops over them do not overflow. -/
def ActOk {proc : Process} : Act proc → Prop
  | .pset p => ∀ i, i + 1 < p.members.length → p.members[i + 1]? = some (i + 1)
  | .incl _ ranks => ranks.Nodup
  | .excl _ ranks => ranks.Nodup
  | .rangeIncl _ ranges => ∀ r ∈ ranges, r.Fits
  | .rangeExcl _ ranges => ∀ r ∈ ranges, r.Fits
  | _ => True

structure StOk (proc : Process) (s : St) : Prop where
  fault : s.fault = false
  groups : ∀ g ∈ s.groups, GroupOk proc g ∧ g.InRange

section runs

variable {proc : Process} {s s' : St}

theorem StOk.push (h : StOk proc s) {g : MpiGroup} (hg : GroupOk proc g ∧ g.InRange) :
    StOk proc (s.push (some g)) :=
  ⟨h.fault, forall_mem_append.2 ⟨h.groups, forall_mem_singleton.2 hg⟩⟩

theorem StOk.checked (h : StOk proc s) {check : Option Bool} {impl : Option MpiGroup}
    (hne : check ≠ none)
    (himpl : check = some true → ∃ g, impl = some g ∧ GroupOk proc g ∧ g.InRange)
    (hs : s.checked check impl = some s') : StOk proc s' := by
  match check, hne, himpl, hs with
  | some true, _, himpl, hs =>
    obtain ⟨g, rfl, hg⟩ := himpl rfl
    cases hs
    exact h.push hg
  | none, hne, _, _ => exact absurd rfl hne

theorem SameGroup.ok {g g' : MpiGroup} (h : SameGroup proc.rank g g')
    (hg : GroupOk proc g ∧ g.InRange) : GroupOk proc g' ∧ g'.InRange := by
  refine ⟨⟨h.wf, fun hd i hi => ?_⟩, fun x hx => hg.2 x (h.lpids ▸ hx)⟩
  rw [← length_lpids, h.lpids, length_lpids] at hi
  rw [MpiGroup.lpidAt, MpiGroup.lpidAt, h.lpids]
  exact hg.1.dense (h.dense ▸ hd) i hi

theorem StOk.pushSetup (h : StOk proc s) {i j : Nat} {g₁ g₂ g₁' g₂' g : MpiGroup}
    (h₁ : s.groups[i]? = some g₁) (h₂ : s.groups[j]? = some g₂)
    (hs₁ : SameGroup proc.rank g₁ g₁') (hs₂ : SameGroup proc.rank g₂ g₂')
    (hg : GroupOk proc g ∧ g.InRange) : StOk proc (s.pushSetup i j (some (g₁', g₂', g))) := by
  refine ⟨h.fault, fun x hx => ?_⟩
  rcases mem_append.1 hx with hx | hx
  · rcases mem_or_eq_of_mem_set hx with hx | rfl
    · rcases mem_or_eq_of_mem_set hx with hx | rfl
      · exact h.groups x hx
      · exact hs₁.ok (h.groups _ (mem_of_getElem? h₁))
    · exact hs₂.ok (h.groups _ (mem_of_getElem? h₂))
  · rwa [mem_singleton.1 hx]

theorem StOk.step {a : Act proc} (h : StOk proc s) (ha : ActOk a)
    (hs : groupStep proc s a = some s') : StOk proc s' := by
  cases a with
  | world =>
    cases hs
    exact h.push fromWorldPset_ok
  | self =>
    cases hs
    exact h.push fromSelfPset_ok
  | pset p =>
    cases hs
    exact h.push (fromPset_ok ha)
  | incl i ranks =>
    obtain ⟨g, hg, hs⟩ := bind_eq_some_iff.1 hs
    obtain ⟨hok, hr⟩ := h.groups g (mem_of_getElem? hg)
    obtain ⟨hb, hne⟩ := checkValidRanks_spec g ranks
    refine h.checked (hne ha) (fun hc => ?_) hs
    split
    · exact ⟨_, rfl, empty_ok⟩
    · exact inclImpl_ok hok hr (hb hc) ha
  | excl i ranks =>
    obtain ⟨g, hg, hs⟩ := bind_eq_some_iff.1 hs
    obtain ⟨hok, hr⟩ := h.groups g (mem_of_getElem? hg)
    obtain ⟨hb, hne⟩ := checkValidRanks_spec g ranks
    refine h.checked (hne ha) (fun hc => ?_) hs
    split
    · exact ⟨_, rfl, empty_ok⟩
    · exact exclImpl_ok hok hr (hb hc) ha
  | rangeIncl i ranges =>
    obtain ⟨g, hg, hs⟩ := bind_eq_some_iff.1 hs
    obtain ⟨hok, hr⟩ := h.groups g (mem_of_getElem? hg)
    obtain ⟨hne, hv⟩ := checkValidRanges_spec g ha
    exact h.checked hne (fun hc => rangeInclImpl_ok hok hr (hv hc)) hs
  | rangeExcl i ranges =>
    obtain ⟨g, hg, hs⟩ := bind_eq_some_iff.1 hs
    obtain ⟨hok, hr⟩ := h.groups g (mem_of_getElem? hg)
    obtain ⟨hne, hv⟩ := checkValidRanges_spec g ha
    exact h.checked hne (fun hc => rangeExclImpl_ok hok hr (hv hc)) hs
  | union i j =>
    obtain ⟨g₁, hg₁, hs⟩ := bind_eq_some_iff.1 hs
    obtain ⟨g₂, hg₂, hs⟩ := bind_eq_some_iff.1 hs
    cases hs
    obtain ⟨hok₁, hr₁⟩ := h.groups g₁ (mem_of_getElem? hg₁)
    obtain ⟨hok₂, hr₂⟩ := h.groups g₂ (mem_of_getElem? hg₂)
    obtain ⟨g₁', g₂', rank, hrun, hs₁, hs₂, hrank⟩ := unionImpl_spec hok₁.wf hok₂.wf
    rw [hrun, hrank fun _ _ hres => absurd (hr₂ _ hres) (by decide)]
    refine h.pushSetup hg₁ hg₂ hs₁ hs₂ (fresh_ok ?_ fun x hx => ?_)
    · refine nodup_append'.2 ⟨hok₁.wf.nodup, hok₂.wf.nodup.filter _, fun x hx hx' => ?_⟩
      exact decide_eq_true_iff.1 (mem_filter.1 hx').2 hx
    · rcases mem_append.1 hx with hx | hx
      · exact hr₁ x hx
      · exact hr₂ x (mem_of_mem_filter hx)
  | intersection i j =>
    obtain ⟨g₁, hg₁, hs⟩ := bind_eq_some_iff.1 hs
    obtain ⟨g₂, hg₂, hs⟩ := bind_eq_some_iff.1 hs
    cases hs
    obtain ⟨hok₁, hr₁⟩ := h.groups g₁ (mem_of_getElem? hg₁)
    obtain ⟨hok₂, -⟩ := h.groups g₂ (mem_of_getElem? hg₂)
    obtain ⟨g₁', g₂', b, hrun, hs₁, hs₂, hdense⟩ := intersectionImpl_spec proc hok₁.wf hok₂.wf
    rw [hrun]
    have hb : ∀ x ∈ g₁.lpids.filter fun x => x ∈ g₂.lpids, x < 2 ^ 31 :=
      fun x hx => hr₁ x (mem_of_mem_filter hx)
    obtain ⟨hfresh, hrange⟩ := @fresh_ok proc _ (hok₁.wf.nodup.filter _) hb
    refine h.pushSetup hg₁ hg₂ hs₁ hs₂ ⟨⟨⟨hfresh.wf.nodup, fun hne => absurd rfl hne,
      hfresh.wf.rank⟩, fun hd k hk => ?_⟩, hrange⟩
    have hk' : k + 1 < (fresh proc.rank (g₁.lpids.filter fun x => x ∈ g₂.lpids)).size := hk
    rw [← length_lpids, fresh_lpids] at hk'
    have hfollow := followEachOther_spec hb (hdense hd).1 k hk'
    rwa [← @fresh_lpids proc.rank (g₁.lpids.filter fun x => x ∈ g₂.lpids)] at hfollow
  | difference i j =>
    obtain ⟨g₁, hg₁, hs⟩ := bind_eq_some_iff.1 hs
    obtain ⟨g₂, hg₂, hs⟩ := bind_eq_some_iff.1 hs
    cases hs
    obtain ⟨hok₁, hr₁⟩ := h.groups g₁ (mem_of_getElem? hg₁)
    obtain ⟨hok₂, -⟩ := h.groups g₂ (mem_of_getElem? hg₂)
    obtain ⟨g₁', g₂', hrun, hs₁, hs₂⟩ := differenceImpl_spec hok₁.wf hok₂.wf
    rw [hrun]
    exact h.pushSetup hg₁ hg₂ hs₁ hs₂
      (fresh_ok (hok₁.wf.nodup.filter _) fun x hx => hr₁ x (mem_of_mem_filter hx))

end runs

/-- Every group that a process makes represents its members rightly, as long as its calls meet
`ActOk`; no call leaves the bounds of an array. -/
theorem group_invariant {proc : Process} {s : St}
    (h : (groupSys proc).ReachWhen (fun _ a => ActOk a) s) :
    s.fault = false ∧ ∀ g ∈ s.groups, GroupOk proc g := by
  have hinit : StOk proc (groupSys proc).init := by
    refine ⟨rfl, fun g hg => ?_⟩
    obtain rfl := mem_singleton.1 hg
    exact empty_ok
  have hok := Sys.ReachWhen.inv (I := StOk proc) hinit (fun _ hi ha hs => hi.step ha hs) h
  exact ⟨hok.fault, fun g hg => (hok.groups g hg).1⟩

def secondOfFour : Process := ⟨4, 1, by decide, by decide⟩

/-- Groups from the set of all processes: ranks in another order, the other ranks, a range and a
union. -/
theorem group_invariant_union :
    ∃ s, (groupSys secondOfFour).ReachWhen (fun _ a => ActOk a) s ∧
      (s.groups.map MpiGroup.lpids) = [[], [0, 1, 2, 3], [3, 1], [0, 2, 3], [3, 1], [3, 1, 0, 2]] ∧
      ∀ g ∈ s.groups, GroupOk secondOfFour g := by
  have h₁ := Sys.ReachWhen.step (a := Act.world) (Sys.ReachWhen.init (M := groupSys secondOfFour)
    (C := fun _ a => ActOk a)) trivial rfl
  have h₂ := Sys.ReachWhen.step (a := Act.incl 1 [3, 1]) h₁
    (by decide : ([3, 1] : List Int).Nodup) rfl
  have h₃ := Sys.ReachWhen.step (a := Act.excl 1 [1]) h₂ (by decide : ([1] : List Int).Nodup) rfl
  have h₄ := Sys.ReachWhen.step (a := Act.rangeIncl 1 [⟨3, 0, -2, by decide, by decide, by decide⟩]) h₃
    (forall_mem_singleton.2 ⟨⟨by decide, by decide⟩, by unfold Range.Ends; decide⟩) rfl
  have h₅ := Sys.ReachWhen.step (a := Act.union 4 3) h₄ trivial rfl
  exact ⟨_, h₅, by decide, (group_invariant h₅).2⟩

/-- Repeated ranks are accepted, so that a group has a member twice or an array is left, and the
links of the group of a process set lead out of it. -/
theorem group_invariant_fails :
    (¬ ∀ s, (groupSys secondOfFour).Reach s → s.fault = false) ∧
    (¬ ∀ s, (groupSys secondOfFour).Reach s → ∀ g ∈ s.groups, g.lpids.Nodup) ∧
    (¬ ∀ s, (groupSys secondOfFour).Reach s → ∀ g ∈ s.groups, g.idxOfFirstLpid ≠ -1 →
      g.InOrder) := by
  have hworld := Sys.ReachWhen.step (a := Act.world) (Sys.ReachWhen.init
    (M := groupSys secondOfFour) (C := fun _ _ => True)) trivial rfl
  refine ⟨fun h => ?_, fun h => ?_, fun h => ?_⟩
  · have hexcl := Sys.ReachWhen.step (a := Act.excl 1 [0, 0]) hworld trivial rfl
    exact absurd (h _ hexcl) (by decide)
  · have hincl := Sys.ReachWhen.step (a := Act.incl 1 [0, 0]) hworld trivial rfl
    have hnd := h _ hincl (fresh 1 [0, 0]) (by decide)
    exact absurd hnd (by decide)
  · have hpset := Sys.ReachWhen.step (a := Act.pset ⟨[1, 3], by decide, by decide, by decide⟩)
      (Sys.ReachWhen.init (M := groupSys secondOfFour) (C := fun _ _ => True)) trivial rfl
    obtain ⟨l, hfol, hperm, -⟩ := h _ hpset ⟨0, 0, [⟨1, 3⟩, ⟨3, -1⟩], false⟩ (by decide)
      (by decide)
    -- the first link leads to the entry with index three
    have hlen := hperm.length_eq
    match l, hlen, hfol with
    | [m, n], _, ⟨h0, j, hj, h1, k, hk, _⟩ =>
      obtain rfl : m = 0 := (Int.ofNat.inj h0).symm
      obtain rfl : 3 = j := Option.some.inj hj
      obtain rfl : n = 3 := (Int.ofNat.inj h1).symm
      cases hk

end PsMpi.Groups
