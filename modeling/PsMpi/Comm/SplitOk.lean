import PsMpi.Comm.Split
import Mathlib.Data.List.Nodup
import Mathlib.Data.List.Induction

/-!
# Every process computes the same split
-/

open List Option

namespace PsMpi.Comm

def keyAt (table : List Splittype) (i : Nat) : Int := (table.map Splittype.key).getD i 0

def colorRanks (table : List Splittype) (color : Int) : List Nat :=
  (List.range table.length).filter fun i => table[i]?.map Splittype.color = some color

/-- A rank is before another by its key, or by the rank if the keys are equal. -/
def Before (table : List Splittype) (i j : Nat) : Prop :=
  keyAt table i < keyAt table j ∨ (keyAt table i = keyAt table j ∧ i < j)

instance (table : List Splittype) (i j : Nat) : Decidable (Before table i j) :=
  inferInstanceAs (Decidable (_ ∨ _))

structure KeyOrder (table : List Splittype) (color : Int) (ranks : List Nat) : Prop where
  perm : ranks.Perm (colorRanks table color)
  sorted : ranks.Pairwise (Before table)

/-! ## The chain of a color -/

/-- The entries that the colors lead to, from a first index on; where the last one leads does not
matter. -/
def Leads (table : List Splittype) : Int → List Nat → Prop
  | _, [] => True
  | first, m :: ms => first = m ∧ ∃ e, table[m]? = some e ∧ Leads table e.color ms

section chain

variable {table : List Splittype} {first color : Int}

theorem Leads.snoc {ms : List Nat} {k i : Nat} (h : Leads table first (ms ++ [k])) (hk : k ∉ ms)
    (hi : i < table.length) (hne : i ≠ k) :
    Leads (table.modify k fun e => { e with color := i }) first (ms ++ [k, i]) := by
  induction ms generalizing first with
  | nil =>
    obtain ⟨hfirst, e, he, -⟩ := h
    refine ⟨hfirst, { e with color := i }, ?_, rfl, table[i], ?_, trivial⟩
    · rw [List.getElem?_modify_eq, he]
      rfl
    · rw [List.getElem?_modify_ne _ _ (Ne.symm hne), List.getElem?_eq_getElem hi]
  | cons m ms ih =>
    obtain ⟨hfirst, e, he, hrest⟩ := h
    rw [mem_cons, not_or] at hk
    refine ⟨hfirst, e, ?_, ih hrest hk.2⟩
    rw [List.getElem?_modify_ne _ _ hk.1, he]

theorem fillKeytable_spec {ms : List Nat} (h : Leads table first ms) :
    fillKeytable table ms.length first = some (ms.map fun m => ⟨m, keyAt table m, 0⟩) := by
  induction ms generalizing first with
  | nil => rfl
  | cons m ms ih =>
    obtain ⟨rfl, e, he, hrest⟩ := h
    have hkey : keyAt table m = e.key := by
      rw [keyAt, getD_eq_getElem?_getD, List.getElem?_map, he]
      rfl
    rw [length_cons, fillKeytable, if_pos (Int.natCast_nonneg m), Int.toNat_natCast, he]
    simp only [Option.bind_eq_bind, Option.bind_some, ih hrest, map_cons, hkey]
    rfl

structure ChainOk (table : List Splittype) (color : Int) (n : Nat) (c : Chain) : Prop where
  ranks : ∃ ms, ms = (List.range n).filter (fun i => table[i]?.map Splittype.color = some color) ∧
    c.size = ms.length ∧ c.last = ms.getLast? ∧ Leads c.table c.first ms
  keys : c.table.map Splittype.key = table.map Splittype.key
  rest : ∀ k, n ≤ k → c.table[k]? = table[k]?

theorem ChainOk.step {n : Nat} {c : Chain} (h : ChainOk table color n c) (hn : n < table.length) :
    ∃ c', chainStep color c n = some c' ∧ ChainOk table color (n + 1) c' := by
  obtain ⟨ms, hms, hsize, hlast, hleads⟩ := h.ranks
  have hlen : c.table.length = table.length := by simpa using congrArg List.length h.keys
  have hget : c.table[n]? = some table[n] := by
    rw [h.rest n (Nat.le_refl _), List.getElem?_eq_getElem hn]
  rw [chainStep, hget]
  refine ⟨_, rfl, ?_⟩
  have hrange : (List.range (n + 1)).filter
        (fun i => table[i]?.map Splittype.color = some color) =
      if table[n].color = color then ms ++ [n] else ms := by
    rw [range_succ, filter_append, ← hms]
    by_cases hc : table[n].color = color <;> simp [hn, hc]
  have hrest : ∀ k, n + 1 ≤ k → c.table[k]? = table[k]? := fun k hk => h.rest k (by omega)
  by_cases hc : table[n].color = color
  · rw [if_pos hc, Chain.link]
    rw [if_pos hc] at hrange
    rcases eq_nil_or_concat ms with rfl | ⟨ms', k, rfl⟩
    · rw [hlast]
      exact ⟨⟨_, hrange.symm, by simp [hsize], rfl, rfl, _, hget, trivial⟩, h.keys, hrest⟩
    · rw [concat_eq_append] at *
      rw [hlast, List.getLast?_concat]
      have hlt : k < n := by
        have hmem : k ∈ ms' ++ [k] := mem_append_right _ mem_cons_self
        rw [hms] at hmem
        exact mem_range.1 (mem_of_mem_filter hmem)
      have hnd : (ms' ++ [k]).Nodup := hms ▸ nodup_range.filter _
      have hk : k ∉ ms' := fun hm =>
        (nodup_append'.1 hnd).2.2 hm mem_cons_self
      refine ⟨⟨_, hrange.symm, by simp [hsize], by simp, ?_⟩, ?_, fun j hj => ?_⟩
      · have := hleads.snoc hk (hlen ▸ hn) (Nat.ne_of_gt hlt)
        rwa [append_assoc]
      · rw [← h.keys]
        refine List.ext_getElem? fun j => ?_
        rw [List.getElem?_map, List.getElem?_map, List.getElem?_modify]
        cases c.table[j]? with
        | none => rfl
        | some e =>
          simp only [map_some]
          split <;> rfl
      · show (c.table.modify k _)[j]? = _
        rw [List.getElem?_modify_ne _ _ (by omega)]
        exact hrest j hj
  · rw [if_neg hc]
    rw [if_neg hc] at hrange
    exact ⟨⟨ms, hrange.symm, hsize, hlast, hleads⟩, h.keys, hrest⟩

theorem chainColor_spec (table : List Splittype) (color : Int) :
    ∃ c, chainColor color table = some c ∧ c.size = (colorRanks table color).length ∧
      fillKeytable c.table c.size c.first =
        some ((colorRanks table color).map fun m => ⟨m, keyAt table m, 0⟩) := by
  have hscan : ∀ n, n ≤ table.length → ∃ c,
      (List.range n).foldlM (chainStep color) ⟨table, 0, none, 0⟩ = some c ∧
        ChainOk table color n c := by
    intro n hn
    induction n with
    | zero => exact ⟨_, rfl, ⟨[], rfl, rfl, rfl, trivial⟩, rfl, fun _ _ => rfl⟩
    | succ n ih =>
      obtain ⟨c, hrun, hok⟩ := ih (by omega)
      obtain ⟨c', hstep, hok'⟩ := hok.step hn
      refine ⟨c', ?_, hok'⟩
      rw [range_succ, foldlM_append, hrun]
      simp only [Option.bind_eq_bind, Option.bind_some, foldlM_cons, hstep]
      rfl
  obtain ⟨c, hrun, hok⟩ := hscan table.length (Nat.le_refl _)
  obtain ⟨ms, rfl, hsize, -, hleads⟩ := hok.ranks
  refine ⟨c, hrun, hsize, ?_⟩
  rw [hsize, fillKeytable_spec hleads]
  unfold keyAt
  rw [hok.keys]
  rfl

end chain

/-! ## Sorting -/

/-- An entry is before another by its key, or by the rank if the keys are equal. -/
def EntryBefore (a b : Sorttype) : Prop := a.key < b.key ∨ (a.key = b.key ∧ a.color < b.color)

section sorting

variable {tmp : Sorttype}

theorem shiftLoop_spec (p q : List Sorttype) (y : Sorttype) :
    ∃ p₁ p₂ y', p = p₁ ++ p₂ ∧
      shiftLoop tmp p.length (p ++ y :: q) = some (p₁ ++ y' :: (p₂ ++ q), p₁.length) ∧
      (∀ e ∈ p₂, tmp.key < e.key) ∧ ∀ e ∈ p₁.getLast?, e.key ≤ tmp.key := by
  induction p using List.reverseRecOn generalizing q y with
  | nil => exact ⟨[], [], y, rfl, rfl, by simp, by simp⟩
  | append_singleton p e ih =>
    rw [length_append, length_singleton, append_assoc, singleton_append,
      shiftLoop, List.getElem?_append_right (Nat.le_refl _), Nat.sub_self, List.getElem?_cons_zero]
    simp only [Option.bind_eq_bind, Option.bind_some]
    by_cases hlt : tmp.key < e.key
    · rw [if_pos hlt]
      obtain ⟨p₁, p₂, y', rfl, hrun, hgt, hle⟩ := ih (e :: q) e
      refine ⟨p₁, p₂ ++ [e], y', append_assoc _ _ _, ?_, ?_, hle⟩
      · rw [set_append_right _ _ (Nat.le_succ _), Nat.succ_sub (Nat.le_refl _), Nat.sub_self,
          set_cons_succ, set_cons_zero, hrun, append_assoc p₂, singleton_append]
      · exact forall_mem_append.2 ⟨hgt, forall_mem_singleton.2 hlt⟩
    · rw [if_neg hlt]
      refine ⟨p ++ [e], [], y, by simp, by simp, by simp, ?_⟩
      rw [List.getLast?_concat]
      rintro _ ⟨⟩
      exact Int.not_lt.1 hlt

theorem insertEntry_spec {p : List Sorttype} {x : Sorttype} (q : List Sorttype)
    (hp : p.Pairwise EntryBefore) (hx : ∀ e ∈ p, e.color < x.color) :
    ∃ p', insertEntry (p ++ x :: q) p.length = some (p' ++ q) ∧ p'.Perm (p ++ [x]) ∧
      p'.Pairwise EntryBefore := by
  obtain ⟨p₁, p₂, y, rfl, hrun, hgt, hle⟩ := @shiftLoop_spec x p q x
  refine ⟨p₁ ++ x :: p₂, ?_, ?_, ?_⟩
  · rw [insertEntry, List.getElem?_append_right (Nat.le_refl _), Nat.sub_self,
      List.getElem?_cons_zero]
    simp only [Option.bind_eq_bind, Option.bind_some, hrun]
    rw [set_append_right _ _ (Nat.le_refl _), Nat.sub_self, set_cons_zero,
      append_assoc, cons_append]
    rfl
  · rw [append_assoc]
    exact (perm_append_left_iff _).2 (perm_append_singleton x p₂).symm
  · obtain ⟨h₁, h₂, h₁₂⟩ := pairwise_append.1 hp
    have hbefore : ∀ a ∈ p₁, EntryBefore a x := by
      intro a ha
      have hcolor := hx a (mem_append_left _ ha)
      -- the key of an entry is at most that of the last one that stays
      obtain ⟨p₀, l, rfl⟩ : ∃ p₀ l, p₁ = p₀ ++ [l] :=
        ⟨_, _, (dropLast_append_getLast (ne_nil_of_mem ha)).symm⟩
      have hlast := hle l (by rw [List.getLast?_concat]; rfl)
      rcases mem_append.1 ha with ha | ha
      · have := (pairwise_append.1 h₁).2.2 a ha l mem_cons_self
        unfold EntryBefore at this ⊢
        omega
      · obtain rfl := mem_singleton.1 ha
        unfold EntryBefore
        omega
    refine pairwise_append.2 ⟨h₁, List.pairwise_cons.2 ⟨fun e he => .inl (hgt e he), h₂⟩, ?_⟩
    intro a ha b hb
    rcases mem_cons.1 hb with rfl | hb
    · exact hbefore a ha
    · exact h₁₂ a ha b hb

theorem insertionSort_spec (p q : List Sorttype) (hp : p.Pairwise EntryBefore)
    (hq : q.Pairwise fun a b => a.color < b.color) (hpq : ∀ a ∈ p, ∀ b ∈ q, a.color < b.color) :
    ∃ r, (List.range' p.length q.length).foldlM insertEntry (p ++ q) = some r ∧ r.Perm (p ++ q) ∧
      r.Pairwise EntryBefore := by
  induction q generalizing p with
  | nil => exact ⟨p, by simp, by simp, hp⟩
  | cons x q ih =>
    obtain ⟨hx, hq⟩ := List.pairwise_cons.1 hq
    obtain ⟨p', hrun, hperm, hp'⟩ := insertEntry_spec q hp fun e he => hpq e he x mem_cons_self
    have hlen : p'.length = p.length + 1 := by simpa using hperm.length_eq
    obtain ⟨r, hrest, hperm', hr⟩ := ih p' hp' hq fun a ha b hb => by
      rcases mem_append.1 (hperm.mem_iff.1 ha) with ha | ha
      · exact hpq a ha b (mem_cons_of_mem _ hb)
      · obtain rfl := mem_singleton.1 ha
        exact hx b hb
    refine ⟨r, ?_, ?_, hr⟩
    · rw [length_cons, range'_succ, foldlM_cons, hrun, ← hlen]
      exact hrest
    · refine hperm'.trans ?_
      have := hperm.append_right q
      rwa [append_assoc, singleton_append] at this

theorem sortInttable_spec (qsort : Option Qsort) {keytable : List Sorttype}
    (hcolor : keytable.Pairwise fun a b => a.color < b.color) :
    ∃ r, sortInttable qsort keytable = some r ∧
      (r.map fun e => (e.color, e.key)).Perm (keytable.map fun e => (e.color, e.key)) ∧
      r.Pairwise EntryBefore := by
  cases qsort with
  | none =>
    cases keytable with
    | nil => exact ⟨[], rfl, .refl _, .nil⟩
    | cons a q =>
      obtain ⟨ha, hq⟩ := List.pairwise_cons.1 hcolor
      obtain ⟨r, hrun, hperm, hr⟩ := insertionSort_spec [a] q (List.pairwise_singleton _ _) hq
        (by simpa using ha)
      exact ⟨r, hrun, hperm.map _, hr⟩
  | some q =>
    have hperm := q.perm (setOrigIdx keytable)
    have hpairs : (setOrigIdx keytable).map (fun e => (e.color, e.key)) =
        keytable.map fun e => (e.color, e.key) := by
      refine List.ext_getElem? fun i => ?_
      simp only [setOrigIdx, List.getElem?_map, List.getElem?_mapIdx, Option.map_map]
      rfl
    refine ⟨_, rfl, hpairs ▸ hperm.map _, ?_⟩
    -- the indices ascend with the ranks, so that equal keys are sorted by rank
    have hidx : ∀ a ∈ setOrigIdx keytable, ∀ b ∈ setOrigIdx keytable,
        sorttypeCompare a b ≤ 0 → a ≠ b → EntryBefore a b := by
      intro a ha b hb hle hne
      obtain ⟨i, hi, rfl⟩ := List.mem_iff_getElem.1 ha
      obtain ⟨j, hj, rfl⟩ := List.mem_iff_getElem.1 hb
      have hij : i ≠ j := fun h => hne (by simp only [h])
      simp only [setOrigIdx, List.length_mapIdx] at hi hj
      simp only [setOrigIdx, List.getElem_mapIdx, sorttypeCompare, EntryBefore] at hle ⊢
      split at hle
      · omega
      · split at hle
        · next h => exact .inl h
        · split at hle
          · omega
          · have hlt : i < j := by omega
            exact .inr ⟨by omega, List.pairwise_iff_getElem.1 hcolor i j hi hj hlt⟩
    have hnd : (q.run (setOrigIdx keytable)).Nodup := by
      rw [hperm.nodup_iff]
      refine List.Nodup.of_map (fun e => (e.color, e.key)) ?_
      rw [hpairs]
      refine List.pairwise_map.2 (hcolor.imp fun h heq => ?_)
      have := congrArg Prod.fst heq
      simp only at this
      omega
    exact ((q.sorted _).and hnd).imp_of_mem fun ha hb h =>
      hidx _ (hperm.mem_iff.1 ha) _ (hperm.mem_iff.1 hb) h.1 h.2

end sorting

/-! ## The split -/

section split

variable {table remotetable : List Splittype} {color : Int}

theorem colorRanks_sorted : (colorRanks table color).Pairwise (· < ·) :=
  pairwise_lt_range.filter _

theorem mem_colorRanks {i : Nat} :
    i ∈ colorRanks table color ↔ table[i]?.map Splittype.color = some color := by
  rw [colorRanks, mem_filter, mem_range, decide_eq_true_iff, and_iff_right_iff_imp]
  intro h
  obtain ⟨e, he, -⟩ := map_eq_some_iff.1 h
  exact (List.getElem?_eq_some_iff.1 he).1

theorem KeyOrder.unique {ranks ranks' : List Nat} (h : KeyOrder table color ranks)
    (h' : KeyOrder table color ranks') : ranks = ranks' := by
  refine (h.perm.trans h'.perm.symm).eq_of_pairwise (fun i j _ _ hij hji => ?_) h.sorted h'.sorted
  unfold Before at hij hji
  omega

theorem sortedRanks_spec (qsort : Option Qsort) {c : Chain}
    (hfill : fillKeytable c.table c.size c.first =
      some ((colorRanks table color).map fun m : Nat => ⟨m, keyAt table m, 0⟩)) :
    ∃ ranks, sortedRanks qsort c = some (ranks.map Int.ofNat) ∧ KeyOrder table color ranks := by
  have hcolor : ((colorRanks table color).map fun m : Nat => (⟨m, keyAt table m, 0⟩ : Sorttype)).Pairwise
      fun a b => a.color < b.color :=
    List.pairwise_map.2 (colorRanks_sorted.imp fun h => Int.ofNat_lt.2 h)
  obtain ⟨r, hrun, hperm, hsorted⟩ := sortInttable_spec qsort hcolor
  rw [List.map_map] at hperm
  have hentry : ∀ e ∈ r, ((e.color.toNat : Nat) : Int) = e.color ∧
      e.key = keyAt table e.color.toNat := by
    intro e he
    have hmem := hperm.mem_iff.1 (List.mem_map_of_mem (f := fun e => (e.color, e.key)) he)
    obtain ⟨m, -, hm⟩ := List.mem_map.1 hmem
    obtain ⟨hc, hk⟩ := Prod.mk.inj hm
    rw [← hc, ← hk]
    exact ⟨rfl, rfl⟩
  refine ⟨r.map fun e => e.color.toNat, ?_, ?_, ?_⟩
  · rw [sortedRanks, hfill]
    simp only [Option.bind_eq_bind, Option.bind_some, hrun, List.map_map]
    exact congrArg some (List.map_congr_left fun e he => (hentry e he).1.symm)
  · have := hperm.map fun x : Int × Int => x.1.toNat
    rw [List.map_map, List.map_map] at this
    refine this.trans (.of_eq ?_)
    exact List.map_id _
  · refine List.pairwise_map.2 (hsorted.imp_of_mem fun {a b} ha hb h => ?_)
    obtain ⟨hca, hka⟩ := hentry a ha
    obtain ⟨hcb, hkb⟩ := hentry b hb
    unfold EntryBefore at h
    unfold Before
    rw [← hka, ← hkb]
    omega

theorem findRank_spec {ranks : List Nat} {rank : Nat} (hnd : ranks.Nodup) (hmem : rank ∈ ranks) :
    findRank rank (ranks.map Int.ofNat) = some (ranks.idxOf rank) := by
  have hlt := idxOf_lt_length_of_mem hmem
  have hiff : ∀ i, i < ranks.length → ((ranks.map Int.ofNat)[i]? = some (rank : Int) ↔
      i = ranks.idxOf rank) := by
    intro i hi
    rw [List.getElem?_map, List.getElem?_eq_getElem hi, map_some, some_inj]
    constructor
    · intro h
      have heq : ranks[i] = rank := Int.ofNat.inj h
      rw [← heq, hnd.idxOf_getElem]
    · rintro rfl
      exact congrArg Int.ofNat (getElem_idxOf hlt)
  have hfilter : (List.range ranks.length).filter
      (fun i => (ranks.map Int.ofNat)[i]? = some (rank : Int)) = [ranks.idxOf rank] := by
    rw [filter_congr (q := fun i => decide (i = ranks.idxOf rank)) fun i hi => by
      simp only [hiff i (mem_range.1 hi)]]
    rw [filter_eq]
    rw [count_eq_one_of_mem nodup_range (mem_range.2 hlt)]
    rfl
  rw [findRank, length_map, hfilter]
  rfl

end split

/-- What a process of a color obtains if the members of the color are `ranks` in its group and
`remotes` in the remote one. -/
def obtained (comm : CommPtr) (color : Int) (ranks remotes : List Nat)
    (newContextId remoteContextId : Nat) : Option Newcomm :=
  match comm.commKind with
  | .intracomm =>
    if color ≠ undefined then
      some ⟨newContextId, newContextId, ranks.length, ranks.length, .intracomm,
        some (ranks.idxOf comm.rank), ranks.map Int.ofNat, [], none⟩
    else none
  | .intercomm =>
    if color ≠ undefined ∧ remotes ≠ [] then
      some ⟨newContextId, remoteContextId, ranks.length, remotes.length, .intercomm,
        some (ranks.idxOf comm.rank), ranks.map Int.ofNat, remotes.map Int.ofNat,
        some comm.isLowGroup⟩
    else none

theorem splitImpl_spec {table remotetable : List Splittype} {color : Int} {ranks remotes : List Nat}
    (hranks : KeyOrder table color ranks) (hremotes : KeyOrder remotetable color remotes)
    (qsort : Option Qsort) (comm : CommPtr) (getContextid : Bool → Nat) (remoteContextId : Nat)
    (hown : table[comm.rank]?.map Splittype.color = some color) :
    ∃ freed, splitImpl qsort comm table remotetable color getContextid remoteContextId =
      some (obtained comm color ranks remotes (getContextid false) remoteContextId, freed) := by
  have hmem : comm.rank ∈ ranks := hranks.perm.mem_iff.2 (mem_colorRanks.2 hown)
  have hpos : 0 < ranks.length := length_pos_of_mem hmem
  have hnd : ranks.Nodup := hranks.perm.nodup_iff.2 (nodup_range.filter _)
  obtain ⟨c, hc, hsize, hfill⟩ := chainColor_spec table color
  obtain ⟨rc, hrc, hrsize, hrfill⟩ := chainColor_spec remotetable color
  obtain ⟨ranks', hsorted, hranks'⟩ := sortedRanks_spec qsort hfill
  obtain ⟨remotes', hrsorted, hremotes'⟩ := sortedRanks_spec qsort hrfill
  obtain rfl := hranks.unique hranks'
  obtain rfl := hremotes.unique hremotes'
  rw [← hranks.perm.length_eq] at hsize
  rw [← hremotes.perm.length_eq] at hrsize
  have hfind := findRank_spec hnd hmem
  unfold splitImpl localChain
  by_cases hcolor : color = undefined
  · -- no communicator, whatever the kind
    subst hcolor
    rw [if_neg (not_not.2 rfl)]
    cases hk : comm.commKind with
    | intracomm => simp [remoteChain, obtained, hk]
    | intercomm => simp [remoteChain, hrc, obtained, hk]
  · rw [if_pos hcolor, hc]
    cases hk : comm.commKind with
    | intracomm =>
      simp [remoteChain, hcolor, obtained, hk, hsize, hpos, makeNewcomm, hsorted, hfind]
    | intercomm =>
      by_cases hremote : remotes = []
      · have hzero : rc.size = 0 := by rw [hrsize, hremote]; rfl
        simp [remoteChain, hrc, hcolor, obtained, hk, hremote, hzero]
      · have hrpos : 0 < remotes.length := length_pos_iff.2 hremote
        simp [remoteChain, hrc, hcolor, obtained, hk, hremote, hrpos, makeNewcomm, hsorted,
          hrsorted, hfind, hsize, hrsize]

theorem exists_keyOrder (table : List Splittype) (color : Int) :
    ∃ ranks, KeyOrder table color ranks := by
  obtain ⟨c, -, -, hfill⟩ := chainColor_spec table color
  obtain ⟨ranks, -, h⟩ := sortedRanks_spec none hfill
  exact ⟨ranks, h⟩

/-- Every process of a color obtains a communicator of the processes of the color in its group, and
in the remote group of an intercommunicator, in the same order of key and rank, with its own place as
its rank, whether it sorts by `qsort` or by insertion. It obtains none if the color is undefined, or
the remote group has no process of the color. The same holds for the processes of the remote group,
with the groups exchanged. -/
theorem comm_split_agreed (table remotetable : List Splittype) (color : Int) :
    ∃ ranks remotes, KeyOrder table color ranks ∧ KeyOrder remotetable color remotes ∧
      (∀ (qsort : Option Qsort) (comm : CommPtr) (getContextid : Bool → Nat) (remoteContextId : Nat),
        table[comm.rank]?.map Splittype.color = some color →
        ∃ freed, splitImpl qsort comm table remotetable color getContextid remoteContextId =
          some (obtained comm color ranks remotes (getContextid false) remoteContextId, freed)) ∧
      (∀ (qsort : Option Qsort) (comm : CommPtr) (getContextid : Bool → Nat) (remoteContextId : Nat),
        remotetable[comm.rank]?.map Splittype.color = some color →
        ∃ freed, splitImpl qsort comm remotetable table color getContextid remoteContextId =
          some (obtained comm color remotes ranks (getContextid false) remoteContextId, freed)) := by
  obtain ⟨ranks, hranks⟩ := exists_keyOrder table color
  obtain ⟨remotes, hremotes⟩ := exists_keyOrder remotetable color
  exact ⟨ranks, remotes, hranks, hremotes, splitImpl_spec hranks hremotes,
    splitImpl_spec hremotes hranks⟩

/-- Two processes of each group of an intercommunicator have the color 7; one sorts by insertion. -/
theorem comm_split_agreed_intercomm :
    splitImpl none ⟨.intercomm, 2, true⟩ [⟨7, 5⟩, ⟨3, 0⟩, ⟨7, 5⟩] [⟨7, 1⟩, ⟨undefined, 0⟩, ⟨7, 0⟩] 7
        (fun _ => 20) 30 =
      some (some ⟨20, 30, 2, 2, .intercomm, some 1, [0, 2], [2, 0], some true⟩, false) := by
  obtain ⟨ranks, remotes, hranks, hremotes, hlocal, -⟩ := comm_split_agreed
    [⟨7, 5⟩, ⟨3, 0⟩, ⟨7, 5⟩] [⟨7, 1⟩, ⟨undefined, 0⟩, ⟨7, 0⟩] 7
  obtain rfl : ranks = [0, 2] := hranks.unique ⟨.refl _, by decide⟩
  obtain rfl : remotes = [2, 0] := hremotes.unique ⟨by decide, by decide⟩
  obtain ⟨freed, hrun⟩ := hlocal none ⟨.intercomm, 2, true⟩ (fun _ => 20) 30 rfl
  obtain rfl : freed = false := by
    have := congrArg (fun r => r.map Prod.snd) hrun
    exact (Option.some.inj (this.symm.trans rfl))
  exact hrun

end PsMpi.Comm
