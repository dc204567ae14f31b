import PsMpi.Group.OpsOk
import Mathlib.Data.List.Forall2

/-!
# Ranks of a group in another group

See `MPIR_Group_translate_ranks_impl` (`mpich2/src/mpi/group/group_impl.c:469`).
-/

open List Option

namespace PsMpi.Groups

open PsMpi.Lib

/-- `MPI_PROC_NULL` (`mpi.h.in`). -/
def procNull : Int := -1

/-- `MPIR_Group_translate_ranks_impl` (:531). -/
def noLpid : Nat := 2 ^ 64 - 1

/-- Line 526. -/
def seekLpid : Nat → List Pmap → Nat → Int → Nat → Option (Int × Nat)
  | 0, _, _, _, _ => none
  | fuel + 1, a, l1Pid, g2Idx, l2Pid =>
    if 0 ≤ g2Idx ∧ l2Pid < l1Pid then do
      let e ← entryAt a g2Idx
      if 0 ≤ e.nextLpid then do
        let e' ← entryAt a e.nextLpid
        seekLpid fuel a l1Pid e.nextLpid e'.lpid
      else seekLpid fuel a l1Pid e.nextLpid noLpid
    else some (g2Idx, l2Pid)

/-- Line 521. -/
def startOver (g₂ : MpiGroup) (l1Pid : Nat) (g2Idx : Int) (l2Pid : Nat) : Option (Int × Nat) :=
  if l1Pid < l2Pid ∨ g2Idx < 0 then do
    let e ← entryAt g₂.lrankToLpid g₂.idxOfFirstLpid
    return (g₂.idxOfFirstLpid, e.lpid)
  else some (g2Idx, l2Pid)

/-- Line 511. -/
def searchLpids (g₁ g₂ : MpiGroup) : List Int → Int → Nat → Option (List Int)
  | [], _, _ => some []
  | rank :: ranks, g2Idx, l2Pid =>
    if rank = procNull then do
      let ranks2 ← searchLpids g₁ g₂ ranks g2Idx l2Pid
      return procNull :: ranks2
    else do
      let e ← entryAt g₁.lrankToLpid rank
      let (g2Idx, l2Pid) ← startOver g₂ e.lpid g2Idx l2Pid
      let (g2Idx, l2Pid) ← seekLpid (g₂.size + 1) g₂.lrankToLpid e.lpid g2Idx l2Pid
      let ranks2 ← searchLpids g₁ g₂ ranks g2Idx l2Pid
      return (if e.lpid = l2Pid then g2Idx else undefined) :: ranks2

/-- Line 487. -/
def denseRank (g₁ g₂ : MpiGroup) (rank : Int) : Option Int :=
  if rank = procNull then some procNull
  else do
    let first ← entryAt g₂.lrankToLpid 0
    let e ← entryAt g₁.lrankToLpid rank
    let d := (e.lpid + 2 ^ 64 - first.lpid) % 2 ^ 64
    return if d < g₂.size then (d : Int) else undefined

/-- Line 469. -/
def translateRanksImpl (g₁ : MpiGroup) (ranks : List Int) (g₂ : MpiGroup) :
    Option (MpiGroup × List Int) :=
  if 0 < g₂.size ∧ g₂.isLocalDenseMonotonic = true then do
    let ranks2 ← ranks.mapM (denseRank g₁ g₂)
    return (g₂, ranks2)
  else do
    let g₂ ← needLpidList g₂
    if 0 ≤ g₂.idxOfFirstLpid then
      let e ← entryAt g₂.lrankToLpid g₂.idxOfFirstLpid
      let ranks2 ← searchLpids g₁ g₂ ranks g₂.idxOfFirstLpid e.lpid
      return (g₂, ranks2)
    else return (g₂, ranks.map fun _ => undefined)

section search

variable {a : List Pmap} {key : Nat → Nat} {g2Idx : Int} {l : List Nat} {x : Nat}

def headLpid (key : Nat → Nat) : List Nat → Nat
  | [] => noLpid
  | n :: _ => key n

theorem seekLpid_spec (fuel : Nat) (hk : KeyOf a key) (h : Follows (links id a) g2Idx l)
    (hf : l.length < fuel) :
    ∃ idx', seekLpid fuel a x g2Idx (headLpid key l) =
        some (idx', headLpid key (l.dropWhile (key · < x))) ∧
      Follows (links id a) idx' (l.dropWhile (key · < x)) := by
  induction l generalizing fuel g2Idx with
  | nil =>
    obtain ⟨fuel, rfl⟩ := Nat.exists_eq_succ_of_ne_zero (Nat.ne_of_gt hf)
    obtain rfl : g2Idx = -1 := h
    exact ⟨-1, by rw [seekLpid, if_neg fun hno => absurd hno.1 (by decide)]; rfl, rfl⟩
  | cons n l ih =>
    obtain ⟨fuel, rfl⟩ := Nat.exists_eq_succ_of_ne_zero (Nat.ne_of_gt (Nat.zero_lt_of_lt hf))
    by_cases hlt : key n < x
    · obtain ⟨e, he, -, -, hl⟩ := entryAt_of_follows h
      have hl : Follows (links id a) e.nextLpid l := hl
      obtain ⟨idx', hrun, hfol⟩ := ih fuel hl (Nat.lt_of_succ_lt_succ hf)
      rw [dropWhile_cons_of_pos (by simpa using hlt)]
      refine ⟨idx', ?_, hfol⟩
      rw [seekLpid, if_pos ⟨h.nonneg_iff.2 (cons_ne_nil _ _), hlt⟩, he]
      simp only [bind_eq_bind, bind_some]
      cases l with
      | nil =>
        obtain hend : e.nextLpid = -1 := hl
        rw [if_neg (by omega)]
        exact hrun
      | cons m l =>
        obtain ⟨e', he', -, hget', -⟩ := entryAt_of_follows hl
        rw [if_pos (hl.nonneg_iff.2 (cons_ne_nil _ _)), he', bind_some, hk m e' hget']
        exact hrun
    · rw [dropWhile_cons_of_neg (by simpa using hlt)]
      exact ⟨g2Idx, by rw [seekLpid, if_neg fun hno => hlt hno.2], h⟩

theorem dropWhile_of_mem (hs : l.Pairwise fun i j => key i ≤ key j) (hx : x ∈ l.map key) :
    ∃ n l', l.dropWhile (key · < x) = n :: l' ∧ key n = x := by
  induction l with
  | nil => exact absurd hx not_mem_nil
  | cons n l ih =>
    obtain ⟨hn, hl⟩ := pairwise_cons.1 hs
    rw [map_cons, mem_cons] at hx
    by_cases hlt : key n < x
    · rw [dropWhile_cons_of_pos (by simpa using hlt)]
      exact ih hl (hx.resolve_left (Nat.ne_of_gt hlt))
    · rw [dropWhile_cons_of_neg (by simpa using hlt)]
      refine ⟨n, l, rfl, ?_⟩
      rcases hx with rfl | h
      · rfl
      · obtain ⟨m, hm, rfl⟩ := mem_map.1 h
        exact Nat.le_antisymm (hn m hm) (Nat.not_lt.1 hlt)

theorem dropWhile_of_not_mem (hx : x ∉ l.map key) :
    l.dropWhile (key · < x) = [] ∨ ∃ n l', l.dropWhile (key · < x) = n :: l' ∧ x < key n := by
  cases hl : l.dropWhile (key · < x) with
  | nil => exact .inl rfl
  | cons n l' =>
    refine .inr ⟨n, l', rfl, ?_⟩
    have hge : ¬ key n < x := by
      have := List.head?_dropWhile_not (key · < x) l
      rw [hl] at this
      simpa using this
    have hmem : n ∈ l := (dropWhile_sublist _).subset (hl ▸ mem_cons_self)
    exact Nat.lt_of_le_of_ne (Nat.not_lt.1 hge) fun hno => hx (hno ▸ mem_map_of_mem hmem)

theorem startOver_spec {g₂ : MpiGroup} {pre suf : List Nat} {idx : Int}
    (h : Follows (links id g₂.lrankToLpid) g₂.idxOfFirstLpid (pre ++ suf))
    (hs : (pre ++ suf).Pairwise fun i j => g₂.lpidAt i ≤ g₂.lpidAt j) (hne : pre ++ suf ≠ [])
    (hidx : Follows (links id g₂.lrankToLpid) idx suf) :
    ∃ idx' pre' suf', startOver g₂ x idx (headLpid g₂.lpidAt suf) =
        some (idx', headLpid g₂.lpidAt suf') ∧ pre' ++ suf' = pre ++ suf ∧
      Follows (links id g₂.lrankToLpid) idx' suf' ∧
      (x ∈ suf'.map g₂.lpidAt ↔ x ∈ (pre ++ suf).map g₂.lpidAt) := by
  by_cases hc : x < headLpid g₂.lpidAt suf ∨ idx < 0
  · obtain ⟨n, l, hl⟩ := exists_cons_of_ne_nil hne
    have hfirst := h
    rw [hl] at hfirst
    obtain ⟨e, he, -, hget, -⟩ := entryAt_of_follows hfirst
    refine ⟨g₂.idxOfFirstLpid, [], pre ++ suf, ?_, rfl, h, .rfl⟩
    rw [startOver, if_pos hc, he, hl, headLpid, ← keyOf_lpidAt n e hget]
    rfl
  · refine ⟨idx, pre, suf, by rw [startOver, if_neg hc], rfl, hidx, ?_⟩
    obtain ⟨hle, hpos⟩ := not_or.1 hc
    have hsuf := hidx.nonneg_iff.1 (Int.not_lt.1 hpos)
    obtain ⟨n, l, rfl⟩ := exists_cons_of_ne_nil hsuf
    rw [map_append, mem_append]
    refine ⟨.inr, fun h => h.elim (fun hpre => ?_) id⟩
    -- what is before the place where the search is has no greater id
    obtain ⟨m, hm, rfl⟩ := mem_map.1 hpre
    have hmn := (pairwise_append.1 hs).2.2 m hm n mem_cons_self
    exact mem_map.2 ⟨n, mem_cons_self, Nat.le_antisymm (Nat.not_lt.1 hle) hmn⟩

end search

section translate

variable {g₁ g₂ : MpiGroup} {me : Nat} {ranks : List Int}

def MpiGroup.IsRank (g : MpiGroup) (rank : Int) : Prop := rank = procNull ∨ 0 ≤ rank ∧ rank < g.size

theorem entryAt_of_isRank {rank : Int} (h : g₁.IsRank rank) (hne : rank ≠ procNull) :
    ∃ e, entryAt g₁.lrankToLpid rank = some e ∧ e.lpid = g₁.lpidAt rank.toNat ∧
      e.lpid ∈ g₁.lpids := by
  obtain ⟨h0, hlt⟩ := h.resolve_left hne
  have hn : rank.toNat < g₁.lrankToLpid.length := by
    have : g₁.size = g₁.lrankToLpid.length := rfl
    omega
  have hget := List.getElem?_eq_getElem hn
  exact ⟨_, by rw [entryAt, if_pos h0, hget], keyOf_lpidAt _ _ hget,
    mem_map_of_mem (getElem_mem hn)⟩

/-- What the search finds for a rank: a place of its id, or that there is none. -/
inductive Found (g₁ g₂ : MpiGroup) : Int → Int → Prop where
  | null : Found g₁ g₂ procNull procNull
  | found {r i : Nat} : i < g₂.size → g₂.lpidAt i = g₁.lpidAt r → Found g₁ g₂ r i
  | missing {r : Nat} : g₁.lpidAt r ∉ g₂.lpids → g₁.lpidAt r ≠ noLpid → Found g₁ g₂ r undefined
  | behind {r : Nat} : g₁.lpidAt r ∉ g₂.lpids → g₁.lpidAt r = noLpid → Found g₁ g₂ r (-1)

theorem seekLpid_found {suf : List Nat} {idx : Int} {r : Nat}
    (hb₂ : ∀ x ∈ g₂.lpids, x < 2 ^ 64) (hfol : Follows (links id g₂.lrankToLpid) idx suf)
    (hs : suf.Pairwise fun i j => g₂.lpidAt i ≤ g₂.lpidAt j) (hb : ∀ i ∈ suf, i < g₂.size)
    (hlen : suf.length ≤ g₂.size)
    (hmem : g₁.lpidAt r ∈ suf.map g₂.lpidAt ↔ g₁.lpidAt r ∈ g₂.lpids) :
    ∃ idx' suf', seekLpid (g₂.size + 1) g₂.lrankToLpid (g₁.lpidAt r) idx
        (headLpid g₂.lpidAt suf) = some (idx', headLpid g₂.lpidAt suf') ∧
      Follows (links id g₂.lrankToLpid) idx' suf' ∧
      suf.takeWhile (g₂.lpidAt · < g₁.lpidAt r) ++ suf' = suf ∧
      Found g₁ g₂ r (if g₁.lpidAt r = headLpid g₂.lpidAt suf' then idx' else undefined) := by
  obtain ⟨idx', hseek, hfol'⟩ :=
    @seekLpid_spec _ _ _ _ (g₁.lpidAt r) _ keyOf_lpidAt hfol (Nat.lt_succ_of_le hlen)
  refine ⟨idx', _, hseek, hfol', takeWhile_append_dropWhile, ?_⟩
  by_cases hin : g₁.lpidAt r ∈ g₂.lpids
  · obtain ⟨n, l, hl, hn⟩ := dropWhile_of_mem hs (hmem.2 hin)
    have hsub : n ∈ suf := (dropWhile_sublist _).subset (hl ▸ mem_cons_self)
    rw [hl] at hfol' ⊢
    obtain ⟨rfl, -⟩ := hfol'
    rw [headLpid, if_pos hn.symm]
    exact .found (hb n hsub) hn
  · rcases dropWhile_of_not_mem (mt hmem.1 hin) with hl | ⟨n, l, hl, hn⟩
    · rw [hl] at hfol' ⊢
      obtain rfl : idx' = -1 := hfol'
      rw [headLpid]
      split
      · next hno => exact .behind hin hno
      · next hno => exact .missing hin hno
    · have hsub : n ∈ suf := (dropWhile_sublist _).subset (hl ▸ mem_cons_self)
      have hlt := hb₂ _ (lpidAt_mem (hb n hsub))
      rw [hl, headLpid, if_neg (Nat.ne_of_lt hn)]
      refine .missing hin ?_
      unfold noLpid
      omega

theorem searchLpids_found {pre suf : List Nat} {idx : Int} (hb₂ : ∀ x ∈ g₂.lpids, x < 2 ^ 64)
    (h : Follows (links id g₂.lrankToLpid) g₂.idxOfFirstLpid (pre ++ suf))
    (hperm : (pre ++ suf).Perm (List.range g₂.size))
    (hs : (pre ++ suf).Pairwise fun i j => g₂.lpidAt i ≤ g₂.lpidAt j) (hne : pre ++ suf ≠ [])
    (hidx : Follows (links id g₂.lrankToLpid) idx suf) (hr : ∀ r ∈ ranks, g₁.IsRank r) :
    ∃ ranks2, searchLpids g₁ g₂ ranks idx (headLpid g₂.lpidAt suf) = some ranks2 ∧
      List.Forall₂ (Found g₁ g₂) ranks ranks2 := by
  induction ranks generalizing pre suf idx with
  | nil => exact ⟨[], rfl, .nil⟩
  | cons rank ranks ih =>
    have hrest : ∀ r ∈ ranks, g₁.IsRank r := fun r hm => hr r (mem_cons_of_mem _ hm)
    by_cases hnull : rank = procNull
    · obtain ⟨ranks2, hrun, hall⟩ := ih h hperm hs hne hidx hrest
      subst hnull
      refine ⟨procNull :: ranks2, ?_, .cons .null hall⟩
      rw [searchLpids, if_pos rfl, hrun]
      rfl
    · obtain ⟨e, he, hlpid, -⟩ := entryAt_of_isRank (hr rank mem_cons_self) hnull
      obtain ⟨r, rfl⟩ := Int.eq_ofNat_of_zero_le ((hr rank mem_cons_self).resolve_left hnull).1
      rw [Int.toNat_natCast] at hlpid
      obtain ⟨idx₁, pre₁, suf₁, hstart, hl₁, hfol₁, hiff⟩ :=
        @startOver_spec e.lpid g₂ pre suf idx h hs hne hidx
      rw [mem_map_lpidAt hperm, hlpid] at hiff
      rw [hlpid] at hstart
      have hsub₁ : ∀ i ∈ suf₁, i < g₂.size := fun i hi => mem_range.1
        (hperm.mem_iff.1 (hl₁ ▸ mem_append_right _ hi))
      have hlen₁ : suf₁.length ≤ g₂.size := by
        have := hperm.length_eq
        rw [← hl₁, length_append, length_range] at this
        omega
      obtain ⟨idx₂, suf₂, hseek, hfol₂, hl₂, hfound⟩ := seekLpid_found hb₂ hfol₁
        (pairwise_append.1 (hl₁ ▸ hs)).2.1 hsub₁ hlen₁ hiff
      -- the search goes on from where it stops
      have hl : pre₁ ++ suf₁.takeWhile (g₂.lpidAt · < g₁.lpidAt r) ++ suf₂ = pre ++ suf := by
        rw [append_assoc, hl₂, hl₁]
      obtain ⟨ranks2, hrun, hall⟩ := ih (hl ▸ h) (hl ▸ hperm) (hl ▸ hs) (hl ▸ hne) hfol₂ hrest
      refine ⟨_ :: ranks2, ?_, .cons hfound hall⟩
      rw [searchLpids, if_neg hnull, he]
      simp only [bind_eq_bind, bind_some, hstart, hlpid, hseek, hrun]
      rfl

inductive Translated (g₁ g₂ : MpiGroup) : Int → Int → Prop where
  | null : Translated g₁ g₂ procNull procNull
  | found {r i : Nat} : i < g₂.size → g₂.lpidAt i = g₁.lpidAt r → Translated g₁ g₂ r i
  | missing {r : Nat} : g₁.lpidAt r ∉ g₂.lpids → Translated g₁ g₂ r undefined

theorem Found.translated {rank rank2 : Int} (h : Found g₁ g₂ rank rank2)
    (hb : rank ≠ procNull → noLpid ∉ g₂.lpids → g₁.lpidAt rank.toNat ≠ noLpid) :
    Translated g₁ g₂ rank rank2 := by
  cases h with
  | null => exact .null
  | found hi heq => exact .found hi heq
  | missing hin _ => exact .missing hin
  | @behind r hin hno => exact absurd hno (hb (by unfold procNull; omega) (hno ▸ hin))

def MpiGroup.Dense (g : MpiGroup) : Prop :=
  g.isLocalDenseMonotonic = true → ∀ i, i + 1 < g.size → g.lpidAt (i + 1) = g.lpidAt i + 1

theorem MpiGroup.Dense.lpidAt (h : g₂.Dense) (hd : g₂.isLocalDenseMonotonic = true) {i : Nat}
    (hi : i < g₂.size) : g₂.lpidAt i = g₂.lpidAt 0 + i := by
  induction i with
  | zero => rfl
  | succ i ih =>
    rw [h hd i hi, ih (Nat.lt_of_succ_lt hi)]
    rfl

theorem denseRank_translated (hdense : g₂.Dense) (hd : g₂.isLocalDenseMonotonic = true)
    (hpos : 0 < g₂.size) (hb₁ : ∀ x ∈ g₁.lpids, x < 2 ^ 64) (hb₂ : ∀ x ∈ g₂.lpids, x < 2 ^ 64)
    {rank : Int} (hr : g₁.IsRank rank) :
    ∃ rank2, denseRank g₁ g₂ rank = some rank2 ∧ Translated g₁ g₂ rank rank2 := by
  by_cases hnull : rank = procNull
  · subst hnull
    exact ⟨procNull, by rw [denseRank, if_pos rfl], .null⟩
  · obtain ⟨e, he, hlpid, hmem⟩ := entryAt_of_isRank hr hnull
    obtain ⟨r, rfl⟩ := Int.eq_ofNat_of_zero_le (hr.resolve_left hnull).1
    rw [Int.toNat_natCast] at hlpid
    obtain ⟨first, hget⟩ : ∃ first, g₂.lrankToLpid[0]? = some first :=
      ⟨_, List.getElem?_eq_getElem hpos⟩
    have hfirst : entryAt g₂.lrankToLpid 0 = some first := by
      rw [entryAt, if_pos (Int.le_refl 0)]
      exact hget
    have hzero := keyOf_lpidAt 0 _ hget
    rw [denseRank, if_neg hnull, hfirst, he]
    simp only [bind_eq_bind, bind_some, hzero, hlpid]
    refine ⟨_, rfl, ?_⟩
    have hx := hb₁ _ hmem
    rw [hlpid] at hx
    have hle₂ := hb₂ _ (lpidAt_mem hpos)
    split
    · next hlt =>
      refine .found hlt ?_
      have hlast := hb₂ _ (lpidAt_mem hlt)
      rw [hdense.lpidAt hd hlt] at hlast ⊢
      omega
    · next hge =>
      refine .missing fun hin => hge ?_
      rw [← map_lpidAt_range, List.mem_map] at hin
      obtain ⟨i, hi, hei⟩ := hin
      have hi := mem_range.1 hi
      rw [hdense.lpidAt hd hi] at hei
      omega

theorem denseRanks_translated (hdense : g₂.Dense) (hd : g₂.isLocalDenseMonotonic = true)
    (hpos : 0 < g₂.size) (hb₁ : ∀ x ∈ g₁.lpids, x < 2 ^ 64) (hb₂ : ∀ x ∈ g₂.lpids, x < 2 ^ 64)
    (hr : ∀ r ∈ ranks, g₁.IsRank r) :
    ∃ ranks2, ranks.mapM (denseRank g₁ g₂) = some ranks2 ∧
      List.Forall₂ (Translated g₁ g₂) ranks ranks2 := by
  induction ranks with
  | nil => exact ⟨[], rfl, .nil⟩
  | cons r ranks ih =>
    obtain ⟨hrank, hrest⟩ := forall_mem_cons.1 hr
    obtain ⟨rank2, hone, ht⟩ := denseRank_translated hdense hd hpos hb₁ hb₂ hrank
    obtain ⟨ranks2, hrun, hall⟩ := ih hrest
    exact ⟨rank2 :: ranks2, by rw [mapM_cons, hone, hrun]; rfl, .cons ht hall⟩

end translate

section anyIds

/-- A group that can be searched: the order of its ids is right if it has been set up, and so is its
mark. -/
structure MpiGroup.Searchable (g : MpiGroup) : Prop where
  order : g.idxOfFirstLpid ≠ -1 → Threaded g.lrankToLpid g.idxOfFirstLpid g.lpidAt
  dense : g.Dense
  bound : ∀ x ∈ g.lpids, x < 2 ^ 64

/-- What the call does right: for a group without members, no rank is that of no process; and if the
ids are searched, then the one behind the last is not missing. -/
structure Covered (g₁ g₂ : MpiGroup) (ranks : List Int) : Prop where
  empty : g₂.size = 0 → procNull ∉ ranks
  searched : 0 < g₂.size → g₂.isLocalDenseMonotonic = false → noLpid ∉ g₂.lpids →
    ∀ r ∈ ranks, r ≠ procNull → g₁.lpidAt r.toNat ≠ noLpid

variable {g₁ g₂ : MpiGroup} {ranks : List Int}

theorem MpiGroup.Searchable.needLpidList (h : g₂.Searchable) :
    ∃ g₂', Groups.needLpidList g₂ = some g₂' ∧ g₂'.lpids = g₂.lpids ∧
      Threaded g₂'.lrankToLpid g₂'.idxOfFirstLpid g₂'.lpidAt := by
  by_cases hidx : g₂.idxOfFirstLpid = -1
  · obtain ⟨a, first, hrun, hids, hthr⟩ :=
      mergesortLpidarray_spec (keyOf_lpidAt (g := g₂)) (Nat.le_add_right g₂.size 2)
    refine ⟨{ g₂ with lrankToLpid := a, idxOfFirstLpid := first }, ?_, hids, ?_⟩
    · rw [Groups.needLpidList, if_pos (by omega), setupLpidList, if_pos hidx, hrun]
      rfl
    · have hat : MpiGroup.lpidAt { g₂ with lrankToLpid := a, idxOfFirstLpid := first } =
          g₂.lpidAt := by
        funext i
        unfold MpiGroup.lpidAt MpiGroup.lpids
        rw [hids]
      rw [hat]
      exact hthr
  · refine ⟨g₂, ?_, rfl, h.order hidx⟩
    rw [Groups.needLpidList, setupLpidList, if_neg hidx, ite_self]

theorem translateRanksImpl_found (h : g₂.Searchable) (hpos : 0 < g₂.size)
    (hd : g₂.isLocalDenseMonotonic = false) (hr : ∀ r ∈ ranks, g₁.IsRank r) :
    ∃ g₂' ranks2, translateRanksImpl g₁ ranks g₂ = some (g₂', ranks2) ∧ g₂'.lpids = g₂.lpids ∧
      List.Forall₂ (Found g₁ g₂) ranks ranks2 := by
  obtain ⟨g₂', hneed, hids, l, hfol, hperm, hs⟩ := h.needLpidList
  have hsize : g₂'.size = g₂.size := by rw [← length_lpids, hids, length_lpids]
  cases l with
  | nil =>
    have hlen := hperm.length_eq
    rw [length_nil, length_range] at hlen
    have : g₂'.size = 0 := hlen.symm
    omega
  | cons n l =>
    obtain ⟨e, he, -, hget, -⟩ := entryAt_of_follows hfol
    obtain ⟨ranks2, hrun, hall⟩ := @searchLpids_found g₁ g₂' ranks [] (n :: l) _
      (hids ▸ h.bound) hfol hperm hs (cons_ne_nil _ _) hfol hr
    refine ⟨g₂', ranks2, ?_, hids, hall.imp fun rank rank2 hf => ?_⟩
    · rw [translateRanksImpl, if_neg (by rw [hd]; exact fun hno => nomatch hno.2), hneed]
      simp only [bind_eq_bind, bind_some]
      rw [if_pos (hfol.nonneg_iff.2 (cons_ne_nil _ _)), he, bind_some,
        keyOf_lpidAt n e hget]
      rw [headLpid] at hrun
      rw [hrun]
      rfl
    · have hat : g₂'.lpidAt = g₂.lpidAt := by
        funext i
        unfold MpiGroup.lpidAt
        rw [hids]
      cases hf with
      | null => exact .null
      | found hi heq => exact .found (hsize ▸ hi) (hat ▸ heq)
      | missing hin hne => exact .missing (hids ▸ hin) hne
      | behind hin heq => exact .behind (hids ▸ hin) heq

theorem translateRanksImpl_empty (h : g₂.Searchable) (hz : g₂.size = 0) :
    ∃ g₂', translateRanksImpl g₁ ranks g₂ = some (g₂', ranks.map fun _ => undefined) ∧
      g₂'.lpids = g₂.lpids := by
  obtain ⟨g₂', hneed, hids, l, hfol, hperm, -⟩ := h.needLpidList
  have hsize : g₂'.size = 0 := by rw [← length_lpids, hids, length_lpids, hz]
  have hl : l = [] := by
    have := hperm.length_eq
    rw [length_range] at this
    exact eq_nil_of_length_eq_zero (this.trans hsize)
  subst hl
  refine ⟨g₂', ?_, hids⟩
  rw [translateRanksImpl, if_neg (by omega), hneed]
  simp only [bind_eq_bind, bind_some]
  rw [if_neg (mt hfol.nonneg_iff.1 fun hno => hno rfl)]
  rfl

theorem translated_of_empty (hz : g₂.size = 0) (hr : ∀ r ∈ ranks, g₁.IsRank r) :
    List.Forall₂ (Translated g₁ g₂) ranks (ranks.map fun _ => undefined) ↔ procNull ∉ ranks := by
  induction ranks with
  | nil => exact iff_of_true .nil not_mem_nil
  | cons r ranks ih =>
    obtain ⟨hrank, hrest⟩ := forall_mem_cons.1 hr
    rw [map_cons, List.forall₂_cons, ih hrest, mem_cons, not_or]
    refine and_congr_left fun _ => ⟨fun ht hno => ?_, fun hne => ?_⟩
    · subst hno
      generalize hu : undefined = u at ht
      generalize hn : procNull = p at ht
      cases ht with
      | null => exact absurd (hu.trans hn.symm) (by decide)
      | found => unfold procNull at hn; omega
      | missing => unfold procNull at hn; omega
    · obtain ⟨k, rfl⟩ := Int.eq_ofNat_of_zero_le (hrank.resolve_left (Ne.symm hne)).1
      refine .missing fun hin => ?_
      rw [← map_lpidAt_range, hz] at hin
      cases hin

theorem translated_of_found {ranks2 : List Int} (hr : ∀ r ∈ ranks, g₁.IsRank r)
    (hall : List.Forall₂ (Found g₁ g₂) ranks ranks2) :
    List.Forall₂ (Translated g₁ g₂) ranks ranks2 ↔
      (noLpid ∉ g₂.lpids → ∀ r ∈ ranks, r ≠ procNull → g₁.lpidAt r.toNat ≠ noLpid) := by
  induction hall with
  | nil => exact iff_of_true .nil fun _ _ hno => absurd hno not_mem_nil
  | @cons rank rank2 ranks ranks2 hf _ ih =>
    obtain ⟨hrank, hrest⟩ := forall_mem_cons.1 hr
    rw [List.forall₂_cons, ih hrest]
    simp only [forall_mem_cons]
    refine ⟨fun h hno => ⟨fun hne heq => ?_, h.2 hno⟩, fun h => ⟨?_, fun hno => (h hno).2⟩⟩
    · -- the id is the one behind the last: it is taken for found at `-1`
      obtain ⟨ht, -⟩ := h
      cases hf with
      | null => exact hne rfl
      | @found r i hi hfnd =>
        rw [Int.toNat_natCast] at heq
        exact hno (heq ▸ hfnd ▸ lpidAt_mem hi)
      | missing _ hmiss => exact hmiss heq
      | @behind r hin _ =>
        generalize hm : (-1 : Int) = m at ht
        generalize hk : (r : Int) = k at ht
        cases ht with
        | null => unfold procNull at hk; omega
        | found => omega
        | missing => exact absurd hm (by decide)
    · exact hf.translated fun hne hno => (h hno).1 hne

/-- Every rank of a group gets the rank of the same process in the other group, and no process stays
none, if and only if the call is covered. -/
theorem translate_ranks (h : g₂.Searchable) (hb₁ : ∀ x ∈ g₁.lpids, x < 2 ^ 64)
    (hr : ∀ r ∈ ranks, g₁.IsRank r) :
    (∃ g₂' ranks2, translateRanksImpl g₁ ranks g₂ = some (g₂', ranks2) ∧ g₂'.lpids = g₂.lpids ∧
      List.Forall₂ (Translated g₁ g₂) ranks ranks2) ↔ Covered g₁ g₂ ranks := by
  rcases Nat.eq_zero_or_pos g₂.size with hz | hpos
  · obtain ⟨g₂', hrun, hids⟩ := @translateRanksImpl_empty g₁ g₂ ranks h hz
    simp only [hrun, Option.some.injEq, Prod.mk.injEq]
    constructor
    · rintro ⟨_, _, ⟨rfl, rfl⟩, -, hall⟩
      exact ⟨fun _ => (translated_of_empty hz hr).1 hall, fun hno => absurd hz (Nat.ne_of_gt hno)⟩
    · exact fun hc => ⟨_, _, ⟨rfl, rfl⟩, hids, (translated_of_empty hz hr).2 (hc.empty hz)⟩
  · cases hd : g₂.isLocalDenseMonotonic with
    | true =>
      obtain ⟨ranks2, hrun, hall⟩ := denseRanks_translated h.dense hd hpos hb₁ h.bound hr
      refine iff_of_true ⟨g₂, ranks2, ?_, rfl, hall⟩
        ⟨fun hno => absurd hno (Nat.ne_of_gt hpos), fun _ hno => nomatch hd ▸ hno⟩
      rw [translateRanksImpl, if_pos ⟨hpos, hd⟩, hrun]
      rfl
    | false =>
      obtain ⟨g₂', ranks2, hrun, hids, hall⟩ := translateRanksImpl_found h hpos hd hr
      have hiff := translated_of_found hr hall
      simp only [hrun, Option.some.injEq, Prod.mk.injEq]
      constructor
      · rintro ⟨_, _, ⟨rfl, rfl⟩, -, htr⟩
        exact ⟨fun hno => absurd hno (Nat.ne_of_gt hpos), fun _ _ => hiff.1 htr⟩
      · exact fun hc => ⟨_, _, ⟨rfl, rfl⟩, hids, hiff.2 (hc.searched hpos hd)⟩

end anyIds

/-- Three members out of order; the second member is in another group of two, and no process. -/
theorem translate_ranks_two :
    ∃ g₂' ranks2, translateRanksImpl (fresh 0 [7, 4, 9]) [1, procNull, 2] (fresh 0 [9, 8]) =
        some (g₂', ranks2) ∧ g₂'.lpids = (fresh 0 [9, 8]).lpids ∧
      List.Forall₂ (Translated (fresh 0 [7, 4, 9]) (fresh 0 [9, 8])) [1, procNull, 2] ranks2 :=
  (translate_ranks ⟨fun hno => absurd rfl hno, fun hno => absurd hno (by decide), by decide⟩
    (by decide) (by unfold MpiGroup.IsRank; decide)).2 ⟨by decide, by decide⟩

/-- For no process, the call gives no rank in a group without members; and it gives no process for an
id that is equal to the one behind the last. -/
theorem translate_ranks_fails :
    translateRanksImpl (fresh 0 [0]) [procNull] .empty = some (.empty, [undefined]) ∧
    ¬ Translated (fresh 0 [0]) .empty procNull undefined ∧
    (translateRanksImpl (fresh 0 [2 ^ 64 - 1]) [0] (fresh 0 [5])).map Prod.snd = some [procNull] ∧
    ¬ Translated (fresh 0 [2 ^ 64 - 1]) (fresh 0 [5]) 0 procNull := by
  refine ⟨by decide, ?_, by decide, ?_⟩
  · generalize hn : procNull = p
    generalize hu : undefined = u
    rintro (_ | _ | _)
    · exact absurd (hn.trans hu.symm) (by decide)
    · unfold procNull at hn
      omega
    · unfold procNull at hn
      omega
  · generalize hz : (0 : Int) = z
    generalize hn : procNull = p
    rintro (_ | _ | _)
    · exact absurd (hz.trans hn.symm) (by decide)
    · unfold procNull at hn
      omega
    · exact absurd hn (by decide)

end PsMpi.Groups
