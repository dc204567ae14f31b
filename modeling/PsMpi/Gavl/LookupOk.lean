import PsMpi.Gavl.Runs

/-!
# Completeness of the searches

The tree is ordered by the start addresses.
-/

open PsMpi.Lib PsMpi.Lib.PtrTree List Option

namespace PsMpi.Gavl

section lookup

variable {β : Type}

/-! ## Ranges -/

def Range.stop (x : Range β) : Nat := x.addr + x.len

def Range.Contains (x : Range β) (addr len : Nat) : Prop := x.addr ≤ addr ∧ addr + len ≤ x.stop

def Range.Meets (x : Range β) (addr len : Nat) : Prop := x.addr < addr + len ∧ addr < x.stop

instance (x : Range β) (addr len : Nat) : Decidable (x.Contains addr len) :=
  inferInstanceAs (Decidable (_ ∧ _))

instance (x : Range β) (addr len : Nat) : Decidable (x.Meets addr len) :=
  inferInstanceAs (Decidable (_ ∧ _))

structure Spread (T : List (Range β)) : Prop where
  order : T.Pairwise fun x y => x.addr < y.addr ∧ x.stop < y.stop
  fits : ∀ x ∈ T, x.stop < 2 ^ 64

variable {st st' : GavlTree β} {t t' l r : PTree (Info β)} {L : List (Nat × Info β)}
  {a b : Info β} {addr len : Nat} {mode : Mode} {u u' : Use β} {x : Range β} {T : List (Range β)}

theorem uintptr_eq {n : Nat} (h : n < 2 ^ 64) : uintptr n = n := Nat.mod_eq_of_lt h

theorem subsetCmp_eq (ha : a.range.stop < 2 ^ 64) (hq : addr + len < 2 ^ 64) :
    nodeCmp a addr len .subset = if a.range.Contains addr len then .bufferMatch
      else if addr < a.addr then .searchLeft else .searchRight := by
  rw [nodeCmp, subsetCmp, uintptr_eq hq, show uintptr (a.addr + a.len) = _ from uintptr_eq ha]
  rfl

theorem intersectCmp_eq (ha : a.range.stop < 2 ^ 64) (hq : addr + len < 2 ^ 64) :
    nodeCmp a addr len .intersection = if addr + len ≤ a.addr then .searchLeft
      else if a.range.stop ≤ addr then .searchRight else .bufferMatch := by
  rw [nodeCmp, intersectCmp, uintptr_eq hq, show uintptr (a.addr + a.len) = _ from uintptr_eq ha]
  rfl

theorem intersect_side (ha : a.range.stop < 2 ^ 64) (hq : addr + len < 2 ^ 64) :
    (nodeCmp a addr len .intersection = .searchLeft → addr + len ≤ a.addr) ∧
      (nodeCmp a addr len .intersection = .searchRight → a.range.stop ≤ addr) := by
  rw [intersectCmp_eq ha hq]
  split
  · exact ⟨fun _ => ‹_›, nofun⟩
  · split
    · exact ⟨nofun, fun _ => ‹_›⟩
    · exact ⟨nofun, nofun⟩

theorem startAddr_side : (nodeCmp a addr len .startAddr = .searchLeft → addr < a.addr) ∧
    (nodeCmp a addr len .startAddr = .searchRight → a.addr < addr) ∧
      (nodeCmp a addr len .startAddr = .bufferMatch → a.addr = addr) := by
  rw [nodeCmp, startAddrCmp]
  split
  · exact ⟨by simp, by simp, fun _ => ‹_›⟩
  · split
    · exact ⟨fun _ => ‹_›, by simp, by simp⟩
    · exact ⟨by simp, fun _ => by omega, by simp⟩

theorem contains_iff_match (ha : a.range.stop < 2 ^ 64) (hq : addr + len < 2 ^ 64) :
    nodeCmp a addr len .subset = .bufferMatch ↔ a.range.Contains addr len := by
  rw [subsetCmp_eq ha hq]
  split
  · exact iff_of_true rfl ‹_›
  · split
    · exact iff_of_false nofun ‹_›
    · exact iff_of_false nofun ‹_›

theorem meets_iff_match (ha : a.range.stop < 2 ^ 64) (hq : addr + len < 2 ^ 64) :
    nodeCmp a addr len .intersection = .bufferMatch ↔ a.range.Meets addr len := by
  rw [intersectCmp_eq ha hq]
  split
  · exact iff_of_false nofun fun h => Nat.not_lt.2 ‹_› h.1
  · split
    · exact iff_of_false nofun fun h => Nat.not_lt.2 ‹_› h.2
    · exact iff_of_true rfl ⟨Nat.not_le.1 ‹_›, Nat.not_le.1 ‹_›⟩

/-! ## Searches -/

def Directed (addr len : Nat) (mode : Mode) (a b : Info β) : Prop :=
  (nodeCmp a addr len mode = .searchLeft → nodeCmp b addr len mode ≠ .bufferMatch) ∧
    (nodeCmp b addr len mode = .searchRight → nodeCmp a addr len mode ≠ .bufferMatch)

theorem locate_some (h : locate addr len mode t = some a) :
    a ∈ t.infos ∧ nodeCmp a addr len mode = .bufferMatch := by
  induction t with
  | nil => cases h
  | node p b l r ihl ihr =>
    rw [locate] at h
    split at h
    · exact ⟨mem_append_left _ (ihl h).1, (ihl h).2⟩
    · exact ⟨mem_append_right _ (mem_cons_of_mem _ (ihr h).1), (ihr h).2⟩
    · cases h
      exact ⟨mem_append_right _ mem_cons_self, ‹_›⟩

theorem locate_none (hdir : t.infos.Pairwise (Directed addr len mode))
    (h : locate addr len mode t = none) : ∀ a ∈ t.infos, nodeCmp a addr len mode ≠ .bufferMatch := by
  induction t with
  | nil => exact fun _ h => by cases h
  | node p b l r ihl ihr =>
    obtain ⟨hl, hbr, hlbr⟩ := pairwise_append.1 hdir
    obtain ⟨hb, hr⟩ := pairwise_cons.1 hbr
    rw [locate] at h
    intro a ha
    rcases mem_append.1 ha with ha | ha
    · split at h
      · exact ihl hl h a ha
      · exact (hlbr a ha b mem_cons_self).2 ‹_›
      · cases h
    · rcases mem_cons.1 ha with rfl | ha
      · split at h
        · rw [‹nodeCmp a addr len mode = _›]
          exact fun h => by cases h
        · rw [‹nodeCmp a addr len mode = _›]
          exact fun h => by cases h
        · cases h
      · split at h
        · exact (hb a ha).1 ‹_›
        · exact ihr hr h a ha
        · cases h

theorem Spread.directed (h : Spread (ranges t)) (hq : addr + len < 2 ^ 64) :
    t.infos.Pairwise (Directed addr len mode) := by
  have hfits : ∀ a ∈ t.infos, a.range.stop < 2 ^ 64 := fun a ha =>
    h.fits a.range (mem_map_of_mem ha)
  have horder := pairwise_map.1 h.order
  refine horder.imp_of_mem fun {a b} ha hb hab => ?_
  obtain ⟨hstart, hstop⟩ : a.addr < b.addr ∧ a.range.stop < b.range.stop := hab
  have ha := hfits a ha
  have hb := hfits b hb
  cases mode with
  | subset =>
    refine ⟨fun hleft hmatch => ?_, fun hright hmatch => ?_⟩
    · have hlt := subset_left hleft
      have hle := ((contains_iff_match hb hq).1 hmatch).1
      exact absurd hle (Nat.not_le.2 (Nat.lt_trans hlt hstart))
    · have hle := subset_right hright
      have hnot : ¬b.range.Contains addr len := fun h => by
        rw [(contains_iff_match hb hq).2 h] at hright
        cases hright
      exact hnot ⟨hle, Nat.le_trans ((contains_iff_match ha hq).1 hmatch).2 (Nat.le_of_lt hstop)⟩
  | intersection =>
    refine ⟨fun hleft hmatch => ?_, fun hright hmatch => ?_⟩
    · have hle := (intersect_side ha hq).1 hleft
      have hlt := ((meets_iff_match hb hq).1 hmatch).1
      exact absurd hlt (Nat.not_lt.2 (Nat.le_trans hle (Nat.le_of_lt hstart)))
    · have hle := (intersect_side hb hq).2 hright
      have hlt := ((meets_iff_match ha hq).1 hmatch).2
      exact absurd (Nat.lt_trans hlt hstop) (Nat.not_lt.2 hle)
  | startAddr =>
    refine ⟨fun hleft hmatch => ?_, fun hright hmatch => ?_⟩
    · have hlt := startAddr_side.1 hleft
      rw [← startAddr_side.2.2 hmatch] at hlt
      exact Nat.lt_asymm hlt hstart
    · have hlt := startAddr_side.2.1 hright
      rw [← startAddr_side.2.2 hmatch] at hlt
      exact Nat.lt_asymm hlt hstart

/-! ## Runs -/

def Fits (u : Use β) : Call β → Prop
  | .insert addr len _ _ => addr + len < 2 ^ 64 ∧ ∀ x ∈ inTree u.tree,
      addr ≤ x.addr → x.stop ≤ addr + len → x.addr = addr ∧ x.len = len
  | _ => True

instance (u : Use β) : (call : Call β) → Decidable (Fits u call)
  | .insert .. => inferInstanceAs (Decidable (_ ∧ ∀ x ∈ inTree u.tree, _ → _ → _ ∧ _))
  | .deleteRange .. => inferInstanceAs (Decidable True)
  | .deleteStartAddr .. => inferInstanceAs (Decidable True)

structure LookupOk (u : Use β) (t : PTree (Info β)) (L : List (Nat × Info β)) : Prop where
  holds : Holds u.tree t L
  spread : Spread (ranges t)
  fits : ∀ e ∈ L, e.2.range.stop < 2 ^ 64

theorem Spread.sublist {T' : List (Range β)} (h : Spread T) (hsub : T'.Sublist T) : Spread T' :=
  ⟨h.order.sublist hsub, fun x hx => h.fits x (hsub.subset hx)⟩

theorem Taken.not_match {L' : List (Nat × Info β)} (h : Taken addr len mode t L t' L')
    (hspread : Spread (ranges t)) (hq : addr + len < 2 ^ 64) :
    ∀ a ∈ t'.infos, nodeCmp a addr len mode ≠ .bufferMatch :=
  locate_none ((hspread.sublist h.sublist).directed hq) h.missed

theorem Taken.filter {L' : List (Nat × Info β)} {P : Range β → Bool}
    (h : Taken addr len mode t L t' L') (hkeep : ∀ a ∈ t'.infos, P a.range = true)
    (htake : ∀ a ∈ t.infos, nodeCmp a addr len mode = .bufferMatch → P a.range = false) :
    ranges t' = (ranges t).filter P := by
  obtain ⟨M, -, hM, hperm⟩ := h.moved
  have hself : (ranges t').filter P = ranges t' := by
    refine filter_eq_self.2 fun x hx => ?_
    obtain ⟨a, ha, rfl⟩ := mem_map.1 hx
    exact hkeep a ha
  have hnone : (rangesOf (M.map Prod.snd)).filter P = [] := by
    refine filter_eq_nil_iff.2 fun x hx => ?_
    have hxt := hperm.subset (mem_append_left _ hx)
    obtain ⟨a, ha, rfl⟩ := mem_map.1 hx
    obtain ⟨e, he, rfl⟩ := mem_map.1 ha
    obtain ⟨b, hb, hbe⟩ := mem_map.1 hxt
    rw [← hbe, htake b hb ((nodeCmp_range hbe).trans (hM e he))]
    exact nofun
  have hfilter := hperm.filter P
  rw [List.filter_append, hnone, hself, List.nil_append] at hfilter
  have hsub := h.sublist.filter P
  rw [hself] at hsub
  exact hsub.eq_of_length hfilter.length_eq

theorem Spread.insert {X Y : List (Range β)} (h : Spread (X ++ Y)) (hx : x.stop < 2 ^ 64)
    (hX : ∀ y ∈ X, y.addr ≤ x.addr) (hY : ∀ y ∈ Y, x.addr < y.addr)
    (hnot : ∀ y ∈ X ++ Y, ¬y.Contains x.addr x.len)
    (hfit : ∀ y ∈ X ++ Y, x.addr ≤ y.addr → y.stop ≤ x.stop → y.addr = x.addr ∧ y.len = x.len) :
    Spread (X ++ x :: Y) := by
  have hleft : ∀ y ∈ X, y.addr < x.addr ∧ y.stop < x.stop := by
    intro y hy
    have hmem := mem_append_left Y hy
    have hstop : y.stop < x.stop := Nat.not_le.1 fun hle => hnot y hmem ⟨hX y hy, hle⟩
    refine ⟨Nat.lt_of_le_of_ne (hX y hy) fun heq => ?_, hstop⟩
    have hlen := (hfit y hmem (Nat.le_of_eq heq.symm) (Nat.le_of_lt hstop)).2
    rw [Range.stop, Range.stop, heq, hlen] at hstop
    exact Nat.lt_irrefl _ hstop
  have hright : ∀ y ∈ Y, x.addr < y.addr ∧ x.stop < y.stop := by
    intro y hy
    refine ⟨hY y hy, Nat.not_le.1 fun hle => ?_⟩
    have haddr := (hfit y (mem_append_right X hy) (Nat.le_of_lt (hY y hy)) hle).1
    exact Nat.ne_of_gt (hY y hy) haddr
  obtain ⟨hXX, hYY, hXY⟩ := pairwise_append.1 h.order
  refine ⟨pairwise_append.2 ⟨hXX, pairwise_cons.2 ⟨hright, hYY⟩, fun y hy z hz => ?_⟩,
    fun y hy => ?_⟩
  · rcases mem_cons.1 hz with rfl | hz
    · exact hleft y hy
    · exact hXY y hy z hz
  · rcases mem_append.1 hy with hy | hy
    · exact h.fits y (mem_append_left _ hy)
    · rcases mem_cons.1 hy with rfl | hy
      · exact hx
      · exact h.fits y (mem_append_right _ hy)

theorem LookupOk.moved {L' : List (Nat × Info β)} (h : LookupOk u t L)
    (htaken : Taken addr len mode t L t' L') : ∀ e ∈ L', e.2.range.stop < 2 ^ 64 := by
  obtain ⟨M, rfl, -, hperm⟩ := htaken.moved
  intro e he
  rcases mem_append.1 he with he | he
  · exact h.spread.fits _ (hperm.subset (mem_append_left _ (mem_map_of_mem
      (mem_map_of_mem he))))
  · exact h.fits e he

theorem LookupOk.step {call : Call β} (h : LookupOk u t L) (hfit : Fits u call)
    (hstep : u.step call = some u') : ∃ t' L', LookupOk u' t' L' := by
  rcases Use.step_spec h.holds hstep with ⟨addr, len, val, memory, st₁, t₁, L₁, rfl, hins, -⟩ |
    ⟨addr, len, mode, st₁, t₁, L₁, -, hdel, -⟩
  · obtain ⟨hq, hfit⟩ := hfit
    have hspread₁ := h.spread.sublist hins.taken.sublist
    cases memory with
    | false =>
      have hst : u'.tree = st₁ := hins.linked
      exact ⟨t₁, L₁, hst ▸ hins.holds, hspread₁, h.moved hins.taken⟩
    | true =>
      obtain ⟨D, t', hleads, h', hT, hT', -⟩ := hins.ranges
      refine ⟨t', L₁, h', ?_, h.moved hins.taken⟩
      have hsorted := hspread₁.order
      rw [hT, rangesOf, rangesOf, ← map_append, pairwise_map] at hsorted
      obtain ⟨hbefore, hafter⟩ := hleads.order (hsorted.imp fun h => Nat.le_of_lt h.1)
      rw [hT']
      refine Spread.insert (hT ▸ hspread₁) hq (fun y hy => ?_) (fun y hy => ?_) (fun y hy => ?_)
        fun y hy => ?_
      · obtain ⟨a, ha, rfl⟩ := mem_map.1 hy
        exact hbefore a ha
      · obtain ⟨a, ha, rfl⟩ := mem_map.1 hy
        exact hafter a ha
      · rw [← hT] at hy
        obtain ⟨a, ha, rfl⟩ := mem_map.1 hy
        rw [← contains_iff_match (hspread₁.fits _ hy) hq]
        exact hins.taken.not_match h.spread hq a ha
      · rw [← hT] at hy
        refine hfit y ?_
        rw [h.holds.inTree]
        exact hins.taken.sublist.subset hy
  · exact ⟨t₁, _, hdel.rest, h.spread.sublist hdel.taken.sublist,
      fun e he => h.moved hdel.taken e (mem_filter.1 he).1⟩

theorem reach_lookupOk {freeFn : Bool} (h : (gavlSys β freeFn).ReachWhen Fits u) :
    ∃ t L, LookupOk u t L := by
  refine Sys.ReachWhen.inv (I := fun u => ∃ t L, LookupOk u t L)
    ⟨.nil, [], create_holds freeFn, ⟨List.Pairwise.nil, nofun⟩, nofun⟩ ?_ h
  rintro u call u' - ⟨t, L, hu⟩ hfit hstep
  exact hu.step hfit hstep

theorem LookupOk.search (h : LookupOk u t L) (hq : addr + len < 2 ^ 64) :
    ∃ res, Gavl.search u.tree addr len = some res ∧
      (∀ val, res = some val → ∃ x ∈ inTree u.tree, x.Contains addr len ∧ x.val = val) ∧
        (res = none → ∀ x ∈ inTree u.tree, ¬x.Contains addr len) := by
  have hlen := h.holds.length_le
  refine ⟨(locate addr len .subset t).map Info.val, ?_, fun val hval => ?_, fun hnone x hx => ?_⟩
  · rw [Gavl.search, h.holds.root]
    exact lookupLoop_spec h.holds.rep (by omega)
  · obtain ⟨a, ha, rfl⟩ := map_eq_some_iff.1 hval
    obtain ⟨hmem, hmatch⟩ := locate_some ha
    have hin : a.range ∈ ranges t := mem_map_of_mem hmem
    rw [h.holds.inTree]
    exact ⟨a.range, hin, (contains_iff_match (h.spread.fits _ hin) hq).1 hmatch, rfl⟩
  · rw [h.holds.inTree] at hx
    have hfit := h.spread.fits x hx
    obtain ⟨a, ha, rfl⟩ := mem_map.1 hx
    rw [← contains_iff_match hfit hq]
    exact locate_none (h.spread.directed hq) (map_eq_none_iff.1 hnone) a ha

theorem LookupOk.deleteRange (h : LookupOk u t L) (hq : addr + len < 2 ^ 64)
    (hrun : Gavl.deleteRange u.tree addr len = some st') :
    inTree st' = (inTree u.tree).filter (fun x => ¬x.Meets addr len) ∧
      onList st' = (onList u.tree).filter fun x => ¬x.Meets addr len := by
  obtain ⟨st₁, t₁, L₁, hdel⟩ := delete_spec h.holds hrun
  have htaken := hdel.taken
  have hmoved := h.moved htaken
  rw [hdel.rest.inTree, h.holds.inTree, hdel.rest.onList, h.holds.onList]
  constructor
  · refine htaken.filter (fun a ha => decide_eq_true ?_) fun a ha hmatch => decide_eq_false ?_
    · have hfit := (h.spread.sublist htaken.sublist).fits _ (mem_map_of_mem ha)
      rw [← meets_iff_match hfit hq]
      exact htaken.not_match h.spread hq a ha
    · rw [not_not]
      exact (meets_iff_match (h.spread.fits _ (mem_map_of_mem ha)) hq).1 hmatch
  · obtain ⟨M, rfl, hM, -⟩ := htaken.moved
    have hnone : M.filter (fun e => !hit addr len .intersection e) = [] := by
      refine filter_eq_nil_iff.2 fun e he => ?_
      rw [hit, decide_eq_true (hM e he)]
      exact nofun
    have hrest : L.filter (fun e => !hit addr len .intersection e) =
        L.filter fun e => ¬e.2.range.Meets addr len := by
      refine filter_congr fun e he => ?_
      rw [hit, ← decide_not, decide_eq_decide]
      exact not_congr (meets_iff_match (h.fits e he) hq)
    rw [List.filter_append, hnone, List.nil_append, hrest, rangesOf, rangesOf, List.map_map,
      List.map_map, List.filter_map]
    rfl

/-- When every inserted range ends at an address and contains no range of the tree but an equal one, the
search for a range finds an object of a range that contains it if there is one, and the deletion of a range
keeps exactly the ranges that do not meet it. -/
theorem lookup_and_delete_complete {freeFn : Bool} (h : (gavlSys β freeFn).ReachWhen Fits u)
    (hq : addr + len < 2 ^ 64) :
    (∃ res, Gavl.search u.tree addr len = some res ∧
      (∀ val, res = some val → ∃ x ∈ inTree u.tree, x.Contains addr len ∧ x.val = val) ∧
        (res = none → ∀ x ∈ inTree u.tree, ¬x.Contains addr len)) ∧
    ∀ st', Gavl.deleteRange u.tree addr len = some st' →
      inTree st' = (inTree u.tree).filter (fun x => ¬x.Meets addr len) ∧
        onList st' = (onList u.tree).filter fun x => ¬x.Meets addr len := by
  obtain ⟨t, L, hu⟩ := reach_lookupOk h
  exact ⟨hu.search hq, fun st' hrun => hu.deleteRange hq hrun⟩

def threeRanges : List (Call Nat) :=
  [.insert 10 8 1 true, .insert 15 8 2 true, .insert 30 5 3 true]

/-- The range that contains the given one is found among three, and it is deleted with the one that overlaps
it. -/
theorem lookup_and_delete_complete_three : ∃ u, (gavlSys Nat true).exec ⟨create true, []⟩ threeRanges =
    some u ∧
    (∃ res, Gavl.search u.tree 16 4 = some res ∧
      (∀ val, res = some val → ∃ x ∈ inTree u.tree, x.Contains 16 4 ∧ x.val = val) ∧
        (res = none → ∀ x ∈ inTree u.tree, ¬x.Contains 16 4)) ∧
    ∀ st', Gavl.deleteRange u.tree 16 4 = some st' →
      inTree st' = (inTree u.tree).filter (fun x => ¬x.Meets 16 4) ∧
        onList st' = (onList u.tree).filter fun x => ¬x.Meets 16 4 := by
  have hrun : (((gavlSys Nat true).checked Fits).exec (gavlSys Nat true).init threeRanges).map
      (fun _ => ()) = some () := by decide
  obtain ⟨u, hu, -⟩ := map_eq_some_iff.1 hrun
  obtain ⟨hexec, halong⟩ := Sys.checked_along hu
  have hreach : (gavlSys Nat true).ReachWhen Fits u :=
    @Sys.exec_reachWhen _ _ _ _ _ _ _ [] .init rfl halong hexec
  exact ⟨u, hexec, lookup_and_delete_complete hreach (by decide)⟩

/-- A range that contains the one that was inserted before it is not found, and it is not deleted. -/
theorem lookup_misses_nested : ∃ u : Use Nat, (gavlSys Nat true).exec ⟨create true, []⟩
    [.insert 50 10 1 true, .insert 0 100 2 true] = some u ∧ inTree u.tree = [⟨0, 100, 2⟩, ⟨50, 10, 1⟩] ∧
      Gavl.search u.tree 70 5 = some none ∧
        (Gavl.deleteRange u.tree 70 5).map inTree = some [⟨0, 100, 2⟩, ⟨50, 10, 1⟩] ∧
          (⟨0, 100, 2⟩ : Range Nat).Contains 70 5 ∧ (⟨0, 100, 2⟩ : Range Nat).Meets 70 5 := by
  have hrun : (((gavlSys Nat true).exec ⟨create true, []⟩
      [.insert 50 10 1 true, .insert 0 100 2 true]).map fun u => (inTree u.tree,
        Gavl.search u.tree 70 5, (Gavl.deleteRange u.tree 70 5).map inTree)) =
      some ([⟨0, 100, 2⟩, ⟨50, 10, 1⟩], some none, some [⟨0, 100, 2⟩, ⟨50, 10, 1⟩]) := by
    decide
  obtain ⟨u, hu, heq⟩ := map_eq_some_iff.1 hrun
  simp only [Prod.mk.injEq] at heq
  exact ⟨u, hu, heq.1, heq.2.1, heq.2.2, by decide, by decide⟩

end lookup

end PsMpi.Gavl
