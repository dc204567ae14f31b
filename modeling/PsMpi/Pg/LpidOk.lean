import Mathlib.Data.List.Nodup
import PsMpi.Pg.Lpid

/-!
# Local process ids are unique
-/

open List Option

namespace PsMpi.Pg

open PsMpi.Lib

section groups

variable {pgs : List Group} {id id' : Int} {f : Group → Group} {pg : Group} {g g' : Gpid}

theorem pgOf_modifyPg (hf : ∀ pg, (f pg).idNum = pg.idNum) :
    pgOf (modifyPg id f pgs) id' = if id' = id then (pgOf pgs id).map f else pgOf pgs id' := by
  induction pgs with
  | nil => simp [modifyPg, pgOf]
  | cons pg pgs ih =>
    simp only [pgOf] at ih
    by_cases hid : pg.idNum = id <;> by_cases hid' : id' = id <;>
      by_cases hpg : pg.idNum = id' <;>
      simp_all [modifyPg, pgOf]

theorem map_idNum_modifyPg (hf : ∀ pg, (f pg).idNum = pg.idNum) :
    (modifyPg id f pgs).map Group.idNum = pgs.map Group.idNum := by
  induction pgs with
  | nil => rfl
  | cons pg pgs ih =>
    rw [modifyPg]
    split
    · rw [map_cons, map_cons, hf]
    · rw [map_cons, map_cons, ih]

theorem pgOf_eq_none : pgOf pgs id = none ↔ id ∉ pgs.map Group.idNum := by
  rw [pgOf, List.find?_eq_none]
  simp

theorem pgOf_append (h : pgOf pgs pg.idNum = none) :
    pgOf (pgs ++ [pg]) id = if id = pg.idNum then some pg else pgOf pgs id := by
  unfold pgOf at h ⊢
  rw [List.find?_append]
  by_cases hid : id = pg.idNum
  · rw [if_pos hid, hid, h]
    simp
  · rw [if_neg hid]
    simp [Ne.symm hid]

theorem pgOf_eraseP (hn : (pgs.map Group.idNum).Nodup) :
    pgOf (pgs.eraseP fun pg => pg.idNum = id) id' = if id' = id then none else pgOf pgs id' := by
  induction pgs with
  | nil => simp [pgOf]
  | cons pg pgs ih =>
    obtain ⟨hpg, hn⟩ := nodup_cons.1 hn
    have ih := ih hn
    by_cases hid : pg.idNum = id
    · rw [eraseP_cons_of_pos (by simpa using hid)]
      by_cases hid' : id' = id
      · rw [if_pos hid', hid', pgOf_eq_none]
        exact hid ▸ hpg
      · rw [if_neg hid', pgOf, pgOf, List.find?_cons_of_neg]
        simpa [hid] using Ne.symm hid'
    · rw [eraseP_cons_of_neg (by simpa using hid)]
      unfold pgOf at ih ⊢
      rw [List.find?_cons, List.find?_cons, ih]
      by_cases hid' : id' = id
      · subst hid'
        simp [hid]
      · simp [hid']

theorem map_idNum_eraseP_nodup (hn : (pgs.map Group.idNum).Nodup) :
    ((pgs.eraseP fun pg => pg.idNum = id).map Group.idNum).Nodup :=
  (List.Sublist.map _ eraseP_sublist).nodup hn

/-! ## One rank -/

theorem slotAt_modifyPg {slot : Slot} (hf : ∀ pg, (f pg).idNum = pg.idNum)
    (hpg : pgOf pgs g.pgId = some pg) (hk : g.rank < pg.slots.length)
    (hs : (f pg).slots = pg.slots.set g.rank slot) :
    slotAt (modifyPg g.pgId f pgs) g' = if g' = g then some slot else slotAt pgs g' := by
  unfold slotAt
  rw [pgOf_modifyPg hf]
  by_cases hid : g'.pgId = g.pgId
  · rw [if_pos hid, hid, hpg]
    show (f pg).slots[g'.rank]? = if g' = g then some slot else pg.slots[g'.rank]?
    rw [hs, List.getElem?_set]
    by_cases hr : g.rank = g'.rank
    · have hg : g' = g := by
        cases g
        cases g'
        simp_all
      rw [if_pos hr, if_pos hk, if_pos hg]
    · rw [if_neg hr, if_neg]
      rintro rfl
      exact hr rfl
  · rw [if_neg hid, if_neg]
    rintro rfl
    exact hid rfl

theorem slotAt_isSome {slot : Slot} (h : slotAt pgs g = some slot) :
    ∃ pg, pgOf pgs g.pgId = some pg ∧ ∃ hk : g.rank < pg.slots.length,
      pg.slots[g.rank] = slot := by
  obtain ⟨pg, hpg, hslot⟩ := bind_eq_some_iff.1 h
  obtain ⟨hk, heq⟩ := List.getElem?_eq_some_iff.1 hslot
  exact ⟨pg, hpg, hk, heq⟩

def SameIds (pgs pgs' : List Group) : Prop :=
  ∀ g, vcAt pgs' g = vcAt pgs g ∧ lpidAt pgs' g = lpidAt pgs g

theorem sameIds_of_grows {pgs' : List Group} (h : ∀ g, slotAt pgs' g = slotAt pgs g ∨
    slotAt pgs g = none ∧ slotAt pgs' g = some .unknown) : SameIds pgs pgs' := by
  intro g
  unfold vcAt lpidAt
  rcases h g with h | ⟨h, h'⟩
  · rw [h]
    exact ⟨rfl, rfl⟩
  · rw [h, h']
    exact ⟨rfl, rfl⟩

theorem resize_slots (pg : Group) (rank k : Nat) :
    (pg.resize rank).slots[k]? = pg.slots[k]? ∨
      pg.slots[k]? = none ∧ (pg.resize rank).slots[k]? = some .unknown := by
  unfold Group.resize
  by_cases hk : k < pg.slots.length
  · exact .inl (List.getElem?_append_left hk)
  · have hle : pg.slots.length ≤ k := Nat.le_of_not_lt hk
    rw [List.getElem?_append_right hle, List.getElem?_eq_none hle, List.getElem?_replicate]
    split
    · exact .inr ⟨rfl, rfl⟩
    · exact .inl rfl

theorem sameIds_resize (pgs : List Group) (id : Int) (rank : Nat) :
    SameIds pgs (modifyPg id (fun pg => pg.resize rank) pgs) := by
  refine sameIds_of_grows fun g => ?_
  have hf : ∀ pg : Group, (pg.resize rank).idNum = pg.idNum := fun _ => rfl
  unfold slotAt
  rw [pgOf_modifyPg hf]
  by_cases hid : g.pgId = id
  · rw [if_pos hid, hid]
    cases pgOf pgs id with
    | none => exact .inl rfl
    | some pg => exact resize_slots pg rank g.rank
  · rw [if_neg hid]
    exact .inl rfl

theorem sameIds_create {size : Nat} (h : pgOf pgs id = none) :
    SameIds pgs (pgs ++ [Group.create size id]) := by
  refine sameIds_of_grows fun g => ?_
  have happ : pgOf (pgs ++ [Group.create size id]) g.pgId = _ := pgOf_append h
  unfold slotAt
  rw [happ]
  by_cases hid : g.pgId = id
  · rw [if_pos (show g.pgId = (Group.create size id).idNum from hid), hid, h]
    show (List.replicate size Slot.unknown)[g.rank]? = none ∨ _ ∧
      (List.replicate size Slot.unknown)[g.rank]? = some .unknown
    rw [List.getElem?_replicate]
    split
    · exact .inr ⟨rfl, rfl⟩
    · exact .inl rfl
  · rw [if_neg (show g.pgId ≠ (Group.create size id).idNum from hid)]
    exact .inl rfl

end groups

/-! ## The invariant of the groups -/

def Group.connections (pg : Group) : Nat := pg.slots.countP fun slot => slot.vcr.isSome

/-- The groups have different ids and count their connections; a virtual connection has the local id
of the array; and the local ids are different and were all given by the counter. -/
structure View (pgs : List Group) (next : Nat) : Prop where
  nodup : (pgs.map Group.idNum).Nodup
  refcnt : ∀ id pg, pgOf pgs id = some pg → pg.refcnt = pg.connections
  agree : ∀ g l, vcAt pgs g = some l → lpidAt pgs g = some l
  inj : ∀ g g' l, lpidAt pgs g = some l → lpidAt pgs g' = some l → g = g'
  below : ∀ g l, lpidAt pgs g = some l → l < next

section view

variable {pgs pgs' : List Group} {next next' : Nat} {g : Gpid} {id : Int}

theorem View.mono (h : View pgs next) (hle : next ≤ next') : View pgs next' :=
  { h with below := fun g l hl => Nat.lt_of_lt_of_le (h.below g l hl) hle }

theorem View.same (h : View pgs next) (hs : SameIds pgs pgs')
    (hn : (pgs'.map Group.idNum).Nodup)
    (hr : ∀ id pg, pgOf pgs' id = some pg → pg.refcnt = pg.connections) : View pgs' next where
  nodup := hn
  refcnt := hr
  agree := by
    intro g l
    rw [(hs g).1, (hs g).2]
    exact h.agree g l
  inj := by
    intro g g' l
    rw [(hs g).2, (hs g').2]
    exact h.inj g g' l
  below := by
    intro g l
    rw [(hs g).2]
    exact h.below g l

theorem View.resize (h : View pgs next) (id : Int) (rank : Nat) :
    View (modifyPg id (fun pg => pg.resize rank) pgs) next := by
  have hf : ∀ pg : Group, (pg.resize rank).idNum = pg.idNum := fun _ => rfl
  refine h.same (sameIds_resize pgs id rank) (by rw [map_idNum_modifyPg hf]; exact h.nodup) ?_
  intro id' pg' hpg'
  rw [pgOf_modifyPg hf] at hpg'
  split at hpg'
  · obtain ⟨pg, hpg, rfl⟩ := map_eq_some_iff.1 hpg'
    show pg.refcnt = (pg.slots ++ List.replicate _ Slot.unknown).countP _
    rw [countP_append, countP_replicate]
    exact h.refcnt id pg hpg
  · exact h.refcnt id' pg' hpg'

theorem View.create (h : View pgs next) {size : Nat} (hid : pgOf pgs id = none) :
    View (pgs ++ [Group.create size id]) next := by
  refine h.same (sameIds_create hid) ?_ ?_
  · rw [map_append]
    refine nodup_append.2 ⟨h.nodup, nodup_singleton _, fun a ha b hb => ?_⟩
    rintro rfl
    obtain rfl : a = id := mem_singleton.1 hb
    exact pgOf_eq_none.1 hid ha
  · intro id' pg hpg
    have happ : pgOf (pgs ++ [Group.create size id]) id' = _ := pgOf_append hid
    rw [happ] at hpg
    split at hpg
    · cases hpg
      show 0 = (List.replicate size Slot.unknown).countP _
      rw [countP_replicate]
      rfl
    · exact h.refcnt id' pg hpg

theorem ids_modifyPg {f : Group → Group} {pg : Group} {slot : Slot}
    (hf : ∀ pg, (f pg).idNum = pg.idNum) (hpg : pgOf pgs g.pgId = some pg)
    (hk : g.rank < pg.slots.length) (hs : (f pg).slots = pg.slots.set g.rank slot) (g' : Gpid) :
    vcAt (modifyPg g.pgId f pgs) g' = (if g' = g then slot.vcr else vcAt pgs g') ∧
    lpidAt (modifyPg g.pgId f pgs) g' = if g' = g then slot.lpid else lpidAt pgs g' := by
  unfold vcAt lpidAt
  rw [slotAt_modifyPg hf hpg hk hs]
  split <;> exact ⟨rfl, rfl⟩

theorem View.setRank {f : Group → Group} {pg : Group} {slot : Slot} (h : View pgs next)
    (hf : ∀ pg, (f pg).idNum = pg.idNum) (hpg : pgOf pgs g.pgId = some pg)
    (hk : g.rank < pg.slots.length) (hs : (f pg).slots = pg.slots.set g.rank slot)
    (hr : (f pg).refcnt = (f pg).connections) (ha : ∀ l, slot.vcr = some l → slot.lpid = some l)
    (hnew : ∀ l, slot.lpid = some l → l < next ∧ ∀ g', lpidAt pgs g' = some l → g' = g) :
    View (modifyPg g.pgId f pgs) next := by
  have hids := ids_modifyPg hf hpg hk hs
  refine ⟨by rw [map_idNum_modifyPg hf]; exact h.nodup, fun id' pg' hpg' => ?_, fun g' l => ?_,
    fun g₁ g₂ l => ?_, fun g' l => ?_⟩
  · rw [pgOf_modifyPg hf] at hpg'
    split at hpg'
    · obtain ⟨pg₀, hpg₀, rfl⟩ := map_eq_some_iff.1 hpg'
      obtain rfl := Option.some.inj (hpg.symm.trans hpg₀)
      exact hr
    · exact h.refcnt id' pg' hpg'
  · rw [(hids g').1, (hids g').2]
    split
    · exact ha l
    · exact h.agree g' l
  · rw [(hids g₁).2, (hids g₂).2]
    by_cases h₁ : g₁ = g <;> by_cases h₂ : g₂ = g
    · exact fun _ _ => h₁.trans h₂.symm
    · rw [if_pos h₁, if_neg h₂]
      exact fun hl hl' => absurd ((hnew l hl).2 g₂ hl') h₂
    · rw [if_neg h₁, if_pos h₂]
      exact fun hl hl' => absurd ((hnew l hl').2 g₁ hl) h₁
    · rw [if_neg h₁, if_neg h₂]
      exact h.inj g₁ g₂ l
  · rw [(hids g').2]
    split
    · exact fun hl => (hnew l hl).1
    · exact h.below g' l

theorem connections_set {pg : Group} {k : Nat} (hk : k < pg.slots.length) (slot : Slot) :
    (pg.slots.set k slot).countP (fun slot => slot.vcr.isSome) =
      pg.connections - (if pg.slots[k].vcr.isSome then 1 else 0) +
        if slot.vcr.isSome then 1 else 0 :=
  countP_set hk

theorem View.destroy (h : View pgs next) (id : Int) :
    View (pgs.eraseP fun pg => pg.idNum = id) next := by
  have hslot : ∀ g, slotAt (pgs.eraseP fun pg => pg.idNum = id) g =
      if g.pgId = id then none else slotAt pgs g := by
    intro g
    unfold slotAt
    rw [pgOf_eraseP h.nodup]
    split <;> rfl
  have hids : ∀ g, lpidAt (pgs.eraseP fun pg => pg.idNum = id) g =
      if g.pgId = id then none else lpidAt pgs g := by
    intro g
    unfold lpidAt
    rw [hslot]
    split <;> rfl
  refine ⟨map_idNum_eraseP_nodup h.nodup, fun id' pg hpg => ?_, fun g l hl => ?_,
    fun g g' l hl hl' => ?_, fun g l hl => ?_⟩
  · rw [pgOf_eraseP h.nodup] at hpg
    exact h.refcnt id' pg (ite_none_left_eq_some.1 hpg).2
  · unfold vcAt at hl
    rw [hslot] at hl
    rw [hids]
    split at hl
    · cases hl
    · next hne => rw [if_neg hne]; exact h.agree g l hl
  · rw [hids] at hl hl'
    exact h.inj g g' l (ite_none_left_eq_some.1 hl).2 (ite_none_left_eq_some.1 hl').2
  · rw [hids] at hl
    exact h.below g l (ite_none_left_eq_some.1 hl).2

end view

/-! ## The operations -/

section process

variable {p : Process} {g g' : Gpid} {lpid : Nat}

@[simp] theorem next_succ (q : Process) (n : Nat) :
    ({ q with nextLpid := n + 1 } : Process).next = n + 1 := by
  simp [Process.next]

theorem View.assign (h : View p.pgs p.next) (hs : slotAt p.pgs g = some ⟨none, none⟩) :
    View (p.assign g).pgs (p.assign g).next ∧
    (∀ g', vcAt (p.assign g).pgs g' = vcAt p.pgs g') ∧
    ∀ g', lpidAt (p.assign g).pgs g' = if g' = g then some p.next else lpidAt p.pgs g' := by
  obtain ⟨pg, hpg, hk, hslot⟩ := slotAt_isSome hs
  have hids := ids_modifyPg (f := fun pg => pg.setSlot g.rank ⟨none, some p.next⟩) (fun _ => rfl)
    hpg hk rfl
  have hnext : (p.assign g).next = p.next + 1 := next_succ _ _
  rw [hnext]
  refine ⟨(h.mono (Nat.le_succ _)).setRank (fun _ => rfl) hpg hk rfl ?_ nofun ?_, ?_, ?_⟩
  · show pg.refcnt = (pg.slots.set g.rank _).countP _
    rw [connections_set hk, hslot]
    exact h.refcnt _ pg hpg
  · rintro l ⟨⟩
    exact ⟨Nat.lt_succ_self _, fun g' hg' => absurd (h.below g' _ hg') (Nat.lt_irrefl _)⟩
  · intro g'
    refine (hids g').1.trans ?_
    split
    · next hg => rw [hg, vcAt, hs]; rfl
    · rfl
  · exact fun g' => (hids g').2

theorem View.newVcr {next : Nat} {slot : Slot} (h : View p.pgs next)
    (hs : slotAt p.pgs g = some slot) (hv : slot.vcr = none)
    (hl : lpid < next ∧ ∀ g', lpidAt p.pgs g' = some lpid → g' = g) :
    View (p.newVcr g lpid).pgs next ∧
    ∀ g', (slotAt (p.newVcr g lpid).pgs g' =
      if g' = g then some ⟨some lpid, some lpid⟩ else slotAt p.pgs g') := by
  obtain ⟨pg, hpg, hk, hslot⟩ := slotAt_isSome hs
  refine ⟨h.setRank (fun _ => rfl) hpg hk rfl ?_ ?_ ?_,
    fun g' => slotAt_modifyPg (fun _ => rfl) hpg hk rfl⟩
  · show pg.refcnt + 1 = (pg.slots.set g.rank _).countP _
    rw [connections_set hk, hslot, hv, h.refcnt _ pg hpg]
    rfl
  · exact fun l hvl => hvl
  · rintro l ⟨⟩
    exact hl

/-- What connecting a process does: it has a connection, if its rank exists; and every process
keeps its local id. -/
structure Connects (p p' : Process) (gpids : List Gpid) : Prop where
  view : View p'.pgs p'.next
  lazy : p'.lazy = p.lazy
  slots : ∀ g, (slotAt p'.pgs g).isSome = (slotAt p.pgs g).isSome
  vc : ∀ g, (vcAt p'.pgs g).isSome ↔
    (vcAt p.pgs g).isSome ∨ g ∈ gpids ∧ (slotAt p.pgs g).isSome
  keep : ∀ g l, lpidAt p.pgs g = some l → lpidAt p'.pgs g = some l
  waiting : ∀ g, vcAt p'.pgs g = none → lpidAt p'.pgs g = lpidAt p.pgs g

theorem connects_of_slotAt {p' : Process} {slot : Slot} (lpid : Nat) (hview : View p'.pgs p'.next)
    (hlazy : p'.lazy = p.lazy) (hs : slotAt p.pgs g = some slot)
    (hkeep : ∀ l, slot.lpid = some l → l = lpid)
    (hslots : ∀ g', (slotAt p'.pgs g' =
      if g' = g then some ⟨some lpid, some lpid⟩ else slotAt p.pgs g')) :
    Connects p p' [g] := by
  have hvc : ∀ g', vcAt p'.pgs g' = if g' = g then some lpid else vcAt p.pgs g' := by
    intro g'
    unfold vcAt
    rw [hslots]
    split <;> rfl
  have hlp : ∀ g', lpidAt p'.pgs g' = if g' = g then some lpid else lpidAt p.pgs g' := by
    intro g'
    unfold lpidAt
    rw [hslots]
    split <;> rfl
  refine ⟨hview, hlazy, fun g' => ?_, fun g' => ?_, fun g' l hl => ?_, fun g' hv => ?_⟩
  · rw [hslots]
    split
    · next hg => rw [hg, hs]; rfl
    · rfl
  · rw [hvc]
    by_cases hg : g' = g
    · simp [hg, hs]
    · simp [hg]
  · rw [hlp]
    split
    · next hg =>
      rw [hg, lpidAt, hs] at hl
      rw [hkeep l hl]
    · exact hl
  · rw [hvc] at hv
    rw [hlp]
    split at hv
    · cases hv
    · next hg => rw [if_neg hg]

theorem View.connect (h : View p.pgs p.next) (g : Gpid) : Connects p (p.connect g) [g] := by
  unfold Process.connect
  have hsame : (∀ slot, slotAt p.pgs g = some slot → slot.vcr.isSome) → Connects p p [g] := by
    intro hall
    refine ⟨h, rfl, fun _ => rfl, fun g' => ⟨.inl, ?_⟩, fun _ _ => id, fun _ _ => rfl⟩
    rintro (hv | ⟨hg, hs⟩)
    · exact hv
    · obtain rfl := mem_singleton.1 hg
      obtain ⟨slot, hslot⟩ := isSome_iff_exists.1 hs
      rw [vcAt, hslot]
      exact hall slot hslot
  split
  · next lpid hs =>
    have hl : lpidAt p.pgs g = some lpid := by rw [lpidAt, hs]; rfl
    obtain ⟨h1, h2⟩ := h.newVcr hs rfl ⟨h.below g lpid hl, fun g' hg' => h.inj g' g lpid hg' hl⟩
    refine connects_of_slotAt lpid h1 rfl hs ?_ h2
    rintro l ⟨⟩
    rfl
  · next hs =>
    have hfresh : p.next < p.next + 1 ∧ ∀ g', lpidAt p.pgs g' = some p.next → g' = g :=
      ⟨Nat.lt_succ_self _, fun g' hg' => absurd (h.below g' _ hg') (Nat.lt_irrefl _)⟩
    obtain ⟨h1, h2⟩ := (h.mono (Nat.le_succ _)).newVcr hs rfl hfresh
    refine connects_of_slotAt p.next ?_ rfl hs nofun h2
    rw [next_succ]
    exact h1
  · next hnone hsome =>
    refine hsame fun slot hslot => ?_
    obtain ⟨_ | v, _ | l⟩ := slot
    · exact absurd hslot hsome
    · exact absurd hslot (hnone l)
    · rfl
    · rfl

theorem View.connectAll (h : View p.pgs p.next) (gpids : List Gpid) :
    Connects p (gpids.foldl Process.connect p) gpids := by
  induction gpids generalizing p with
  | nil =>
    refine ⟨h, rfl, fun _ => rfl, fun g => ⟨.inl, ?_⟩, fun _ _ => id, fun _ _ => rfl⟩
    rintro (hv | ⟨hg, -⟩)
    · exact hv
    · cases hg
  | cons g gpids ih =>
    have h1 := h.connect g
    have h2 := ih h1.view
    rw [foldl_cons]
    refine ⟨h2.view, h2.lazy.trans h1.lazy, fun g' => (h2.slots g').trans (h1.slots g'),
      fun g' => ?_, fun g' l hl => h2.keep g' l (h1.keep g' l hl), fun g' hv => ?_⟩
    · rw [h2.vc, h1.vc, h1.slots]
      simp only [mem_cons]
      tauto
    · have hv1 : vcAt (p.connect g).pgs g' = none := by
        by_contra hne
        have hsome := (h2.vc g').2 (.inl (isSome_iff_ne_none.2 hne))
        rw [hv] at hsome
        cases hsome
      exact (h2.waiting g' hv).trans (h1.waiting g' hv1)

def Waits (p : Process) (g : Gpid) : Prop := vcAt p.pgs g = none ∧ (lpidAt p.pgs g).isSome

structure Translates (p p' : Process) (gpids : List Gpid) (lpids : List Nat) : Prop where
  view : View p'.pgs p'.next
  lazy : p'.lazy = p.lazy
  vc : ∀ g, vcAt p'.pgs g = vcAt p.pgs g
  keep : ∀ g l, lpidAt p.pgs g = some l → lpidAt p'.pgs g = some l
  other : ∀ g, g ∉ gpids → lpidAt p'.pgs g = lpidAt p.pgs g
  answers : ∀ a ∈ gpids.zip lpids, lpidAt p'.pgs a.1 = some a.2

theorem View.assign_translates {q : Process} (h : View q.pgs q.next) (hlazy : q.lazy = p.lazy)
    (hsame : SameIds p.pgs q.pgs) (hs : slotAt q.pgs g = some .unknown) :
    Translates p (q.assign g) [g] [q.next] := by
  obtain ⟨h1, h2, h3⟩ := h.assign hs
  have hnone : lpidAt p.pgs g = none := by
    rw [← (hsame g).2, lpidAt, hs]
    rfl
  refine ⟨h1, hlazy, fun g' => (h2 g').trans (hsame g').1, fun g' l hl => ?_, fun g' hg => ?_,
    fun a ha => ?_⟩
  · rw [h3, (hsame g').2, if_neg, hl]
    rintro rfl
    rw [hnone] at hl
    cases hl
  · rw [h3, (hsame g').2, if_neg fun hg' => hg (mem_singleton.2 hg')]
  · obtain rfl : a = (g, q.next) := mem_singleton.1 ha
    rw [h3, if_pos rfl]

theorem View.gpidToLpid (h : View p.pgs p.next) (hw : ¬ Waits p g) :
    ∃ p' l, p.gpidToLpid g = some (p', l) ∧ Translates p p' [g] [l] := by
  unfold Process.gpidToLpid
  split
  · next hnone =>
    have hcreate : View (p.pgs ++ [Group.create (g.rank + 1) g.pgId]) p.next := h.create hnone
    refine ⟨_, _, rfl, View.assign_translates (q := p.pgCreate (g.rank + 1) g.pgId) hcreate rfl
      (sameIds_create hnone) ?_⟩
    have happ : pgOf (p.pgs ++ [Group.create (g.rank + 1) g.pgId]) g.pgId =
        some (Group.create (g.rank + 1) g.pgId) := (pgOf_append hnone).trans (if_pos rfl)
    show (pgOf (p.pgs ++ [Group.create (g.rank + 1) g.pgId]) g.pgId).bind _ = _
    rw [happ]
    show (List.replicate (g.rank + 1) Slot.unknown)[g.rank]? = _
    rw [List.getElem?_replicate, if_pos (Nat.lt_succ_self _)]
  · next pg hpg =>
    have hf : ∀ pg : Group, (pg.resize g.rank).idNum = pg.idNum := fun _ => rfl
    have hsame := sameIds_resize p.pgs g.pgId g.rank
    have hk : g.rank < (pg.resize g.rank).slots.length := by
      simp only [Group.resize, length_append, length_replicate]
      omega
    have hslot : slotAt (modifyPg g.pgId (fun pg => pg.resize g.rank) p.pgs) g =
        some ((pg.resize g.rank).slots.getD g.rank .unknown) := by
      unfold slotAt
      rw [pgOf_modifyPg hf, if_pos rfl, hpg, getD_eq_getElem?_getD]
      show (pg.resize g.rank).slots[g.rank]? = _
      rw [List.getElem?_eq_getElem hk]
      rfl
    have hvc : vcAt p.pgs g = ((pg.resize g.rank).slots.getD g.rank .unknown).vcr := by
      rw [← (hsame g).1, vcAt, hslot]
      rfl
    have hlp : lpidAt p.pgs g = ((pg.resize g.rank).slots.getD g.rank .unknown).lpid := by
      rw [← (hsame g).2, lpidAt, hslot]
      rfl
    simp only
    split
    · next l _ heq =>
      rw [heq] at hvc
      refine ⟨_, l, rfl, h.resize g.pgId g.rank, rfl, fun g' => (hsame g').1, fun g' l' hl => ?_,
        fun g' _ => (hsame g').2, fun a ha => ?_⟩
      · exact (hsame g').2.trans hl
      · obtain rfl : a = (g, l) := mem_singleton.1 ha
        exact (hsame g).2.trans (h.agree g l hvc)
    · next l heq =>
      rw [heq] at hvc hlp
      exact absurd ⟨hvc, by rw [hlp]; rfl⟩ hw
    · next heq =>
      rw [heq] at hslot
      exact ⟨_, _, rfl, View.assign_translates
        (q := { p with pgs := modifyPg g.pgId (fun pg => pg.resize g.rank) p.pgs })
        (h.resize g.pgId g.rank) rfl hsame hslot⟩

theorem View.gpidToLpidArray {gpids : List Gpid} (h : View p.pgs p.next)
    (hw : ∀ g ∈ gpids, ¬ Waits p g)
    (hn : (gpids.filter fun g => vcAt p.pgs g = none).Nodup) :
    ∃ p' lpids, p.gpidToLpidArray gpids = some (p', lpids) ∧ Translates p p' gpids lpids := by
  induction gpids generalizing p with
  | nil =>
    exact ⟨p, [], rfl, h, rfl, fun _ => rfl, fun _ _ => id, fun _ _ => rfl, nofun⟩
  | cons g gpids ih =>
    obtain ⟨p₁, l, hp₁, h1⟩ := h.gpidToLpid (hw g mem_cons_self)
    have hn₁ : (gpids.filter fun g => vcAt p₁.pgs g = none).Nodup := by
      simp only [h1.vc]
      exact (List.Sublist.filter _ (sublist_cons_self g gpids)).nodup hn
    have hw₁ : ∀ g' ∈ gpids, ¬ Waits p₁ g' := by
      rintro g' hg' ⟨hv, hl⟩
      rw [h1.vc] at hv
      have hne : g' ≠ g := by
        rintro rfl
        rw [filter_cons_of_pos (by simpa using hv)] at hn
        exact (nodup_cons.1 hn).1 (mem_filter.2 ⟨hg', by simpa using hv⟩)
      rw [h1.other g' fun hm => hne (mem_singleton.1 hm)] at hl
      exact hw g' (mem_cons_of_mem _ hg') ⟨hv, hl⟩
    obtain ⟨p₂, lpids, hp₂, h2⟩ := ih h1.view hw₁ hn₁
    refine ⟨p₂, l :: lpids, ?_, h2.view, h2.lazy.trans h1.lazy,
      fun g' => (h2.vc g').trans (h1.vc g'), fun g' l' hl => h2.keep g' l' (h1.keep g' l' hl),
      fun g' hg' => ?_, fun a ha => ?_⟩
    · rw [Process.gpidToLpidArray, hp₁]
      show (p₁.gpidToLpidArray gpids).bind _ = _
      rw [hp₂]
      rfl
    · refine (h2.other g' fun hm => hg' (mem_cons_of_mem _ hm)).trans (h1.other g' fun hm => ?_)
      exact hg' (mem_singleton.1 hm ▸ mem_cons_self)
    · rcases mem_cons.1 ha with rfl | ha
      · exact h2.keep g l (h1.answers (g, l) mem_cons_self)
      · exact h2.answers a ha

theorem connections_eq_zero {pgs : List Group} {id : Int} {pg : Group}
    (hpg : pgOf pgs id = some pg) :
    pg.connections = 0 ↔ ∀ g, g.pgId = id → vcAt pgs g = none := by
  have hvc : ∀ g, g.pgId = id → vcAt pgs g = pg.slots[g.rank]?.bind Slot.vcr := by
    rintro g rfl
    rw [vcAt, slotAt, hpg]
    rfl
  rw [Group.connections, countP_eq_zero]
  constructor
  · intro hall g hg
    rw [hvc g hg]
    cases hs : pg.slots[g.rank]? with
    | none => rfl
    | some slot => simpa using hall slot (mem_of_getElem? hs)
  · intro hall slot hm
    obtain ⟨k, hk⟩ := mem_iff_getElem?.1 hm
    have hnone := hall ⟨id, k⟩ rfl
    rw [hvc _ rfl, hk] at hnone
    simpa using hnone

def OnlyOne (p : Process) (g : Gpid) : Prop :=
  ∀ g', g'.pgId = g.pgId → (vcAt p.pgs g').isSome → g' = g

/-- What a disconnect does: a rank loses its connection, and its local id too if disconnects are not
lazy; or the whole group goes with its last connection. -/
structure Disconnects (p p' : Process) (g : Gpid) : Prop where
  view : View p'.pgs p'.next
  lazy : p'.lazy = p.lazy
  last : OnlyOne p g → ∀ g',
    vcAt p'.pgs g' = (if g'.pgId = g.pgId then none else vcAt p.pgs g') ∧
    lpidAt p'.pgs g' = if g'.pgId = g.pgId then none else lpidAt p.pgs g'
  other : ¬ OnlyOne p g → ∀ g',
    vcAt p'.pgs g' = (if g' = g then none else vcAt p.pgs g') ∧
    lpidAt p'.pgs g' =
      if g' = g then (if p.lazy then lpidAt p.pgs g else none) else lpidAt p.pgs g'

theorem ids_pgDestroy (h : View p.pgs p.next) (id : Int) (g' : Gpid) :
    vcAt (p.pgDestroy id).pgs g' = (if g'.pgId = id then none else vcAt p.pgs g') ∧
    lpidAt (p.pgDestroy id).pgs g' = if g'.pgId = id then none else lpidAt p.pgs g' := by
  unfold vcAt lpidAt slotAt Process.pgDestroy
  simp only [pgOf_eraseP h.nodup]
  split <;> exact ⟨rfl, rfl⟩

theorem View.dropVcr {pg : Group} {slot : Slot} (h : View p.pgs p.next)
    (hpg : pgOf p.pgs g.pgId = some pg) (hslot : slotAt p.pgs g = some slot)
    (hv : slot.vcr.isSome) :
    (pg.dropVcr p.lazy g.rank).refcnt = (pg.dropVcr p.lazy g.rank).connections ∧
    View (modifyPg g.pgId (fun pg => pg.dropVcr p.lazy g.rank) p.pgs) p.next ∧
    ∀ g', vcAt (modifyPg g.pgId (fun pg => pg.dropVcr p.lazy g.rank) p.pgs) g' =
        (if g' = g then none else vcAt p.pgs g') ∧
      lpidAt (modifyPg g.pgId (fun pg => pg.dropVcr p.lazy g.rank) p.pgs) g' =
        if g' = g then (if p.lazy then lpidAt p.pgs g else none) else lpidAt p.pgs g' := by
  obtain ⟨pg', hpg', hk, hget⟩ := slotAt_isSome hslot
  obtain rfl := Option.some.inj (hpg.symm.trans hpg')
  have hgetD : pg.slots.getD g.rank .unknown = slot := by
    rw [getD_eq_getElem?_getD, List.getElem?_eq_getElem hk, hget]
    rfl
  have hlp : lpidAt p.pgs g = slot.lpid := by
    rw [lpidAt, hslot]
    rfl
  have hset : (pg.dropVcr p.lazy g.rank).slots =
      pg.slots.set g.rank ⟨none, if p.lazy then lpidAt p.pgs g else none⟩ := by
    rw [hlp, ← hgetD]
    rfl
  have hcount : (pg.dropVcr p.lazy g.rank).refcnt = (pg.dropVcr p.lazy g.rank).connections := by
    rw [Group.connections, hset, connections_set hk, hget, if_pos hv]
    show pg.refcnt - 1 = pg.connections - 1 + 0
    rw [h.refcnt _ pg hpg, Nat.add_zero]
  have hf : ∀ pg : Group, (pg.dropVcr p.lazy g.rank).idNum = pg.idNum := fun _ => rfl
  refine ⟨hcount, h.setRank hf hpg hk hset hcount nofun fun l hl => ?_, ids_modifyPg hf hpg hk hset⟩
  have hl' := (ite_none_right_eq_some.1 hl).2
  exact ⟨h.below g l hl', fun g' hg' => h.inj g' g l hg' hl'⟩

theorem View.deleteFromPg (h : View p.pgs p.next) (hv : (vcAt p.pgs g).isSome) :
    Disconnects p (p.deleteFromPg g) g := by
  obtain ⟨l, hl⟩ := isSome_iff_exists.1 hv
  obtain ⟨slot, hslot, hvcr⟩ := bind_eq_some_iff.1 hl
  obtain ⟨pg, hpg, -⟩ := slotAt_isSome hslot
  obtain ⟨hcount, hview, hids⟩ := h.dropVcr hpg hslot (by rw [hvcr]; rfl)
  have hf : ∀ pg : Group, (pg.dropVcr p.lazy g.rank).idNum = pg.idNum := fun _ => rfl
  have hfound : pgOf (modifyPg g.pgId (fun pg => pg.dropVcr p.lazy g.rank) p.pgs) g.pgId =
      some (pg.dropVcr p.lazy g.rank) := by
    rw [pgOf_modifyPg hf, if_pos rfl, hpg]
    rfl
  have hzero : (pg.dropVcr p.lazy g.rank).refcnt = 0 ↔ OnlyOne p g := by
    rw [hcount, connections_eq_zero hfound]
    constructor
    · intro hall g' hid hsome
      by_contra hne
      have hnone := hall g' hid
      rw [(hids g').1, if_neg hne] at hnone
      rw [hnone] at hsome
      cases hsome
    · intro honly g' hid
      rw [(hids g').1]
      split
      · rfl
      · next hne =>
        by_contra hsome
        exact hne (honly g' hid (isSome_iff_ne_none.2 hsome))
  unfold Process.deleteFromPg
  simp only [hfound]
  by_cases hlast : OnlyOne p g
  · rw [if_pos (hzero.2 hlast)]
    refine ⟨hview.destroy g.pgId, rfl, fun _ g' => ?_, fun hno => absurd hlast hno⟩
    have hd := ids_pgDestroy (p := { p with
      pgs := modifyPg g.pgId (fun pg => pg.dropVcr p.lazy g.rank) p.pgs }) hview g.pgId g'
    simp only [hids g'] at hd
    by_cases hid : g'.pgId = g.pgId
    · simpa [hid] using hd
    · have hne : g' ≠ g := fun hg => hid (hg ▸ rfl)
      simpa [hid, hne] using hd
  · rw [if_neg fun h0 => hlast (hzero.1 h0)]
    exact ⟨hview, rfl, fun hyes => absurd hyes hlast, fun _ => hids⟩

end process

/-! ## Runs -/

def Careful (myId : Int) (s : St) : Act → Prop
  | .translate gpids => (∀ g ∈ gpids, g ∉ s.waiting) ∧ (gpids.filter (· ∉ s.connected)).Nodup
  | .disconnect g => ¬ (g.pgId = myId ∧ IsLast s g)
  | _ => True

/-- The invariant: the history of the run tells which processes are connected and which ones wait
for a connection with a local id, and the answers are the local ids. -/
structure Inv (s : St) : Prop where
  view : View s.proc.pgs s.proc.next
  connected : ∀ g, g ∈ s.connected ↔ (vcAt s.proc.pgs g).isSome
  waiting : ∀ g, Waits s.proc g → g ∈ s.waiting
  answers : ∀ a ∈ s.answers, lpidAt s.proc.pgs a.1 = some a.2
  ok : s.failed = false
  alive : s.ownFreed = false

section runs

variable {s s' : St} {myId : Int} {g : Gpid}

theorem Inv.create (h : Inv s) {size : Nat} {id : Int} (hid : pgOf s.proc.pgs id = none) :
    Inv { s with proc := s.proc.pgCreate size id } := by
  have hsame : SameIds s.proc.pgs (s.proc.pgCreate size id).pgs := sameIds_create hid
  refine ⟨h.view.create hid, fun g => ?_, fun g hw => h.waiting g ?_, fun a ha => ?_, h.ok, h.alive⟩
  · rw [(hsame g).1]
    exact h.connected g
  · unfold Waits at hw
    rwa [(hsame g).1, (hsame g).2] at hw
  · rw [(hsame a.1).2]
    exact h.answers a ha

theorem Inv.translate (h : Inv s) {gpids : List Gpid} (hc : Careful myId s (.translate gpids)) :
    Inv (translate s gpids) := by
  obtain ⟨hw, hn⟩ := hc
  have hfilter : (gpids.filter fun g => vcAt s.proc.pgs g = none) =
      gpids.filter (· ∉ s.connected) := by
    refine filter_congr fun g _ => ?_
    simp [h.connected g]
  obtain ⟨p, lpids, heq, ht⟩ := h.view.gpidToLpidArray
    (fun g hg hwait => hw g hg (h.waiting g hwait)) (hfilter ▸ hn)
  unfold Pg.translate
  rw [heq]
  refine ⟨ht.view, fun g => ?_, fun g hwait => ?_, fun a ha => ?_, h.ok, h.alive⟩
  · rw [ht.vc]
    exact h.connected g
  · obtain ⟨hv, hl⟩ := hwait
    rw [ht.vc] at hv
    by_cases hg : g ∈ gpids
    · refine mem_append_left _ (mem_filter.2 ⟨hg, ?_⟩)
      simpa [h.connected g] using hv
    · rw [ht.other g hg] at hl
      exact mem_append_right _ (h.waiting g ⟨hv, hl⟩)
  · rcases mem_append.1 ha with ha | ha
    · exact ht.answers a ha
    · exact ht.keep a.1 a.2 (h.answers a ha)

theorem Inv.connect (h : Inv s) (gpids : List Gpid) : Inv (connect s gpids) := by
  have hc := h.view.connectAll gpids
  have hnew : ∀ g, g ∈ gpids.filter (fun g => (slotAt s.proc.pgs g).isSome) ↔
      g ∈ gpids ∧ (slotAt s.proc.pgs g).isSome := fun g => by simp
  refine ⟨hc.view, fun g => ?_, fun g hwait => ?_, fun a ha => ?_, h.ok, h.alive⟩
  · show g ∈ _ ++ s.connected ↔ (vcAt (gpids.foldl Process.connect s.proc).pgs g).isSome
    rw [hc.vc, mem_append, hnew, h.connected g]
    exact or_comm
  · obtain ⟨hv, hl⟩ : vcAt (gpids.foldl Process.connect s.proc).pgs g = none ∧
        (lpidAt (gpids.foldl Process.connect s.proc).pgs g).isSome := hwait
    have hno : ¬ ((vcAt s.proc.pgs g).isSome ∨ g ∈ gpids ∧ (slotAt s.proc.pgs g).isSome) := by
      rw [← hc.vc, hv]
      simp
    rw [hc.waiting g hv] at hl
    refine mem_filter.2 ⟨h.waiting g ⟨?_, hl⟩, ?_⟩
    · exact not_isSome_iff_eq_none.1 fun hsome => hno (.inl hsome)
    · exact decide_eq_true fun hm => hno (.inr ((hnew g).1 hm))
  · exact hc.keep a.1 a.2 (h.answers a ha)

theorem Inv.forget {p : Process} {id : Int} (h : Inv s) (hview : View p.pgs p.next)
    (hids : ∀ g', vcAt p.pgs g' = (if g'.pgId = id then none else vcAt s.proc.pgs g') ∧
      lpidAt p.pgs g' = if g'.pgId = id then none else lpidAt s.proc.pgs g') :
    Inv (forget { s with proc := p } id) := by
  refine ⟨hview, fun g => ?_, fun g hwait => ?_, fun a ha => ?_, h.ok, h.alive⟩
  · show g ∈ s.connected.filter _ ↔ (vcAt p.pgs g).isSome
    rw [(hids g).1, mem_filter, h.connected g]
    by_cases hg : g.pgId = id <;> simp [hg]
  · obtain ⟨hv, hl⟩ : vcAt p.pgs g = none ∧ (lpidAt p.pgs g).isSome := hwait
    rw [(hids g).1] at hv
    rw [(hids g).2] at hl
    by_cases hg : g.pgId = id
    · rw [if_pos hg] at hl
      cases hl
    · rw [if_neg hg] at hv hl
      exact mem_filter.2 ⟨h.waiting g ⟨hv, hl⟩, by simpa using hg⟩
  · obtain ⟨ha, hne⟩ := mem_filter.1 ha
    show lpidAt p.pgs a.1 = some a.2
    rw [(hids a.1).2, if_neg (by simpa using hne)]
    exact h.answers a ha

theorem Inv.isLast_iff (h : Inv s) : IsLast s g ↔ OnlyOne s.proc g := by
  constructor
  · exact fun hl g' hid hsome => hl g' ((h.connected g').2 hsome) hid
  · exact fun ho g' hm hid => ho g' hid ((h.connected g').1 hm)

theorem Inv.disconnect (h : Inv s) (hv : (vcAt s.proc.pgs g).isSome)
    (hc : Careful myId s (.disconnect g)) : Inv (disconnect myId s g) := by
  have hd := h.view.deleteFromPg hv
  unfold Pg.disconnect
  simp only
  split
  · next hlast =>
    have hinv := h.forget hd.view (hd.last (h.isLast_iff.1 hlast))
    refine ⟨hinv.view, hinv.connected, hinv.waiting, hinv.answers, hinv.ok, ?_⟩
    exact decide_eq_false fun hid => hc ⟨hid, hlast⟩
  · next hlast =>
    have hids := hd.other fun ho => hlast (h.isLast_iff.2 ho)
    have hconn : ∀ g', g' ∈ s.connected.filter (· ≠ g) ↔
        (vcAt (s.proc.deleteFromPg g).pgs g').isSome := by
      intro g'
      rw [(hids g').1, mem_filter, h.connected g']
      by_cases hg : g' = g <;> simp [hg]
    have hwait : ∀ g', g' ≠ g → Waits (s.proc.deleteFromPg g) g' → g' ∈ s.waiting := by
      rintro g' hne ⟨hv', hl'⟩
      rw [(hids g').1, if_neg hne] at hv'
      rw [(hids g').2, if_neg hne] at hl'
      exact h.waiting g' ⟨hv', hl'⟩
    split
    · next hlazy =>
      refine ⟨hd.view, hconn, fun g' hw => ?_, fun a ha => ?_, h.ok, h.alive⟩
      · by_cases hg : g' = g
        · exact hg ▸ mem_cons_self
        · exact mem_cons_of_mem _ (hwait g' hg hw)
      · show lpidAt (s.proc.deleteFromPg g).pgs a.1 = some a.2
        rw [(hids a.1).2, if_pos hlazy]
        split
        · next hg => exact hg ▸ h.answers a ha
        · exact h.answers a ha
    · next hlazy =>
      refine ⟨hd.view, hconn, fun g' hw => ?_, fun a ha => ?_, h.ok, h.alive⟩
      · refine hwait g' ?_ hw
        rintro rfl
        have hl := hw.2
        rw [(hids g').2, if_pos rfl, if_neg hlazy] at hl
        cases hl
      · obtain ⟨ha, hne⟩ := mem_filter.1 ha
        show lpidAt (s.proc.deleteFromPg g).pgs a.1 = some a.2
        rw [(hids a.1).2, if_neg (by simpa using hne)]
        exact h.answers a ha

theorem Inv.step {a : Act} (h : Inv s) (hc : Careful myId s a) (hs : lpidStep myId s a = some s') :
    Inv s' := by
  unfold lpidStep at hs
  rw [if_neg (by simp [h.ok, h.alive])] at hs
  cases a with
  | create size id =>
    obtain ⟨hid, hs⟩ := ite_none_left_eq_some.1 hs
    cases hs
    exact h.create (not_isSome_iff_eq_none.1 hid)
  | translate gpids =>
    cases hs
    exact h.translate hc
  | connect gpids =>
    cases hs
    exact h.connect gpids
  | disconnect g =>
    obtain ⟨hv, hs⟩ := ite_none_right_eq_some.1 hs
    cases hs
    exact h.disconnect hv hc
  | destroy id =>
    obtain ⟨-, hs⟩ := ite_none_left_eq_some.1 hs
    cases hs
    exact h.forget (h.view.destroy id) (ids_pgDestroy h.view id)

theorem ids_init (worldSize : Nat) (myId : Int) (lazy : Bool) (g : Gpid) :
    slotAt (Process.init worldSize myId lazy).pgs g =
      if g.pgId = myId ∧ g.rank < worldSize then some ⟨some g.rank, some g.rank⟩ else none := by
  by_cases hid : g.pgId = myId <;> by_cases hk : g.rank < worldSize <;>
    simp [slotAt, pgOf, Process.init, hid, hk, eq_comm]

theorem inv_init (worldSize : Nat) (myId : Int) (lazy : Bool) :
    Inv (lpidSys worldSize myId lazy).init := by
  have hslot := ids_init worldSize myId lazy
  have hlp : ∀ g l, lpidAt (Process.init worldSize myId lazy).pgs g = some l →
      (g.pgId = myId ∧ g.rank < worldSize) ∧ g.rank = l := by
    intro g l hl
    rw [lpidAt, hslot] at hl
    split at hl
    · next hg => exact ⟨hg, Option.some.inj hl⟩
    · cases hl
  refine ⟨⟨nodup_singleton _, fun id pg hpg => ?_, fun g l hl => ?_, fun g g' l hl hl' => ?_,
    fun g l hl => ?_⟩, fun g => ?_, fun g hw => ?_, nofun, rfl, rfl⟩
  · have hmem := mem_of_find?_eq_some hpg
    obtain rfl := mem_singleton.1 hmem
    show worldSize = ((List.range worldSize).map fun k => (⟨some k, some k⟩ : Slot)).countP _
    rw [countP_map, countP_eq_length.2, length_range]
    exact fun _ _ => rfl
  · rw [vcAt, show slotAt (lpidSys worldSize myId lazy).init.proc.pgs g = _ from hslot g] at hl
    rw [lpidAt, show slotAt (lpidSys worldSize myId lazy).init.proc.pgs g = _ from hslot g]
    split at hl
    · next hg => rw [if_pos hg]; exact hl
    · cases hl
  · obtain ⟨⟨h1, -⟩, h2⟩ := hlp g l hl
    obtain ⟨⟨h1', -⟩, h2'⟩ := hlp g' l hl'
    cases g
    cases g'
    simp_all
  · obtain ⟨⟨-, h1⟩, rfl⟩ := hlp g l hl
    exact h1
  · show g ∈ (List.range worldSize).map _ ↔ (vcAt (Process.init worldSize myId lazy).pgs g).isSome
    rw [vcAt, hslot]
    constructor
    · intro hm
      obtain ⟨k, hk, rfl⟩ := mem_map.1 hm
      rw [if_pos ⟨rfl, mem_range.1 hk⟩]
      rfl
    · intro hsome
      by_cases hg : g.pgId = myId ∧ g.rank < worldSize
      · exact mem_map.2 ⟨g.rank, mem_range.2 hg.2, by rw [← hg.1]⟩
      · rw [if_neg hg] at hsome
        cases hsome
  · obtain ⟨hv, hl⟩ : vcAt (Process.init worldSize myId lazy).pgs g = none ∧
      (lpidAt (Process.init worldSize myId lazy).pgs g).isSome := hw
    rw [vcAt, hslot] at hv
    rw [lpidAt, hslot] at hl
    split at hv
    · cases hv
    · next hg => rw [if_neg hg] at hl; cases hl

end runs

def Valid (s : St) (g : Gpid) (l : Nat) : Prop :=
  vcAt s.proc.pgs g = some l ∨ lpidAt s.proc.pgs g = some l

/-- The valid local ids of all groups are different, one for each process, and below the next one;
the translation gave different ids to different processes and, as long as a process is known, the
same id every time; and its assertion did not fail. -/
structure LpidOk (s : St) : Prop where
  distinct : ∀ g g' l, Valid s g l → Valid s g' l → g = g'
  one : ∀ g l l', Valid s g l → Valid s g l' → l = l'
  below : ∀ g l, Valid s g l → l < s.proc.next
  injective : ∀ g g' l, (g, l) ∈ s.answers → (g', l) ∈ s.answers → g = g'
  stable : ∀ g l l', (g, l) ∈ s.answers → (g, l') ∈ s.answers → l = l'
  asserted : s.failed = false

/-- In every run that translates no process while it waits for a connection, and keeps a connection
of the own group, the local ids are unique and the translation is injective and stable. -/
theorem lpid_unique {worldSize : Nat} {myId : Int} {lazy : Bool} {s : St}
    (h : (lpidSys worldSize myId lazy).ReachWhen (Careful myId) s) : LpidOk s := by
  have hinv : Inv s := Sys.ReachWhen.inv (I := Inv) (inv_init worldSize myId lazy)
    (fun _ hi hc hs => hi.step hc hs) h
  have hv : ∀ g l, Valid s g l → lpidAt s.proc.pgs g = some l := by
    rintro g l (hvc | hl)
    · exact hinv.view.agree g l hvc
    · exact hl
  refine ⟨fun g g' l hg hg' => ?_, fun g l l' hg hg' => ?_, fun g l hg => ?_,
    fun g g' l hg hg' => ?_, fun g l l' hg hg' => ?_, hinv.ok⟩
  · exact hinv.view.inj g g' l (hv g l hg) (hv g' l hg')
  · exact Option.some.inj ((hv g l hg).symm.trans (hv g l' hg'))
  · exact hinv.view.below g l (hv g l hg)
  · exact hinv.view.inj g g' l (hinv.answers _ hg) (hinv.answers _ hg')
  · exact Option.some.inj ((hinv.answers _ hg).symm.trans (hinv.answers _ hg'))

/-- A group of two processes is translated and connected; one of them is disconnected, connected
again and translated again. -/
theorem lpid_unique_reconnected : ∃ s, (lpidSys 1 0 true).ReachWhen (Careful 0) s ∧
    s.answers = [(⟨7, 0⟩, 1), (⟨7, 0⟩, 1), (⟨7, 1⟩, 2)] ∧ LpidOk s := by
  have h1 := Sys.ReachWhen.step (a := Act.translate [⟨7, 0⟩, ⟨7, 1⟩])
    (Sys.ReachWhen.init (M := lpidSys 1 0 true) (C := Careful 0)) (by constructor <;> decide) rfl
  have h2 := Sys.ReachWhen.step (a := Act.connect [⟨7, 0⟩, ⟨7, 1⟩]) h1 trivial rfl
  have h3 := Sys.ReachWhen.step (a := Act.disconnect ⟨7, 0⟩) h2 (by
    rintro ⟨hid, -⟩
    exact absurd hid (by decide)) rfl
  have h4 := Sys.ReachWhen.step (a := Act.connect [⟨7, 0⟩]) h3 trivial rfl
  have h5 := Sys.ReachWhen.step (a := Act.translate [⟨7, 0⟩]) h4 (by constructor <;> decide) rfl
  exact ⟨_, h5, by decide, lpid_unique h5⟩

/-- A process of a group is disconnected lazily while the other one stays connected; its next
translation fails. -/
theorem lpid_translate_disconnected : ∃ s, (lpidSys 1 0 true).Reach s ∧ ¬ LpidOk s := by
  have hrun : ∃ s, (lpidSys 1 0 true).exec (lpidSys 1 0 true).init [.create 2 7,
      .connect [⟨7, 0⟩, ⟨7, 1⟩], .disconnect ⟨7, 0⟩, .translate [⟨7, 0⟩]] = some s ∧
      s.failed = true := ⟨_, rfl, by decide⟩
  obtain ⟨s, hexec, hfailed⟩ := hrun
  refine ⟨s, Sys.exec_reach .init hexec, fun hok => ?_⟩
  rw [hok.asserted] at hfailed
  cases hfailed

end PsMpi.Pg
