import PsMpi.Lib.MapM

/-!
# The topology levels of a process group
-/

open PsMpi.Lib List Option

namespace PsMpi.Topo

/-- `MPIDI_PSP_TOPO_BADGE__NULL` (`mpidimpl.h:78`). -/
def badgeNull : Int := -1

/-- `MPIDI_PSP_topo_level_t` (`mpidpre.h`). -/
structure Level where
  degree : Int
  maxBadge : Int
  badgesAreGlobal : Int
  badgeTable : Option (List Int)
  deriving DecidableEq

structure Pg where
  idNum : Nat
  size : Nat
  topoLevels : List Level

/-! ## Pack and unpack -/

/-- The entries of a level for the ranks of the group; a table that is too short is read past its
end. `MPIDI_PSP_pack_topology_badges` (`mpid_pg.c:953-959`). -/
def Level.packTable (size : Nat) (l : Level) : Option (List Int) :=
  match l.badgeTable with
  | some t => if size ≤ t.length then some (t.take size) else none
  | none => some (List.replicate size badgeNull)

/-- `:952-968`. -/
def Level.pack (size : Nat) (l : Level) : Option (List Int) :=
  (l.packTable size).map (· ++ [l.degree, l.maxBadge, l.badgesAreGlobal])

/-- `MPIDI_PSP_pack_topology_badges` (:941). -/
def packTopologyBadges (size : Nat) : List Level → Option (List Int)
  | [] => some []
  | l :: ls => do
    let head ← l.pack size
    let tail ← packTopologyBadges size ls
    some (head ++ tail)

/-- One level out of the message. `:983-998`. -/
def unpackLevel (size : Nat) (msg : List Int) : Option Level := do
  let first ← msg[0]?
  let degree ← msg[size]?
  let maxBadge ← msg[size + 1]?
  let badgesAreGlobal ← msg[size + 2]?
  if first ≠ badgeNull then
    some ⟨degree, maxBadge, badgesAreGlobal, some (msg.take size)⟩
  else if maxBadge = badgeNull then
    some ⟨degree, maxBadge, badgesAreGlobal, none⟩
  else none

/-- `MPIDI_PSP_unpack_topology_badges` (:975). -/
def unpackTopologyBadges (size : Nat) : Nat → List Int → List Level → Option (List Level)
  | 0, _, levels => some levels
  | n + 1, msg, levels => do
    let level ← unpackLevel size msg
    unpackTopologyBadges size n (msg.drop (size + 3)) (level :: levels)

/-- `:1020-1026`. -/
def insertLevel (level : Level) : List Level → List Level
  | [] => [level]
  | tl :: tls => if tl.degree > level.degree then tl :: insertLevel level tls else level :: tl :: tls

/-- `MPIDI_PSP_add_topo_level_to_pg` (:1010). -/
def addTopoLevelToPg (levels : List Level) (level : Level) : Option (List Level) :=
  match levels with
  | [] => some [level]
  | tl :: tls =>
    if tl.degree < level.degree then some (level :: tl :: tls)
    else if tl.degree = level.degree then none
    else some (tl :: insertLevel level tls)

/-- `MPIDI_PSP_add_topo_levels_to_pg` (:1037). -/
def addTopoLevelsToPg (levels : List Level) : List Level → Option (List Level)
  | [] => some levels
  | level :: rest => (addTopoLevelToPg levels level).bind fun ls => addTopoLevelsToPg ls rest

/-! ## The round trip -/

def Descending (ls : List Level) : Prop := ls.Pairwise fun a b => b.degree < a.degree

/-- The level as another process can have it: the table has the entries of the ranks of the
group. -/
def Level.truncate (size : Nat) (l : Level) : Level :=
  { l with badgeTable := l.badgeTable.map fun t => t.take size }

def transfer (size : Nat) (ls : List Level) : Option (List Level) :=
  (packTopologyBadges size ls).bind fun msg =>
    (unpackTopologyBadges size ls.length msg []).bind fun levels => addTopoLevelsToPg [] levels

def Pg.RoundTrips (pg : Pg) : Prop :=
  transfer pg.size pg.topoLevels = some (pg.topoLevels.map (Level.truncate pg.size)) ∧
    Descending (pg.topoLevels.map (Level.truncate pg.size))

def Level.Covers (size : Nat) (l : Level) : Prop :=
  ∀ t, l.badgeTable = some t → size ≤ t.length

def Level.FirstKnown (l : Level) : Prop :=
  ∀ t, l.badgeTable = some t → t[0]? ≠ some badgeNull

section
variable {size : Nat} {l : Level} {ls : List Level}

theorem Level.packTable_length {tbl : List Int} (h : l.packTable size = some tbl) :
    tbl.length = size := by
  unfold Level.packTable at h
  split at h
  · obtain ⟨hle, h⟩ := ite_none_right_eq_some.1 h
    cases h
    simp [hle]
  · cases h
    simp

theorem Level.packTable_covers (h : l.Covers size) :
    l.packTable size = some (match l.badgeTable with
      | some t => t.take size
      | none => List.replicate size badgeNull) := by
  unfold Level.packTable
  split
  · next t ht => rw [if_pos (h t ht)]
  · rfl

theorem Level.packTable_eq_none : l.packTable size = none ↔ ¬ l.Covers size := by
  unfold Level.packTable Level.Covers
  split
  · next t ht => simp [ht]
  · next ht => simp [ht]

theorem unpackLevel_append {tbl rest : List Int} (ht : tbl.length = size) (hs : 0 < size)
    (degree maxBadge glob : Int) :
    unpackLevel size (tbl ++ [degree, maxBadge, glob] ++ rest) =
      if tbl[0]? ≠ some badgeNull then some ⟨degree, maxBadge, glob, some tbl⟩
      else if maxBadge = badgeNull then some ⟨degree, maxBadge, glob, none⟩
      else none := by
  subst ht
  obtain ⟨b, tbl, rfl⟩ := exists_cons_of_length_pos hs
  have h1 : (b :: tbl ++ [degree, maxBadge, glob] ++ rest)[(b :: tbl).length]? = some degree := by
    rw [append_assoc, List.getElem?_append_right (Nat.le_refl _)]
    simp
  have h2 : (b :: tbl ++ [degree, maxBadge, glob] ++ rest)[(b :: tbl).length + 1]? =
      some maxBadge := by
    rw [append_assoc, List.getElem?_append_right (by omega)]
    simp
  have h3 : (b :: tbl ++ [degree, maxBadge, glob] ++ rest)[(b :: tbl).length + 2]? =
      some glob := by
    rw [append_assoc, List.getElem?_append_right (by omega)]
    simp
  have h4 : (b :: tbl ++ [degree, maxBadge, glob] ++ rest).take (b :: tbl).length = b :: tbl := by
    rw [append_assoc, take_left]
  unfold unpackLevel
  rw [h1, h2, h3, h4]
  simp

/-- What a level becomes that is packed and unpacked: a table whose first entry is not known is
taken for a dummy. -/
def Level.unpacked (size : Nat) (l : Level) : Option Level :=
  match l.badgeTable with
  | some t =>
    if t[0]? ≠ some badgeNull then some (l.truncate size)
    else if l.maxBadge = badgeNull then some { l with badgeTable := none } else none
  | none => if l.maxBadge = badgeNull then some l else none

theorem unpackLevel_pack {msg rest : List Int} (hs : 0 < size) (h : l.pack size = some msg) :
    unpackLevel size (msg ++ rest) = l.unpacked size := by
  obtain ⟨tbl, htbl, rfl⟩ := map_eq_some_iff.1 h
  rw [unpackLevel_append (Level.packTable_length htbl) hs]
  unfold Level.packTable at htbl
  unfold Level.unpacked Level.truncate
  split at htbl
  · next t ht =>
    obtain ⟨-, htbl⟩ := ite_none_right_eq_some.1 htbl
    cases htbl
    rw [List.getElem?_take_of_lt hs]
    simp only [ht, map_some]
  · next ht =>
    cases htbl
    simp only [List.getElem?_replicate, hs, ↓reduceIte, ne_eq, not_true_eq_false]
    cases l
    simp_all

theorem Level.pack_length {msg : List Int} (h : l.pack size = some msg) :
    msg.length = size + 3 := by
  obtain ⟨tbl, htbl, rfl⟩ := map_eq_some_iff.1 h
  simp [Level.packTable_length htbl]

theorem unpack_pack {msg : List Int} {acc : List Level} (hs : 0 < size)
    (h : packTopologyBadges size ls = some msg) :
    unpackTopologyBadges size ls.length msg acc =
      (ls.mapM (Level.unpacked size)).map fun ls' => ls'.reverse ++ acc := by
  induction ls generalizing msg acc with
  | nil => simp [unpackTopologyBadges]
  | cons l ls ih =>
    obtain ⟨head, hhead, h⟩ := bind_eq_some_iff.1 h
    obtain ⟨tail, htail, h⟩ := bind_eq_some_iff.1 h
    cases h
    have hdrop : (head ++ tail).drop (size + 3) = tail := by
      rw [← Level.pack_length hhead, drop_left]
    simp only [length_cons, unpackTopologyBadges, unpackLevel_pack hs hhead, hdrop,
      mapM_cons]
    cases l.unpacked size with
    | none => rfl
    | some l' =>
      simp only [bind_eq_bind, bind_some, ih htail]
      cases ls.mapM (Level.unpacked size) with
      | none => rfl
      | some ls' => simp

theorem pack_eq_some_iff : (∃ msg, packTopologyBadges size ls = some msg) ↔
    ∀ l ∈ ls, l.Covers size := by
  induction ls with
  | nil => simp [packTopologyBadges]
  | cons l ls ih =>
    constructor
    · rintro ⟨msg, h⟩ x hx
      obtain ⟨head, hhead, h⟩ := bind_eq_some_iff.1 h
      obtain ⟨tail, htail, -⟩ := bind_eq_some_iff.1 h
      rcases mem_cons.1 hx with rfl | hx
      · obtain ⟨tbl, htbl, -⟩ := map_eq_some_iff.1 hhead
        by_contra hno
        rw [Level.packTable_eq_none.2 hno] at htbl
        cases htbl
      · exact ih.1 ⟨tail, htail⟩ x hx
    · intro h
      obtain ⟨tail, htail⟩ := ih.2 fun x hx => h x (mem_cons_of_mem _ hx)
      have hcov := Level.packTable_covers (h l mem_cons_self)
      simp [packTopologyBadges, Level.pack, hcov, htail]

theorem addTopoLevelToPg_front (h : ∀ x ∈ ls, x.degree < l.degree) :
    addTopoLevelToPg ls l = some (l :: ls) := by
  cases ls with
  | nil => rfl
  | cons tl tls => rw [addTopoLevelToPg, if_pos (h tl mem_cons_self)]

theorem addTopoLevelsToPg_reverse {acc : List Level} (h : Descending (ls.reverse ++ acc)) :
    addTopoLevelsToPg acc ls = some (ls.reverse ++ acc) := by
  induction ls generalizing acc with
  | nil => rfl
  | cons l ls ih =>
    rw [reverse_cons, append_assoc, singleton_append] at h ⊢
    have hfront : ∀ x ∈ acc, x.degree < l.degree :=
      (pairwise_cons.1 (pairwise_append.1 h).2.1).1
    rw [addTopoLevelsToPg, addTopoLevelToPg_front hfront]
    exact ih h

theorem Level.unpacked_degree {l' : Level} (h : l.unpacked size = some l') :
    l'.degree = l.degree := by
  unfold Level.unpacked Level.truncate at h
  split at h
  · split at h
    · cases h
      rfl
    · split at h <;> cases h
      rfl
  · split at h <;> cases h
    rfl

theorem Descending.of_forall₂ {ls' : List Level}
    (h : List.Forall₂ (fun a b => b.degree = a.degree) ls ls') (hd : Descending ls) :
    Descending ls' := by
  have hmap : ls'.map Level.degree = ls.map Level.degree := by
    induction h with
    | nil => rfl
    | cons hab _ ih => rw [map_cons, map_cons, hab, ih (pairwise_cons.1 hd).2]
  have hd' : (ls.map Level.degree).Pairwise fun a b => b < a := pairwise_map.2 hd
  rw [← hmap] at hd'
  exact pairwise_map.1 hd'

theorem transfer_eq_some_iff {ls' : List Level} (hs : 0 < size) (hd : Descending ls) :
    transfer size ls = some ls' ↔
      (∀ l ∈ ls, l.Covers size) ∧ List.Forall₂ (fun a b => a.unpacked size = some b) ls ls' := by
  have hadd : ∀ {ls'}, List.Forall₂ (fun a b => Level.unpacked size a = some b) ls ls' →
      addTopoLevelsToPg [] (ls'.reverse ++ []) = some ls' := by
    intro ls' h
    have hd' := Descending.of_forall₂ (h.imp fun _ _ hab => Level.unpacked_degree hab) hd
    have hrev : addTopoLevelsToPg [] ls'.reverse = some (ls'.reverse.reverse ++ []) :=
      addTopoLevelsToPg_reverse (by simpa using hd')
    simpa using hrev
  constructor
  · intro h
    obtain ⟨msg, hmsg, h⟩ := bind_eq_some_iff.1 h
    obtain ⟨levels, hlevels, h⟩ := bind_eq_some_iff.1 h
    rw [unpack_pack hs hmsg] at hlevels
    obtain ⟨ls₁, hls₁, rfl⟩ := map_eq_some_iff.1 hlevels
    have hall := mapM_eq_some_iff.1 hls₁
    rw [hadd hall] at h
    cases h
    exact ⟨pack_eq_some_iff.1 ⟨msg, hmsg⟩, hall⟩
  · rintro ⟨hcov, hall⟩
    obtain ⟨msg, hmsg⟩ := pack_eq_some_iff.2 hcov
    rw [transfer, hmsg, bind_some, unpack_pack hs hmsg, mapM_eq_some_iff.2 hall]
    exact hadd hall

theorem Level.unpacked_iff (hdummy : l.badgeTable = none → l.maxBadge = badgeNull) :
    l.unpacked size = some (l.truncate size) ↔ l.FirstKnown := by
  unfold Level.unpacked Level.FirstKnown
  split
  · next t ht =>
    constructor
    · intro h t' ht'
      obtain rfl : t = t' := Option.some.inj (ht.symm.trans ht')
      intro hfirst
      rw [if_neg (not_not.2 hfirst)] at h
      split at h
      · have := congrArg Level.badgeTable (Option.some.inj h)
        simp [Level.truncate, ht] at this
      · cases h
    · intro h
      rw [if_pos (h t ht)]
  · next ht =>
    rw [if_pos (hdummy ht)]
    refine ⟨fun _ t h => ?_, fun _ => ?_⟩
    · rw [ht] at h
      cases h
    · cases l
      simp_all [Level.truncate]

theorem Pg.roundTrips_iff {pg : Pg} (hs : 0 < pg.size) (hd : Descending pg.topoLevels)
    (hdummy : ∀ l ∈ pg.topoLevels, l.badgeTable = none → l.maxBadge = badgeNull) :
    pg.RoundTrips ↔ ∀ l ∈ pg.topoLevels, l.Covers pg.size ∧ l.FirstKnown := by
  have htrunc : Descending (pg.topoLevels.map (Level.truncate pg.size)) :=
    pairwise_map.2 hd
  unfold Pg.RoundTrips
  rw [and_iff_left htrunc, transfer_eq_some_iff hs hd, List.forall₂_map_right_iff]
  constructor
  · rintro ⟨hcov, hall⟩ l hl
    have hsame := List.forall₂_same.1 hall l hl
    exact ⟨hcov l hl, (Level.unpacked_iff (hdummy l hl)).1 hsame⟩
  · intro h
    refine ⟨fun l hl => (h l hl).1, List.forall₂_same.2 fun l hl => ?_⟩
    exact (Level.unpacked_iff (hdummy l hl)).2 (h l hl).2

end

end PsMpi.Topo
