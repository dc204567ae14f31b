import PsMpi.Topo.Groups

/-!
# The topology levels in all runs

`PgStep` says where the groups of the processes after a step come from.
-/

open PsMpi.Lib List Option

namespace PsMpi.Topo

section
variable {s s' : Nat → List Pg} {a : TopoAct} {pg : Pg} {pgs pgs' : List Pg} {l : Level}
  {ls ls' home : List Level}

/-! ## Levels that are added -/

theorem mem_insertLevel {x : Level} : x ∈ insertLevel l ls ↔ x = l ∨ x ∈ ls := by
  induction ls with
  | nil => simp [insertLevel]
  | cons tl tls ih =>
    unfold insertLevel
    split
    · simp only [mem_cons, ih]
      exact or_left_comm
    · simp

theorem Descending.insertLevel (hd : Descending ls) (hne : ∀ x ∈ ls, x.degree ≠ l.degree) :
    Descending (insertLevel l ls) := by
  induction ls with
  | nil => exact pairwise_singleton _ _
  | cons tl tls ih =>
    obtain ⟨htl, htls⟩ := pairwise_cons.1 hd
    unfold PsMpi.Topo.insertLevel
    split
    · next hgt =>
      refine pairwise_cons.2 ⟨fun x hx => ?_, ih htls fun x hx =>
        hne x (mem_cons_of_mem _ hx)⟩
      rcases mem_insertLevel.1 hx with rfl | hx
      · exact hgt
      · exact htl x hx
    · next hle =>
      have hlt : tl.degree < l.degree := by
        have := hne tl mem_cons_self
        omega
      refine pairwise_cons.2 ⟨fun x hx => ?_, hd⟩
      rcases mem_cons.1 hx with rfl | hx
      · exact hlt
      · exact Int.lt_trans (htl x hx) hlt

theorem addTopoLevelToPg_spec (h : addTopoLevelToPg ls l = some ls') (hd : Descending ls)
    (hne : ∀ x ∈ ls, x.degree ≠ l.degree) :
    Descending ls' ∧ ∀ x ∈ ls', x = l ∨ x ∈ ls := by
  unfold addTopoLevelToPg at h
  split at h
  · cases h
    exact ⟨pairwise_singleton _ _, fun x hx => .inl (mem_singleton.1 hx)⟩
  · next tl tls =>
    obtain ⟨htl, htls⟩ := pairwise_cons.1 hd
    split at h
    · next hlt =>
      cases h
      refine ⟨pairwise_cons.2 ⟨fun x hx => ?_, hd⟩, fun x hx => mem_cons.1 hx⟩
      rcases mem_cons.1 hx with rfl | hx
      · exact hlt
      · exact Int.lt_trans (htl x hx) hlt
    · next hnlt =>
      split at h
      · cases h
      · next hneq =>
        cases h
        have hins := Descending.insertLevel htls fun x hx => hne x (mem_cons_of_mem _ hx)
        refine ⟨pairwise_cons.2 ⟨fun x hx => ?_, hins⟩, fun x hx => ?_⟩
        · rcases mem_insertLevel.1 hx with rfl | hx
          · omega
          · exact htl x hx
        · rcases mem_cons.1 hx with rfl | hx
          · exact .inr mem_cons_self
          · exact (mem_insertLevel.1 hx).imp id (mem_cons_of_mem _)

theorem addFlatLevels_spec (h : addFlatLevels home ls = some ls') (hd : Descending home) :
    Descending ls' ∧ ∀ x ∈ ls', x ∈ home ∨ ∃ d, x = flatLevel d := by
  induction ls generalizing home with
  | nil =>
    cases h
    exact ⟨hd, fun x hx => .inl hx⟩
  | cons level rest ih =>
    unfold addFlatLevels at h
    split at h
    · next hnew =>
      obtain ⟨home', hadd, h⟩ := bind_eq_some_iff.1 h
      have hne : ∀ x ∈ home, x.degree ≠ (flatLevel level.degree).degree := by
        intro x hx heq
        have hany := any_eq_false.1 hnew.2 x hx
        exact hany (by simpa [flatLevel] using heq)
      obtain ⟨hd', hmem'⟩ := addTopoLevelToPg_spec hadd hd hne
      obtain ⟨hd'', hmem''⟩ := ih h hd'
      refine ⟨hd'', fun x hx => ?_⟩
      rcases hmem'' x hx with hx | hx
      · rcases hmem' x hx with rfl | hx
        · exact .inr ⟨_, rfl⟩
        · exact .inl hx
      · exact .inr hx
    · exact ih h hd

/-! ## Badges that are entered -/

def Level.Updated (l l' : Level) : Prop :=
  l' = l ∨ l'.degree = l.degree ∧
    ∃ t t', l.badgeTable = some t ∧ l'.badgeTable = some t' ∧ t'.length = t.length

theorem fillBadges_length (ranks : List Nat) (badge : Nat → Int) (t : List Int) :
    (fillBadges ranks badge t).length = t.length := by
  unfold fillBadges
  induction ranks generalizing t with
  | nil => rfl
  | cons r ranks ih => rw [foldl_cons, ih, length_set]

theorem updateBadgeTable_updated {size : Nat} {ranks : List Nat} {badge : Bool → Nat → Int}
    {normalize : Bool} {t : List Int} (ht : l.badgeTable = some t) :
    l.Updated (updateBadgeTable size ranks badge normalize l t) := by
  unfold updateBadgeTable
  split
  · exact .inl rfl
  · dsimp only
    split
    · exact .inr ⟨rfl, t, _, ht, rfl, by rw [fillBadges_length, fillBadges_length]⟩
    · exact .inr ⟨rfl, t, _, ht, rfl, fillBadges_length ..⟩

theorem updateLevels_updated {size : Nat} {ranks : List Nat} {badge : Bool → Nat → Int}
    {normalize : Bool} {degree : Int}
    (h : updateLevels size ranks badge normalize degree ls = some ls') :
    List.Forall₂ Level.Updated ls ls' := by
  induction ls generalizing ls' with
  | nil =>
    cases h
    exact .nil
  | cons l ls ih =>
    unfold updateLevels at h
    split at h
    · obtain ⟨t, ht, rfl⟩ := map_eq_some_iff.1 h
      exact .cons (updateBadgeTable_updated ht) (List.forall₂_same.2 fun _ _ => .inl rfl)
    · obtain ⟨ls₁, hls₁, rfl⟩ := map_eq_some_iff.1 h
      exact .cons (.inl rfl) (ih hls₁)

/-! ## What a step does -/

inductive PgStep (s : Nat → List Pg) (a : TopoAct) : Pg → Prop
  | same {p : Nat} {pg : Pg} (h : pg ∈ s p) : PgStep s a pg
  | started {idNum size : Nat} {msa : Bool} (h : 0 < size) :
      PgStep s a ⟨idNum, size, topoInit size msa⟩
  | updated {p : Nat} {pg : Pg} {ls : List Level} (h : pg ∈ s p)
      (hls : List.Forall₂ Level.Updated pg.topoLevels ls) : PgStep s a { pg with topoLevels := ls }
  | met {idNum rank : Nat} : PgStep s a ⟨idNum, rank + 1, []⟩
  | grown {p rank : Nat} {pg : Pg} (ha : a = .gpid p pg.idNum rank) (h : pg ∈ s p)
      (hr : pg.size ≤ rank) : PgStep s a { pg with size := rank + 1 }
  | copied {p : Nat} {pg : Pg} {ls : List Level} (h : pg ∈ s p)
      (hls : transfer pg.size pg.topoLevels = some ls) : PgStep s a ⟨pg.idNum, pg.size, ls⟩
  | given {p q : Nat} {pg old : Pg} {ls : List Level} (ha : a = .forward p q pg.idNum)
      (h : pg ∈ s p) (hold : old ∈ s q) (hid : old.idNum = pg.idNum)
      (hnone : old.topoLevels = []) (hls : transfer pg.size pg.topoLevels = some ls) :
      PgStep s a { old with topoLevels := ls }
  | flat {p : Nat} {pg : Pg} {ls hls : List Level} (h : pg ∈ s p)
      (hadd : addFlatLevels pg.topoLevels ls = some hls) :
      PgStep s a { pg with topoLevels := hls }

theorem addTopoLevelsToPg_nil_topoInit (size : Nat) (msa : Bool) :
    addTopoLevelsToPg [] (topoInit size msa) = some (topoInit size msa) := by
  cases msa <;> rfl

theorem pgCreate_cases {size idNum : Nat} (h : pgCreate pgs size idNum ls = some pgs')
    (hpg : pg ∈ pgs') : ∃ ls₁, addTopoLevelsToPg [] ls = some ls₁ ∧ (pg ∈ pgs ∨
      pg = ⟨idNum, size, ls₁⟩ ∨ ∃ old ∈ pgs, ∃ hls, addFlatLevels old.topoLevels ls₁ = some hls ∧
        pg = { old with topoLevels := hls }) := by
  obtain ⟨ls₁, hls₁, h⟩ := bind_eq_some_iff.1 h
  refine ⟨ls₁, hls₁, ?_⟩
  cases pgs with
  | nil =>
    cases h
    exact .inr (.inl (mem_singleton.1 hpg))
  | cons old rest =>
    obtain ⟨hls, hflat, rfl⟩ := map_eq_some_iff.1 h
    rcases mem_append.1 hpg with hpg | hpg
    · rcases mem_cons.1 hpg with rfl | hpg
      · exact .inr (.inr ⟨old, mem_cons_self, hls, hflat, rfl⟩)
      · exact .inl (mem_cons_of_mem _ hpg)
    · exact .inr (.inl (mem_singleton.1 hpg))

theorem growPg_cases {idNum rank : Nat} (h : growPg idNum rank pgs = some pgs') (hpg : pg ∈ pgs') :
    pg ∈ pgs ∨ ∃ old ∈ pgs, old.idNum = idNum ∧ old.size ≤ rank ∧
      pg = { old with size := rank + 1 } := by
  induction pgs generalizing pgs' with
  | nil => cases h
  | cons old pgs ih =>
    unfold growPg at h
    split at h
    · next hid =>
      cases h
      rcases mem_cons.1 hpg with rfl | hpg
      · split
        · next hle => exact .inr ⟨old, mem_cons_self, hid, hle, rfl⟩
        · exact .inl mem_cons_self
      · exact .inl (mem_cons_of_mem _ hpg)
    · obtain ⟨pgs₁, hpgs₁, rfl⟩ := map_eq_some_iff.1 h
      rcases mem_cons.1 hpg with rfl | hpg
      · exact .inl mem_cons_self
      · rcases ih hpgs₁ hpg with hpg | ⟨old', hold', hrest⟩
        · exact .inl (mem_cons_of_mem _ hpg)
        · exact .inr ⟨old', mem_cons_of_mem _ hold', hrest⟩

theorem setLevels_cases {idNum : Nat} {old : Pg}
    (hold : (pgs.find? fun old => old.idNum == idNum) = some old)
    (hpg : pg ∈ setLevels idNum ls pgs) : pg ∈ pgs ∨ pg = { old with topoLevels := ls } := by
  induction pgs with
  | nil => cases hold
  | cons pg' pgs ih =>
    unfold setLevels at hpg
    by_cases hid : pg'.idNum = idNum
    · rw [List.find?_cons_of_pos (by simpa using hid)] at hold
      cases hold
      rw [if_pos hid] at hpg
      exact (mem_cons.1 hpg).symm.imp (mem_cons_of_mem _) id
    · rw [List.find?_cons_of_neg (by simpa using hid)] at hold
      rw [if_neg hid] at hpg
      rcases mem_cons.1 hpg with rfl | hpg
      · exact .inl mem_cons_self
      · exact (ih hold hpg).imp (mem_cons_of_mem _) id

theorem forwardPg_cases {p q : Nat} (h : forwardPg pg (s q) = some pgs') (hp : pg ∈ s p)
    {pg' : Pg} (hpg' : pg' ∈ pgs') : PgStep s (.forward p q pg.idNum) pg' := by
  obtain ⟨msg, hmsg, h⟩ := bind_eq_some_iff.1 h
  have htransfer : ∀ {levels ls}, unpackTopologyBadges pg.size pg.topoLevels.length msg [] =
      some levels → addTopoLevelsToPg [] levels = some ls →
      transfer pg.size pg.topoLevels = some ls := by
    intro levels ls hlevels hls
    rw [transfer, hmsg, bind_some, hlevels, bind_some, hls]
  split at h
  · obtain ⟨levels, hlevels, h⟩ := bind_eq_some_iff.1 h
    obtain ⟨ls, hls, hmem | rfl | ⟨old, hold, hls', hflat, rfl⟩⟩ := pgCreate_cases h hpg'
    · exact .same hmem
    · exact .copied hp (htransfer hlevels hls)
    · exact .flat hold hflat
  · next old hfind =>
    split at h
    · next hnone =>
      obtain ⟨levels, hlevels, h⟩ := bind_eq_some_iff.1 h
      obtain ⟨ls, hls, rfl⟩ := map_eq_some_iff.1 h
      rcases setLevels_cases hfind hpg' with hmem | rfl
      · exact .same hmem
      · exact .given rfl hp (mem_of_find?_eq_some hfind)
          (by simpa using List.find?_some hfind) hnone.1 (htransfer hlevels hls)
    · cases h
      exact .same hpg'

theorem topoStep_cases (hs : topoStep s a = some s') {p : Nat} (hpg : pg ∈ s' p) :
    PgStep s a pg := by
  -- A step changes the groups of one process.
  have hupdate : ∀ {q pgs'}, s' = Function.update s q pgs' → (pg ∈ pgs' → PgStep s a pg) →
      PgStep s a pg := by
    rintro q pgs' rfl h
    by_cases hq : p = q
    · subst hq
      exact h (by simpa using hpg)
    · rw [Function.update_of_ne hq] at hpg
      exact .same hpg
  cases a with
  | init q idNum size msa =>
    obtain ⟨⟨-, hsize⟩, hs⟩ := ite_none_right_eq_some.1 hs
    obtain ⟨pgs', hpgs', rfl⟩ := map_eq_some_iff.1 hs
    refine hupdate rfl fun hmem => ?_
    obtain ⟨ls, hls, hnil | rfl | ⟨old, hold, -⟩⟩ := pgCreate_cases hpgs' hmem
    · cases hnil
    · rw [addTopoLevelsToPg_nil_topoInit] at hls
      cases hls
      exact .started hsize
    · cases hold
  | update q ranks badge =>
    simp only [topoStep] at hs
    split at hs
    · cases hs
    · next old rest hq =>
      obtain ⟨ls, hls, rfl⟩ := map_eq_some_iff.1 hs
      refine hupdate rfl fun hmem => ?_
      rcases mem_cons.1 hmem with rfl | hmem
      · exact .updated (hq ▸ mem_cons_self) (updateLevels_updated hls)
      · exact .same (hq ▸ mem_cons_of_mem _ hmem)
  | gpid q idNum rank =>
    obtain ⟨-, hs⟩ := ite_none_left_eq_some.1 hs
    obtain ⟨pgs', hpgs', rfl⟩ := map_eq_some_iff.1 hs
    refine hupdate rfl fun hmem => ?_
    unfold gpidPg at hpgs'
    split at hpgs'
    · next hgrow =>
      cases hpgs'
      rcases growPg_cases hgrow hmem with hmem | ⟨old, hold, rfl, hle, rfl⟩
      · exact .same hmem
      · exact .grown rfl hold hle
    · obtain ⟨ls, hls, hmem | rfl | ⟨old, hold, hls', hflat, rfl⟩⟩ := pgCreate_cases hpgs' hmem
      · exact .same hmem
      · cases hls
        exact .met
      · exact .flat hold hflat
  | forward q q' idNum =>
    simp only [topoStep] at hs
    split at hs
    · cases hs
    · next pg₀ hfind =>
      obtain ⟨-, hs⟩ := ite_none_left_eq_some.1 hs
      obtain ⟨pgs', hpgs', rfl⟩ := map_eq_some_iff.1 hs
      refine hupdate rfl fun hmem => ?_
      have hid : pg₀.idNum = idNum := by simpa using List.find?_some hfind
      exact hid ▸ forwardPg_cases hpgs' (mem_of_find?_eq_some hfind) hmem

/-! ## The round trip of the levels -/

structure Pg.Ok (pg : Pg) : Prop where
  size : 0 < pg.size
  levels : Descending pg.topoLevels
  dummy : ∀ l ∈ pg.topoLevels, l.badgeTable = none → l.maxBadge = badgeNull

theorem Level.unpacked_dummy {size : Nat} {l' : Level} (h : l.unpacked size = some l')
    (hnone : l'.badgeTable = none) : l'.maxBadge = badgeNull := by
  unfold Level.unpacked at h
  split at h
  · next t ht =>
    split at h
    · cases h
      simp [Level.truncate, ht] at hnone
    · split at h
      · next hmax =>
        cases h
        exact hmax
      · cases h
  · split at h
    · next hmax =>
      cases h
      exact hmax
    · cases h

theorem forall₂_mem_right {α β : Type} {R : α → β → Prop} {l : List α} {l' : List β}
    (h : List.Forall₂ R l l') {b : β} (hb : b ∈ l') : ∃ a ∈ l, R a b := by
  induction h with
  | nil => cases hb
  | cons hab _ ih =>
    rcases mem_cons.1 hb with rfl | hb
    · exact ⟨_, mem_cons_self, hab⟩
    · obtain ⟨a, ha, hR⟩ := ih hb
      exact ⟨a, mem_cons_of_mem _ ha, hR⟩

theorem Pg.Ok.transfer (h : pg.Ok) (hls : transfer pg.size pg.topoLevels = some ls) :
    Descending ls ∧ ∀ l ∈ ls, l.badgeTable = none → l.maxBadge = badgeNull := by
  obtain ⟨-, hall⟩ := (transfer_eq_some_iff h.size h.levels).1 hls
  refine ⟨.of_forall₂ (hall.imp fun _ _ hab => Level.unpacked_degree hab) h.levels,
    fun l hl hnone => ?_⟩
  obtain ⟨l₀, -, hl₀⟩ := forall₂_mem_right hall hl
  exact Level.unpacked_dummy hl₀ hnone

theorem PgStep.ok (h : ∀ p, ∀ pg ∈ s p, pg.Ok) (hpg : PgStep s a pg) : pg.Ok := by
  cases hpg with
  | same hmem => exact h _ _ hmem
  | @started idNum size msa hsize =>
    refine ⟨hsize, ?_, fun l hl hnone => ?_⟩
    · cases msa
      · exact .nil
      · exact pairwise_singleton _ _
    · cases msa
      · cases hl
      · rw [mem_singleton.1 hl] at hnone
        cases hnone
  | updated hmem hls =>
    have hok := h _ _ hmem
    refine ⟨hok.size, .of_forall₂ (hls.imp fun a b hab => ?_) hok.levels, fun l hl hnone => ?_⟩
    · rcases hab with rfl | ⟨hdeg, -⟩
      · rfl
      · exact hdeg
    · obtain ⟨l₀, hl₀, rfl | ⟨-, t, t', -, ht', -⟩⟩ := forall₂_mem_right hls hl
      · exact hok.dummy _ hl₀ hnone
      · rw [ht'] at hnone
        cases hnone
  | met => exact ⟨Nat.succ_pos _, .nil, nofun⟩
  | grown _ hmem _ =>
    have hok := h _ _ hmem
    exact ⟨Nat.succ_pos _, hok.levels, hok.dummy⟩
  | copied hmem hls =>
    have hok := h _ _ hmem
    exact ⟨hok.size, (hok.transfer hls).1, (hok.transfer hls).2⟩
  | given _ hmem hold _ _ hls =>
    have hok := h _ _ hmem
    exact ⟨(h _ _ hold).size, (hok.transfer hls).1, (hok.transfer hls).2⟩
  | flat hmem hadd =>
    have hok := h _ _ hmem
    obtain ⟨hd, hmem'⟩ := addFlatLevels_spec hadd hok.levels
    refine ⟨hok.size, hd, fun l hl hnone => ?_⟩
    rcases hmem' l hl with hl | ⟨d, rfl⟩
    · exact hok.dummy l hl hnone
    · rfl

end

theorem topo_ok {s : Nat → List Pg} (hr : topoSys.Reach s) : ∀ p, ∀ pg ∈ s p, pg.Ok :=
  Sys.Reach.inv (I := fun s => ∀ p, ∀ pg ∈ s p, pg.Ok) nofun
    (fun hi hs _ _ hpg => (topoStep_cases hs hpg).ok hi) hr

/-- **The round trip of the topology levels.** In every reachable state, the levels of a group come
out at another process as they went in, in descending order of their degrees, if and only if every
badge table covers the group and has a known badge for its first rank. -/
theorem topo_round_trip_iff (s : Nat → List Pg) (hr : topoSys.Reach s) (p : Nat) (pg : Pg)
    (hpg : pg ∈ s p) :
    pg.RoundTrips ↔ ∀ l ∈ pg.topoLevels, l.Covers pg.size ∧ l.FirstKnown := by
  have hok := topo_ok hr p pg hpg
  exact Pg.roundTrips_iff hok.size hok.levels hok.dummy

/-- A group of two processes, both of which are in the communicator whose badges are entered. -/
theorem topo_round_trip_full : ∃ s, topoSys.Reach s ∧
    s 0 = [⟨7, 2, [⟨4096, 3, 1, some [3, 3]⟩]⟩] ∧
    Pg.RoundTrips ⟨7, 2, [⟨4096, 3, 1, some [3, 3]⟩]⟩ := by
  obtain ⟨s, he, hs⟩ : ∃ s, topoSys.exec topoSys.init
      [.init 0 7 2 true, .update 0 [0, 1] fun _ _ => 3] = some s ∧
      s 0 = [⟨7, 2, [⟨4096, 3, 1, some [3, 3]⟩]⟩] := ⟨_, rfl, rfl⟩
  have hr := Sys.exec_reach .init he
  refine ⟨s, hr, hs, (topo_round_trip_iff s hr 0 _ (hs ▸ mem_singleton_self _)).2 ?_⟩
  intro l hl
  rw [mem_singleton.1 hl]
  constructor
  · intro t ht
    cases ht
    decide
  · intro t ht
    cases ht
    decide

/-- A group of two processes, of which only the second one is in the communicator whose badges are
entered: the message fails the assertion of the other process. -/
theorem topo_round_trip_partial :
    ¬ ∀ s, topoSys.Reach s → ∀ p, ∀ pg ∈ s p, pg.RoundTrips := by
  intro h
  obtain ⟨s, he, hs⟩ : ∃ s, topoSys.exec topoSys.init
      [.init 0 7 2 true, .update 0 [1] fun _ _ => 0] = some s ∧
      s 0 = [⟨7, 2, [⟨4096, 0, 1, some [-1, 0]⟩]⟩] := ⟨_, rfl, rfl⟩
  have hround := (h s (Sys.exec_reach .init he) 0 _ (hs ▸ mem_singleton_self _)).1
  have hnone : transfer 2 [⟨4096, 0, 1, some [-1, 0]⟩] = none := by decide
  rw [hnone] at hround
  cases hround

/-! ## The size of the badge tables -/

/-- A group is not made larger than its badge tables, and a group that is known without levels gets
tables only from a process that knows it with at least the same size. -/
def GrowsInTables (s : Nat → List Pg) : TopoAct → Prop
  | .gpid p idNum rank => ∀ pg ∈ s p, pg.idNum = idNum → pg.size ≤ rank →
    ∀ l ∈ pg.topoLevels, l.Covers (rank + 1)
  | .forward p q idNum => ∀ pg ∈ s p, ∀ old ∈ s q, pg.idNum = idNum → old.idNum = idNum →
    old.topoLevels = [] → (∃ l ∈ pg.topoLevels, l.badgeTable ≠ none) → old.size ≤ pg.size
  | _ => True

section
variable {s s' : Nat → List Pg} {a : TopoAct} {pg : Pg} {ls : List Level}

theorem transfer_covers (h : pg.Ok) (hls : transfer pg.size pg.topoLevels = some ls) {l : Level}
    (hl : l ∈ ls) {t : List Int} (ht : l.badgeTable = some t) :
    t.length = pg.size ∧ ∃ l₀ ∈ pg.topoLevels, l₀.badgeTable ≠ none := by
  obtain ⟨hcov, hall⟩ := (transfer_eq_some_iff h.size h.levels).1 hls
  obtain ⟨l₀, hl₀, hun⟩ := forall₂_mem_right hall hl
  unfold Level.unpacked at hun
  split at hun
  · next t₀ ht₀ =>
    refine ⟨?_, l₀, hl₀, by rw [ht₀]; nofun⟩
    split at hun
    · cases hun
      simp only [Level.truncate, ht₀, map_some, Option.some.injEq] at ht
      rw [← ht, length_take, Nat.min_eq_left (hcov l₀ hl₀ t₀ ht₀)]
    · split at hun
      · cases hun
        cases ht
      · cases hun
  · next ht₀ =>
    split at hun
    · cases hun
      rw [ht₀] at ht
      cases ht
    · cases hun

theorem PgStep.covers (hok : ∀ p, ∀ pg ∈ s p, pg.Ok)
    (h : ∀ p, ∀ pg ∈ s p, ∀ l ∈ pg.topoLevels, l.Covers pg.size) (ha : GrowsInTables s a)
    (hpg : PgStep s a pg) : ∀ l ∈ pg.topoLevels, l.Covers pg.size := by
  intro l hl t ht
  cases hpg with
  | same hmem => exact h _ _ hmem l hl t ht
  | @started idNum size msa hsize =>
    cases msa
    · cases hl
    · obtain rfl := mem_singleton.1 hl
      cases ht
      simp
  | updated hmem hls =>
    obtain ⟨l₀, hl₀, rfl | ⟨-, t₀, t', ht₀, ht', hlen⟩⟩ := forall₂_mem_right hls hl
    · exact h _ _ hmem _ hl₀ t ht
    · obtain rfl : t' = t := Option.some.inj (ht'.symm.trans ht)
      rw [hlen]
      exact h _ _ hmem l₀ hl₀ t₀ ht₀
  | met => cases hl
  | grown hact hmem hr =>
    subst hact
    exact ha _ hmem rfl hr l hl t ht
  | copied hmem hls =>
    exact Nat.le_of_eq (transfer_covers (hok _ _ hmem) hls hl ht).1.symm
  | given hact hmem hold hid hnone hls =>
    subst hact
    obtain ⟨hlen, hreal⟩ := transfer_covers (hok _ _ hmem) hls hl ht
    have hle := ha _ hmem _ hold rfl hid hnone hreal
    exact hlen ▸ hle
  | flat hmem hadd =>
    obtain ⟨-, hmem'⟩ := addFlatLevels_spec hadd (hok _ _ hmem).levels
    rcases hmem' l hl with hl | ⟨d, rfl⟩
    · exact h _ _ hmem l hl t ht
    · cases ht

end

/-- **Badge tables cover their groups.** In all runs in which no group is made larger than its badge
tables, and a group that is known already gets tables only from a process that knows it with at
least the same size, every badge table has an entry for every rank of its group. -/
theorem badge_tables_cover (s : Nat → List Pg) (hr : topoSys.ReachWhen GrowsInTables s) :
    ∀ p, ∀ pg ∈ s p, ∀ l ∈ pg.topoLevels, ∀ t, l.badgeTable = some t → pg.size ≤ t.length := by
  have h : ∀ p, ∀ pg ∈ s p, ∀ l ∈ pg.topoLevels, l.Covers pg.size := by
    refine Sys.ReachWhen.inv
      (I := fun s => ∀ p, ∀ pg ∈ s p, ∀ l ∈ pg.topoLevels, l.Covers pg.size) nofun ?_ hr
    intro s a s' hreach hi ha hs p pg hpg
    exact (topoStep_cases hs hpg).covers (topo_ok hreach.reach) hi ha
  exact fun p pg hpg l hl t ht => h p pg hpg l hl t ht

theorem badge_tables_cover_copied : ∃ s, topoSys.ReachWhen GrowsInTables s ∧
    s 1 = [⟨9, 1, [flatLevel 4096]⟩, ⟨7, 2, [⟨4096, 3, 1, some [3, 3]⟩]⟩] ∧
    ∀ p, ∀ pg ∈ s p, ∀ l ∈ pg.topoLevels, ∀ t, l.badgeTable = some t → pg.size ≤ t.length := by
  have h₁ : topoSys.ReachWhen GrowsInTables _ :=
    .step (a := .init 0 7 2 true) .init trivial rfl
  have h₂ := Sys.ReachWhen.step (a := TopoAct.update 0 [0, 1] fun _ _ => 3) h₁ trivial rfl
  have h₃ := Sys.ReachWhen.step (a := TopoAct.init 1 9 1 false) h₂ trivial rfl
  have h₄ := Sys.ReachWhen.step (a := TopoAct.forward 0 1 7) h₃
    (fun pg _ old hold _ hid => by
      obtain rfl := mem_singleton.1 hold
      cases hid) rfl
  exact ⟨_, h₄, rfl, badge_tables_cover _ h₄⟩

/-- A process knows a group with one process only, gets the levels of the group, and tells another
one, which then meets a second process of the group. -/
theorem badge_tables_short : ¬ ∀ s, topoSys.Reach s → ∀ p, ∀ pg ∈ s p, ∀ l ∈ pg.topoLevels,
    ∀ t, l.badgeTable = some t → pg.size ≤ t.length := by
  intro h
  obtain ⟨s, he, hs⟩ : ∃ s, topoSys.exec topoSys.init
      [.init 0 7 2 true, .update 0 [0, 1] fun _ _ => 3, .init 1 9 1 false, .gpid 1 7 0,
        .forward 0 1 7, .init 2 11 1 false, .forward 1 2 7, .gpid 2 7 1] = some s ∧
      s 2 = [⟨11, 1, [flatLevel 4096]⟩, ⟨7, 2, [⟨4096, 3, 1, some [3]⟩]⟩] := ⟨_, rfl, rfl⟩
  have hle := h s (Sys.exec_reach .init he) 2 ⟨7, 2, [⟨4096, 3, 1, some [3]⟩]⟩
    (by rw [hs]; simp) _ (mem_singleton_self _) [3] rfl
  exact absurd hle (by decide)

end PsMpi.Topo
