import PsMpi.Topo.HierarchyOk

/-!
# The processes agree about the hierarchy
-/

open PsMpi.Lib List

namespace PsMpi.Topo

/-! ## Known badges -/

section badges

variable {v : View} {ms : List Member} {l : Level} {i me : Nat} {b : Int}

def KnownBadge (v : View) (ms : List Member) (l : Level) (i : Nat) (b : Int) : Prop :=
  ∃ m t, ms[i]? = some m ∧ t[m.pgRank]? = some b ∧
    if m.pg = v.home.idNum then
      l.badgeTable = some t ∧ (l.badgesAreGlobal ≠ 0 ∨ commIsGlobal v ms = false)
    else ∃ ext, findLevel l.degree (v.levels m.pg) = some ext ∧ ext.badgesAreGlobal ≠ 0 ∧
      ext.badgeTable = some t

/-- What a process maintains: its own levels are sorted, a maximal badge is not below the badges, and
the numbers of the nodes are below their bound. -/
structure ViewOk (v : View) : Prop where
  descending : Descending v.home.topoLevels
  le_max : ∀ pg ∈ v.home :: v.others, ∀ l ∈ pg.topoLevels, ∀ t, l.badgeTable = some t →
    ∀ b ∈ t, b ≤ l.maxBadge
  nodeMap : ∀ b ∈ v.nodeMap, b < (v.numNodes : Int)
  nodeHostnames : ∀ k, v.nodeHostnames = some k → v.numNodes ≤ k

theorem tableEntry_ok {t : List Int} : tableEntry t i = .ok b ↔ t[i]? = some b := by
  unfold tableEntry
  cases t[i]? with
  | none => exact iff_of_false nofun nofun
  | some x => exact ⟨fun h => congrArg some (Except.ok.inj h), fun h => congrArg _ (Option.some.inj h)⟩

theorem KnownBadge.get (h : KnownBadge v ms l i b) :
    getBadgeByLevelAndCommRank v ms l i = .ok b := by
  obtain ⟨m, t, hm, ht, hcase⟩ := h
  unfold getBadgeByLevelAndCommRank
  rw [hm]
  by_cases hpg : m.pg = v.home.idNum
  · rw [if_pos hpg] at hcase
    obtain ⟨htab, hglobal⟩ := hcase
    have hnot : ¬ (l.badgesAreGlobal = 0 ∧ commIsGlobal v ms = true) := by
      rintro ⟨h0, h1⟩
      rcases hglobal with h | h
      · exact h h0
      · exact absurd (h.symm.trans h1) (by decide)
    simp only [if_pos hpg, htab, if_neg hnot]
    exact tableEntry_ok.2 ht
  · rw [if_neg hpg] at hcase
    obtain ⟨ext, hfind, hglobal, htab⟩ := hcase
    simp only [if_neg hpg, hfind, if_pos hglobal, htab]
    exact tableEntry_ok.2 ht

theorem KnownBadge.unique {b' : Int} (h : KnownBadge v ms l i b) (h' : KnownBadge v ms l i b') :
    b = b' := Except.ok.inj (h.get.symm.trans h'.get)

theorem knownBadge_or (h : getBadgeByLevelAndCommRank v ms l i = .ok b) :
    KnownBadge v ms l i b ∨ b = badgeUnknown v l := by
  unfold getBadgeByLevelAndCommRank at h
  cases hm : ms[i]? with
  | none => rw [hm] at h; cases h
  | some m =>
    rw [hm] at h
    simp only at h
    by_cases hpg : m.pg = v.home.idNum
    · rw [if_pos hpg] at h
      cases htab : l.badgeTable with
      | none =>
        rw [htab] at h
        simp only at h
        split at h
        · exact .inr (Except.ok.inj h).symm
        · cases h
      | some t =>
        rw [htab] at h
        simp only at h
        split at h
        · exact .inr (Except.ok.inj h).symm
        · rename_i hglobal
          refine .inl ⟨m, t, hm, tableEntry_ok.1 h, ?_⟩
          rw [if_pos hpg]
          refine ⟨htab, ?_⟩
          by_cases h0 : l.badgesAreGlobal = 0
          · exact .inr (Bool.eq_false_iff.2 fun h1 => hglobal ⟨h0, h1⟩)
          · exact .inl h0
    · rw [if_neg hpg] at h
      cases hfind : findLevel l.degree (v.levels m.pg) with
      | none =>
        rw [hfind] at h
        exact .inr (Except.ok.inj h).symm
      | some ext =>
        rw [hfind] at h
        simp only at h
        split at h
        · rename_i hglobal
          cases htab : ext.badgeTable with
          | none => rw [htab] at h; cases h
          | some t =>
            rw [htab] at h
            refine .inl ⟨m, t, hm, tableEntry_ok.1 h, ?_⟩
            rw [if_neg hpg]
            exact ⟨ext, hfind, hglobal, htab⟩
        · exact .inr (Except.ok.inj h).symm

theorem foldl_maxBadge {degree : Int} {pgs : List Pg} {start : Int} :
    let f := fun (maxBadge : Int) (pg : Pg) =>
      match findLevel degree pg.topoLevels with
      | some ext => if ext.maxBadge > maxBadge then ext.maxBadge else maxBadge
      | none => maxBadge
    start ≤ pgs.foldl f start ∧ ∀ pg ∈ pgs, ∀ ext, findLevel degree pg.topoLevels = some ext →
      ext.maxBadge ≤ pgs.foldl f start := by
  intro f
  induction pgs generalizing start with
  | nil => exact ⟨Int.le_refl _, nofun⟩
  | cons pg pgs ih =>
    obtain ⟨hstart, hrest⟩ := @ih (f start pg)
    have hle : start ≤ f start pg ∧
        ∀ ext, findLevel degree pg.topoLevels = some ext → ext.maxBadge ≤ f start pg := by
      unfold f
      cases hfind : findLevel degree pg.topoLevels with
      | none => exact ⟨Int.le_refl _, nofun⟩
      | some ext =>
        simp only [Option.some.injEq, forall_eq']
        split <;> omega
    refine ⟨Int.le_trans hle.1 hstart, fun p hp ext hext => ?_⟩
    rcases mem_cons.1 hp with rfl | hp
    · exact Int.le_trans (hle.2 ext hext) hstart
    · exact hrest p hp ext hext

theorem findLevel_mem {degree : Int} {ls : List Level} (h : findLevel degree ls = some l) :
    l ∈ ls ∧ l.degree = degree :=
  ⟨mem_of_find?_eq_some h, by simpa using List.find?_some h⟩

theorem KnownBadge.le_max (hv : ViewOk v) (hl : l ∈ v.home.topoLevels)
    (h : KnownBadge v ms l i b) : b ≤ getMaxBadgeByLevel v l := by
  obtain ⟨m, t, -, ht, hcase⟩ := h
  have hb := mem_of_getElem? ht
  obtain ⟨hstart, hothers⟩ := @foldl_maxBadge l.degree v.others l.maxBadge
  by_cases hpg : m.pg = v.home.idNum
  · rw [if_pos hpg] at hcase
    exact Int.le_trans (hv.le_max v.home mem_cons_self l hl t hcase.1 b hb) hstart
  · rw [if_neg hpg] at hcase
    obtain ⟨ext, hfind, -, htab⟩ := hcase
    rw [View.levels, if_neg hpg] at hfind
    cases hp : v.others.find? fun p => p.idNum == m.pg with
    | none =>
      rw [hp] at hfind
      cases hfind
    | some pg =>
      rw [hp] at hfind
      have hpg := mem_of_find?_eq_some hp
      have hle := hv.le_max pg (mem_cons_of_mem _ hpg) ext (findLevel_mem hfind).1 t htab b hb
      exact Int.le_trans hle (hothers pg hpg ext hfind)

theorem knownBadge_of_le (h : getBadgeByLevelAndCommRank v ms l i = .ok b)
    (hle : b ≤ getMaxBadgeByLevel v l) : KnownBadge v ms l i b := by
  rcases knownBadge_or h with h | h
  · exact h
  · unfold badgeUnknown at h
    omega

/-! ## The level -/

theorem flatFrom_true {badge : Nat → Except Stop Int} {is : List Nat}
    (h : flatFrom badge b is = .ok true) : ∀ j ∈ is, badge j = .ok b := by
  induction is with
  | nil => nofun
  | cons j is ih =>
    unfold flatFrom at h
    cases hj : badge j with
    | error e => rw [hj] at h; cases h
    | ok x =>
      rw [hj] at h
      simp only at h
      split at h
      · cases h
      · rename_i hx
        intro k hk
        rcases mem_cons.1 hk with rfl | hk
        · rw [hj, Decidable.not_not.1 hx]
        · exact ih h k hk

theorem flatFrom_false {badge : Nat → Except Stop Int} {is : List Nat}
    (h : flatFrom badge b is = .ok false) : ∃ j ∈ is, badge j ≠ .ok b := by
  induction is with
  | nil => cases h
  | cons j is ih =>
    unfold flatFrom at h
    cases hj : badge j with
    | error e => rw [hj] at h; cases h
    | ok x =>
      rw [hj] at h
      simp only at h
      split at h
      · rename_i hx
        refine ⟨j, mem_cons_self, fun heq => hx ?_⟩
        exact Except.ok.inj (hj.symm.trans heq)
      · obtain ⟨k, hk, hne⟩ := ih h
        exact ⟨k, mem_cons_of_mem _ hk, hne⟩

theorem commIsFlat_true (h : commIsFlatOnLevel v ms me l = .ok true) :
    ∃ b, getBadgeByLevelAndCommRank v ms l me = .ok b ∧
      ∀ j < ms.length, getBadgeByLevelAndCommRank v ms l j = .ok b := by
  unfold commIsFlatOnLevel at h
  cases hb : getBadgeByLevelAndCommRank v ms l me with
  | error e => rw [hb] at h; cases h
  | ok b =>
    rw [hb] at h
    exact ⟨b, rfl, fun j hj => flatFrom_true h j (mem_range.2 hj)⟩

theorem commIsFlat_false (h : commIsFlatOnLevel v ms me l = .ok false)
    (hb : getBadgeByLevelAndCommRank v ms l me = .ok b) :
    ∃ j < ms.length, getBadgeByLevelAndCommRank v ms l j ≠ .ok b := by
  unfold commIsFlatOnLevel at h
  rw [hb] at h
  obtain ⟨j, hj, hne⟩ := flatFrom_false h
  exact ⟨j, mem_range.1 hj, hne⟩

theorem selectLevel_ok {tl : Level} {tls : List Level} (h : selectLevel v ms me tl tls = .ok l) :
    ∃ pre post, tl :: tls = pre ++ l :: post ∧
      (∀ x ∈ pre, commIsFlatOnLevel v ms me x = .ok true) ∧
      (post = [] ∨ commIsFlatOnLevel v ms me l = .ok false) := by
  induction tls generalizing tl with
  | nil =>
    obtain rfl := Except.ok.inj h
    exact ⟨[], [], rfl, nofun, .inl rfl⟩
  | cons next rest ih =>
    unfold selectLevel at h
    cases hflat : commIsFlatOnLevel v ms me tl with
    | error e => rw [hflat] at h; cases h
    | ok x =>
      rw [hflat] at h
      cases x with
      | false =>
        obtain rfl := Except.ok.inj h
        exact ⟨[], next :: rest, rfl, nofun, .inr hflat⟩
      | true =>
        simp only at h
        split at h
        · cases h
        · obtain ⟨pre, post, heq, hpre, hpost⟩ := ih h
          refine ⟨tl :: pre, post, by rw [heq]; rfl, fun x hx => ?_, hpost⟩
          rcases mem_cons.1 hx with rfl | hx
          · exact hflat
          · exact hpre x hx

theorem Descending.eq_of_degree {ls : List Level} (h : Descending ls) {l' : Level} (hl : l ∈ ls)
    (hl' : l' ∈ ls) (hd : l.degree = l'.degree) : l = l' := by
  induction ls with
  | nil => cases hl
  | cons x ls ih =>
    obtain ⟨hx, hls⟩ := pairwise_cons.1 h
    rcases mem_cons.1 hl with heq | hmem
    · rcases mem_cons.1 hl' with heq' | hmem'
      · rw [heq, heq']
      · rw [heq] at hd
        exact absurd hd (Int.ne_of_gt (hx l' hmem'))
    · rcases mem_cons.1 hl' with heq' | hmem'
      · rw [heq'] at hd
        exact absurd hd (Int.ne_of_lt (hx l hmem))
      · exact ih hls hmem hmem'

end badges

/-! ## The same level at all processes -/

section agreement

variable {v : Nat → View} {ms : List Member} {r s : Nat}

/-- The views of the processes of a communicator agree: a process has the badges of another one from
this process, for a level that this process has, too; and the processes of a group have the same map of
the nodes. -/
structure Consistent (v : Nat → View) (ms : List Member) : Prop where
  view : ∀ r < ms.length, ViewOk (v r)
  home : ∀ r m, ms[r]? = some m → m.pg = (v r).home.idNum
  badges : ∀ r < ms.length, ∀ i m, ms[i]? = some m → ∀ l ∈ (v r).levels m.pg, ∀ t b,
    l.badgeTable = some t → t[m.pgRank]? = some b → 0 ≤ b →
      ∃ l' ∈ (v i).home.topoLevels, l'.degree = l.degree ∧ l'.badgesAreGlobal = l.badgesAreGlobal ∧
        ∃ t', l'.badgeTable = some t' ∧ t'[m.pgRank]? = some b
  nodes : ∀ r < ms.length, ∀ s < ms.length, (v r).home.idNum = (v s).home.idNum →
    (v r).nodeMap = (v s).nodeMap

theorem Consistent.commIsGlobal_false (h : Consistent v ms) (hs : s < ms.length)
    (hg : commIsGlobal (v r) ms = false) : commIsGlobal (v s) ms = false := by
  have hall : ∀ m ∈ ms, m.pg = (v r).home.idNum := by
    intro m hm
    simpa using any_eq_false.1 hg m hm
  refine any_eq_false.2 fun m hm => ?_
  have hs' := hall _ (getElem_mem hs)
  rw [h.home s _ (List.getElem?_eq_getElem hs)] at hs'
  simp [hall m hm, hs']

theorem Consistent.knownBadge (h : Consistent v ms) (hr : r < ms.length) {l : Level} {i : Nat} {b : Int}
    (hl : l ∈ (v r).home.topoLevels) (hk : KnownBadge (v r) ms l i b) (hb : 0 ≤ b) :
    ∃ l' ∈ (v i).home.topoLevels, l'.degree = l.degree ∧ KnownBadge (v i) ms l' i b := by
  obtain ⟨m, t, hm, ht, hcase⟩ := hk
  have hi : i < ms.length := (List.getElem?_eq_some_iff.1 hm).1
  by_cases hpg : m.pg = (v r).home.idNum
  · rw [if_pos hpg] at hcase
    obtain ⟨htab, hglobal⟩ := hcase
    have hmem : l ∈ (v r).levels m.pg := by rwa [View.levels, if_pos hpg]
    obtain ⟨l', hl', hdeg, hgl, t', htab', ht'⟩ := h.badges r hr i m hm l hmem t b htab ht hb
    refine ⟨l', hl', hdeg, m, t', hm, ht', ?_⟩
    rw [if_pos (h.home i m hm), hgl]
    exact ⟨htab', hglobal.imp_right (h.commIsGlobal_false hi)⟩
  · rw [if_neg hpg] at hcase
    obtain ⟨ext, hfind, hglobal, htab⟩ := hcase
    obtain ⟨hmem, hdege⟩ := findLevel_mem hfind
    obtain ⟨l', hl', hdeg, hgl, t', htab', ht'⟩ := h.badges r hr i m hm ext hmem t b htab ht hb
    refine ⟨l', hl', hdeg.trans hdege, m, t', hm, ht', ?_⟩
    rw [if_pos (h.home i m hm), hgl]
    exact ⟨htab', .inl hglobal⟩

def KnowsLevel (v : View) (ms : List Member) (me : Nat) (l : Level) : Prop :=
  (∃ tl tls, v.home.topoLevels = tl :: tls ∧ selectLevel v ms me tl tls = .ok l) ∧
    ∀ i < ms.length, ∃ b, 0 ≤ b ∧ KnownBadge v ms l i b

theorem KnowsLevel.mem {u : View} {me : Nat} {l : Level} (h : KnowsLevel u ms me l) :
    l ∈ u.home.topoLevels := by
  obtain ⟨⟨tl, tls, hls, hsel⟩, -⟩ := h
  obtain ⟨pre, post, heq, -⟩ := selectLevel_ok hsel
  rw [hls, heq]
  exact mem_append_right _ mem_cons_self

theorem Consistent.degree_le (h : Consistent v ms) (hr : r < ms.length) (hs : s < ms.length)
    {l k : Level} (hl : KnowsLevel (v r) ms r l) (hk : KnowsLevel (v s) ms s k) :
    l.degree ≤ k.degree := by
  refine Int.not_lt.1 fun hlt => ?_
  have hlmem := hl.mem
  have hkmem := hk.mem
  obtain ⟨⟨tl, tls, hls, hsel⟩, hknown⟩ := hl
  obtain ⟨⟨tk, tks, hks, hselk⟩, hknownk⟩ := hk
  obtain ⟨pre, post, heq, -, hpost⟩ := selectLevel_ok hsel
  obtain ⟨prek, postk, heqk, hprek, -⟩ := selectLevel_ok hselk
  -- the other process has passed the level with the higher degree
  obtain ⟨b, hb, hbk⟩ := hknown s hs
  obtain ⟨l', hl', hdeg, hown⟩ := h.knownBadge hr hlmem hbk hb
  have hpassed : l' ∈ prek := by
    have hmem := hl'
    rw [hks, heqk] at hmem
    have hdesc := (h.view s hs).descending
    rw [hks, heqk] at hdesc
    rcases mem_append.1 hmem with hmem | hmem
    · exact hmem
    · rcases mem_cons.1 hmem with rfl | hmem
      · omega
      · have := (pairwise_cons.1 (pairwise_append.1 hdesc).2.1).1 l' hmem
        omega
  obtain ⟨x, hx, hall⟩ := commIsFlat_true (hprek l' hpassed)
  obtain rfl : x = b := Except.ok.inj (hx.symm.trans hown.get)
  have hmax : x ≤ getMaxBadgeByLevel (v s) l' := hown.le_max (h.view s hs) hl'
  -- so that all badges of this level are the same, also for the first process
  have hsame : ∀ i < ms.length, getBadgeByLevelAndCommRank (v r) ms l i = .ok x := by
    intro i hi
    obtain ⟨b', hb', hbk'⟩ := hknown i hi
    obtain ⟨l₁, hl₁, hd₁, hk₁⟩ := h.knownBadge hr hlmem hbk' hb'
    obtain ⟨l₂, hl₂, hd₂, hk₂⟩ := h.knownBadge hs hl' (knownBadge_of_le (hall i hi) hmax) hb
    obtain rfl := (h.view i hi).descending.eq_of_degree hl₁ hl₂ (hd₁.trans (hd₂.trans hdeg).symm)
    obtain rfl := hk₁.unique hk₂
    exact hbk'.get
  -- which uses it nevertheless, because it is its last level; but it has the lower one
  rcases hpost with rfl | hsplit
  · obtain ⟨b', hb', hbk'⟩ := hknownk r hr
    obtain ⟨l₃, hl₃, hd₃, -⟩ := h.knownBadge hs hkmem hbk' hb'
    have hdesc := (h.view r hr).descending
    rw [hls, heq] at hl₃ hdesc
    rcases mem_append.1 hl₃ with hmem | hmem
    · have := (pairwise_append.1 hdesc).2.2 l₃ hmem l mem_cons_self
      omega
    · rw [mem_singleton.1 hmem] at hd₃
      omega
  · obtain ⟨j, hj, hne⟩ := commIsFlat_false hsplit (hsame r hr)
    exact hne (hsame j hj)

theorem Consistent.badge_eq (h : Consistent v ms) (hr : r < ms.length) (hs : s < ms.length)
    {l k : Level} (hl : KnowsLevel (v r) ms r l) (hk : KnowsLevel (v s) ms s k) {i : Nat}
    (hi : i < ms.length) : getBadgeByLevelAndCommRank (v r) ms l i =
      getBadgeByLevelAndCommRank (v s) ms k i := by
  have hdeg : l.degree = k.degree :=
    Int.le_antisymm (h.degree_le hr hs hl hk) (h.degree_le hs hr hk hl)
  obtain ⟨b, hb, hbk⟩ := hl.2 i hi
  obtain ⟨b', hb', hbk'⟩ := hk.2 i hi
  obtain ⟨l₁, hl₁, hd₁, hk₁⟩ := h.knownBadge hr hl.mem hbk hb
  obtain ⟨l₂, hl₂, hd₂, hk₂⟩ := h.knownBadge hs hk.mem hbk' hb'
  obtain rfl := (h.view i hi).descending.eq_of_degree hl₁ hl₂ (hd₁.trans (hdeg.trans hd₂.symm))
  rw [hbk.get, hbk'.get, hk₁.unique hk₂]

end agreement

/-! ## Outcomes -/

section outcome

variable {aware : Bool} {u : View} {ms : List Member} {me : Nat}

def numberOf (id : Nat → Except Stop Int) (i : Nat) : Int :=
  match id i with
  | .ok b => b
  | .error _ => 0

theorem numbered_iff {id : Nat → Except Stop Int} {k : Nat} : Numbered id (numberOf id) k ↔
    ∀ i < k, ∃ b, 0 ≤ b ∧ id i = .ok b := by
  refine ⟨fun h i hi => ⟨_, (h i hi).2, (h i hi).1⟩, fun h i hi => ?_⟩
  obtain ⟨b, hb, hid⟩ := h i hi
  unfold numberOf
  rw [hid]
  exact ⟨rfl, hb⟩

/-- A process knows the nodes of all processes: by badges, or by the map of the nodes if all processes
are of its group. -/
def Knows (aware : Bool) (u : View) (ms : List Member) (me : Nat) : Prop :=
  (aware = true ∧ ∃ l, KnowsLevel u ms me l) ∨
    ((aware = false ∨ u.home.topoLevels = [] ∧ u.msaAwareCollops = false) ∧
      ∀ i < ms.length, ∃ b, 0 ≤ b ∧ getNodeId u ms i = .ok b)

/-- The number of a node is missing at a process, or there is no bound for them; before this nothing
else goes wrong. -/
def Misses (aware : Bool) (u : View) (ms : List Member) (me : Nat) : Prop :=
  (∃ b, 0 ≤ b ∧ nodeId aware u ms me me = .ok b) ∧
    ((∃ k < ms.length, (∃ b, b < 0 ∧ nodeId aware u ms me k = .ok b) ∧
        ∀ j < k, ∃ b, 0 ≤ b ∧ nodeId aware u ms me j = .ok b) ∨
      (aware = true ∧ u.home.topoLevels = [] ∧ u.msaAwareCollops = true ∧
        ∀ j < ms.length, ∃ b, 0 ≤ b ∧ nodeId aware u ms me j = .ok b))

theorem getNodeId_lt (hu : ViewOk u) {i : Nat} {b : Int} (h : getNodeId u ms i = .ok b)
    (hb : 0 ≤ b) : b < (u.numNodes : Int) := by
  unfold getNodeId at h
  cases hm : ms[i]? with
  | none => rw [hm] at h; cases h
  | some m =>
    rw [hm] at h
    simp only at h
    split at h
    · exact hu.nodeMap b (mem_of_getElem? (tableEntry_ok.1 h))
    · obtain rfl := Except.ok.inj h
      omega

theorem knows_iff (hu : ViewOk u) : Knows aware u ms me ↔
    ∃ num, numNodes aware u ms me = .ok num ∧
      ∀ i < ms.length, ∃ b, 0 ≤ b ∧ b < num ∧ nodeId aware u ms me i = .ok b := by
  cases aware with
  | false =>
    have hbound : u.numNodes ≤ u.nodeHostnames.getD u.numNodes := by
      cases h : u.nodeHostnames with
      | none => exact Nat.le_refl _
      | some k => exact hu.nodeHostnames k h
    constructor
    · rintro (⟨h, -⟩ | ⟨-, h⟩)
      · cases h
      · refine ⟨_, rfl, fun i hi => ?_⟩
        obtain ⟨b, hb, hid⟩ := h i hi
        have := getNodeId_lt hu hid hb
        exact ⟨b, hb, by omega, hid⟩
    · rintro ⟨num, -, h⟩
      refine .inr ⟨.inl rfl, fun i hi => ?_⟩
      obtain ⟨b, hb, -, hid⟩ := h i hi
      exact ⟨b, hb, hid⟩
  | true =>
    unfold Knows KnowsLevel
    simp only [numNodes, nodeId, if_true, getMaxBadge, getBadge, true_and, reduceCtorEq, false_or]
    cases hls : u.home.topoLevels with
    | nil =>
      constructor
      · rintro (⟨l, ⟨tl, tls, h, -⟩, -⟩ | ⟨⟨-, hoff⟩, h⟩)
        · cases h
        · refine ⟨u.numNodes, by rw [hoff]; rfl, fun i hi => ?_⟩
          obtain ⟨b, hb, hid⟩ := h i hi
          exact ⟨b, hb, getNodeId_lt hu hid hb, hid⟩
      · rintro ⟨num, hnum, h⟩
        have hoff : u.msaAwareCollops = false := by
          cases hon : u.msaAwareCollops with
          | false => rfl
          | true => rw [hon] at hnum; cases hnum
        refine .inr ⟨⟨rfl, hoff⟩, fun i hi => ?_⟩
        obtain ⟨b, hb, -, hid⟩ := h i hi
        exact ⟨b, hb, hid⟩
    | cons tl tls =>
      dsimp only
      constructor
      · rintro (⟨l, ⟨tl', tls', heq, hsel⟩, hknown⟩ | ⟨⟨h, -⟩, -⟩)
        · obtain ⟨rfl, rfl⟩ := List.cons.inj heq
          rw [hsel]
          refine ⟨_, rfl, fun i hi => ?_⟩
          obtain ⟨b, hb, hk⟩ := hknown i hi
          have hmem : l ∈ u.home.topoLevels := KnowsLevel.mem ⟨⟨_, _, hls, hsel⟩, hknown⟩
          have hle := hk.le_max hu hmem
          exact ⟨b, hb, by omega, hk.get⟩
        · cases h
      · rintro ⟨num, hnum, h⟩
        cases hsel : selectLevel u ms me tl tls with
        | error e => rw [hsel] at hnum; cases hnum
        | ok l =>
          rw [hsel] at hnum h
          obtain rfl := Except.ok.inj hnum
          refine .inl ⟨l, ⟨tl, tls, rfl, hsel⟩, fun i hi => ?_⟩
          obtain ⟨b, hb, hlt, hget⟩ := h i hi
          exact ⟨b, hb, knownBadge_of_le hget (by omega)⟩

/-! The functions below `MPID_Get_badge` do not return errors; only their assertions fail. -/

theorem tableEntry_ne_error {t : List Int} {i : Nat} : tableEntry t i ≠ .error .error := by
  unfold tableEntry
  split
  · nofun
  · nofun

theorem getNodeId_ne_error {i : Nat} : getNodeId u ms i ≠ .error .error := by
  unfold getNodeId
  split
  · nofun
  · split
    · exact tableEntry_ne_error
    · nofun

theorem getBadgeByLevel_ne_error {l : Level} {i : Nat} :
    getBadgeByLevelAndCommRank u ms l i ≠ .error .error := by
  unfold getBadgeByLevelAndCommRank
  cases ms[i]? with
  | none => nofun
  | some m =>
    dsimp only
    split
    · cases l.badgeTable with
      | none =>
        dsimp only
        split
        · nofun
        · nofun
      | some t =>
        dsimp only
        split
        · nofun
        · exact tableEntry_ne_error
    · cases findLevel l.degree (u.levels m.pg) with
      | none => nofun
      | some ext =>
        dsimp only
        split
        · cases ext.badgeTable with
          | none => nofun
          | some t => exact tableEntry_ne_error
        · nofun

theorem flatFrom_ne_error {badge : Nat → Except Stop Int} (h : ∀ i, badge i ≠ .error .error)
    {b : Int} {is : List Nat} : flatFrom badge b is ≠ .error .error := by
  induction is with
  | nil => nofun
  | cons i is ih =>
    unfold flatFrom
    cases hi : badge i with
    | error e => exact fun heq => h i (hi.trans (congrArg _ (Except.error.inj heq)))
    | ok x =>
      dsimp only
      split
      · nofun
      · exact ih

theorem selectLevel_ne_error {tl : Level} {tls : List Level} :
    selectLevel u ms me tl tls ≠ .error .error := by
  induction tls generalizing tl with
  | nil => nofun
  | cons next rest ih =>
    unfold selectLevel commIsFlatOnLevel
    cases hme : getBadgeByLevelAndCommRank u ms tl me with
    | error e =>
      exact fun heq => getBadgeByLevel_ne_error (hme.trans (congrArg _ (Except.error.inj heq)))
    | ok b =>
      dsimp only
      cases hflat : flatFrom (getBadgeByLevelAndCommRank u ms tl) b (List.range ms.length) with
      | error e =>
        exact fun heq => flatFrom_ne_error (fun _ => getBadgeByLevel_ne_error)
          (hflat.trans (congrArg _ (Except.error.inj heq)))
      | ok x =>
        cases x with
        | false => nofun
        | true =>
          dsimp only
          split
          · nofun
          · exact ih

theorem nodeId_ne_error {i : Nat} : nodeId aware u ms me i ≠ .error .error := by
  unfold nodeId getBadge
  split
  · cases u.home.topoLevels with
    | nil => exact getNodeId_ne_error
    | cons tl tls =>
      dsimp only
      cases hsel : selectLevel u ms me tl tls with
      | error e => exact fun heq => selectLevel_ne_error (hsel.trans (congrArg _ (Except.error.inj heq)))
      | ok l => exact getBadgeByLevel_ne_error
  · exact getNodeId_ne_error

theorem numNodes_error : numNodes aware u ms me = .error .error ↔
    aware = true ∧ u.home.topoLevels = [] ∧ u.msaAwareCollops = true := by
  unfold numNodes getMaxBadge
  cases aware with
  | false => exact iff_of_false nofun nofun
  | true =>
    rw [if_pos rfl]
    cases u.home.topoLevels with
    | nil =>
      dsimp only
      split
      · rename_i h
        exact iff_of_true rfl ⟨rfl, rfl, h⟩
      · rename_i h
        exact iff_of_false nofun fun h' => h h'.2.2
    | cons tl tls =>
      dsimp only
      refine iff_of_false ?_ nofun
      cases hsel : selectLevel u ms me tl tls with
      | error e => exact fun heq => selectLevel_ne_error (hsel.trans (congrArg _ (Except.error.inj heq)))
      | ok l => nofun

theorem numbered_or {id : Nat → Except Stop Int} (n : Nat) : Numbered id (numberOf id) n ∨
    ∃ k < n, Numbered id (numberOf id) k ∧ ¬ ∃ b, 0 ≤ b ∧ id k = .ok b := by
  induction n with
  | zero => exact .inl nofun
  | succ n ih =>
    rcases ih with h | ⟨k, hk, h⟩
    · by_cases hn : ∃ b, 0 ≤ b ∧ id n = .ok b
      · refine .inl (numbered_iff.2 fun i hi => ?_)
        rcases Nat.lt_succ_iff_lt_or_eq.1 hi with hi | rfl
        · exact numbered_iff.1 h i hi
        · exact hn
      · exact .inr ⟨n, Nat.lt_succ_self n, h, hn⟩
    · exact .inr ⟨k, by omega, h⟩

theorem lt_or {node : Nat → Int} {num : Int} (n : Nat) : (∀ i < n, node i < num) ∨
    ∃ k < n, (∀ i < k, node i < num) ∧ num ≤ node k := by
  induction n with
  | zero => exact .inl nofun
  | succ n ih =>
    rcases ih with h | ⟨k, hk, h⟩
    · by_cases hn : node n < num
      · refine .inl fun i hi => ?_
        rcases Nat.lt_succ_iff_lt_or_eq.1 hi with hi | rfl
        · exact h i hi
        · exact hn
      · exact .inr ⟨n, Nat.lt_succ_self n, h, Int.not_lt.1 hn⟩
    · exact .inr ⟨k, by omega, h⟩

theorem create_own (h : ¬ ∃ b, 0 ≤ b ∧ nodeId aware u ms me me = .ok b) :
    commCreateSubcomms aware u ms me = .error .assertion := by
  unfold commCreateSubcomms findLocal
  cases hid : nodeId aware u ms me me with
  | error e =>
    cases e with
    | assertion => rfl
    | error => exact absurd hid nodeId_ne_error
  | ok b =>
    dsimp only
    rw [if_neg fun hb => h ⟨b, hb, hid⟩]

theorem create_bound (hu : ViewOk u) (hme : me < ms.length)
    (hn : Numbered (nodeId aware u ms me) (numberOf (nodeId aware u ms me)) ms.length)
    (hk : ¬ Knows aware u ms me) :
    (Misses aware u ms me ∧ commCreateSubcomms aware u ms me = .ok none) ∨
      (¬ Misses aware u ms me ∧ commCreateSubcomms aware u ms me = .error .assertion) := by
  have hall := numbered_iff.1 hn
  have hmiss : Misses aware u ms me → numNodes aware u ms me = .error .error := by
    rintro ⟨-, ⟨k, hkc, ⟨b, hb, hid⟩, -⟩ | ⟨ha, hls, hon, -⟩⟩
    · obtain ⟨b', hb', hid'⟩ := hall k hkc
      obtain rfl := Except.ok.inj (hid.symm.trans hid')
      omega
    · exact numNodes_error.2 ⟨ha, hls, hon⟩
  have hlocal := findLocal_ok hn hme
  unfold commCreateSubcomms
  rw [hlocal]
  cases hnum : numNodes aware u ms me with
  | error e =>
    cases e with
    | error =>
      obtain ⟨ha, hls, hon⟩ := numNodes_error.1 hnum
      exact .inl ⟨⟨hall me hme, .inr ⟨ha, hls, hon, hall⟩⟩, rfl⟩
    | assertion =>
      refine .inr ⟨fun h => ?_, rfl⟩
      have := hmiss h
      rw [hnum] at this
      cases this
  | ok num =>
    rcases @lt_or (numberOf (nodeId aware u ms me)) num ms.length with
      hlt | ⟨k, hkc, hlt, hge⟩
    · refine absurd ((knows_iff hu).2 ⟨num, hnum, fun i hi => ?_⟩) hk
      exact ⟨_, (hn i hi).2, hlt i hi, (hn i hi).1⟩
    · refine .inr ⟨fun h => ?_, ?_⟩
      · have := hmiss h
        rw [hnum] at this
        cases this
      · rw [findExternal_assertion hn hlt hkc hge]

theorem create_missing (hown : ∃ b, 0 ≤ b ∧ nodeId aware u ms me me = .ok b) {k : Nat}
    (hk : k < ms.length)
    (hn : Numbered (nodeId aware u ms me) (numberOf (nodeId aware u ms me)) k)
    (hbad : ¬ ∃ b, 0 ≤ b ∧ nodeId aware u ms me k = .ok b) :
    (Misses aware u ms me ∧ commCreateSubcomms aware u ms me = .ok none) ∨
      (¬ Misses aware u ms me ∧ commCreateSubcomms aware u ms me = .error .assertion) := by
  have hpre := numbered_iff.1 hn
  obtain ⟨my, hpos, hmy⟩ := hown
  unfold commCreateSubcomms
  cases hid : nodeId aware u ms me k with
  | ok b =>
    have hneg : b < 0 := Int.not_le.1 fun hb => hbad ⟨b, hb, hid⟩
    rw [findLocal_error hn hk hmy hpos hid hneg]
    exact .inl ⟨⟨⟨my, hpos, hmy⟩, .inl ⟨k, hk, ⟨b, hneg, hid⟩, hpre⟩⟩, rfl⟩
  | error e =>
    cases e with
    | error => exact absurd hid nodeId_ne_error
    | assertion =>
      rw [findLocal_assertion hn hk hmy hpos hid]
      refine .inr ⟨?_, rfl⟩
      rintro ⟨-, ⟨j, -, ⟨b, hb, hj⟩, hprej⟩ | ⟨-, -, -, hall⟩⟩
      · rcases Nat.lt_trichotomy j k with hlt | rfl | hlt
        · obtain ⟨b', hb', hj'⟩ := hpre j hlt
          obtain rfl := Except.ok.inj (hj.symm.trans hj')
          omega
        · exact nomatch hj.symm.trans hid
        · exact hbad (hprej k hlt)
      · exact hbad (hall k hk)

theorem create_of_not_knows (hu : ViewOk u) (hme : me < ms.length) (hk : ¬ Knows aware u ms me) :
    (Misses aware u ms me ∧ commCreateSubcomms aware u ms me = .ok none) ∨
      (¬ Misses aware u ms me ∧ commCreateSubcomms aware u ms me = .error .assertion) := by
  by_cases hown : ∃ b, 0 ≤ b ∧ nodeId aware u ms me me = .ok b
  · rcases @numbered_or (nodeId aware u ms me) ms.length with hn | ⟨k, hkc, hn, hbad⟩
    · exact create_bound hu hme hn hk
    · exact create_missing hown hkc hn hbad
  · exact .inr ⟨fun h => hown h.1, create_own hown⟩

theorem Knows.numbered (hu : ViewOk u) (hk : Knows aware u ms me) :
    Numbered (nodeId aware u ms me) (numberOf (nodeId aware u ms me)) ms.length := by
  obtain ⟨num, -, h⟩ := (knows_iff hu).1 hk
  refine numbered_iff.2 fun i hi => ?_
  obtain ⟨b, hb, -, hid⟩ := h i hi
  exact ⟨b, hb, hid⟩

theorem Knows.not_misses (hu : ViewOk u) (hk : Knows aware u ms me) : ¬ Misses aware u ms me := by
  obtain ⟨num, hnum, h⟩ := (knows_iff hu).1 hk
  rintro ⟨-, ⟨k, hkc, ⟨b, hb, hid⟩, -⟩ | ⟨ha, hls, hon, -⟩⟩
  · obtain ⟨b', hb', -, hid'⟩ := h k hkc
    obtain rfl := Except.ok.inj (hid.symm.trans hid')
    omega
  · rw [numNodes_error.2 ⟨ha, hls, hon⟩] at hnum
    cases hnum

theorem create_of_knows (hu : ViewOk u) (hme : me < ms.length) (hk : Knows aware u ms me) :
    (Apart (numberOf (nodeId aware u ms me)) ms.length →
        commCreateSubcomms aware u ms me = .ok none) ∧
      (¬ Apart (numberOf (nodeId aware u ms me)) ms.length →
        ∃ p, commCreateSubcomms aware u ms me = .ok (some p) ∧
          Tables (numberOf (nodeId aware u ms me)) ms.length me p) := by
  have hn := hk.numbered hu
  obtain ⟨num, hnum, h⟩ := (knows_iff hu).1 hk
  refine create_of_known hn hnum (fun i hi => ?_) hme
  obtain ⟨b, -, hb, hid⟩ := h i hi
  rw [← Except.ok.inj (hid.symm.trans (hn i hi).1)]
  exact hb

end outcome

/-! ## Agreement -/

section hierarchy

variable {aware : Bool} {v : Nat → View} {ms : List Member}

theorem Consistent.nodeId_eq (h : Consistent v ms) {r s : Nat} (hr : r < ms.length)
    (hs : s < ms.length) (hkr : Knows aware (v r) ms r) (hks : Knows aware (v s) ms s) {i : Nat}
    (hi : i < ms.length) : nodeId aware (v r) ms r i = nodeId aware (v s) ms s i := by
  have hlevel : ∀ {r l}, KnowsLevel (v r) ms r l → nodeId true (v r) ms r i =
      getBadgeByLevelAndCommRank (v r) ms l i := by
    rintro r l ⟨⟨tl, tls, hls, hsel⟩, -⟩
    simp only [nodeId, if_true, getBadge, hls, hsel]
  have hnone : ∀ {r s l}, r < ms.length → s < ms.length → KnowsLevel (v r) ms r l →
      (v s).home.topoLevels ≠ [] := by
    intro r s l hr hs hl hnil
    obtain ⟨b, hb, hbk⟩ := hl.2 s hs
    obtain ⟨l', hl', -⟩ := h.knownBadge hr hl.mem hbk hb
    rw [hnil] at hl'
    cases hl'
  have hmap : ∀ {r}, (aware = false ∨ (v r).home.topoLevels = [] ∧ (v r).msaAwareCollops = false) →
      nodeId aware (v r) ms r i = getNodeId (v r) ms i := by
    rintro r (rfl | ⟨hls, -⟩)
    · rfl
    · cases aware with
      | false => rfl
      | true => simp only [nodeId, if_true, getBadge, hls]
  rcases hkr with ⟨rfl, l, hl⟩ | ⟨hcr, hnr⟩
  · rcases hks with ⟨-, k, hk⟩ | ⟨hcs, -⟩
    · rw [hlevel hl, hlevel hk]
      exact h.badge_eq hr hs hl hk hi
    · rcases hcs with hcs | ⟨hls, -⟩
      · cases hcs
      · exact absurd hls (hnone hr hs hl)
  · rcases hks with ⟨rfl, k, hk⟩ | ⟨hcs, hns⟩
    · rcases hcr with hcr | ⟨hls, -⟩
      · cases hcr
      · exact absurd hls (hnone hs hr hk)
    · -- all processes are of the group of the one and of the group of the other
      have hpg : ∀ {r}, (∀ i < ms.length, ∃ b, 0 ≤ b ∧ getNodeId (v r) ms i = .ok b) →
          ∀ (i : Nat) (m : Member), ms[i]? = some m → m.pg = (v r).home.idNum := by
        intro r hn i m hm
        obtain ⟨b, hb, hid⟩ := hn i (List.getElem?_eq_some_iff.1 hm).1
        unfold getNodeId at hid
        rw [hm] at hid
        by_contra hne
        simp only [if_neg hne] at hid
        have := Except.ok.inj hid
        omega
      have hm := List.getElem?_eq_getElem hi
      have hhome := (hpg hnr i _ hm).symm.trans (hpg hns i _ hm)
      rw [hmap hcr, hmap hcs]
      simp only [getNodeId, hm, hpg hnr i _ hm, ← hhome, if_true, h.nodes r hr s hs hhome]

/-- The processes agree about the hierarchy: none of them gets one, or there are numbers of the nodes,
which all processes have, and all get the tables for these. -/
def HierarchyAgrees (aware : Bool) (v : Nat → View) (ms : List Member) : Prop :=
  (∀ r < ms.length, commCreateSubcomms aware (v r) ms r = .ok none) ∨
    ∃ node : Nat → Int, (∀ r < ms.length, ∀ i < ms.length, nodeId aware (v r) ms r i = .ok (node i)) ∧
      ∀ r < ms.length, ∃ p, commCreateSubcomms aware (v r) ms r = .ok (some p) ∧
        Tables node ms.length r p

theorem numberOf_of_le {u : View} {me i : Nat} (hi : ms.length ≤ i) :
    numberOf (nodeId aware u ms me) i = 0 := by
  have hnone : ms[i]? = none := List.getElem?_eq_none hi
  unfold numberOf nodeId getBadge getNodeId getBadgeByLevelAndCommRank
  rw [hnone]
  cases aware with
  | false => rfl
  | true =>
    rw [if_pos rfl]
    cases u.home.topoLevels with
    | nil => rfl
    | cons tl tls =>
      dsimp only
      cases selectLevel u ms me tl tls <;> rfl

theorem Consistent.numberOf_eq (h : Consistent v ms) {r s : Nat} (hr : r < ms.length)
    (hs : s < ms.length) (hkr : Knows aware (v r) ms r) (hks : Knows aware (v s) ms s) :
    numberOf (nodeId aware (v r) ms r) = numberOf (nodeId aware (v s) ms s) := by
  funext i
  rcases Nat.lt_or_ge i ms.length with hi | hi
  · unfold numberOf
    rw [h.nodeId_eq hr hs hkr hks hi]
  · rw [numberOf_of_le hi, numberOf_of_le hi]

/-- The processes agree about the hierarchy if they all know the nodes, or if every one of them either
misses the number of a node or knows the nodes and finds all processes on different ones; otherwise they
do not. -/
theorem hierarchy_agrees (h : Consistent v ms) : HierarchyAgrees aware v ms ↔
    (∀ r < ms.length, Knows aware (v r) ms r) ∨
      ∀ r < ms.length, Misses aware (v r) ms r ∨
        (Knows aware (v r) ms r ∧ Apart (numberOf (nodeId aware (v r) ms r)) ms.length) := by
  constructor
  · rintro (hnone | ⟨node, hnode, htables⟩)
    · refine .inr fun r hr => ?_
      by_cases hk : Knows aware (v r) ms r
      · refine .inr ⟨hk, by_contra fun hapart => ?_⟩
        obtain ⟨p, hp, -⟩ := (create_of_knows (h.view r hr) hr hk).2 hapart
        rw [hnone r hr] at hp
        cases hp
      · rcases create_of_not_knows (h.view r hr) hr hk with ⟨hm, -⟩ | ⟨-, hc⟩
        · exact .inl hm
        · rw [hnone r hr] at hc
          cases hc
    · refine .inl fun r hr => by_contra fun hk => ?_
      obtain ⟨p, hp, -⟩ := htables r hr
      rcases create_of_not_knows (h.view r hr) hr hk with ⟨-, hc⟩ | ⟨-, hc⟩
      · rw [hp] at hc
        cases hc
      · rw [hp] at hc
        cases hc
  · rintro (hall | hnone)
    · rcases Nat.eq_zero_or_pos ms.length with hzero | hpos
      · exact .inl fun r hr => absurd hr (by omega)
      -- the numbers are the ones of the first process
      obtain ⟨node, hnodedef⟩ : ∃ node, numberOf (nodeId aware (v 0) ms 0) = node := ⟨_, rfl⟩
      have hnode : ∀ r, r < ms.length → numberOf (nodeId aware (v r) ms r) = node := fun r hr =>
        (h.numberOf_eq hr hpos (hall r hr) (hall 0 hpos)).trans hnodedef
      by_cases hapart : Apart node ms.length
      · refine .inl fun r hr => (create_of_knows (h.view r hr) hr (hall r hr)).1 ?_
        rwa [hnode r hr]
      · refine .inr ⟨node, fun r hr i hi => ?_, fun r hr => ?_⟩
        · rw [← hnode r hr]
          exact ((hall r hr).numbered (h.view r hr) i hi).1
        · have hcreate := (create_of_knows (h.view r hr) hr (hall r hr)).2
          rw [hnode r hr] at hcreate
          exact hcreate hapart
    · refine .inl fun r hr => ?_
      rcases hnone r hr with hm | ⟨hk, hapart⟩
      · have hk : ¬ Knows aware (v r) ms r := fun hk => hk.not_misses (h.view r hr) hm
        rcases create_of_not_knows (h.view r hr) hr hk with ⟨-, hc⟩ | ⟨hm', -⟩
        · exact hc
        · exact absurd hm hm'
      · exact (create_of_knows (h.view r hr) hr hk).1 hapart

end hierarchy

/-! ## Two process groups -/

def oneModule (size : Nat) : Level := ⟨levelModules, 0, 1, some (List.replicate size 0)⟩

/-- The views of the processes of a group with two processes, the first two, and of a group with one
process. -/
def mergedViews (i : Nat) : View :=
  if i < 2 then ⟨⟨1, 2, [oneModule 2]⟩, [⟨2, 1, [oneModule 1]⟩], [0, 0], 1, some 1, true⟩
  else ⟨⟨2, 1, [oneModule 1]⟩, [⟨1, 2, [oneModule 2]⟩], [0], 1, some 1, true⟩

def mergedComm : List Member := [⟨1, 0⟩, ⟨1, 1⟩, ⟨2, 0⟩]

theorem mergedViews_ok (r : Nat) : ViewOk (mergedViews r) := by
  unfold mergedViews
  split
  · exact ⟨by simp [Descending], by simp [oneModule], by decide, by simp⟩
  · exact ⟨by simp [Descending], by simp [oneModule], by decide, by simp⟩

theorem mergedViews_consistent : Consistent mergedViews mergedComm := by
  have hhome : ∀ i m, mergedComm[i]? = some m → m.pg = (mergedViews i).home.idNum ∧
      (m.pg = 1 ∧ m.pgRank < 2 ∨ m.pg = 2 ∧ m.pgRank < 1) := by
    intro i m hm
    match i with
    | 0 => obtain rfl := Option.some.inj hm; decide
    | 1 => obtain rfl := Option.some.inj hm; decide
    | 2 => obtain rfl := Option.some.inj hm; decide
    | i + 3 => cases hm
  refine ⟨fun r _ => mergedViews_ok r, fun i m hm => (hhome i m hm).1, ?_, ?_⟩
  · intro r _ i m hm l hl t b ht hb _
    -- every process has the one level of the group of the other process
    have hlevels : ∀ j, (mergedViews j).levels 1 = [oneModule 2] ∧
        (mergedViews j).levels 2 = [oneModule 1] := by
      intro j
      unfold mergedViews
      split
      · exact ⟨rfl, rfl⟩
      · exact ⟨rfl, rfl⟩
    obtain ⟨hpg, hcase⟩ := hhome i m hm
    have hown : (mergedViews i).levels m.pg = (mergedViews i).home.topoLevels := by
      rw [View.levels, if_pos hpg]
    refine ⟨l, ?_, rfl, rfl, t, ht, hb⟩
    rw [← hown]
    rcases hcase with ⟨h, -⟩ | ⟨h, -⟩
    · rw [h, (hlevels r).1] at hl
      rw [h, (hlevels i).1]
      exact hl
    · rw [h, (hlevels r).2] at hl
      rw [h, (hlevels i).2]
      exact hl
  · intro r _ s _ h
    unfold mergedViews at h ⊢
    split at h
    · split at h
      · rename_i hr hs
        rw [if_pos hr, if_pos hs]
      · cases h
    · split at h
      · cases h
      · rename_i hr hs
        rw [if_neg hr, if_neg hs]

theorem hierarchy_agrees_merged : HierarchyAgrees true mergedViews mergedComm := by
  refine (hierarchy_agrees mergedViews_consistent).2 (.inl fun r hr => ?_)
  refine (knows_iff (mergedViews_ok r)).2 ⟨1, ?_, fun i hi => ⟨0, by decide, by decide, ?_⟩⟩
  · revert r
    decide
  · revert i
    revert r
    decide

/-- The views of two processes of different groups, of which the second one does not have the
awareness of modules; its group has a dummy for the level of the other one. -/
def mixedViews (i : Nat) : View :=
  if i = 0 then ⟨⟨1, 1, [oneModule 1]⟩, [⟨2, 1, []⟩], [0], 1, some 1, true⟩
  else ⟨⟨2, 1, [flatLevel levelModules]⟩, [⟨1, 1, [oneModule 1]⟩], [0], 1, some 1, false⟩

def mixedComm : List Member := [⟨1, 0⟩, ⟨2, 0⟩]

theorem mixedViews_consistent : Consistent mixedViews mixedComm := by
  have hhome : ∀ i m, mixedComm[i]? = some m → m.pg = (mixedViews i).home.idNum := by
    intro i m hm
    match i with
    | 0 => obtain rfl := Option.some.inj hm; decide
    | 1 => obtain rfl := Option.some.inj hm; decide
    | i + 2 => cases hm
  refine ⟨fun r _ => ?_, hhome, ?_, ?_⟩
  · unfold mixedViews
    split
    · exact ⟨by simp [Descending], by simp [oneModule], by decide, by simp⟩
    · exact ⟨by simp [Descending], by simp [oneModule, flatLevel], by decide, by simp⟩
  · intro r _ i m hm l hl t b ht hb _
    refine ⟨l, ?_, rfl, rfl, t, ht, hb⟩
    match i with
    | 0 =>
      cases hm
      unfold mixedViews at hl
      split at hl
      · exact hl
      · exact hl
    | 1 =>
      cases hm
      unfold mixedViews at hl
      split at hl
      · cases hl
      · exact hl
    | i + 2 => cases hm
  · intro r _ s _ _
    unfold mixedViews
    split
    · split
      · rfl
      · rfl
    · split
      · rfl
      · rfl

/-- The wildcard for the process of the other group is not below the bound: an assertion fails. -/
theorem hierarchy_fails : Consistent mixedViews mixedComm ∧
    getBadge (mixedViews 0) mixedComm 0 1 = .ok 1 ∧
    getMaxBadge (mixedViews 0) mixedComm 0 = .ok 1 ∧
    commCreateSubcomms true (mixedViews 0) mixedComm 0 = .error .assertion ∧
    ¬ HierarchyAgrees true mixedViews mixedComm := by
  have hcreate : commCreateSubcomms true (mixedViews 0) mixedComm 0 = .error .assertion := by decide
  refine ⟨mixedViews_consistent, by decide, by decide, hcreate, ?_⟩
  rintro (h | ⟨_, -, h⟩)
  · have h0 := h 0 (by decide)
    rw [hcreate] at h0
    cases h0
  · obtain ⟨p, hp, -⟩ := h 0 (by decide)
    rw [hcreate] at hp
    cases hp

end PsMpi.Topo
