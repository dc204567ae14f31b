import Mathlib.Algebra.Order.BigOperators.Group.List
import Mathlib.Algebra.Order.Ring.Nat
import PsMpi.Comm.Mapper

/-!
# What the mappers put into the tables
-/

open List Option

namespace PsMpi.Mappers

open PsMpi.Lib PsMpi.Groups

/-! ## What a mapper names -/

namespace CommMap

def srcVcrt (m : CommMap) : Option Nat :=
  match m.dir with
  | .l2l | .l2r =>
    match m.srcComm.kind with
    | .intracomm => m.srcComm.vcrt
    | .intercomm => m.srcComm.localVcrt
  | .r2l | .r2r => m.srcComm.vcrt

def srcSize (m : CommMap) : Nat :=
  match m.dir with
  | .l2l | .l2r => m.srcComm.localSize
  | .r2l | .r2r => m.srcComm.remoteSize

def ranks (m : CommMap) : List Nat :=
  match m.type with
  | .dup => List.range m.srcSize
  | .irregular srcMapping => srcMapping

def vcs (vcrts : List Vcrt) (m : CommMap) : List Nat :=
  m.ranks.filterMap (readVc vcrts m.srcVcrt)

/-- What holds of a mapper: the table of its source is there, with a connection at each rank that is
named. -/
structure Ok (base : List Vcrt) (m : CommMap) : Prop where
  src : ∃ k, m.srcVcrt = some k ∧ k < base.length
  named : ∀ r ∈ m.ranks, (readVc base m.srcVcrt r).isSome

theorem length_ranks (m : CommMap) : m.ranks.length = m.mapperSize := by
  cases m with
  | mk type srcComm dir => cases type <;> cases dir <;> simp [ranks, mapperSize, srcSize]

theorem Shares.ranks {m : CommMap} {total : Nat} (h : m.Shares m.srcSize total) :
    m.ranks = List.range total := by
  cases m with
  | mk type srcComm dir =>
    cases type with
    | dup => exact congrArg List.range h
    | irregular srcMapping =>
      obtain ⟨hlen, hid⟩ := h
      rw [hlen] at hid
      exact hid

theorem Shares.size {m : CommMap} {total : Nat} (h : m.Shares m.srcSize total) :
    m.mapperSize = total := by
  rw [← m.length_ranks, h.ranks, length_range]

end CommMap

def named (vcrts : List Vcrt) (ms : List CommMap) : List Nat := ms.flatMap (·.vcs vcrts)

def size (ms : List CommMap) : Nat := (ms.map (·.mapperSize)).sum

theorem size_concat (ms : List CommMap) (m : CommMap) :
    size (ms ++ [m]) = size ms + m.mapperSize := by
  simp [size]

theorem named_concat (vcrts : List Vcrt) (ms : List CommMap) (m : CommMap) :
    named vcrts (ms ++ [m]) = named vcrts ms ++ m.vcs vcrts := by
  simp [named]

theorem listDestSize_eq (into : CommMap → Bool) (ms : List CommMap) :
    listDestSize into ms = size (ms.filter into) := by
  induction ms with
  | nil => rfl
  | cons m ms ih =>
    cases h : into m with
    | true => simp [listDestSize, size, h] at ih ⊢; exact ih
    | false => simp [listDestSize, h, ih]

/-- The mappers from the one that decides on the table: the first one that names a member, or the
last one if there is none. -/
def lead : List CommMap → List CommMap
  | [] => []
  | m :: ms => if m.mapperSize = 0 ∧ ms ≠ [] then lead ms else m :: ms

theorem lead_ne_nil {ms : List CommMap} (h : ms ≠ []) : lead ms ≠ [] := by
  induction ms with
  | nil => exact absurd rfl h
  | cons m ms ih =>
    rw [lead]
    split
    · next hm => exact ih hm.2
    · exact cons_ne_nil _ _

theorem lead_concat (ms : List CommMap) (m : CommMap) :
    lead (ms ++ [m]) = if size ms = 0 then [m] else lead ms ++ [m] := by
  induction ms with
  | nil => simp [lead, size]
  | cons a ms ih =>
    have hsize : size (a :: ms) = a.mapperSize + size ms := by simp [size]
    rw [cons_append, lead, ih, hsize]
    by_cases ha : a.mapperSize = 0
    · rw [if_pos ⟨ha, by simp⟩, ha, Nat.zero_add]
      by_cases hms : size ms = 0
      · simp [hms]
      · have hne : ms ≠ [] := by
          rintro rfl
          exact hms rfl
        rw [if_neg hms, if_neg hms, lead, if_pos ⟨ha, hne⟩]
    · rw [if_neg (by tauto), if_neg (by omega), lead, if_neg (by tauto)]
      rfl

theorem mem_of_mem_lead {m : CommMap} {ms : List CommMap} (h : m ∈ lead ms) : m ∈ ms := by
  induction ms with
  | nil => exact h
  | cons a ms ih =>
    rw [lead] at h
    split at h
    · exact mem_cons_of_mem _ (ih h)
    · exact h

theorem mapperSize_le_size {m : CommMap} {ms : List CommMap} (h : m ∈ ms) :
    m.mapperSize ≤ size ms :=
  single_le_sum (fun _ _ => Nat.zero_le _) _ (mem_map_of_mem h)

/-! ## Tables -/

section

variable {base vcrts vcrts' : List Vcrt} {m : CommMap} {ms : List CommMap} {total : Nat}

theorem readVc_mono (hp : base <+: vcrts) {k : Nat} (hk : k < base.length) (i : Nat) :
    readVc vcrts (some k) i = readVc base (some k) i := by
  obtain ⟨rest, rfl⟩ := hp
  simp [readVc, List.getElem?_append_left hk]

theorem CommMap.Ok.readVc_eq (h : m.Ok base) (hp : base <+: vcrts) :
    readVc vcrts m.srcVcrt = readVc base m.srcVcrt := by
  obtain ⟨k, hsrc, hk⟩ := h.src
  funext i
  rw [hsrc]
  exact readVc_mono hp hk i

theorem CommMap.Ok.vcs_eq (h : m.Ok base) (hp : base <+: vcrts) : m.vcs vcrts = m.vcs base := by
  rw [CommMap.vcs, CommMap.vcs, h.readVc_eq hp]

theorem CommMap.Ok.mono (h : m.Ok base) (hp : base <+: vcrts) : m.Ok vcrts := by
  obtain ⟨k, hsrc, hk⟩ := h.src
  refine ⟨⟨k, hsrc, lt_of_lt_of_le hk hp.length_le⟩, fun r hr => ?_⟩
  rw [h.readVc_eq hp]
  exact h.named r hr

theorem named_eq (h : ∀ m ∈ ms, m.Ok base) (hp : base <+: vcrts) :
    named vcrts ms = named base ms :=
  flatMap_congr fun m hm => (h m hm).vcs_eq hp

theorem prefix_set {k : Nat} (hp : base <+: vcrts) (hk : base.length ≤ k) (table : Vcrt) :
    base <+: vcrts.set k table := by
  obtain ⟨rest, rfl⟩ := hp
  rw [set_append_right _ _ hk]
  exact prefix_append _ _

theorem length_filterMap_isSome {f : Nat → Option Nat} {ranks : List Nat}
    (h : ∀ r ∈ ranks, (f r).isSome) : (ranks.filterMap f).length = ranks.length := by
  induction ranks with
  | nil => rfl
  | cons r ranks ih =>
    obtain ⟨v, hv⟩ := isSome_iff_exists.1 (h r (mem_cons_self ..))
    rw [filterMap_cons_some hv, length_cons, length_cons,
      ih fun r hr => h r (mem_cons_of_mem _ hr)]

theorem getElem?_filterMap_isSome {f : Nat → Option Nat} {ranks : List Nat}
    (h : ∀ r ∈ ranks, (f r).isSome) (i : Nat) : (ranks.filterMap f)[i]? = ranks[i]?.bind f := by
  induction ranks generalizing i with
  | nil => rfl
  | cons r ranks ih =>
    obtain ⟨v, hv⟩ := isSome_iff_exists.1 (h r (mem_cons_self ..))
    rw [filterMap_cons_some hv]
    cases i with
    | zero => simp [hv]
    | succ i => simpa using ih (fun r hr => h r (mem_cons_of_mem _ hr)) i

theorem CommMap.Ok.length_vcs (h : m.Ok base) : (m.vcs base).length = m.mapperSize := by
  rw [CommMap.vcs, length_filterMap_isSome h.named, m.length_ranks]

theorem length_named (h : ∀ m ∈ ms, m.Ok base) : (named base ms).length = size ms := by
  induction ms with
  | nil => rfl
  | cons m ms ih =>
    have htail := ih fun m hm => h m (mem_cons_of_mem _ hm)
    have hhead := (h m (mem_cons_self ..)).length_vcs
    simp only [named, flatMap_cons, length_append, size, map_cons,
      sum_cons] at htail ⊢
    omega

end

/-! ## Copied entries -/

structure Overlaid (table : Vcrt) (i : Nat) (vcs : List Nat) (table' : Vcrt) : Prop where
  length : table'.length = table.length
  before : ∀ j < i, table'[j]? = table[j]?
  new : ∀ j vc, vcs[j]? = some vc → table'[i + j]? = some (some vc)
  behind : ∀ j, i + vcs.length ≤ j → table'[j]? = table[j]?

theorem Overlaid.nil (table : Vcrt) (i : Nat) : Overlaid table i [] table :=
  ⟨rfl, fun _ _ => rfl, fun j vc h => by simp at h, fun _ _ => rfl⟩

theorem Overlaid.cons {table table' : Vcrt} {i vc : Nat} {vcs : List Nat} (hi : i < table.length)
    (h : Overlaid (table.set i (some vc)) (i + 1) vcs table') :
    Overlaid table i (vc :: vcs) table' := by
  refine ⟨by rw [h.length, length_set], fun j hj => ?_, fun j v hv => ?_, fun j hj => ?_⟩
  · rw [h.before j (by omega), List.getElem?_set_ne (by omega)]
  · cases j with
    | zero =>
      obtain rfl : vc = v := by simpa using hv
      rw [Nat.add_zero, h.before i (by omega), List.getElem?_set_self hi]
    | succ j =>
      have hnew := h.new j v (by simpa using hv)
      rwa [Nat.add_right_comm] at hnew
  · rw [length_cons] at hj
    rw [h.behind j (by omega), List.getElem?_set_ne (by omega)]

section

variable {base vcrts vcrts' : List Vcrt} {m : CommMap} {ms : List CommMap} {total : Nat}

theorem copyEntries_spec {src : Option Nat} {dest : Nat} (hne : src ≠ some dest) {ranks : List Nat}
    {i : Nat} {table : Vcrt} (hread : ∀ r ∈ ranks, (readVc vcrts src r).isSome)
    (htable : vcrts[dest]? = some table) (hroom : i + ranks.length ≤ table.length) :
    ∃ table', copyEntries src dest ranks i vcrts = some (vcrts.set dest table') ∧
      Overlaid table i (ranks.filterMap (readVc vcrts src)) table' := by
  induction ranks generalizing i vcrts table with
  | nil =>
    obtain ⟨hd, rfl⟩ := List.getElem?_eq_some_iff.1 htable
    refine ⟨_, ?_, Overlaid.nil _ i⟩
    rw [copyEntries, set_getElem_self]
  | cons r ranks ih =>
    obtain ⟨vc, hvc⟩ := isSome_iff_exists.1 (hread r (mem_cons_self ..))
    obtain ⟨hd, -⟩ := List.getElem?_eq_some_iff.1 htable
    rw [length_cons] at hroom
    have hi : i < table.length := by omega
    let vcrts1 := vcrts.set dest (table.set i (some vc))
    have hwrite : writeVc vcrts dest i vc = some vcrts1 := by
      rw [writeVc, htable, bind_eq_bind, bind_some, if_pos hi]
    have hsame : readVc vcrts1 src = readVc vcrts src := by
      funext r
      cases src with
      | none => rfl
      | some k =>
        have hk : dest ≠ k := fun h => hne (by rw [h])
        simp only [readVc, bind_eq_bind, bind_some, vcrts1,
          List.getElem?_set_ne hk]
    have hread1 : ∀ r ∈ ranks, (readVc vcrts1 src r).isSome :=
      fun r hr => by rw [hsame]; exact hread r (mem_cons_of_mem _ hr)
    have htable1 : vcrts1[dest]? = some (table.set i (some vc)) := List.getElem?_set_self hd
    have hroom1 : i + 1 + ranks.length ≤ (table.set i (some vc)).length := by
      rw [length_set]
      omega
    obtain ⟨table', hcopy, hover⟩ := ih hread1 htable1 hroom1
    rw [hsame] at hover
    refine ⟨table', ?_, ?_⟩
    · rw [copyEntries, hvc, bind_eq_bind, bind_some, hwrite, bind_eq_bind,
        bind_some, hcopy, set_set]
    · rw [filterMap_cons_some hvc]
      exact hover.cons hi

/-! ## The table of the destination -/

def Begins (table : Vcrt) (vcs : List Nat) : Prop :=
  ∀ (i vc : Nat), vcs[i]? = some vc → table[i]? = some (some vc)

/-- A new table is filled up to the members that are named, and `NULL` behind. -/
structure Fresh (base : List Vcrt) (k : Nat) (table : Vcrt) (filled total : Nat) : Prop where
  new : base.length ≤ k
  length : table.length = total
  null : ∀ i, filled ≤ i → i < total → table[i]? = some none

/-- The table of the destination after some mappers: the connections that they name, in a table that
is new or, by the mapper that decides on it, shared. -/
structure Filled (base vcrts : List Vcrt) (dest : Option Nat) (ms : List CommMap) (total : Nat) :
    Prop where
  kept : base <+: vcrts
  made : ∀ m ∈ (lead ms).head?, ∃ k table, dest = some k ∧ vcrts[k]? = some table ∧
    Begins table (named base ms) ∧
    (if m.Shares m.srcSize total then m.srcVcrt = some k
    else Fresh base k table (size ms) total)

theorem Filled.nil (base : List Vcrt) (dest : Option Nat) (total : Nat) :
    Filled base base dest [] total :=
  ⟨prefix_refl _, fun m hm => by simp [lead] at hm⟩

/-- What one more mapper changes: the destination stays where it is if it holds members, else it is
a table of before or a new one, and no other table changes. -/
structure Framed (base vcrts : List Vcrt) (dest : Option Nat) (filled : Nat) (vcrts' : List Vcrt)
    (dest' : Nat) : Prop where
  same : filled ≠ 0 → dest = some dest'
  fresh : filled = 0 → dest' < base.length ∨ vcrts.length ≤ dest'
  tables : ∀ k < vcrts.length, (filled ≠ 0 → dest ≠ some k) → vcrts'[k]? = vcrts[k]?

theorem named_eq_nil (h : ∀ m ∈ ms, m.Ok base) (hsize : size ms = 0) : named base ms = [] :=
  eq_nil_of_length_eq_zero (by rw [length_named h, hsize])

theorem mapperDupVcrt_shared {dest : Option Nat} (hf : Filled base vcrts dest ms total)
    (hms : ∀ m ∈ ms, m.Ok base) (hm : m.Ok base) (hfit : size ms + m.mapperSize ≤ total)
    (hshares : m.Shares m.srcSize total) :
    ∃ k, mapperDupVcrt vcrts m.srcVcrt dest m m.srcSize total (size ms) = some (vcrts, k) ∧
      Filled base vcrts (some k) (ms ++ [m]) total ∧ Framed base vcrts dest (size ms) vcrts k := by
  obtain ⟨k, hsrc, hk⟩ := hm.src
  have hzero : size ms = 0 := by
    have hsize := hshares.size
    omega
  refine ⟨k, ?_, ⟨hf.kept, fun m' hm' => ?_⟩, fun h => absurd hzero h, fun _ => .inl hk,
    fun _ _ _ => rfl⟩
  · rw [mapperDupVcrt, if_pos hshares, hsrc]
    rfl
  · rw [lead_concat, if_pos hzero] at hm'
    obtain rfl : m = m' := by simpa using hm'
    obtain ⟨rest, rfl⟩ := hf.kept
    refine ⟨k, base[k], rfl, ?_, ?_, ?_⟩
    · rw [List.getElem?_append_left hk, List.getElem?_eq_getElem hk]
    · intro i vc hvc
      rw [named_concat, named_eq_nil hms hzero, nil_append, CommMap.vcs, hshares.ranks] at hvc
      have hall : ∀ r ∈ List.range total, (readVc base m.srcVcrt r).isSome := fun r hr =>
        hm.named r (by rwa [hshares.ranks])
      have hget := getElem?_filterMap_isSome hall i
      have hi : i < total := by
        have := List.getElem?_eq_some_iff.1 hvc
        obtain ⟨hlt, -⟩ := this
        rwa [length_filterMap_isSome hall, length_range] at hlt
      rw [hvc, List.getElem?_range hi, bind_some, hsrc] at hget
      simp only [readVc, bind_eq_bind, bind_some, List.getElem?_eq_getElem hk] at hget
      cases hentry : base[k][i]? with
      | none => simp [hentry] at hget
      | some entry =>
        rw [hentry, bind_some] at hget
        rw [← hget]
    · rw [if_pos hshares]
      exact hsrc

theorem Begins.concat {table table' : Vcrt} {vcs vcs' : List Nat} (h : Begins table vcs)
    (hover : Overlaid table vcs.length vcs' table') : Begins table' (vcs ++ vcs') := by
  intro i vc hvc
  by_cases hi : i < vcs.length
  · rw [List.getElem?_append_left hi] at hvc
    rw [hover.before i hi]
    exact h i vc hvc
  · rw [List.getElem?_append_right (by omega)] at hvc
    have hnew := hover.new (i - vcs.length) vc hvc
    rwa [Nat.add_sub_cancel' (by omega)] at hnew

theorem Fresh.concat {k filled : Nat} {table table' : Vcrt} {vcs : List Nat}
    (h : Fresh base k table filled total) (hover : Overlaid table filled vcs table') :
    Fresh base k table' (filled + vcs.length) total := by
  refine ⟨h.new, by rw [hover.length, h.length], fun i hi hlt => ?_⟩
  rw [hover.behind i hi]
  exact h.null i (by omega) hlt

theorem fresh_replicate {k : Nat} (hk : base.length ≤ k) :
    Fresh base k (List.replicate total none) 0 total :=
  ⟨hk, length_replicate, fun i _ hi => by rw [List.getElem?_replicate, if_pos hi]⟩

theorem copyEntries_fresh {dest : Nat} {table : Vcrt} (hp : base <+: vcrts) (hm : m.Ok base)
    (hms : ∀ m ∈ ms, m.Ok base) (htable : vcrts[dest]? = some table)
    (hfresh : Fresh base dest table (size ms) total) (hbegins : Begins table (named base ms))
    (hfit : size ms + m.mapperSize ≤ total) :
    ∃ table', copyEntries m.srcVcrt dest m.ranks (size ms) vcrts
        = some (vcrts.set dest table') ∧
      Fresh base dest table' (size (ms ++ [m])) total ∧
      Begins table' (named base (ms ++ [m])) := by
  obtain ⟨k, hsrc, hk⟩ := hm.src
  have hne : m.srcVcrt ≠ some dest := by
    rw [hsrc]
    intro h
    have := Option.some.inj h
    have := hfresh.new
    omega
  obtain ⟨table', hcopy, hover⟩ := copyEntries_spec hne (hm.mono hp).named htable
    (by rw [m.length_ranks, hfresh.length]; exact hfit)
  have hover' : Overlaid table (size ms) (m.vcs base) table' := by
    rw [← hm.vcs_eq hp]
    exact hover
  refine ⟨table', hcopy, ?_, ?_⟩
  · rw [size_concat, ← hm.length_vcs]
    exact hfresh.concat hover'
  · rw [named_concat]
    rw [← length_named hms] at hover'
    exact hbegins.concat hover'

theorem mapperDupVcrt_eq {dest : Option Nat} {i : Nat} (hshares : ¬ m.Shares m.srcSize total) :
    mapperDupVcrt vcrts m.srcVcrt dest m m.srcSize total i
      = (if i = 0 then some (vcrts ++ [List.replicate total none], vcrts.length)
          else dest.map (vcrts, ·)).bind
        fun p => (copyEntries m.srcVcrt p.2 m.ranks i p.1).map (·, p.2) := by
  rw [mapperDupVcrt, if_neg hshares, bind_eq_bind]
  congr 1
  funext p
  change (copyEntries m.srcVcrt p.2 m.ranks i p.1).bind _ = _
  cases copyEntries m.srcVcrt p.2 m.ranks i p.1 <;> rfl

theorem mapperDupVcrt_created {dest : Option Nat} (hf : Filled base vcrts dest ms total)
    (hms : ∀ m ∈ ms, m.Ok base) (hm : m.Ok base) (hfit : size ms + m.mapperSize ≤ total)
    (hshares : ¬ m.Shares m.srcSize total) (hzero : size ms = 0) :
    ∃ vcrts' k, mapperDupVcrt vcrts m.srcVcrt dest m m.srcSize total (size ms) = some (vcrts', k) ∧
      Filled base vcrts' (some k) (ms ++ [m]) total ∧
      Framed base vcrts dest (size ms) vcrts' k := by
  have hp : base <+: vcrts ++ [List.replicate total none] :=
    hf.kept.trans (prefix_append _ _)
  obtain ⟨table', hcopy, hfresh, hbegins⟩ := @copyEntries_fresh _ _ _ _ _ vcrts.length _ hp hm hms
    List.getElem?_concat_length
    (by rw [hzero]; exact fresh_replicate hf.kept.length_le)
    (by rw [named_eq_nil hms hzero]; intro i vc h; simp at h) hfit
  rw [set_append_right _ _ le_rfl, Nat.sub_self, set_cons_zero] at hcopy
  refine ⟨vcrts ++ [table'], vcrts.length, ?_,
    ⟨hf.kept.trans (prefix_append _ _), fun m' hm' => ?_⟩,
    fun h => absurd hzero h, fun _ => .inr le_rfl, fun k hk _ => List.getElem?_append_left hk⟩
  · rw [mapperDupVcrt_eq hshares, if_pos hzero, bind_some, hcopy, map_some]
  · rw [lead_concat, if_pos hzero] at hm'
    obtain rfl : m = m' := by simpa using hm'
    refine ⟨vcrts.length, table', rfl, List.getElem?_concat_length, hbegins, ?_⟩
    rw [if_neg hshares]
    exact hfresh

theorem mapperDupVcrt_copied {dest : Option Nat} (hf : Filled base vcrts dest ms total)
    (hms : ∀ m ∈ ms, m.Ok base) (hm : m.Ok base) (hfit : size ms + m.mapperSize ≤ total)
    (hshares : ¬ m.Shares m.srcSize total) (hpos : size ms ≠ 0) :
    ∃ vcrts' k, mapperDupVcrt vcrts m.srcVcrt dest m m.srcSize total (size ms) = some (vcrts', k) ∧
      Filled base vcrts' (some k) (ms ++ [m]) total ∧
      Framed base vcrts dest (size ms) vcrts' k := by
  have hne : ms ≠ [] := by
    rintro rfl
    exact hpos rfl
  obtain ⟨m0, hm0⟩ : ∃ m0, (lead ms).head? = some m0 := by
    cases hlead : lead ms with
    | nil => exact absurd hlead (lead_ne_nil hne)
    | cons m0 rest => exact ⟨m0, rfl⟩
  have hhead : (lead (ms ++ [m])).head? = some m0 := by
    rw [lead_concat, if_neg hpos, List.head?_append, hm0]
    rfl
  obtain ⟨k, table, rfl, htable, hbegins, hmade⟩ := hf.made m0 hm0
  have hlead : ∀ {vcrts' : List Vcrt} {table' : Vcrt}, base <+: vcrts' →
      vcrts'[k]? = some table' → Begins table' (named base (ms ++ [m])) →
      (if m0.Shares m0.srcSize total then m0.srcVcrt = some k
        else Fresh base k table' (size (ms ++ [m])) total) →
      Filled base vcrts' (some k) (ms ++ [m]) total := by
    intro vcrts' table' hkept htable' hbegins' hmade'
    refine ⟨hkept, fun m' hm' => ?_⟩
    rw [hhead] at hm'
    cases hm'
    exact ⟨k, table', rfl, htable', hbegins', hmade'⟩
  rw [mapperDupVcrt_eq hshares, if_neg hpos, map_some, bind_some]
  by_cases hshares0 : m0.Shares m0.srcSize total
  · -- The shared table is full: the mapper names no member.
    have hsize : m0.mapperSize ≤ size ms :=
      mapperSize_le_size (mem_of_mem_lead (mem_of_head? hm0))
    rw [hshares0.size] at hsize
    have hnil : m.ranks = [] := eq_nil_of_length_eq_zero (by rw [m.length_ranks]; omega)
    have hvcs : named base (ms ++ [m]) = named base ms := by
      rw [named_concat, CommMap.vcs, hnil, filterMap_nil, append_nil]
    refine ⟨vcrts, k, by rw [hnil, copyEntries, map_some], hlead hf.kept htable ?_ ?_,
      fun _ => rfl, fun h => absurd h hpos, fun _ _ _ => rfl⟩
    · rw [hvcs]
      exact hbegins
    · rw [if_pos hshares0] at hmade ⊢
      exact hmade
  · rw [if_neg hshares0] at hmade
    obtain ⟨table', hcopy, hfresh, hbegins'⟩ := copyEntries_fresh hf.kept hm hms htable hmade
      hbegins hfit
    obtain ⟨hk, -⟩ := List.getElem?_eq_some_iff.1 htable
    refine ⟨vcrts.set k table', k, by rw [hcopy, map_some],
      hlead (prefix_set hf.kept hmade.new table') (List.getElem?_set_self hk) hbegins' ?_,
      fun _ => rfl, fun h => absurd h hpos, fun j _ hj => ?_⟩
    · rw [if_neg hshares0]
      exact hfresh
    · have hne : k ≠ j := fun h => hj hpos (by rw [h])
      exact List.getElem?_set_ne hne

theorem mapperDupVcrt_spec {dest : Option Nat} (hf : Filled base vcrts dest ms total)
    (hms : ∀ m ∈ ms, m.Ok base) (hm : m.Ok base) (hfit : size ms + m.mapperSize ≤ total) :
    ∃ vcrts' k, mapperDupVcrt vcrts m.srcVcrt dest m m.srcSize total (size ms) = some (vcrts', k) ∧
      Filled base vcrts' (some k) (ms ++ [m]) total ∧
      Framed base vcrts dest (size ms) vcrts' k := by
  by_cases hshares : m.Shares m.srcSize total
  · exact ⟨vcrts, mapperDupVcrt_shared hf hms hm hfit hshares⟩
  by_cases hzero : size ms = 0
  · exact mapperDupVcrt_created hf hms hm hfit hshares hzero
  · exact mapperDupVcrt_copied hf hms hm hfit hshares hzero

end

end PsMpi.Mappers
