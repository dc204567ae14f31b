import PsMpi.Lib.MapM
import PsMpi.Pg.Refs

/-!
# The reference counts
-/

open List Option

namespace PsMpi.Refs

open PsMpi.Lib

def World.slotCount (w : World) (v : Nat) : Nat := w.vcrts.sum fun table => table.vcr.count v

def World.holders (w : World) (t : Nat) : Nat := w.comms.sum fun c => c.tables.count t

def World.tableRefs (w : World) (t : Nat) : Nat := Store.weight Vcrt.refcnt (w.vcrts.get t)

/-- A virtual connection has one reference of its process group, and one for each slot; `n` counts
the references that stand in no slot at the moment. -/
structure Balanced (w : World) (n : Nat → Nat) : Prop where
  refs : ∀ v vc, w.vcs.get v = some vc → vc.refcnt = 1 + (w.slotCount v + n v)
  live : ∀ v, 0 < w.slotCount v + n v → (w.vcs.get v).isSome
  pgRefs : ∀ i g, w.pgs.get i = some g → g.refcnt = g.vcr.countP Option.isSome
  home : ∀ v vc, w.vcs.get v = some vc →
    ∃ g, w.pgs.get vc.pg = some g ∧ g.vcr[vc.pgRank]? = some (some v)
  back : ∀ i g k v, w.pgs.get i = some g → g.vcr[k]? = some (some v) →
    ∃ vc, w.vcs.get v = some vc ∧ vc.pg = i ∧ vc.pgRank = k

section balanced

variable {w : World} {n : Nat → Nat} {v u : Nat}

theorem Balanced.congr {n' : Nat → Nat} (h : Balanced w n) (hn : ∀ v, n' v = n v) :
    Balanced w n' := by
  obtain rfl : n' = n := funext hn
  exact h

theorem Balanced.setRefcnt {n' : Nat → Nat} {vc : Vc} {r : Nat} (h : Balanced w n)
    (hvc : w.vcs.get v = some vc) (hr : r = 1 + (w.slotCount v + n' v))
    (hn : ∀ u, u ≠ v → n' u = n u) :
    Balanced { w with vcs := w.vcs.put v (some { vc with refcnt := r }) } n' := by
  have hget : ∀ u, (w.vcs.put v (some { vc with refcnt := r })).get u =
      if u = v then some { vc with refcnt := r } else w.vcs.get u :=
    fun u => Store.get_put (Store.lt_size hvc) _
  refine ⟨fun u uc hu => ?_, fun u hu => ?_, h.pgRefs, fun u uc hu => ?_, fun i g k u hg hk => ?_⟩
  · show uc.refcnt = 1 + (w.slotCount u + n' u)
    rw [hget] at hu
    by_cases huv : u = v
    · rw [if_pos huv] at hu
      cases hu
      rw [huv]
      exact hr
    · rw [if_neg huv] at hu
      rw [hn u huv]
      exact h.refs u uc hu
  · rw [hget]
    by_cases huv : u = v
    · rw [if_pos huv]
      rfl
    · rw [if_neg huv]
      exact h.live u (hn u huv ▸ hu)
  · rw [hget] at hu
    by_cases huv : u = v
    · rw [if_pos huv] at hu
      cases hu
      exact huv ▸ h.home v vc hvc
    · rw [if_neg huv] at hu
      exact h.home u uc hu
  · obtain ⟨uc, huc, hpg, hrank⟩ := h.back i g k u hg hk
    rw [hget]
    by_cases huv : u = v
    · subst huv
      obtain rfl := Option.some.inj (hvc.symm.trans huc)
      exact ⟨_, if_pos rfl, hpg, hrank⟩
    · exact ⟨uc, (if_neg huv).trans huc, hpg, hrank⟩

theorem Balanced.vcDup (h : Balanced w n) (hv : (w.vcs.get v).isSome) :
    Balanced (w.vcDup v) fun u => n u + if u = v then 1 else 0 := by
  obtain ⟨vc, hvc⟩ := isSome_iff_exists.1 hv
  unfold World.vcDup
  simp only [hvc]
  refine h.setRefcnt hvc ?_ fun u huv => ?_
  · rw [if_pos rfl, h.refs v vc hvc]
    omega
  · rw [if_neg huv, Nat.add_zero]

theorem Balanced.free {vc : Vc} (h : Balanced w n) (hvc : w.vcs.get v = some vc)
    (hs : w.slotCount v = 0) {n' : Nat → Nat} (hv : n' v = 0) (hn : ∀ u, u ≠ v → n' u = n u) :
    Balanced { w.deleteFromPg vc with vcs := w.vcs.put v none } n' := by
  obtain ⟨g, hg, hslot⟩ := h.home v vc hvc
  have hk : vc.pgRank < g.vcr.length := (List.getElem?_eq_some_iff.1 hslot).1
  have hget : ∀ u, (w.vcs.put v none).get u = if u = v then none else w.vcs.get u :=
    fun u => Store.get_put (Store.lt_size hvc) _
  have hcount : g.refcnt - 1 = (g.vcr.set vc.pgRank none).countP Option.isSome := by
    rw [countP_set hk, ← h.pgRefs vc.pg g hg, (List.getElem?_eq_some_iff.1 hslot).2]
    simp
  have hpgs : ∀ i, (w.deleteFromPg vc).pgs.get i = if i = vc.pg then
      (if g.refcnt - 1 = 0 then none else some ⟨g.refcnt - 1, g.vcr.set vc.pgRank none⟩)
      else w.pgs.get i := by
    intro i
    unfold World.deleteFromPg
    simp only [hg]
    exact Store.get_put (Store.lt_size hg) _
  have hdel : (w.deleteFromPg vc).vcrts = w.vcrts := by
    unfold World.deleteFromPg
    simp only [hg]
  have hslots : ∀ u, World.slotCount { w.deleteFromPg vc with vcs := w.vcs.put v none } u =
      w.slotCount u := by
    intro u
    unfold World.slotCount
    exact congrArg _ hdel
  refine ⟨fun u uc hu => ?_, fun u hu => ?_, fun i g' hg' => ?_, fun u uc hu => ?_,
    fun i g' k u hg' hk' => ?_⟩
  · rw [hget] at hu
    obtain ⟨huv, hu⟩ := ite_none_left_eq_some.1 hu
    rw [hslots, hn u huv]
    exact h.refs u uc hu
  · rw [hslots] at hu
    have huv : u ≠ v := by
      rintro rfl
      omega
    rw [hget, if_neg huv]
    exact h.live u (hn u huv ▸ hu)
  · rw [hpgs] at hg'
    by_cases hi : i = vc.pg
    · rw [if_pos hi] at hg'
      obtain ⟨-, hg'⟩ := ite_none_left_eq_some.1 hg'
      cases hg'
      exact hcount
    · rw [if_neg hi] at hg'
      exact h.pgRefs i g' hg'
  · rw [hget] at hu
    obtain ⟨huv, hu⟩ := ite_none_left_eq_some.1 hu
    obtain ⟨g₁, hg₁, hk₁⟩ := h.home u uc hu
    rw [hpgs]
    by_cases hi : uc.pg = vc.pg
    · rw [hi] at hg₁
      obtain rfl := Option.some.inj (hg.symm.trans hg₁)
      have hrank : vc.pgRank ≠ uc.pgRank := by
        intro heq
        rw [← heq, hslot] at hk₁
        exact huv (Option.some.inj (Option.some.inj hk₁)).symm
      have hset : (g.vcr.set vc.pgRank none)[uc.pgRank]? = some (some u) := by
        rw [List.getElem?_set_ne hrank, hk₁]
      have hpos : g.refcnt - 1 ≠ 0 := by
        rw [hcount]
        exact Nat.ne_of_gt (countP_pos_iff.2 ⟨some u, mem_of_getElem? hset, rfl⟩)
      rw [if_pos hi, if_neg hpos]
      exact ⟨_, rfl, hset⟩
    · rw [if_neg hi]
      exact ⟨g₁, hg₁, hk₁⟩
  · rw [hpgs] at hg'
    rw [hget]
    by_cases hi : i = vc.pg
    · rw [if_pos hi] at hg'
      obtain ⟨-, hg'⟩ := ite_none_left_eq_some.1 hg'
      cases hg'
      have hrank : vc.pgRank ≠ k := by
        rintro rfl
        rw [List.getElem?_set_self hk] at hk'
        cases hk'
      rw [List.getElem?_set_ne hrank] at hk'
      obtain ⟨uc, huc, hpg, hur⟩ := h.back vc.pg g k u hg hk'
      rw [if_neg]
      · exact ⟨uc, huc, hpg.trans hi.symm, hur⟩
      · rintro rfl
        obtain rfl := Option.some.inj (hvc.symm.trans huc)
        exact hrank hur
    · rw [if_neg hi] at hg'
      obtain ⟨uc, huc, hpg, hur⟩ := h.back i g' k u hg' hk'
      rw [if_neg]
      · exact ⟨uc, huc, hpg, hur⟩
      · rintro rfl
        obtain rfl := Option.some.inj (hvc.symm.trans huc)
        exact hi hpg.symm

theorem vcrPut_frame (w : World) (v : Nat) (d : Bool) :
    (w.vcrPut v d).vcrts = w.vcrts ∧ (w.vcrPut v d).comms = w.comms := by
  unfold World.vcrPut World.deleteFromPg
  cases w.vcs.get v with
  | none => exact ⟨rfl, rfl⟩
  | some vc =>
    simp only
    split
    · cases w.pgs.get vc.pg <;> exact ⟨rfl, rfl⟩
    · exact ⟨rfl, rfl⟩

theorem Balanced.vcrPut {n' : Nat → Nat} (h : Balanced w n) (hv : n v = n' v + 1)
    (hn : ∀ u, u ≠ v → n' u = n u) (d : Bool) : Balanced (w.vcrPut v d) n' := by
  obtain ⟨vc, hvc⟩ := isSome_iff_exists.1 (h.live v (by omega))
  have href := h.refs v vc hvc
  unfold World.vcrPut
  simp only [hvc]
  split
  · next hfree =>
    have h1 : vc.refcnt - 1 = 1 := hfree.2
    exact h.free hvc (by omega) (by omega) hn
  · exact h.setRefcnt hvc (by omega) hn

theorem Balanced.vcrPut_get (h : Balanced w n) (hv : 0 < n v) (d : Bool) (u : Nat) :
    ((w.vcrPut v d).vcs.get u).isSome ↔
      (w.vcs.get u).isSome ∧ ¬ (u = v ∧ d ∧ w.slotCount u + n u = 1) := by
  obtain ⟨vc, hvc⟩ := isSome_iff_exists.1 (h.live v (by omega))
  have href := h.refs v vc hvc
  have hone : vc.refcnt - 1 = 1 ↔ w.slotCount v + n v = 1 := by omega
  unfold World.vcrPut
  simp only [hvc]
  split
  · next hfree =>
    show ((w.vcs.put v none).get u).isSome ↔ _
    rw [Store.get_put (Store.lt_size hvc)]
    by_cases huv : u = v
    · subst huv
      simp [hfree.1, hone.1 hfree.2]
    · simp [huv]
  · next hkeep =>
    show ((w.vcs.put v (some _)).get u).isSome ↔ _
    rw [Store.get_put (Store.lt_size hvc)]
    by_cases huv : u = v
    · subst huv
      rw [hone] at hkeep
      simp [hvc, hkeep]
    · simp [huv]

theorem Balanced.puts {vcs : List Nat} (h : Balanced w fun u => n u + vcs.count u) (d : Bool) :
    Balanced (vcs.foldl (fun w v => w.vcrPut v d) w) n := by
  induction vcs generalizing w with
  | nil => exact h.congr fun u => rfl
  | cons v vcs ih =>
    refine ih (h.vcrPut ?_ (fun u huv => ?_) d)
    · rw [count_cons_self]
      omega
    · rw [count_cons_of_ne (Ne.symm huv)]

theorem puts_frame (w : World) (vcs : List Nat) (d : Bool) :
    (vcs.foldl (fun w v => w.vcrPut v d) w).vcrts = w.vcrts ∧
    (vcs.foldl (fun w v => w.vcrPut v d) w).comms = w.comms := by
  induction vcs generalizing w with
  | nil => exact ⟨rfl, rfl⟩
  | cons v vcs ih =>
    obtain ⟨h1, h2⟩ := ih (w.vcrPut v d)
    obtain ⟨h3, h4⟩ := vcrPut_frame w v d
    exact ⟨h1.trans h3, h2.trans h4⟩

theorem Balanced.puts_get {vcs : List Nat} (h : Balanced w fun u => vcs.count u) (d : Bool)
    (u : Nat) : ((vcs.foldl (fun w v => w.vcrPut v d) w).vcs.get u).isSome ↔
      (w.vcs.get u).isSome ∧ ¬ (d ∧ u ∈ vcs ∧ w.slotCount u = 0) := by
  induction vcs generalizing w with
  | nil => simp
  | cons v vcs ih =>
    have hput : Balanced (w.vcrPut v d) fun u => vcs.count u := by
      refine h.vcrPut ?_ (fun u huv => ?_) d
      · rw [count_cons_self]
      · rw [count_cons_of_ne (Ne.symm huv)]
    have hslot : (w.vcrPut v d).slotCount u = w.slotCount u := by
      unfold World.slotCount
      rw [(vcrPut_frame w v d).1]
    rw [foldl_cons, ih hput, h.vcrPut_get (by simp) d, hslot]
    by_cases huv : u = v
    · subst huv
      rw [count_cons_self, ← count_pos_iff (a := u) (l := vcs)]
      simp only [mem_cons, true_or, true_and]
      have hz : w.slotCount u + (vcs.count u + 1) = 1 ↔ w.slotCount u = 0 ∧ vcs.count u = 0 := by
        omega
      rw [hz]
      rcases Nat.eq_zero_or_pos (vcs.count u) with hc | hc
      · simp [hc]
      · have hne : vcs.count u ≠ 0 := Nat.ne_of_gt hc
        simp [hc, hne]
    · simp [huv]

theorem Balanced.setTables {vcrts : Store Vcrt} {n' : Nat → Nat} (h : Balanced w n)
    (hn : ∀ u, World.slotCount { w with vcrts := vcrts } u + n' u = w.slotCount u + n u) :
    Balanced { w with vcrts := vcrts } n' := by
  refine ⟨fun u uc hu => ?_, fun u hu => ?_, h.pgRefs, h.home, h.back⟩
  · rw [hn]
    exact h.refs u uc hu
  · rw [hn] at hu
    exact h.live u hu

end balanced

/-! ## Tables -/

/-- A table has as many references as communicators have to it; `m` counts the references that are
not yet released, or not yet in a communicator. -/
structure Held (w : World) (m : Nat → Nat) : Prop where
  refs : ∀ t, w.tableRefs t = w.holders t + m t
  pos : ∀ t table, w.vcrts.get t = some table → 0 < table.refcnt

section tables

variable {w : World} {m m' : Nat → Nat} {t v : Nat} {table : Vcrt} {d : Bool}

theorem slotCount_pos : 0 < w.slotCount v ↔ ∃ t table, w.vcrts.get t = some table ∧ v ∈ table.vcr := by
  unfold World.slotCount
  rw [Store.sum_pos]
  simp only [count_pos_iff]

theorem slotCount_put_none (h : w.vcrts.get t = some table) (v : Nat) :
    World.slotCount { w with vcrts := w.vcrts.put t none } v + table.vcr.count v =
      w.slotCount v :=
  Store.sum_put h none

theorem slotCount_put_refcnt (h : w.vcrts.get t = some table) (r v : Nat) :
    World.slotCount { w with vcrts := w.vcrts.put t (some { table with refcnt := r }) } v =
      w.slotCount v := by
  have hsum := Store.sum_put (f := fun table : Vcrt => table.vcr.count v) h
    (some { table with refcnt := r })
  exact Nat.add_right_cancel hsum

theorem vcrtRelease_get (w : World) (t : Nat) (d : Bool) (t' : Nat) :
    (w.vcrtRelease t d).vcrts.get t' = if t' = t then (w.vcrts.get t).bind fun table =>
      (if table.refcnt - 1 = 0 then none else some { table with refcnt := table.refcnt - 1 })
      else w.vcrts.get t' := by
  unfold World.vcrtRelease
  cases ht : w.vcrts.get t with
  | none =>
    simp only
    split
    · next htt => rw [htt, ht]; rfl
    · rfl
  | some table =>
    simp only [bind_some]
    by_cases hr : table.refcnt - 1 = 0
    · rw [if_pos hr, if_pos hr, (puts_frame _ _ _).1]
      exact Store.get_put (Store.lt_size ht) _
    · rw [if_neg hr, if_neg hr]
      exact Store.get_put (Store.lt_size ht) _

theorem vcrtRelease_comms (w : World) (t : Nat) (d : Bool) :
    (w.vcrtRelease t d).comms = w.comms := by
  unfold World.vcrtRelease
  cases w.vcrts.get t with
  | none => rfl
  | some table =>
    simp only
    split
    · exact (puts_frame _ _ _).2
    · rfl

theorem Held.vcrtRelease (h : Held w m) (ht : m t = m' t + 1) (hm : ∀ t', t' ≠ t → m' t' = m t') :
    Held (w.vcrtRelease t d) m' := by
  have hholders : ∀ t', (w.vcrtRelease t d).holders t' = w.holders t' := by
    intro t'
    unfold World.holders
    rw [vcrtRelease_comms]
  refine ⟨fun t' => ?_, fun t' table ht' => ?_⟩
  · have href := h.refs t'
    unfold World.tableRefs at href ⊢
    rw [hholders, vcrtRelease_get]
    by_cases htt : t' = t
    · subst htt
      rw [if_pos rfl]
      cases hget : w.vcrts.get t' with
      | none =>
        rw [hget] at href
        change 0 = _ at href
        omega
      | some table =>
        rw [hget] at href
        change table.refcnt = _ at href
        simp only [bind_some]
        split
        · show 0 = _
          omega
        · show table.refcnt - 1 = _
          omega
    · rw [if_neg htt, hm t' htt]
      exact href
  · rw [vcrtRelease_get] at ht'
    split at ht'
    · obtain ⟨table', hget, ht'⟩ := bind_eq_some_iff.1 ht'
      obtain ⟨hne, ht'⟩ := ite_none_left_eq_some.1 ht'
      cases ht'
      exact Nat.pos_of_ne_zero hne
    · exact h.pos t' table ht'

theorem Balanced.vcrtRelease (h : Balanced w fun _ => 0) (t : Nat) (d : Bool) :
    Balanced (w.vcrtRelease t d) (fun _ => 0) ∧
    (∀ v, (w.vcrtRelease t d).slotCount v ≤ w.slotCount v) ∧
    ∀ v, ((w.vcrtRelease t d).vcs.get v).isSome ↔ (w.vcs.get v).isSome ∧
      ¬ (d ∧ 0 < w.slotCount v ∧ (w.vcrtRelease t d).slotCount v = 0) := by
  have hsame : ∀ w' : World, (∀ v, w'.slotCount v = w.slotCount v) → w'.vcs = w.vcs →
      Balanced w' (fun _ => 0) → Balanced w' (fun _ => 0) ∧
      (∀ v, w'.slotCount v ≤ w.slotCount v) ∧
      ∀ v, (w'.vcs.get v).isSome ↔ (w.vcs.get v).isSome ∧
        ¬ (d ∧ 0 < w.slotCount v ∧ w'.slotCount v = 0) := by
    intro w' hs hv hb
    refine ⟨hb, fun v => Nat.le_of_eq (hs v), fun v => ?_⟩
    rw [hs, hv]
    exact ⟨fun hsome => ⟨hsome, fun hno => by omega⟩, fun hsome => hsome.1⟩
  unfold World.vcrtRelease
  cases ht : w.vcrts.get t with
  | none => exact hsame w (fun _ => rfl) rfl h
  | some table =>
    simp only
    split
    · have hcount := slotCount_put_none ht
      have hbal : Balanced { w with vcrts := w.vcrts.put t none } fun u => 0 + table.vcr.count u :=
        h.setTables fun u => by
          have := hcount u
          omega
      have hbal' : Balanced { w with vcrts := w.vcrts.put t none } fun u => table.vcr.count u :=
        hbal.congr fun u => (Nat.zero_add _).symm
      have hslots : ∀ v, World.slotCount (table.vcr.foldl (fun w v => w.vcrPut v d)
          { w with vcrts := w.vcrts.put t none }) v =
          World.slotCount { w with vcrts := w.vcrts.put t none } v := by
        intro v
        unfold World.slotCount
        rw [(puts_frame _ _ _).1]
      refine ⟨hbal.puts d, fun v => ?_, fun v => ?_⟩
      · rw [hslots]
        have := hcount v
        omega
      · have hmem : v ∈ table.vcr ↔ 0 < table.vcr.count v := count_pos_iff.symm
        rw [hbal'.puts_get d v, hslots, hmem]
        have hc := hcount v
        show (w.vcs.get v).isSome ∧ _ ↔ _
        refine and_congr_right fun _ => not_congr (and_congr_right fun _ => ?_)
        omega
    · exact hsame _ (slotCount_put_refcnt ht _) rfl
        (h.setTables fun u => by rw [slotCount_put_refcnt ht])

theorem Balanced.releases (h : Balanced w fun _ => 0) (ts : List Nat) (d : Bool) :
    Balanced (ts.foldl (fun w t => w.vcrtRelease t d) w) (fun _ => 0) ∧
    (∀ v, (ts.foldl (fun w t => w.vcrtRelease t d) w).slotCount v ≤ w.slotCount v) ∧
    ∀ v, ((ts.foldl (fun w t => w.vcrtRelease t d) w).vcs.get v).isSome ↔
      (w.vcs.get v).isSome ∧ ¬ (d ∧ 0 < w.slotCount v ∧
        (ts.foldl (fun w t => w.vcrtRelease t d) w).slotCount v = 0) := by
  induction ts generalizing w with
  | nil =>
    refine ⟨h, fun v => Nat.le_refl _, fun v => ⟨fun hs => ⟨hs, fun hno => ?_⟩, fun hs => hs.1⟩⟩
    change d ∧ 0 < w.slotCount v ∧ w.slotCount v = 0 at hno
    omega
  | cons t ts ih =>
    obtain ⟨h1, hle1, hiff1⟩ := h.vcrtRelease t d
    obtain ⟨h2, hle2, hiff2⟩ := ih h1
    refine ⟨h2, fun v => Nat.le_trans (hle2 v) (hle1 v), fun v => ?_⟩
    rw [foldl_cons, hiff2 v, hiff1 v]
    have hle1 := hle1 v
    have hle2 := hle2 v
    constructor
    · rintro ⟨⟨hs, hno1⟩, hno2⟩
      refine ⟨hs, fun ⟨hd, hpos, hz⟩ => ?_⟩
      rcases Nat.eq_zero_or_pos ((w.vcrtRelease t d).slotCount v) with hmid | hmid
      · exact hno1 ⟨hd, hpos, hmid⟩
      · exact hno2 ⟨hd, hmid, hz⟩
    · rintro ⟨hs, hno⟩
      refine ⟨⟨hs, fun ⟨hd, hpos, hz⟩ => hno ⟨hd, hpos, by omega⟩⟩, fun ⟨hd, hpos, hz⟩ => ?_⟩
      exact hno ⟨hd, by omega, hz⟩

theorem Held.releases {ts : List Nat} (h : Held w fun t => m t + ts.count t) (d : Bool) :
    Held (ts.foldl (fun w t => w.vcrtRelease t d) w) m := by
  induction ts generalizing w with
  | nil => exact h
  | cons t ts ih =>
    refine ih (h.vcrtRelease ?_ fun t' htt => ?_)
    · rw [count_cons_self]
      omega
    · rw [count_cons_of_ne (Ne.symm htt)]

theorem Held.releases_get {ts : List Nat} (h : Held w fun t => m t + ts.count t) (d : Bool)
    (t : Nat) : (ts.foldl (fun w t => w.vcrtRelease t d) w).vcrts.get t =
      (w.vcrts.get t).bind fun table => if table.refcnt ≤ ts.count t then none
        else some { table with refcnt := table.refcnt - ts.count t } := by
  induction ts generalizing w with
  | nil =>
    cases hget : w.vcrts.get t with
    | none => exact hget
    | some table =>
      have hpos := h.pos t table hget
      have hzero : ¬ table.refcnt ≤ List.count t [] := Nat.not_le.2 hpos
      rw [foldl_nil, hget, bind_some, if_neg hzero]
      rfl
  | cons s ts ih =>
    have hnext : Held (w.vcrtRelease s d) fun t => m t + ts.count t := by
      refine h.vcrtRelease ?_ fun t' htt => ?_
      · rw [count_cons_self]
        omega
      · rw [count_cons_of_ne (Ne.symm htt)]
    rw [foldl_cons, ih hnext, vcrtRelease_get]
    by_cases hts : t = s
    · subst hts
      rw [if_pos rfl, count_cons_self]
      cases hget : w.vcrts.get t with
      | none => rfl
      | some table =>
        have hpos := h.pos t table hget
        simp only [bind_some]
        by_cases hr : table.refcnt - 1 = 0
        · rw [if_pos hr, if_pos (by omega)]
          rfl
        · rw [if_neg hr]
          simp only [bind_some]
          by_cases hle : table.refcnt ≤ ts.count t + 1
          · rw [if_pos hle, if_pos (by omega)]
          · rw [if_neg hle, if_neg (by omega), Nat.sub_sub, Nat.add_comm 1]
    · rw [if_neg hts, count_cons_of_ne (Ne.symm hts)]

end tables

/-! ## New tables -/

section create

variable {w w' : World} {m : Nat → Nat} {t : Nat} {vcs : List Nat}

/-- What making a table does: nothing is freed, and the table has one reference more than the
communicators have to it. -/
structure Makes (w w' : World) (t : Nat) : Prop where
  balanced : Balanced w (fun _ => 0) → Balanced w' fun _ => 0
  held : ∀ m, Held w m → Held w' fun t' => m t' + if t' = t then 1 else 0
  live : ∀ v, (w.vcs.get v).isSome → (w'.vcs.get v).isSome
  comms : w'.comms = w.comms

theorem dups_frame (w : World) (vcs : List Nat) :
    (vcs.foldl World.vcDup w).vcrts = w.vcrts ∧ (vcs.foldl World.vcDup w).comms = w.comms ∧
    ∀ v, ((vcs.foldl World.vcDup w).vcs.get v).isSome = (w.vcs.get v).isSome := by
  induction vcs generalizing w with
  | nil => exact ⟨rfl, rfl, fun _ => rfl⟩
  | cons u vcs ih =>
    obtain ⟨h1, h2, h3⟩ := ih (w.vcDup u)
    have hone : (w.vcDup u).vcrts = w.vcrts ∧ (w.vcDup u).comms = w.comms ∧
        ∀ v, ((w.vcDup u).vcs.get v).isSome = (w.vcs.get v).isSome := by
      unfold World.vcDup
      cases hu : w.vcs.get u with
      | none => exact ⟨rfl, rfl, fun _ => rfl⟩
      | some uc =>
        refine ⟨rfl, rfl, fun v => ?_⟩
        simp only
        rw [Store.get_put (Store.lt_size hu)]
        split
        · next hvu => rw [hvu, hu]; rfl
        · rfl
    exact ⟨h1.trans hone.1, h2.trans hone.2.1, fun v => (h3 v).trans (hone.2.2 v)⟩

theorem Balanced.dups {n : Nat → Nat} (h : Balanced w n)
    (hv : ∀ v ∈ vcs, (w.vcs.get v).isSome) :
    Balanced (vcs.foldl World.vcDup w) fun u => n u + vcs.count u := by
  induction vcs generalizing w n with
  | nil => exact h.congr fun u => rfl
  | cons v vcs ih =>
    have hone := h.vcDup (hv v mem_cons_self)
    have hlive : ∀ u ∈ vcs, ((w.vcDup v).vcs.get u).isSome := by
      intro u hu
      have hsame : ((w.vcDup v).vcs.get u).isSome = _ := (dups_frame w [v]).2.2 u
      rw [hsame]
      exact hv u (mem_cons_of_mem _ hu)
    refine (ih hone hlive).congr fun u => ?_
    rw [count_cons]
    by_cases huv : u = v
    · simp [huv]
      omega
    · simp [huv, Ne.symm huv]

theorem vcrtCreate_makes (hv : ∀ v ∈ vcs, (w.vcs.get v).isSome) :
    Makes w (w.vcrtCreate vcs).1 (w.vcrtCreate vcs).2 := by
  obtain ⟨h1, h2, h3⟩ := dups_frame w vcs
  refine ⟨fun hb => ?_, fun m hm => ⟨fun t => ?_, fun t table ht => ?_⟩, fun v hsome => ?_, h2⟩
  · refine (hb.dups hv).setTables fun u => ?_
    have hsum : World.slotCount { vcs.foldl World.vcDup w with vcrts := w.vcrts.alloc ⟨1, vcs⟩ } u =
        w.slotCount u + vcs.count u := Store.sum_alloc
    have hold : (vcs.foldl World.vcDup w).slotCount u = w.slotCount u := by
      unfold World.slotCount
      rw [h1]
    rw [hsum, hold]
    omega
  · have href := hm.refs t
    have hholders : (w.vcrtCreate vcs).1.holders t = w.holders t := by
      unfold World.holders
      exact congrArg _ h2
    unfold World.tableRefs at href ⊢
    rw [hholders]
    show Store.weight Vcrt.refcnt ((w.vcrts.alloc ⟨1, vcs⟩).get t) =
      w.holders t + (m t + if t = w.vcrts.size then 1 else 0)
    rw [Store.get_alloc]
    by_cases ht : t = w.vcrts.size
    · have hnone : w.vcrts.get t = none := by
        cases hget : w.vcrts.get t with
        | none => rfl
        | some table => exact absurd (Store.lt_size hget) (by omega)
      rw [hnone] at href
      rw [if_pos ht, if_pos ht]
      change 0 = _ at href
      show 1 = _
      omega
    · rw [if_neg ht, if_neg ht]
      exact href
  · rw [show (w.vcrtCreate vcs).1.vcrts.get t = (w.vcrts.alloc ⟨1, vcs⟩).get t from rfl,
      Store.get_alloc] at ht
    split at ht
    · cases ht
      exact Nat.one_pos
    · exact hm.pos t table ht
  · exact (h3 v).symm ▸ hsome

theorem vcrtDup_makes {table : Vcrt} (ht : w.vcrts.get t = some table) : Makes w (w.vcrtDup t) t := by
  unfold World.vcrtDup
  simp only [ht]
  have hget : ∀ t', (w.vcrts.put t (some { table with refcnt := table.refcnt + 1 })).get t' =
      if t' = t then some { table with refcnt := table.refcnt + 1 } else w.vcrts.get t' :=
    fun t' => Store.get_put (Store.lt_size ht) _
  refine ⟨fun hb => hb.setTables fun u => ?_, fun m hm => ⟨fun t' => ?_, fun t' table' ht' => ?_⟩,
    fun v hsome => hsome, rfl⟩
  · rw [slotCount_put_refcnt ht]
  · have href := hm.refs t'
    unfold World.tableRefs at href ⊢
    show Store.weight Vcrt.refcnt ((w.vcrts.put t _).get t') =
      w.holders t' + (m t' + if t' = t then 1 else 0)
    rw [hget]
    by_cases htt : t' = t
    · subst htt
      rw [ht] at href
      rw [if_pos rfl, if_pos rfl]
      change table.refcnt = _ at href
      show table.refcnt + 1 = _
      omega
    · rw [if_neg htt, if_neg htt]
      exact href
  · rw [hget] at ht'
    split at ht'
    · cases ht'
      exact Nat.succ_pos _
    · exact hm.pos t' table' ht'

theorem Balanced.vcOf {pg pgRank v : Nat} (h : Balanced w fun _ => 0)
    (hv : w.vcOf pg pgRank = some v) : (w.vcs.get v).isSome := by
  obtain ⟨g, hg, hv⟩ := bind_eq_some_iff.1 hv
  obtain ⟨slot, hslot, hv⟩ := bind_eq_some_iff.1 hv
  obtain rfl : slot = some v := hv
  obtain ⟨vc, hvc, -⟩ := h.back pg g pgRank v hg hslot
  rw [hvc]
  rfl

theorem Balanced.mem_table {table : Vcrt} {v : Nat} (h : Balanced w fun _ => 0)
    (ht : w.vcrts.get t = some table) (hv : v ∈ table.vcr) : (w.vcs.get v).isSome :=
  h.live v (Nat.lt_of_lt_of_le (slotCount_pos.2 ⟨t, table, ht, hv⟩) (Nat.le_add_right _ _))

theorem Balanced.mapperVcs {mapper : Mapper} {v : Nat} (h : Balanced w fun _ => 0)
    (hm : w.mapperVcs mapper = some vcs) (hv : v ∈ vcs) : (w.vcs.get v).isSome := by
  obtain ⟨table, ht, hm⟩ := bind_eq_some_iff.1 hm
  refine h.mem_table ht ?_
  split at hm
  · obtain ⟨-, hm⟩ := ite_none_right_eq_some.1 hm
    cases hm
    exact mem_of_mem_take hv
  · obtain ⟨k, -, hk⟩ := mem_of_mapM hm hv
    exact mem_of_getElem? hk

theorem makeTable_makes {spec : TableSpec} (h : Balanced w fun _ => 0)
    (hm : w.makeTable spec = some (w', t)) : Makes w w' t := by
  cases spec with
  | ofPgs procs =>
    obtain ⟨vcs, hvcs, hm⟩ := bind_eq_some_iff.1 hm
    obtain rfl : (w.vcrtCreate vcs).1 = w' := congrArg Prod.fst (Option.some.inj hm)
    obtain rfl : (w.vcrtCreate vcs).2 = t := congrArg Prod.snd (Option.some.inj hm)
    refine vcrtCreate_makes fun v hv => ?_
    obtain ⟨p, -, hp⟩ := mem_of_mapM hvcs hv
    exact h.vcOf hp
  | mapped mappers =>
    unfold World.makeTable at hm
    simp only at hm
    split at hm
    · next t' _ =>
      obtain ⟨table, ht, hm⟩ := map_eq_some_iff.1 hm
      obtain ⟨rfl, rfl⟩ := Prod.mk.inj hm
      exact vcrtDup_makes ht
    · obtain ⟨vcss, hvcss, hm⟩ := bind_eq_some_iff.1 hm
      obtain rfl : (w.vcrtCreate vcss.flatten).1 = w' := congrArg Prod.fst (Option.some.inj hm)
      obtain rfl : (w.vcrtCreate vcss.flatten).2 = t := congrArg Prod.snd (Option.some.inj hm)
      refine vcrtCreate_makes fun v hv => ?_
      obtain ⟨vcs, hvcs, hv⟩ := mem_flatten.1 hv
      obtain ⟨mapper, -, hmapper⟩ := mem_of_mapM hvcss hvcs
      exact h.mapperVcs hmapper hv

end create

/-! ## Operations -/

structure Inv (w : World) : Prop where
  balanced : Balanced w fun _ => 0
  held : Held w fun _ => 0

section operations

variable {w w' : World}

theorem Held.setComms {comms : Store Comm} {m m' : Nat → Nat} (h : Held w m)
    (hm : ∀ t, World.holders { w with comms := comms } t + m' t = w.holders t + m t) :
    Held { w with comms := comms } m' := by
  refine ⟨fun t => ?_, h.pos⟩
  rw [hm]
  exact h.refs t

theorem Balanced.setComms {n : Nat → Nat} (h : Balanced w n) (comms : Store Comm) :
    Balanced { w with comms := comms } n :=
  ⟨h.refs, h.live, h.pgRefs, h.home, h.back⟩

theorem count_singleton_eq (t t' : Nat) : [t].count t' = if t' = t then 1 else 0 := by
  rw [count_singleton]
  exact if_congr (by rw [beq_iff_eq, eq_comm]) rfl rfl

theorem Inv.commCreate {remote : TableSpec} {loc : Option TableSpec} (h : Inv w)
    (hc : w.commCreate remote loc = some w') :
    Inv w' ∧ ∀ v, (w.vcs.get v).isSome → (w'.vcs.get v).isSome := by
  obtain ⟨⟨w₁, t⟩, h1, hc⟩ := bind_eq_some_iff.1 hc
  have hm₁ := makeTable_makes h.balanced h1
  have hb₁ := hm₁.balanced h.balanced
  have hh₁ := hm₁.held _ h.held
  cases loc with
  | none =>
    cases hc
    refine ⟨⟨hb₁.setComms _, hh₁.setComms fun t' => ?_⟩, hm₁.live⟩
    have hsum : World.holders { w₁ with comms := w₁.comms.alloc ⟨t, none, []⟩ } t' =
        w₁.holders t' + [t].count t' := Store.sum_alloc
    rw [hsum, count_singleton_eq]
    show _ + 0 = _ + (0 + _)
    omega
  | some spec =>
    obtain ⟨⟨w₂, t₂⟩, h2, hc⟩ := bind_eq_some_iff.1 hc
    cases hc
    have hm₂ := makeTable_makes hb₁ h2
    have hh₂ := hm₂.held _ hh₁
    refine ⟨⟨(hm₂.balanced hb₁).setComms _, hh₂.setComms fun t' => ?_⟩,
      fun v hv => hm₂.live v (hm₁.live v hv)⟩
    have hsum : World.holders { w₂ with comms := w₂.comms.alloc ⟨t, some t₂, []⟩ } t' =
        w₂.holders t' + [t, t₂].count t' := Store.sum_alloc
    rw [hsum, ← singleton_append, count_append, count_singleton_eq, count_singleton_eq]
    show _ + 0 = _ + (0 + _ + _)
    omega

theorem Inv.subCreate {c : Nat} {mapper : Mapper} (h : Inv w)
    (hc : w.subCreate c mapper = some w') :
    Inv w' ∧ ∀ v, (w.vcs.get v).isSome → (w'.vcs.get v).isSome := by
  obtain ⟨⟨w₁, t⟩, h1, hc⟩ := bind_eq_some_iff.1 hc
  obtain ⟨comm, hcomm, hc⟩ := bind_eq_some_iff.1 hc
  cases hc
  have hm₁ := makeTable_makes h.balanced h1
  refine ⟨⟨(hm₁.balanced h.balanced).setComms _, (hm₁.held _ h.held).setComms fun t' => ?_⟩,
    hm₁.live⟩
  have hsum := Store.sum_put (f := fun c => c.tables.count t') hcomm
    (some { comm with subs := comm.subs ++ [t] })
  have hcount : Comm.tables { comm with subs := comm.subs ++ [t] } = comm.tables ++ [t] :=
    (append_assoc _ _ _).symm
  change _ = _ + (Comm.tables { comm with subs := comm.subs ++ [t] }).count t' at hsum
  rw [hcount, count_append, count_singleton_eq] at hsum
  show Store.sum _ (w₁.comms.put c _) + 0 = w₁.comms.sum _ + (0 + _)
  omega

theorem Inv.pgCreate (h : Inv w) (size : Nat) :
    Inv { w with pgs := w.pgs.alloc ⟨0, List.replicate size none⟩ } := by
  have hb := h.balanced
  have hget : ∀ i, (w.pgs.alloc ⟨0, List.replicate size none⟩).get i =
      if i = w.pgs.size then some ⟨0, List.replicate size none⟩ else w.pgs.get i :=
    fun i => Store.get_alloc
  refine ⟨⟨hb.refs, hb.live, fun i g hg => ?_, fun v vc hv => ?_, fun i g k v hg hk => ?_⟩,
    ⟨h.held.refs, h.held.pos⟩⟩
  · rw [hget] at hg
    split at hg
    · cases hg
      exact (countP_eq_zero.2 fun slot hslot => by simp [eq_of_mem_replicate hslot]).symm
    · exact hb.pgRefs i g hg
  · obtain ⟨g, hg, hk⟩ := hb.home v vc hv
    refine ⟨g, ?_, hk⟩
    rw [hget, if_neg (Nat.ne_of_lt (Store.lt_size hg))]
    exact hg
  · rw [hget] at hg
    split at hg
    · cases hg
      cases eq_of_mem_replicate (mem_of_getElem? hk)
    · exact hb.back i g k v hg hk

theorem Inv.vcCreate {pg pgRank : Nat} (h : Inv w) (hc : w.vcCreate pg pgRank = some w') :
    Inv w' ∧ ∀ v, (w.vcs.get v).isSome → (w'.vcs.get v).isSome := by
  have hb := h.balanced
  obtain ⟨g, hg, hc⟩ := bind_eq_some_iff.1 hc
  obtain ⟨slot, hslot, hc⟩ := bind_eq_some_iff.1 hc
  obtain ⟨hnone, hc⟩ := ite_none_left_eq_some.1 hc
  obtain rfl : slot = none := by simpa using hnone
  cases hc
  have hk : pgRank < g.vcr.length := (List.getElem?_eq_some_iff.1 hslot).1
  have hget : ∀ v, (w.vcs.alloc ⟨1, pg, pgRank⟩).get v =
      if v = w.vcs.size then some ⟨1, pg, pgRank⟩ else w.vcs.get v :=
    fun v => Store.get_alloc
  have hpgs : ∀ i, (w.pgs.put pg (some ⟨g.refcnt + 1, g.vcr.set pgRank (some w.vcs.size)⟩)).get i =
      if i = pg then some ⟨g.refcnt + 1, g.vcr.set pgRank (some w.vcs.size)⟩ else w.pgs.get i :=
    fun i => Store.get_put (Store.lt_size hg) _
  have hold : ∀ v vc, w.vcs.get v = some vc → v ≠ w.vcs.size :=
    fun v vc hv => Nat.ne_of_lt (Store.lt_size hv)
  have hlive : ∀ v, (w.vcs.get v).isSome → ((w.vcs.alloc ⟨1, pg, pgRank⟩).get v).isSome := by
    intro v hv
    rw [hget]
    split
    · rfl
    · exact hv
  refine ⟨⟨⟨fun v vc hv => ?_, fun v hv => hlive v (hb.live v hv), fun i g' hg' => ?_,
    fun v vc hv => ?_, fun i g' k v hg' hk' => ?_⟩, ⟨h.held.refs, h.held.pos⟩⟩, hlive⟩
  · rw [hget] at hv
    split at hv
    · next hnew =>
      cases hv
      -- no slot can refer to a place that was not allocated
      have hfree : ¬ 0 < w.slotCount v + 0 := by
        intro hpos
        obtain ⟨vc, hvc⟩ := isSome_iff_exists.1 (hb.live v hpos)
        exact hold v vc hvc hnew
      show 1 = 1 + (w.slotCount v + 0)
      omega
    · exact hb.refs v vc hv
  · rw [hpgs] at hg'
    split at hg'
    · cases hg'
      show g.refcnt + 1 = _
      rw [countP_set hk, ← hb.pgRefs pg g hg, (List.getElem?_eq_some_iff.1 hslot).2]
      simp
    · exact hb.pgRefs i g' hg'
  · rw [hget] at hv
    rw [hpgs]
    split at hv
    · next hnew =>
      cases hv
      rw [if_pos rfl, hnew]
      exact ⟨_, rfl, List.getElem?_set_self hk⟩
    · obtain ⟨g₁, hg₁, hk₁⟩ := hb.home v vc hv
      split
      · next hpg =>
        rw [hpg] at hg₁
        obtain rfl := Option.some.inj (hg.symm.trans hg₁)
        refine ⟨_, rfl, ?_⟩
        rw [List.getElem?_set_ne, hk₁]
        intro heq
        rw [← heq, hslot] at hk₁
        cases hk₁
      · exact ⟨g₁, hg₁, hk₁⟩
  · rw [hpgs] at hg'
    rw [hget]
    have hkeep : ∀ i g₁, w.pgs.get i = some g₁ → g₁.vcr[k]? = some (some v) →
        ∃ vc, (if v = w.vcs.size then some ⟨1, pg, pgRank⟩ else w.vcs.get v) = some vc ∧
          vc.pg = i ∧ vc.pgRank = k := by
      intro i g₁ hg₁ hk₁
      obtain ⟨vc, hvc, hpg, hrank⟩ := hb.back i g₁ k v hg₁ hk₁
      rw [if_neg (hold v vc hvc)]
      exact ⟨vc, hvc, hpg, hrank⟩
    split at hg'
    · next hpg =>
      cases hg'
      subst hpg
      by_cases hrank : pgRank = k
      · subst hrank
        rw [List.getElem?_set_self hk] at hk'
        rw [if_pos (Option.some.inj (Option.some.inj hk')).symm]
        exact ⟨_, rfl, rfl, rfl⟩
      · rw [List.getElem?_set_ne hrank] at hk'
        exact hkeep i g hg hk'
    · exact hkeep i g' hg' hk'

end operations

/-! ## Deletion -/

section delete

variable {w w' : World} {c v : Nat} {comm : Comm} {d : Bool}

theorem Held.releases_slot {m : Nat → Nat} {ts : List Nat} (h : Held w fun t => m t + ts.count t)
    (d : Bool) (v : Nat) : 0 < (ts.foldl (fun w t => w.vcrtRelease t d) w).slotCount v ↔
      ∃ t table, w.vcrts.get t = some table ∧ ts.count t < table.refcnt ∧ v ∈ table.vcr := by
  rw [slotCount_pos]
  constructor
  · rintro ⟨t, table, ht, hv⟩
    rw [h.releases_get] at ht
    obtain ⟨table₀, ht₀, ht⟩ := bind_eq_some_iff.1 ht
    obtain ⟨hlt, ht⟩ := ite_none_left_eq_some.1 ht
    cases ht
    exact ⟨t, table₀, ht₀, Nat.lt_of_not_le hlt, hv⟩
  · rintro ⟨t, table, ht, hlt, hv⟩
    refine ⟨t, { table with refcnt := table.refcnt - ts.count t }, ?_, hv⟩
    rw [h.releases_get, ht, bind_some, if_neg (Nat.not_le.2 hlt)]

theorem Held.detach (h : Held w fun _ => 0) (hc : w.comms.get c = some comm) :
    Held { w with comms := w.comms.put c none }
      fun t => 0 + comm.subs.count t + comm.main.count t := by
  refine h.setComms fun t => ?_
  have hsum := Store.sum_put (f := fun c => c.tables.count t) hc none
  change _ + (comm.main ++ comm.subs).count t = _ + 0 at hsum
  rw [count_append] at hsum
  show Store.sum _ (w.comms.put c none) + _ = w.comms.sum _ + 0
  omega

theorem Inv.commDelete (h : Inv w) (hcomm : w.comms.get c = some comm)
    (hc : w.commDelete c d = some w') :
    Inv w' ∧
    (∀ v, (w'.vcs.get v).isSome ↔ (w.vcs.get v).isSome ∧ ¬ (d ∧ 0 < w.slotCount v ∧
      ¬ ∃ t table, w.vcrts.get t = some table ∧ comm.main.count t < table.refcnt ∧
        v ∈ table.vcr)) ∧
    ∀ v, 0 < w'.slotCount v ↔ ∃ t table, w.vcrts.get t = some table ∧
      comm.tables.count t < table.refcnt ∧ v ∈ table.vcr := by
  obtain ⟨comm', hcomm', hc⟩ := bind_eq_some_iff.1 hc
  obtain rfl := Option.some.inj (hcomm.symm.trans hcomm')
  cases hc
  have hh₀ := h.held.detach hcomm
  have hh₁ := hh₀.releases d
  obtain ⟨hb₁, -, hfreed⟩ := (h.balanced.setComms (w.comms.put c none)).releases comm.main d
  obtain ⟨hb₂, -, hkept⟩ := hb₁.releases comm.subs false
  refine ⟨⟨hb₂, hh₁.releases false⟩, fun v => ?_, fun v => ?_⟩
  · rw [hkept v, hfreed v, and_iff_left fun hno => Bool.false_ne_true hno.1]
    refine and_congr_right fun _ => not_congr (and_congr_right fun _ => and_congr_right fun _ => ?_)
    rw [← Nat.le_zero, ← Nat.not_lt]
    exact not_congr (hh₀.releases_slot d v)
  · rw [hh₁.releases_slot false v]
    have hcount : ∀ t, comm.tables.count t = comm.main.count t + comm.subs.count t :=
      fun t => count_append
    constructor
    · rintro ⟨t, table, ht, hlt, hv⟩
      rw [hh₀.releases_get] at ht
      obtain ⟨table₀, ht₀, ht⟩ := bind_eq_some_iff.1 ht
      obtain ⟨hlt₀, ht⟩ := ite_none_left_eq_some.1 ht
      cases ht
      change _ < table₀.refcnt - _ at hlt
      exact ⟨t, table₀, ht₀, by rw [hcount]; omega, hv⟩
    · rintro ⟨t, table, ht, hlt, hv⟩
      rw [hcount] at hlt
      refine ⟨t, { table with refcnt := table.refcnt - comm.main.count t }, ?_, ?_, hv⟩
      · rw [hh₀.releases_get]
        show (w.vcrts.get t).bind _ = _
        rw [ht, bind_some, if_neg (by omega)]
      · show _ < table.refcnt - _
        omega

end delete

/-! ## Every run -/

/-- A virtual connection has one reference more than slots refer to it, a process group has as many
references as virtual connections, and no slot refers to a virtual connection that was freed. -/
structure RefsOk (w : World) : Prop where
  vcRefs : ∀ v vc, w.vcs.get v = some vc → vc.refcnt = 1 + w.slotCount v
  pgRefs : ∀ i g, w.pgs.get i = some g → g.refcnt = g.vcr.countP Option.isSome
  slots : ∀ t table v, w.vcrts.get t = some table → v ∈ table.vcr → (w.vcs.get v).isSome

/-- An operation frees the virtual connections that a disconnect leaves with the reference of their
process group alone, and no other. -/
def FreedExactly (w : World) (a : Act) (w' : World) : Prop :=
  ∀ v vc, w.vcs.get v = some vc →
    (w'.vcs.get v = none ↔ (∃ c, a = .disconnect c) ∧ 1 < vc.refcnt ∧ w'.slotCount v = 0)

/-- At a disconnect, every virtual connection of a table that the sub-communicators are the last to
release is also in a table that another communicator keeps. -/
def SubsKept (w : World) : Act → Prop
  | .disconnect c => ∀ comm, w.comms.get c = some comm → ∀ t ∈ comm.subs, ∀ table,
      w.vcrts.get t = some table → table.refcnt ≤ comm.tables.count t → ∀ v ∈ table.vcr,
        ∃ t' table', w.vcrts.get t' = some table' ∧ comm.tables.count t' < table'.refcnt ∧
          v ∈ table'.vcr
  | _ => True

section run

variable {w w' : World}

theorem Inv.refsOk (h : Inv w) : RefsOk w :=
  ⟨h.balanced.refs, h.balanced.pgRefs, fun _ _ _ ht hv => h.balanced.mem_table ht hv⟩

theorem freedExactly_of_live {a : Act} (ha : ∀ c, a ≠ .disconnect c)
    (hlive : ∀ v, (w.vcs.get v).isSome → (w'.vcs.get v).isSome) : FreedExactly w a w' := by
  intro v vc hv
  refine ⟨fun hnone => ?_, fun ⟨⟨c, hc⟩, _⟩ => absurd hc (ha c)⟩
  have hsome := hlive v (by rw [hv]; rfl)
  rw [hnone] at hsome
  cases hsome

theorem Inv.disconnect {c : Nat} (h : Inv w) (hc : w.commDelete c true = some w') :
    FreedExactly w (.disconnect c) w' ↔ SubsKept w (.disconnect c) := by
  obtain ⟨comm, hcomm, -⟩ := bind_eq_some_iff.1 hc
  obtain ⟨-, hfreed, hslots⟩ := h.commDelete hcomm hc
  have hcount : ∀ t, comm.tables.count t = comm.main.count t + comm.subs.count t :=
    fun t => count_append
  constructor
  · intro hex comm' hcomm' t ht table htable hle v hv
    obtain rfl := Option.some.inj (hcomm.symm.trans hcomm')
    -- the communicator holds the table, by its sub-communicators too
    have hsub : 0 < comm.subs.count t := count_pos_iff.2 ht
    have hheld : comm.main.count t < table.refcnt := by
      have href := h.held.refs t
      have hsum := Store.sum_put (f := fun c => c.tables.count t) hcomm none
      have htr : w.tableRefs t = table.refcnt := by
        unfold World.tableRefs
        rw [htable]
        rfl
      have hh : w.holders t = w.comms.sum fun c => c.tables.count t := rfl
      change _ + comm.tables.count t = _ + 0 at hsum
      have := hcount t
      omega
    obtain ⟨vc, hvc⟩ := isSome_iff_exists.1 (h.balanced.mem_table htable hv)
    have hpos : 0 < w.slotCount v := slotCount_pos.2 ⟨t, table, htable, hv⟩
    refine (hslots v).1 (Nat.pos_of_ne_zero fun hz => ?_)
    have hnone := (hex v vc hvc).2 ⟨⟨c, rfl⟩, by rw [h.refsOk.vcRefs v vc hvc]; omega, hz⟩
    have hsome := (hfreed v).2
      ⟨by rw [hvc]; rfl, fun hno => hno.2.2 ⟨t, table, htable, hheld, hv⟩⟩
    rw [hnone] at hsome
    cases hsome
  · intro hkept v vc hvc
    have hiff := hfreed v
    rw [hvc, isSome_some, and_iff_right rfl, ← not_iff_not, not_not,
      not_isSome_iff_eq_none] at hiff
    rw [hiff, h.refsOk.vcRefs v vc hvc]
    refine ⟨fun ⟨_, hpos, hno⟩ => ⟨⟨c, rfl⟩, by omega, Nat.eq_zero_of_not_pos fun hs => ?_⟩,
      fun ⟨_, hpos, hz⟩ => ⟨rfl, by omega, ?_⟩⟩
    · obtain ⟨t, table, ht, hlt, hv⟩ := (hslots v).1 hs
      exact hno ⟨t, table, ht, by have := hcount t; omega, hv⟩
    · rintro ⟨t, table, ht, hlt, hv⟩
      have hslot : 0 < w'.slotCount v := by
        rw [hslots]
        by_cases hle : table.refcnt ≤ comm.tables.count t
        · have hsub : t ∈ comm.subs := by
            have := hcount t
            exact count_pos_iff.1 (by omega)
          exact hkept comm hcomm t hsub table ht hle v hv
        · exact ⟨t, table, ht, Nat.lt_of_not_le hle, hv⟩
      omega

theorem Inv.step {a : Act} (h : Inv w) (hs : refsSys.step w a = some w') :
    Inv w' ∧ (FreedExactly w a w' ↔ SubsKept w a) := by
  have hplain : (∀ c, a ≠ .disconnect c) → (SubsKept w a ↔ True) →
      (Inv w' ∧ ∀ v, (w.vcs.get v).isSome → (w'.vcs.get v).isSome) →
      Inv w' ∧ (FreedExactly w a w' ↔ SubsKept w a) :=
    fun ha hk ⟨hi, hl⟩ => ⟨hi, iff_of_true (freedExactly_of_live ha hl) (hk.2 trivial)⟩
  cases a with
  | pgCreate size =>
    cases hs
    exact hplain (fun _ => Act.noConfusion) Iff.rfl ⟨h.pgCreate size, fun _ hv => hv⟩
  | connect pg pgRank => exact hplain (fun _ => Act.noConfusion) Iff.rfl (h.vcCreate hs)
  | create remote loc => exact hplain (fun _ => Act.noConfusion) Iff.rfl (h.commCreate hs)
  | createSub c m => exact hplain (fun _ => Act.noConfusion) Iff.rfl (h.subCreate hs)
  | free c =>
    obtain ⟨comm, hcomm, -⟩ := bind_eq_some_iff.1 hs
    obtain ⟨hi, hfreed, -⟩ := h.commDelete hcomm hs
    refine hplain (fun _ => Act.noConfusion) Iff.rfl ⟨hi, fun v hv => (hfreed v).2 ⟨hv, ?_⟩⟩
    exact fun hno => Bool.false_ne_true hno.1
  | disconnect c =>
    obtain ⟨comm, hcomm, -⟩ := bind_eq_some_iff.1 hs
    exact ⟨(h.commDelete hcomm hs).1, h.disconnect hs⟩

theorem inv_reach {s : World} (h : refsSys.Reach s) : Inv s := by
  refine Sys.Reach.inv (M := refsSys) (I := Inv) ?_ (fun hi hs => (Inv.step hi hs).1) h
  refine ⟨⟨fun v vc hv => ?_, fun v hv => ?_, fun i g hg => ?_, fun v vc hv => ?_,
    fun i g k v hg => ?_⟩, ⟨fun t => rfl, fun t table ht => ?_⟩⟩
  · cases hv
  · exact absurd hv (Nat.lt_irrefl 0)
  · cases hg
  · cases hv
  · cases hg
  · cases ht

/-- In every state of every run the counts are those of the references that there are, and a
disconnect frees exactly the virtual connections that it leaves with the reference of their process
group alone if and only if no table of these is left to its sub-communicators, whose references are
released as if the communicator were freed. -/
theorem refcnt_balanced {s : World} (h : refsSys.Reach s) :
    RefsOk s ∧ ∀ a s', refsSys.step s a = some s' → (FreedExactly s a s' ↔ SubsKept s a) :=
  ⟨(inv_reach h).refsOk, fun _ _ hs => ((inv_reach h).step hs).2⟩

end run

def twoNodes : List Act :=
  [.pgCreate 2, .connect 0 0, .connect 0 1, .create (.ofPgs [(0, 0), (0, 1)]) none]

/-- Two processes on one node create a communicator of a session; it gets a communicator of the
node, and one of the node roots, and both share its table. -/
def oneNode : List Act :=
  twoNodes ++ [Act.createSub 0 ⟨0, 2, some [0, 1]⟩, .createSub 0 ⟨0, 2, some [0]⟩]

theorem refcnt_balanced_nodes : ∃ s s', refsSys.exec refsSys.init twoNodes = some s ∧
    refsSys.step s (.disconnect 0) = some s' ∧ RefsOk s ∧ FreedExactly s (.disconnect 0) s' ∧
    s.slotCount 1 = 1 ∧ s'.vcs.get 1 = none := by
  have hrun : refsSys.exec refsSys.init twoNodes = some _ := rfl
  obtain ⟨hok, hfreed⟩ := refcnt_balanced (Sys.exec_reach .init hrun)
  refine ⟨_, _, hrun, rfl, hok, (hfreed _ _ rfl).2 ?_, rfl, rfl⟩
  intro comm hcomm t ht
  cases hcomm
  cases ht

/-- A disconnect on one node leaves the virtual connections with the reference of their process
group alone, and does not free them. -/
theorem disconnect_keeps_vc : ∃ s s', refsSys.exec refsSys.init oneNode = some s ∧
    refsSys.step s (.disconnect 0) = some s' ∧ s.slotCount 1 = 1 ∧ s'.slotCount 1 = 0 ∧
    s'.vcs.get 1 = some ⟨1, 0, 1⟩ ∧ ¬ FreedExactly s (.disconnect 0) s' := by
  refine ⟨_, _, rfl, rfl, rfl, rfl, rfl, fun hex => ?_⟩
  have hfreed := (hex 1 _ rfl).2 ⟨⟨0, rfl⟩, by decide, rfl⟩
  cases hfreed

end PsMpi.Refs
