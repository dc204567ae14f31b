import PsMpi.Attr.Lists
import Mathlib.Data.List.Perm.Basic
import Mathlib.Data.List.Nodup

/-!
# Attribute lists as finite maps
-/

namespace PsMpi.Attr

open PsMpi.Lib

variable {V : Type} {s s' : St V} {i : Nat} {o : Obj V} {h : Int} {k : Keyval} {v : V}

def St.entries (s : St V) : List (Attribute V) := s.objs.flatMap Obj.attributes

def St.uses (s : St V) (h : Int) : Nat := (s.entries.map Attribute.keyval).count h

def St.gone (s : St V) (n : Nat) : Prop :=
  s.insts[n]? = some true ∧ n ∉ s.entries.map Attribute.inst

instance (s : St V) (n : Nat) : Decidable (s.gone n) :=
  inferInstanceAs (Decidable (_ ∧ _))

structure Core (s : St V) : Prop where
  nodup : ∀ o ∈ s.objs, (o.attributes.map Attribute.keyval).Nodup
  refs : ∀ h k, s.keyvals h = some k →
    k.refCount = s.uses h + (if k.wasFreed then 0 else 1) ∧ k.refCount ≠ 0
  live : ∀ e ∈ s.entries, ∃ k, s.keyvals e.keyval = some k ∧ s.insts[e.inst]? = some k.hasDelete
  insts : (s.entries.map Attribute.inst).Nodup
  once : ∀ n, s.log.count (.deleted n) = if s.gone n then 1 else 0

/-! ## Changing a list -/

section change

theorem entries_setAttrs (ho : s.objs[i]? = some o) (l : List (Attribute V)) :
    ((s.setAttrs i l).entries ++ o.attributes).Perm (s.entries ++ l) := by
  unfold St.entries St.setAttrs
  generalize s.objs = objs at ho
  induction objs generalizing i with
  | nil => cases ho
  | cons o' objs ih =>
    cases i with
    | zero =>
      obtain rfl : o' = o := Option.some.inj ho
      simp only [List.modify_zero_cons, List.flatMap_cons]
      have hswap := (@List.perm_append_comm _ (objs.flatMap Obj.attributes)
        o'.attributes).append_right l
      rw [List.append_assoc]
      exact List.perm_append_comm.trans hswap
    | succ i =>
      simp only [List.modify_succ_cons, List.flatMap_cons, List.append_assoc]
      exact (ih ho).append_left o'.attributes

theorem mem_objs_setAttrs {l : List (Attribute V)} {o' : Obj V}
    (h : o' ∈ (s.setAttrs i l).objs) : o' ∈ s.objs ∨ o'.attributes = l := by
  unfold St.setAttrs at h
  obtain ⟨j, hj⟩ := List.mem_iff_getElem?.1 h
  rw [List.getElem?_modify] at hj
  obtain ⟨o, ho, rfl⟩ := Option.map_eq_some_iff.1 hj
  split
  · exact .inr rfl
  · exact .inl (List.mem_of_getElem? ho)

theorem entries_insert (ho : s.objs[i]? = some o) {l : List (Attribute V)} {e : Attribute V}
    (hl : l.Perm (e :: o.attributes)) : (s.setAttrs i l).entries.Perm (e :: s.entries) := by
  have h := (entries_setAttrs ho l).trans (hl.append_left s.entries)
  have h' : (s.entries ++ e :: o.attributes).Perm (e :: s.entries ++ o.attributes) :=
    List.perm_middle
  exact (List.perm_append_right_iff _).1 (h.trans h')

theorem entries_drop (ho : s.objs[i]? = some o) {l : List (Attribute V)} {p : Attribute V}
    (hl : o.attributes.Perm (p :: l)) : s.entries.Perm (p :: (s.setAttrs i l).entries) := by
  have h := (entries_setAttrs ho l).symm.trans (hl.append_left _)
  have h' : ((s.setAttrs i l).entries ++ p :: l).Perm (p :: (s.setAttrs i l).entries ++ l) :=
    List.perm_middle
  exact (List.perm_append_right_iff _).1 (h.trans h')

@[simp] theorem setKeyval_self (ks : Int → Option Keyval) (h : Int) (k : Option Keyval) :
    setKeyval ks h k h = k := if_pos rfl

theorem setKeyval_of_ne (ks : Int → Option Keyval) {h h' : Int} (k : Option Keyval) (hne : h' ≠ h) :
    setKeyval ks h k h' = ks h' := if_neg hne

theorem Core.insert (hc : Core s) (ho : s.objs[i]? = some o) (hk : s.keyvals h = some k)
    {l : List (Attribute V)} (hl : l.Perm (s.newAttr h v :: o.attributes))
    (hnew : h ∉ o.attributes.map Attribute.keyval) {ks : Int → Option Keyval}
    (hks : addRef s.keyvals h = some ks) :
    Core { s.setAttrs i l with keyvals := ks, insts := s.insts ++ [k.hasDelete] } := by
  have hperm := entries_insert ho hl
  have hentries : ∀ ks insts, St.entries { s.setAttrs i l with keyvals := ks, insts := insts } =
      (s.setAttrs i l).entries := fun _ _ => rfl
  rw [addRef, hk] at hks
  cases hks
  have hfresh : ∀ e ∈ s.entries, e.inst < s.insts.length := by
    intro e he
    obtain ⟨k, -, hinst⟩ := hc.live e he
    exact (List.getElem?_eq_some_iff.1 hinst).1
  refine ⟨fun o' ho' => ?_, fun h' k' hk' => ?_, fun e he => ?_, ?_, fun n => ?_⟩
  · rcases mem_objs_setAttrs ho' with hold | hnew'
    · exact hc.nodup o' hold
    · rw [hnew', (hl.map Attribute.keyval).nodup_iff, List.map_cons, List.nodup_cons]
      exact ⟨hnew, hc.nodup o (List.mem_of_getElem? ho)⟩
  · have huses : St.uses { s.setAttrs i l with
        keyvals := setKeyval s.keyvals h (some { k with refCount := k.refCount + 1 }),
        insts := s.insts ++ [k.hasDelete] } h' = s.uses h' + if h = h' then 1 else 0 := by
      rw [St.uses, hentries, (hperm.map Attribute.keyval).count_eq, List.map_cons, List.count_cons]
      simp [St.uses, St.newAttr]
    rw [huses]
    by_cases hh : h' = h
    · subst hh
      have hk' : setKeyval s.keyvals h' _ h' = some k' := hk'
      rw [setKeyval_self] at hk'
      cases hk'
      have := (hc.refs h' k hk).1
      simp only [if_true]
      omega
    · have hk' : setKeyval s.keyvals h _ h' = some k' := hk'
      rw [setKeyval_of_ne _ _ hh] at hk'
      rw [if_neg (Ne.symm hh)]
      exact hc.refs h' k' hk'
  · rw [hentries, hperm.mem_iff, List.mem_cons] at he
    rcases he with rfl | he
    · refine ⟨_, setKeyval_self _ _ _, ?_⟩
      show (s.insts ++ [k.hasDelete])[s.insts.length]? = some k.hasDelete
      rw [List.getElem?_append_right (Nat.le_refl _), Nat.sub_self]
      rfl
    · obtain ⟨k', hk', hinst⟩ := hc.live e he
      have hlt := hfresh e he
      show ∃ k', setKeyval s.keyvals h _ e.keyval = some k' ∧
        (s.insts ++ [k.hasDelete])[e.inst]? = some k'.hasDelete
      rw [List.getElem?_append_left hlt]
      by_cases hh : e.keyval = h
      · rw [hh, setKeyval_self]
        rw [hh, hk] at hk'
        cases hk'
        exact ⟨_, rfl, hinst⟩
      · rw [setKeyval_of_ne _ _ hh]
        exact ⟨k', hk', hinst⟩
  · rw [hentries, (hperm.map Attribute.inst).nodup_iff, List.map_cons, List.nodup_cons]
    refine ⟨fun hmem => ?_, hc.insts⟩
    obtain ⟨e, he, hinst⟩ := List.mem_map.1 hmem
    have hlt := hfresh e he
    rw [hinst] at hlt
    exact Nat.lt_irrefl _ hlt
  · have hgone : St.gone { s.setAttrs i l with
        keyvals := setKeyval s.keyvals h (some { k with refCount := k.refCount + 1 }),
        insts := s.insts ++ [k.hasDelete] } n ↔ s.gone n := by
      unfold St.gone
      rw [hentries, (hperm.map Attribute.inst).mem_iff, List.map_cons, List.mem_cons, not_or]
      show (s.insts ++ [k.hasDelete])[n]? = some true ∧ ¬ n = s.insts.length ∧ _ ↔ _
      constructor
      · rintro ⟨hinst, hne, hnot⟩
        rw [List.getElem?_append_left] at hinst
        · exact ⟨hinst, hnot⟩
        · have := (List.getElem?_eq_some_iff.1 hinst).1
          rw [List.length_append, List.length_singleton] at this
          omega
      · rintro ⟨hinst, hnot⟩
        have hlt := (List.getElem?_eq_some_iff.1 hinst).1
        rw [List.getElem?_append_left hlt]
        exact ⟨hinst, by omega, hnot⟩
    show s.log.count (.deleted n) = _
    rw [hc.once n]
    simp only [hgone]

theorem entries_replace (ho : s.objs[i]? = some o) {l r : List (Attribute V)} {p e : Attribute V}
    (hp : o.attributes.Perm (p :: r)) (hl : l.Perm (e :: r)) :
    ∃ E, s.entries.Perm (p :: E) ∧ (s.setAttrs i l).entries.Perm (e :: E) := by
  have hmem : p ∈ s.entries :=
    List.mem_flatMap.2 ⟨o, List.mem_of_getElem? ho, hp.symm.subset List.mem_cons_self⟩
  obtain ⟨pre, post, hsplit⟩ := List.append_of_mem hmem
  have hE : s.entries.Perm (p :: (pre ++ post)) := by
    rw [hsplit]
    exact List.perm_middle
  refine ⟨pre ++ post, hE, ?_⟩
  have h₁ := ((hp.symm.append_left _).trans (entries_setAttrs ho l)).trans (hl.append_left _)
  have h₂ : (p :: (s.setAttrs i l).entries ++ r).Perm (e :: s.entries ++ r) :=
    (List.perm_middle.symm.trans h₁).trans List.perm_middle
  have h₃ := (List.perm_append_right_iff _).1 h₂
  exact (List.perm_cons p).1 (h₃.trans ((hE.cons e).trans (List.Perm.swap _ _ _)))

theorem count_callDelete (s : St V) (k : Keyval) (m n : Nat) :
    (s.callDelete k (.deleted m)).log.count (.deleted n) =
      s.log.count (.deleted n) + if m = n ∧ k.hasDelete = true then 1 else 0 := by
  unfold St.callDelete
  split
  · next hd =>
    rw [List.count_append, List.count_singleton]
    simp [hd]
  · next hd => simp [hd]

theorem Core.replace (hc : Core s) (ho : s.objs[i]? = some o) (hk : s.keyvals h = some k)
    {l r : List (Attribute V)} {p : Attribute V} (hp : o.attributes.Perm (p :: r))
    (hph : p.keyval = h) (hl : l.Perm (s.newAttr h v :: r)) :
    Core { (s.setAttrs i l).callDelete k (.deleted p.inst) with
      insts := s.insts ++ [k.hasDelete] } := by
  obtain ⟨E, hE, hE'⟩ := entries_replace ho hp hl
  have hcall : ∀ e : Ev, ((s.setAttrs i l).callDelete k e).objs = (s.setAttrs i l).objs ∧
      ((s.setAttrs i l).callDelete k e).keyvals = s.keyvals := by
    intro e
    unfold St.callDelete
    split <;> exact ⟨rfl, rfl⟩
  have hentries : St.entries { (s.setAttrs i l).callDelete k (.deleted p.inst) with
      insts := s.insts ++ [k.hasDelete] } = (s.setAttrs i l).entries :=
    congrArg (List.flatMap Obj.attributes) (hcall _).1
  have hfresh : ∀ e ∈ s.entries, e.inst < s.insts.length := by
    intro e he
    obtain ⟨k, -, hinst⟩ := hc.live e he
    exact (List.getElem?_eq_some_iff.1 hinst).1
  have hpE : p.inst ∉ E.map Attribute.inst ∧ (E.map Attribute.inst).Nodup := by
    have := hc.insts
    rw [(hE.map Attribute.inst).nodup_iff, List.map_cons, List.nodup_cons] at this
    exact this
  have hpinst : s.insts[p.inst]? = some k.hasDelete := by
    obtain ⟨k', hk', hinst⟩ := hc.live p (hE.symm.subset List.mem_cons_self)
    rw [hph, hk] at hk'
    cases hk'
    exact hinst
  have hplt := (List.getElem?_eq_some_iff.1 hpinst).1
  refine ⟨fun o' ho' => ?_, fun h' k' hk' => ?_, fun e he => ?_, ?_, fun n => ?_⟩
  · have ho' : o' ∈ ((s.setAttrs i l).callDelete k (.deleted p.inst)).objs := ho'
    rw [(hcall _).1] at ho'
    rcases mem_objs_setAttrs ho' with hold | hnew
    · exact hc.nodup o' hold
    · have hnd := hc.nodup o (List.mem_of_getElem? ho)
      rw [(hp.map Attribute.keyval).nodup_iff, List.map_cons, hph] at hnd
      rw [hnew, (hl.map Attribute.keyval).nodup_iff, List.map_cons]
      exact hnd
  · have hk' : ((s.setAttrs i l).callDelete k (.deleted p.inst)).keyvals h' = some k' := hk'
    rw [(hcall _).2] at hk'
    have huses : St.uses { (s.setAttrs i l).callDelete k (.deleted p.inst) with
        insts := s.insts ++ [k.hasDelete] } h' = s.uses h' := by
      rw [St.uses, St.uses, hentries, (hE'.map Attribute.keyval).count_eq,
        (hE.map Attribute.keyval).count_eq, List.map_cons, List.map_cons, hph]
      rfl
    rw [huses]
    exact hc.refs h' k' hk'
  · show ∃ k', ((s.setAttrs i l).callDelete k (.deleted p.inst)).keyvals e.keyval = some k' ∧
      (s.insts ++ [k.hasDelete])[e.inst]? = some k'.hasDelete
    rw [(hcall _).2]
    rw [hentries, hE'.mem_iff, List.mem_cons] at he
    rcases he with rfl | he
    · refine ⟨k, hk, ?_⟩
      show (s.insts ++ [k.hasDelete])[s.insts.length]? = some k.hasDelete
      rw [List.getElem?_append_right (Nat.le_refl _), Nat.sub_self]
      rfl
    · have he := hE.symm.subset (List.mem_cons_of_mem _ he)
      obtain ⟨k', hk', hinst⟩ := hc.live e he
      rw [List.getElem?_append_left (hfresh e he)]
      exact ⟨k', hk', hinst⟩
  · rw [hentries, (hE'.map Attribute.inst).nodup_iff, List.map_cons, List.nodup_cons]
    refine ⟨fun hmem => ?_, hpE.2⟩
    obtain ⟨e, he, hinst⟩ := List.mem_map.1 hmem
    have hlt := hfresh e (hE.symm.subset (List.mem_cons_of_mem _ he))
    rw [hinst] at hlt
    exact Nat.lt_irrefl _ hlt
  · show ((s.setAttrs i l).callDelete k (.deleted p.inst)).log.count (.deleted n) = _
    rw [count_callDelete]
    show s.log.count (.deleted n) + _ = _
    rw [hc.once n]
    have hgone : St.gone { (s.setAttrs i l).callDelete k (.deleted p.inst) with
        insts := s.insts ++ [k.hasDelete] } n ↔ s.gone n ∨ p.inst = n ∧ k.hasDelete = true := by
      unfold St.gone
      rw [hentries, (hE'.map Attribute.inst).mem_iff, (hE.map Attribute.inst).mem_iff,
        List.map_cons, List.map_cons, List.mem_cons, List.mem_cons, not_or, not_or]
      show (s.insts ++ [k.hasDelete])[n]? = some true ∧ ¬ n = s.insts.length ∧ _ ↔ _
      constructor
      · rintro ⟨hinst, hne, hnot⟩
        have hlt := (List.getElem?_eq_some_iff.1 hinst).1
        rw [List.length_append, List.length_singleton] at hlt
        rw [List.getElem?_append_left (by omega)] at hinst
        by_cases hpn : p.inst = n
        · rw [← hpn, hpinst] at hinst
          exact .inr ⟨hpn, Option.some.inj hinst⟩
        · exact .inl ⟨hinst, Ne.symm hpn, hnot⟩
      · rintro (⟨hinst, -, hnot⟩ | ⟨rfl, hd⟩)
        · have hlt := (List.getElem?_eq_some_iff.1 hinst).1
          rw [List.getElem?_append_left hlt]
          exact ⟨hinst, by omega, hnot⟩
        · rw [List.getElem?_append_left hplt, hpinst, hd]
          exact ⟨rfl, by omega, hpE.1⟩
    have hnot : p.inst = n ∧ k.hasDelete = true → ¬ s.gone n := by
      rintro ⟨rfl, -⟩ ⟨-, hnot⟩
      exact hnot (List.mem_map_of_mem (hE.symm.subset List.mem_cons_self))
    by_cases h₁ : p.inst = n ∧ k.hasDelete = true
    · rw [if_neg (hnot h₁), if_pos h₁, if_pos (hgone.2 (.inr h₁))]
    · rw [if_neg h₁, Nat.add_zero]
      simp only [hgone, h₁, or_false]

theorem perm_deleteAttr {p : Attribute V} {l : List (Attribute V)}
    (hnd : (l.map Attribute.inst).Nodup) (hp : p ∈ l) : l.Perm (p :: deleteAttr p l) := by
  induction l with
  | nil => cases hp
  | cons q l ih =>
    obtain ⟨hq, hl⟩ := List.nodup_cons.1 hnd
    unfold deleteAttr at ih ⊢
    by_cases heq : q.inst = p.inst
    · rcases List.mem_cons.1 hp with rfl | hmem
      · rw [List.eraseP_cons_of_pos (by simp)]
      · exact absurd (List.mem_map.2 ⟨p, hmem, heq.symm⟩) hq
    · have hmem : p ∈ l := by
        rcases List.mem_cons.1 hp with rfl | hmem
        · exact absurd rfl heq
        · exact hmem
      rw [List.eraseP_cons_of_neg (by simpa using heq)]
      exact ((ih hl hmem).cons q).trans (List.Perm.swap _ _ _)

theorem Core.release (hc : Core s) {p : Attribute V} (hp : p ∈ s.entries) :
    ∃ k, s.keyvals p.keyval = some k ∧ s.insts[p.inst]? = some k.hasDelete ∧
      releaseRef s.keyvals p.keyval = some (setKeyval s.keyvals p.keyval
        (if k.refCount = 1 then none else some { k with refCount := k.refCount - 1 })) := by
  obtain ⟨k, hk, hinst⟩ := hc.live p hp
  refine ⟨k, hk, hinst, ?_⟩
  rw [releaseRef, hk]
  simp only [Option.bind_eq_bind, Option.bind_some, if_neg (hc.refs _ k hk).2]
  split <;> rfl

theorem Core.drop (hc : Core s) (ho : s.objs[i]? = some o) {p : Attribute V}
    (hp : p ∈ o.attributes) : ∃ s', s.dropAttr i o.attributes p = some s' ∧ Core s' ∧
      s'.objs = (s.setAttrs i (deleteAttr p o.attributes)).objs := by
  have hmem : p ∈ s.entries := List.mem_flatMap.2 ⟨o, List.mem_of_getElem? ho, hp⟩
  obtain ⟨k, hk, hpinst, hrel⟩ := hc.release hmem
  have hndo : (o.attributes.map Attribute.inst).Nodup := by
    have hall := hc.insts
    rw [St.entries, List.map_flatMap, List.nodup_flatMap] at hall
    exact hall.1 o (List.mem_of_getElem? ho)
  have hperm := perm_deleteAttr hndo hp
  have hE := entries_drop ho hperm
  generalize hl : deleteAttr p o.attributes = l at hperm hE
  have hcall : ∀ e : Ev, ((s.setAttrs i l).callDelete k e).objs = (s.setAttrs i l).objs ∧
      ((s.setAttrs i l).callDelete k e).insts = s.insts := by
    intro e
    unfold St.callDelete
    split <;> exact ⟨rfl, rfl⟩
  have hpE : p.inst ∉ (s.setAttrs i l).entries.map Attribute.inst ∧
      ((s.setAttrs i l).entries.map Attribute.inst).Nodup := by
    have := hc.insts
    rw [(hE.map Attribute.inst).nodup_iff, List.map_cons, List.nodup_cons] at this
    exact this
  generalize hks : setKeyval s.keyvals p.keyval
    (if k.refCount = 1 then none else some { k with refCount := k.refCount - 1 }) = ks at hrel
  refine ⟨{ (s.setAttrs i l).callDelete k (.deleted p.inst) with keyvals := ks }, ?_, ?_,
    (hcall _).1⟩
  · rw [St.dropAttr, hk, hrel, hl]
    rfl
  have hentries : St.entries { (s.setAttrs i l).callDelete k (.deleted p.inst) with
      keyvals := ks } = (s.setAttrs i l).entries :=
    congrArg (List.flatMap Obj.attributes) (hcall _).1
  have huses : ∀ h', s.uses h' = St.uses { (s.setAttrs i l).callDelete k (.deleted p.inst) with
      keyvals := ks } h' + if p.keyval = h' then 1 else 0 := by
    intro h'
    rw [St.uses, St.uses, hentries, (hE.map Attribute.keyval).count_eq, List.map_cons,
      List.count_cons]
    simp
  have hrefs := hc.refs p.keyval k hk
  refine ⟨fun o' ho' => ?_, fun h' k' hk' => ?_, fun e he => ?_, ?_, fun n => ?_⟩
  · have ho' : o' ∈ ((s.setAttrs i l).callDelete k (.deleted p.inst)).objs := ho'
    rw [(hcall _).1] at ho'
    rcases mem_objs_setAttrs ho' with hold | hnew
    · exact hc.nodup o' hold
    · have hnd := hc.nodup o (List.mem_of_getElem? ho)
      rw [(hperm.map Attribute.keyval).nodup_iff, List.map_cons] at hnd
      rw [hnew]
      exact (List.nodup_cons.1 hnd).2
  · have hk' : ks h' = some k' := hk'
    have hu := huses h'
    rw [← hks] at hk'
    by_cases hh : h' = p.keyval
    · subst hh
      rw [setKeyval_self] at hk'
      rw [if_pos rfl] at hu
      split at hk'
      · cases hk'
      · next hone =>
        cases hk'
        show k.refCount - 1 = _ + (if k.wasFreed then 0 else 1) ∧ k.refCount - 1 ≠ 0
        omega
    · rw [setKeyval_of_ne _ _ hh] at hk'
      rw [if_neg (Ne.symm hh), Nat.add_zero] at hu
      rw [← hu]
      exact hc.refs h' k' hk'
  · rw [hentries] at he
    have he' : e ∈ s.entries := hE.symm.subset (List.mem_cons_of_mem _ he)
    obtain ⟨k', hk', hinst⟩ := hc.live e he'
    show ∃ k', ks e.keyval = some k' ∧
      ((s.setAttrs i l).callDelete k (.deleted p.inst)).insts[e.inst]? = some k'.hasDelete
    rw [(hcall _).2, ← hks]
    by_cases hh : e.keyval = p.keyval
    · rw [hh, hk] at hk'
      cases hk'
      -- the keyval is used by this attribute as well
      have hu := huses p.keyval
      have hpos : 0 < St.uses { (s.setAttrs i l).callDelete k (.deleted p.inst) with
          keyvals := ks } p.keyval := by
        rw [St.uses, hentries, ← hh]
        exact List.count_pos_iff.2 (List.mem_map_of_mem he)
      rw [if_pos rfl] at hu
      rw [hh, setKeyval_self, if_neg (by omega)]
      exact ⟨_, rfl, hinst⟩
    · rw [setKeyval_of_ne _ _ hh]
      exact ⟨k', hk', hinst⟩
  · rw [hentries]
    exact hpE.2
  · show ((s.setAttrs i l).callDelete k (.deleted p.inst)).log.count (.deleted n) = _
    rw [count_callDelete]
    show s.log.count (.deleted n) + _ = _
    rw [hc.once n]
    have hgone : St.gone { (s.setAttrs i l).callDelete k (.deleted p.inst) with keyvals := ks } n ↔
        s.gone n ∨ p.inst = n ∧ k.hasDelete = true := by
      unfold St.gone
      rw [hentries, (hE.map Attribute.inst).mem_iff, List.map_cons, List.mem_cons, not_or]
      show ((s.setAttrs i l).callDelete k (.deleted p.inst)).insts[n]? = some true ∧ _ ↔ _
      rw [(hcall _).2]
      constructor
      · rintro ⟨hinst, hnot⟩
        by_cases hpn : p.inst = n
        · rw [← hpn, hpinst] at hinst
          exact .inr ⟨hpn, Option.some.inj hinst⟩
        · exact .inl ⟨hinst, Ne.symm hpn, hnot⟩
      · rintro (⟨hinst, -, hnot⟩ | ⟨rfl, hd⟩)
        · exact ⟨hinst, hnot⟩
        · rw [hpinst, hd]
          exact ⟨rfl, hpE.1⟩
    have hnot : p.inst = n ∧ k.hasDelete = true → ¬ s.gone n := by
      rintro ⟨rfl, -⟩ ⟨-, hnot⟩
      exact hnot (List.mem_map_of_mem hmem)
    by_cases h₁ : p.inst = n ∧ k.hasDelete = true
    · rw [if_neg (hnot h₁), if_pos h₁, if_pos (hgone.2 (.inr h₁))]
    · rw [if_neg h₁, Nat.add_zero]
      simp only [hgone, h₁, or_false]

end change

/-! ## Setting an attribute in a list -/

section lists

variable {l l' : List (Attribute V)} {e p : Attribute V}

theorem findAttr_some (h' : findAttr h l = some p) : p ∈ l ∧ p.keyval = h :=
  ⟨List.mem_of_find?_eq_some h', by simpa using List.find?_some h'⟩

theorem findAttr_none : findAttr h l = none ↔ h ∉ l.map Attribute.keyval := by
  unfold findAttr
  rw [List.find?_eq_none]
  simp

theorem findAttr_value (hnd : (l.map Attribute.keyval).Nodup) :
    (findAttr h l).map Attribute.value = some v ↔ ∃ e ∈ l, e.keyval = h ∧ e.value = v := by
  constructor
  · intro hv
    obtain ⟨p, hp, rfl⟩ := Option.map_eq_some_iff.1 hv
    obtain ⟨hmem, hkey⟩ := findAttr_some hp
    exact ⟨p, hmem, hkey, rfl⟩
  · rintro ⟨e, he, rfl, rfl⟩
    cases hf : findAttr e.keyval l with
    | none => exact absurd (List.mem_map_of_mem he) (findAttr_none.1 hf)
    | some p =>
      obtain ⟨hmem, hkey⟩ := findAttr_some hf
      rw [List.inj_on_of_nodup_map hnd hmem he hkey]
      rfl

def Replaces (e p : Attribute V) (l l' : List (Attribute V)) : Prop :=
  ∃ r, l.Perm (p :: r) ∧ p.keyval = e.keyval ∧ l'.Perm (e :: r)

theorem Replaces.cons (h : Replaces e p l l') (q : Attribute V) :
    Replaces e p (q :: l) (q :: l') := by
  obtain ⟨r, hl, hkey, hl'⟩ := h
  exact ⟨q :: r, (hl.cons q).trans (List.Perm.swap _ _ _), hkey,
    (hl'.cons q).trans (List.Perm.swap _ _ _)⟩

theorem replaceAttr_replaces (h' : findAttr e.keyval l = some p) :
    Replaces e p l (replaceAttr e l) := by
  induction l with
  | nil => cases h'
  | cons q l ih =>
    unfold replaceAttr
    by_cases hq : q.keyval = e.keyval
    · rw [findAttr, List.find?_cons_of_pos (by simpa using hq)] at h'
      cases h'
      rw [if_pos hq]
      exact ⟨l, .refl _, hq, .refl _⟩
    · rw [findAttr, List.find?_cons_of_neg (by simpa using hq)] at h'
      rw [if_neg hq]
      exact (ih h').cons q

theorem orderedSet_spec (e : Attribute V) (l : List (Attribute V)) :
    (∃ p, (orderedSet e l).1 = some p ∧ Replaces e p l (orderedSet e l).2) ∨
      (orderedSet e l).1 = none ∧ (orderedSet e l).2.Perm (e :: l) := by
  induction l with
  | nil => exact .inr ⟨rfl, .refl _⟩
  | cons q l ih =>
    unfold orderedSet
    by_cases hq : q.keyval = e.keyval
    · rw [if_pos hq]
      exact .inl ⟨q, rfl, l, .refl _, hq, .refl _⟩
    · rw [if_neg hq]
      split
      · exact .inr ⟨rfl, List.Perm.swap _ _ _⟩
      · rcases ih with ⟨p, hp, hr⟩ | ⟨hnone, hperm⟩
        · exact .inl ⟨p, hp, hr.cons q⟩
        · exact .inr ⟨hnone, (hperm.cons q).trans (List.Perm.swap _ _ _)⟩

/-- An attribute that the list of a datatype or a window has already is found: none in front of it has
a greater handle. -/
def InPlace (kind : Kind) (h : Int) (l : List (Attribute V)) : Prop :=
  kind ≠ .comm → h ∈ l.map Attribute.keyval →
    ∀ q ∈ l.takeWhile fun p => p.keyval != h, q.keyval < h

theorem orderedSet_none (hp : ∀ q ∈ l.takeWhile fun p => p.keyval != e.keyval,
      e.keyval ∈ l.map Attribute.keyval → q.keyval < e.keyval)
    (hnone : (orderedSet e l).1 = none) : e.keyval ∉ l.map Attribute.keyval := by
  induction l with
  | nil => exact List.not_mem_nil
  | cons q l ih =>
    intro hmem
    unfold orderedSet at hnone
    by_cases hq : q.keyval = e.keyval
    · rw [if_pos hq] at hnone
      cases hnone
    · rw [if_neg hq] at hnone
      have htake : (q :: l).takeWhile (fun p => p.keyval != e.keyval) =
          q :: l.takeWhile fun p => p.keyval != e.keyval :=
        List.takeWhile_cons_of_pos (by simpa using hq)
      rw [htake] at hp
      have hlt := hp q List.mem_cons_self hmem
      rw [if_neg (by omega)] at hnone
      have hmem' : e.keyval ∈ l.map Attribute.keyval := by
        rcases List.mem_cons.1 hmem with heq | hmem'
        · exact absurd heq.symm hq
        · exact hmem'
      exact ih (fun q' hq' _ => hp q' (List.mem_cons_of_mem _ hq') hmem) hnone hmem'

theorem setList_spec {kind : Kind} (hfit : InPlace kind e.keyval l) :
    (∃ p, (setList kind e l).1 = some p ∧ Replaces e p l (setList kind e l).2) ∨
      (setList kind e l).1 = none ∧ (setList kind e l).2.Perm (e :: l) ∧
        e.keyval ∉ l.map Attribute.keyval := by
  have hordered : kind ≠ .comm → (∃ p, (orderedSet e l).1 = some p ∧
      Replaces e p l (orderedSet e l).2) ∨ (orderedSet e l).1 = none ∧
        (orderedSet e l).2.Perm (e :: l) ∧ e.keyval ∉ l.map Attribute.keyval := by
    intro hkind
    rcases orderedSet_spec e l with hr | ⟨hnone, hperm⟩
    · exact .inl hr
    · exact .inr ⟨hnone, hperm, orderedSet_none (fun q hq hmem => hfit hkind hmem q hq) hnone⟩
  cases kind with
  | comm =>
    show (∃ p, (recentSet e l).1 = some p ∧ _) ∨ _
    unfold setList recentSet
    cases hf : findAttr e.keyval l with
    | some p => exact .inl ⟨p, rfl, replaceAttr_replaces hf⟩
    | none => exact .inr ⟨rfl, .refl _, findAttr_none.1 hf⟩
  | type => exact hordered nofun
  | win => exact hordered nofun

end lists

/-! ## Steps -/

section steps

variable {m : Values V}

structure Holds (s : St V) (m : Values V) : Prop where
  attr : ∀ (i : Nat) (o : Obj V), s.objs[i]? = some o → ∀ h v,
    m i h = some v ↔ ∃ e ∈ o.attributes, e.keyval = h ∧ e.value = v
  absent : ∀ i, s.objs[i]? = none → ∀ h, m i h = none

def Inv (s : St V) (m : Values V) : Prop := Core s ∧ Holds s m

theorem Holds.isSome (hh : Holds s m) (ho : s.objs[i]? = some o) :
    (m i h).isSome = true ↔ h ∈ o.attributes.map Attribute.keyval := by
  rw [Option.isSome_iff_exists, List.mem_map]
  constructor
  · rintro ⟨v, hv⟩
    obtain ⟨e, he, hkey, -⟩ := (hh.attr i o ho h v).1 hv
    exact ⟨e, he, hkey⟩
  · rintro ⟨e, he, hkey⟩
    exact ⟨e.value, (hh.attr i o ho h e.value).2 ⟨e, he, hkey, rfl⟩⟩

theorem objs_setAttrs (l : List (Attribute V)) (j : Nat) :
    (s.setAttrs i l).objs[j]? =
      (s.objs[j]?).map fun o => if i = j then { o with attributes := l } else o := by
  rw [St.setAttrs, List.getElem?_modify]
  rfl

theorem Holds.setAttrs (hh : Holds s m) {l : List (Attribute V)} {m' : Values V}
    (hobjs : s'.objs = (s.setAttrs i l).objs) (hother : ∀ j ≠ i, m' j = m j)
    (hself : ∀ o, s.objs[i]? = some o → ∀ h v, m' i h = some v ↔
      ∃ e ∈ l, e.keyval = h ∧ e.value = v)
    (hnone : s.objs[i]? = none → ∀ h, m' i h = none) : Holds s' m' := by
  refine ⟨fun j o ho h v => ?_, fun j hj h => ?_⟩
  · rw [hobjs, objs_setAttrs] at ho
    obtain ⟨o₀, ho₀, rfl⟩ := Option.map_eq_some_iff.1 ho
    by_cases hij : i = j
    · subst hij
      simp only [if_true]
      exact hself o₀ ho₀ h v
    · rw [if_neg hij, hother j (Ne.symm hij)]
      exact hh.attr j o₀ ho₀ h v
  · rw [hobjs, objs_setAttrs, Option.map_eq_none_iff] at hj
    by_cases hij : i = j
    · subst hij
      exact hnone hj h
    · rw [hother j (Ne.symm hij)]
      exact hh.absent j hj h

theorem Holds.set (hh : Holds s m) (ho : s.objs[i]? = some o) {l r : List (Attribute V)}
    {e : Attribute V} (hobjs : s'.objs = (s.setAttrs i l).objs) (hl : l.Perm (e :: r))
    (hr : ∀ q ∈ r, q.keyval ≠ e.keyval)
    (hold : ∀ q, q.keyval ≠ e.keyval → (q ∈ r ↔ q ∈ o.attributes)) :
    Holds s' (m.set i e.keyval (some e.value)) := by
  refine hh.setAttrs hobjs (fun j hj => ?_) (fun o' ho' h v => ?_) fun hnone => ?_
  · funext h
    exact if_neg fun hno => hj hno.1
  · rw [Values.set]
    by_cases hkey : h = e.keyval
    · rw [if_pos ⟨rfl, hkey⟩]
      constructor
      · intro hv
        exact ⟨e, hl.symm.subset List.mem_cons_self, hkey.symm, Option.some.inj hv⟩
      · rintro ⟨q, hq, hqk, rfl⟩
        rcases List.mem_cons.1 (hl.subset hq) with rfl | hq
        · rfl
        · exact absurd (hqk.trans hkey) (hr q hq)
    · rw [if_neg fun hno => hkey hno.2, hh.attr i o ho]
      constructor
      · rintro ⟨q, hq, rfl, hqv⟩
        exact ⟨q, hl.symm.subset (List.mem_cons_of_mem _ ((hold q hkey).2 hq)), rfl, hqv⟩
      · rintro ⟨q, hq, rfl, hqv⟩
        rcases List.mem_cons.1 (hl.subset hq) with rfl | hq
        · exact absurd rfl hkey
        · exact ⟨q, (hold q hkey).1 hq, rfl, hqv⟩
  · rw [ho] at hnone
    cases hnone

theorem Inv.insert (hi : Inv s m) (ho : s.objs[i]? = some o) (hk : s.keyvals h = some k)
    {l : List (Attribute V)} (hl : l.Perm (s.newAttr h v :: o.attributes))
    (hnew : h ∉ o.attributes.map Attribute.keyval) :
    ∃ ks, addRef s.keyvals h = some ks ∧
      Inv { s.setAttrs i l with keyvals := ks, insts := s.insts ++ [k.hasDelete] }
        (m.set i h (some v)) := by
  have hadd : addRef s.keyvals h =
      some (setKeyval s.keyvals h (some { k with refCount := k.refCount + 1 })) := by
    rw [addRef, hk]
    rfl
  refine ⟨_, hadd, hi.1.insert ho hk hl hnew hadd, ?_⟩
  exact hi.2.set (e := s.newAttr h v) ho rfl hl
    (fun q hq hqk => hnew (List.mem_map.2 ⟨q, hq, hqk⟩)) fun q _ => Iff.rfl

theorem Inv.refused (hi : Inv s m) (k : Keyval) (n : Nat) : Inv (s.callDelete k (.refused n)) m := by
  obtain ⟨hc, hh⟩ := hi
  unfold St.callDelete
  split
  · refine ⟨⟨hc.nodup, hc.refs, hc.live, hc.insts, fun n' => ?_⟩, hh.attr, hh.absent⟩
    show (s.log ++ [Ev.refused n]).count (.deleted n') = _
    rw [List.count_append, hc.once n']
    rfl
  · exact ⟨hc, hh⟩

theorem Inv.setAttr (hi : Inv s m) (ho : s.objs[i]? = some o) (hk : s.keyvals h = some k)
    (hkind : k.kind = o.kind) (hfit : InPlace o.kind h o.attributes) (v : V) (delOk : Bool) :
    ∃ s', setAttr s i h v delOk = some s' ∧ Inv s' (valuesStep s m (.setAttr i h v delOk)) := by
  obtain ⟨hc, hh⟩ := hi
  have hrefuses : s.refuses h delOk = (k.hasDelete && !delOk) := by
    rw [St.refuses, hk]
    rfl
  have hsome := hh.isSome (h := h) ho
  unfold Attr.setAttr
  simp only [Option.bind_eq_bind, ho, hk, Option.bind_some, if_pos hkind]
  rcases setList_spec (e := s.newAttr h v) hfit with ⟨p, hp, hrep⟩ | ⟨hnone, hperm, hnot⟩
  · obtain ⟨r, hr, hkey, hl⟩ := hrep
    have hin : (m i h).isSome = true :=
      hsome.2 (List.mem_map.2 ⟨p, hr.symm.subset List.mem_cons_self, hkey⟩)
    generalize hsl : setList o.kind (s.newAttr h v) o.attributes = res at hp hl
    obtain ⟨old, l⟩ := res
    obtain rfl : old = some p := hp
    simp only [valuesStep, hin, Bool.true_and, hrefuses]
    split
    · exact ⟨_, rfl, Inv.refused ⟨hc, hh⟩ k p.inst⟩
    · have hnd := hc.nodup o (List.mem_of_getElem? ho)
      rw [(hr.map Attribute.keyval).nodup_iff, List.map_cons, List.nodup_cons] at hnd
      refine ⟨_, rfl, hc.replace ho hk hr hkey hl,
        hh.set (e := s.newAttr h v) ho ?_ hl (fun q hq hqk => ?_) fun q hq => ?_⟩
      · unfold St.callDelete
        split <;> rfl
      · exact hnd.1 (List.mem_map.2 ⟨q, hq, hqk.trans hkey.symm⟩)
      · rw [hr.mem_iff, List.mem_cons]
        refine (or_iff_right ?_).symm
        rintro rfl
        exact hq hkey
  · have hout : (m i h).isSome = false := by
      rw [← Bool.not_eq_true, hsome]
      exact hnot
    generalize hsl : setList o.kind (s.newAttr h v) o.attributes = res at hnone hperm
    obtain ⟨old, l⟩ := res
    obtain rfl : old = none := hnone
    obtain ⟨ks, hadd, hinv⟩ := Inv.insert ⟨hc, hh⟩ ho hk hperm hnot
    simp only [hadd, Option.bind_some, valuesStep, hout, Bool.false_and, Bool.false_eq_true, if_false]
    exact ⟨_, rfl, hinv⟩

theorem Inv.dropAttr (hi : Inv s m) (ho : s.objs[i]? = some o) {p : Attribute V}
    (hp : p ∈ o.attributes) : ∃ s', s.dropAttr i o.attributes p = some s' ∧
      Inv s' (m.set i p.keyval none) ∧
      s'.objs = (s.setAttrs i (deleteAttr p o.attributes)).objs := by
  obtain ⟨hc, hh⟩ := hi
  obtain ⟨s', hs', hc', hobjs⟩ := hc.drop ho hp
  refine ⟨s', hs', ⟨hc', hh.setAttrs hobjs (fun j hj => ?_) (fun o' ho' h v => ?_) fun hnone => ?_⟩,
    hobjs⟩
  · funext h
    exact if_neg fun hno => hj hno.1
  · have hndo : (o.attributes.map Attribute.inst).Nodup := by
      have hall := hc.insts
      rw [St.entries, List.map_flatMap, List.nodup_flatMap] at hall
      exact hall.1 o (List.mem_of_getElem? ho)
    have hperm := perm_deleteAttr hndo hp
    have hnd := hc.nodup o (List.mem_of_getElem? ho)
    rw [(hperm.map Attribute.keyval).nodup_iff, List.map_cons, List.nodup_cons] at hnd
    rw [Values.set]
    by_cases hkey : h = p.keyval
    · rw [if_pos ⟨rfl, hkey⟩]
      refine iff_of_false nofun ?_
      rintro ⟨e, he, hek, -⟩
      exact hnd.1 (List.mem_map.2 ⟨e, he, hek.trans hkey⟩)
    · rw [if_neg fun hno => hkey hno.2, hh.attr i o ho]
      constructor
      · rintro ⟨e, he, hek, hev⟩
        rcases List.mem_cons.1 (hperm.subset he) with rfl | he
        · exact absurd hek.symm hkey
        · exact ⟨e, he, hek, hev⟩
      · rintro ⟨e, he, hek, hev⟩
        exact ⟨e, hperm.symm.subset (List.mem_cons_of_mem _ he), hek, hev⟩
  · rw [ho] at hnone
    cases hnone

theorem Inv.deleteAttr (hi : Inv s m) (ho : s.objs[i]? = some o) (hk : s.keyvals h = some k)
    (hkind : k.kind = o.kind) (delOk : Bool) : ∃ s', deleteAttrImpl s i h delOk = some s' ∧
      Inv s' (valuesStep s m (.deleteAttr i h delOk)) := by
  have hrefuses : s.refuses h delOk = (k.hasDelete && !delOk) := by
    rw [St.refuses, hk]
    rfl
  have hsome := hi.2.isSome (h := h) ho
  unfold deleteAttrImpl
  simp only [Option.bind_eq_bind, ho, hk, Option.bind_some, if_pos hkind]
  cases hf : findAttr h o.attributes with
  | none =>
    have hout : m i h = none := by
      rw [← Option.not_isSome_iff_eq_none, hsome]
      exact findAttr_none.1 hf
    have hsame : m.set i h none = m := by
      funext j h'
      unfold Values.set
      split
      · next hjh => rw [hjh.1, hjh.2, hout]
      · rfl
    refine ⟨s, rfl, ?_⟩
    simp only [valuesStep, hout, Option.isSome_none, Bool.false_and, Bool.false_eq_true, if_false,
      hsame]
    exact hi
  | some p =>
    obtain ⟨hmem, hkey⟩ := findAttr_some hf
    have hin : (m i h).isSome = true := hsome.2 (List.mem_map.2 ⟨p, hmem, hkey⟩)
    simp only [valuesStep, hin, Bool.true_and, hrefuses]
    split
    · exact ⟨_, rfl, hi.refused k p.inst⟩
    · obtain ⟨s', hs', hinv, -⟩ := hi.dropAttr ho hmem
      rw [hkey] at hinv
      exact ⟨s', hs', hinv⟩

theorem Inv.deleteLoop {l : List (Attribute V)} (hi : Inv s m) (ho : s.objs[i]? = some o)
    (hl : o.attributes = l) : ∃ s', deleteLoop i l s = some s' ∧
      Inv s' (fun j h => if j = i then none else m j h) := by
  induction l generalizing s m o with
  | nil =>
    refine ⟨s, rfl, hi.1, fun j o' ho' h v => ?_, fun j hj h => ?_⟩
    · by_cases hji : j = i
      · subst hji
        obtain rfl := Option.some.inj (ho.symm.trans ho')
        rw [if_pos rfl, hl]
        exact iff_of_false nofun fun ⟨e, he, _⟩ => nomatch he
      · rw [if_neg hji]
        exact hi.2.attr j o' ho' h v
    · by_cases hji : j = i
      · exact if_pos hji
      · rw [if_neg hji]
        exact hi.2.absent j hj h
  | cons p l ih =>
    have hmem : p ∈ o.attributes := hl ▸ List.mem_cons_self
    obtain ⟨s₁, hs₁, hinv₁, hobjs⟩ := hi.dropAttr ho hmem
    have hdel : Attr.deleteAttr p o.attributes = l := by
      rw [hl, Attr.deleteAttr, List.eraseP_cons_of_pos (by simp)]
    have ho₁ : s₁.objs[i]? = some { o with attributes := l } := by
      rw [hobjs, objs_setAttrs, ho, hdel, Option.map_some, if_pos rfl]
    obtain ⟨s', hs', hinv'⟩ := ih hinv₁ ho₁ rfl
    refine ⟨s', ?_, ?_⟩
    · rw [Attr.deleteLoop, ← hl, hs₁]
      exact hs'
    · have hsame : (fun j h => if j = i then none else m.set i p.keyval none j h) =
          fun j h => if j = i then none else m j h := by
        funext j h
        split
        · rfl
        · next hji => exact if_neg fun hno => hji hno.1
      rw [← hsame]
      exact hinv'

theorem Inv.newObj (hi : Inv s m) (kind : Kind) :
    Inv { s with objs := s.objs ++ [⟨kind, []⟩] } m := by
  obtain ⟨hc, hh⟩ := hi
  have hentries : St.entries { s with objs := s.objs ++ [⟨kind, []⟩] } = s.entries := by
    rw [St.entries, List.flatMap_append]
    exact List.append_nil _
  have huses : ∀ h, St.uses { s with objs := s.objs ++ [⟨kind, []⟩] } h = s.uses h := fun h => by
    rw [St.uses, hentries, St.uses]
  refine ⟨⟨fun o ho => ?_, fun h k hk => ?_, fun e he => ?_, ?_, fun n => ?_⟩, fun j o ho h v => ?_,
    fun j hj h => ?_⟩
  · rcases List.mem_append.1 ho with ho | ho
    · exact hc.nodup o ho
    · obtain rfl := List.mem_singleton.1 ho
      exact List.nodup_nil
  · rw [huses]
    exact hc.refs h k hk
  · rw [hentries] at he
    exact hc.live e he
  · rw [hentries]
    exact hc.insts
  · have hgone : St.gone { s with objs := s.objs ++ [⟨kind, []⟩] } n ↔ s.gone n := by
      rw [St.gone, hentries, St.gone]
    simp only [hgone]
    exact hc.once n
  · have ho : (s.objs ++ [⟨kind, []⟩])[j]? = some o := ho
    rw [List.getElem?_append] at ho
    split at ho
    · exact hh.attr j o ho h v
    · next hj =>
      obtain rfl := List.mem_singleton.1 (List.mem_of_getElem? ho)
      rw [hh.absent j (List.getElem?_eq_none (Nat.le_of_not_lt hj))]
      exact iff_of_false nofun fun ⟨e, he, _⟩ => nomatch he
  · have hj : (s.objs ++ [⟨kind, []⟩])[j]? = none := hj
    rw [List.getElem?_eq_none_iff, List.length_append] at hj
    exact hh.absent j (List.getElem?_eq_none (by omega)) h

theorem Inv.setKeyval (hi : Inv s m) (h : Int) {k' : Option Keyval}
    (hrefs : ∀ k, k' = some k →
      k.refCount = s.uses h + (if k.wasFreed then 0 else 1) ∧ k.refCount ≠ 0)
    (hlive : s.uses h ≠ 0 → ∃ k k₀, k' = some k ∧ s.keyvals h = some k₀ ∧
      k.hasDelete = k₀.hasDelete) :
    Inv { s with keyvals := setKeyval s.keyvals h k' } m := by
  obtain ⟨hc, hh⟩ := hi
  refine ⟨⟨hc.nodup, fun h' k hk => ?_, fun e he => ?_, hc.insts, hc.once⟩, hh.attr, hh.absent⟩
  · have hk : Attr.setKeyval s.keyvals h k' h' = some k := hk
    show k.refCount = s.uses h' + _ ∧ _
    by_cases hhh : h' = h
    · subst hhh
      rw [setKeyval_self] at hk
      exact hrefs k hk
    · rw [setKeyval_of_ne _ _ hhh] at hk
      exact hc.refs h' k hk
  · obtain ⟨k, hk, hinst⟩ := hc.live e he
    show ∃ k, Attr.setKeyval s.keyvals h k' e.keyval = some k ∧ _
    by_cases hhh : e.keyval = h
    · have hpos : s.uses h ≠ 0 :=
        Nat.ne_of_gt (List.count_pos_iff.2 (hhh ▸ List.mem_map_of_mem he))
      obtain ⟨k₁, k₀, rfl, hk₀, hdel⟩ := hlive hpos
      rw [hhh, hk₀] at hk
      cases hk
      exact ⟨k₁, by rw [hhh, setKeyval_self], hdel ▸ hinst⟩
    · exact ⟨k, by rw [setKeyval_of_ne _ _ hhh, hk], hinst⟩

theorem Inv.createKeyval (hi : Inv s m) (hk : s.keyvals h = none) (kind : Kind)
    (hasCopy hasDelete : Bool) :
    ∃ s', createKeyval s kind h hasCopy hasDelete = some s' ∧ Inv s' m := by
  have hzero : s.uses h = 0 := by
    rw [St.uses, List.count_eq_zero]
    intro hmem
    obtain ⟨e, he, rfl⟩ := List.mem_map.1 hmem
    obtain ⟨k, hk', -⟩ := hi.1.live e he
    rw [hk] at hk'
    cases hk'
  refine ⟨_, by rw [Attr.createKeyval, hk], hi.setKeyval h (fun k hk => ?_) fun hne => ?_⟩
  · cases hk
    rw [hzero]
    exact ⟨rfl, Nat.one_ne_zero⟩
  · exact absurd hzero hne

theorem Inv.freeKeyval (hi : Inv s m) (hk : s.keyvals h = some k) :
    ∃ s', freeKeyval s h = some s' ∧ Inv s' m := by
  unfold Attr.freeKeyval
  simp only [Option.bind_eq_bind, hk, Option.bind_some]
  split
  · exact ⟨s, rfl, hi⟩
  · next hfreed =>
    obtain ⟨hcount, hpos⟩ := hi.1.refs h k hk
    rw [if_neg hfreed] at hcount
    have hset : ∀ k₁ k₂, Attr.setKeyval (Attr.setKeyval s.keyvals h k₁) h k₂ =
        Attr.setKeyval s.keyvals h k₂ := by
      intro k₁ k₂
      funext h'
      unfold Attr.setKeyval
      split <;> rfl
    have hrel : releaseRef (Attr.setKeyval s.keyvals h (some { k with wasFreed := true })) h =
        some (Attr.setKeyval s.keyvals h (if k.refCount = 1 then none
          else some { k with wasFreed := true, refCount := k.refCount - 1 })) := by
      rw [releaseRef, setKeyval_self]
      simp only [Option.bind_eq_bind, Option.bind_some, if_neg hpos]
      split
      · rw [hset]
      · rw [hset]
    refine ⟨_, by rw [hrel]; rfl, hi.setKeyval h (fun k' hk' => ?_) fun hne => ?_⟩
    · split at hk'
      · cases hk'
      · cases hk'
        show k.refCount - 1 = s.uses h + 0 ∧ k.refCount - 1 ≠ 0
        omega
    · rw [if_neg (by omega)]
      exact ⟨_, k, rfl, hk, rfl⟩

theorem Inv.dupLoop {copy : Int → V → CopyResult V} {copied : Attribute V → CopyResult V}
    {l new : List (Attribute V)} (hi : Inv s m) (ho : s.objs[i]? = some o)
    (hnew : o.attributes = new) (hnd : (l.map Attribute.keyval).Nodup)
    (hfresh : ∀ p ∈ l, p.keyval ∉ new.map Attribute.keyval)
    (hcopy : ∀ p ∈ l, ∃ k, s.keyvals p.keyval = some k ∧ callCopy k copy p = copied p) :
    ∃ s' new' ok m', dupLoop copy i l new s = some (s', new', ok) ∧ Inv s' m' ∧
      (∃ o', s'.objs[i]? = some o' ∧ o'.attributes = new') ∧ (∀ j ≠ i, m' j = m j) ∧
      (ok = true ↔ ∀ p ∈ l, copied p ≠ .error) ∧
      (ok = true → ∀ h v, m' i h = some v ↔
        m i h = some v ∨ ∃ p ∈ l, p.keyval = h ∧ copied p = .copied v) := by
  induction l generalizing s m o new with
  | nil =>
    refine ⟨s, new, true, m, rfl, hi, ⟨o, ho, hnew⟩, fun _ _ => rfl, by simp, fun _ h v => ?_⟩
    simp
  | cons p l ih =>
    obtain ⟨k, hk, hres⟩ := hcopy p List.mem_cons_self
    rw [List.map_cons, List.nodup_cons] at hnd
    have hfresh' : ∀ q ∈ l, q.keyval ∉ new.map Attribute.keyval :=
      fun q hq => hfresh q (List.mem_cons_of_mem _ hq)
    have hcopy' : ∀ q ∈ l, ∃ k, s.keyvals q.keyval = some k ∧ callCopy k copy q = copied q :=
      fun q hq => hcopy q (List.mem_cons_of_mem _ hq)
    unfold Attr.dupLoop
    simp only [Option.bind_eq_bind, hk, Option.bind_some, hres]
    cases hp : copied p with
    | error =>
      refine ⟨s, new, false, m, rfl, hi, ⟨o, ho, hnew⟩, fun _ _ => rfl, ?_, nofun⟩
      exact iff_of_false nofun fun hall => hall p List.mem_cons_self hp
    | skip =>
      obtain ⟨s', new', ok, m', hrun, hinv, hobj, hother, hok, hval⟩ :=
        ih hi ho hnew hnd.2 hfresh' hcopy'
      refine ⟨s', new', ok, m', hrun, hinv, hobj, hother, ?_, fun ht h v => ?_⟩
      · rw [hok, List.forall_mem_cons, hp]
        exact ⟨fun hall => ⟨nofun, hall⟩, And.right⟩
      · rw [hval ht, List.exists_mem_cons_iff, hp]
        exact or_congr_right ⟨.inr, fun hor => hor.resolve_left fun hno => nomatch hno.2⟩
    | copied w =>
      have hnot : p.keyval ∉ o.attributes.map Attribute.keyval :=
        hnew ▸ hfresh p List.mem_cons_self
      obtain ⟨ks, hadd, hins⟩ := hi.insert (l := new ++ [s.newAttr p.keyval w]) (v := w) ho hk
        (hnew ▸ List.perm_append_singleton _ _) hnot
      simp only [hadd, Option.bind_some]
      have hobj : ({ s.setAttrs i (new ++ [s.newAttr p.keyval w]) with
          keyvals := ks, insts := s.insts ++ [k.hasDelete] } : St V).objs[i]? =
            some { o with attributes := new ++ [s.newAttr p.keyval w] } := by
        show (s.setAttrs i _).objs[i]? = _
        rw [objs_setAttrs, ho, Option.map_some, if_pos rfl]
      have hfresh₁ : ∀ q ∈ l,
          q.keyval ∉ (new ++ [s.newAttr p.keyval w]).map Attribute.keyval := by
        intro q hq
        rw [List.map_append, List.mem_append]
        rintro (hmem | hmem)
        · exact hfresh' q hq hmem
        · have hqp : q.keyval = p.keyval := List.mem_singleton.1 hmem
          exact hnd.1 (hqp ▸ List.mem_map_of_mem hq)
      have hcopy₁ : ∀ q ∈ l, ∃ k, ks q.keyval = some k ∧ callCopy k copy q = copied q := by
        intro q hq
        rw [addRef, hk] at hadd
        cases hadd
        obtain ⟨k', hk', hres'⟩ := hcopy' q hq
        have hne : q.keyval ≠ p.keyval := fun hqp => hnd.1 (hqp ▸ List.mem_map_of_mem hq)
        exact ⟨k', (setKeyval_of_ne _ _ hne).trans hk', hres'⟩
      obtain ⟨s', new', ok, m', hrun, hinv, hobj', hother, hok, hval⟩ :=
        ih hins hobj rfl hnd.2 hfresh₁ hcopy₁
      refine ⟨s', new', ok, m', hrun, hinv, hobj', fun j hj => ?_, ?_, fun ht h v => ?_⟩
      · rw [hother j hj]
        funext h
        exact if_neg fun hno => hj hno.1
      · rw [hok, List.forall_mem_cons, hp]
        exact ⟨fun hall => ⟨nofun, hall⟩, And.right⟩
      · rw [hval ht, List.exists_mem_cons_iff, hp, ← or_assoc, Values.set]
        refine or_congr_left ?_
        by_cases hkey : h = p.keyval
        · -- the list did not have the keyval before
          subst hkey
          have hnone : m i p.keyval = none := by
            rw [← Option.not_isSome_iff_eq_none, hi.2.isSome ho]
            exact hnot
          rw [if_pos ⟨rfl, rfl⟩, hnone]
          exact ⟨fun he => .inr ⟨rfl, congrArg _ (Option.some.inj he)⟩,
            fun hor => congrArg _ (CopyResult.copied.inj (hor.resolve_left nofun).2)⟩
        · rw [if_neg fun hno => hkey hno.2]
          exact ⟨.inl, fun hor => hor.resolve_right fun hno => hkey hno.1.symm⟩

theorem copyFails_iff {copy : Int → V → CopyResult V} (ho : s.objs[i]? = some o) :
    s.copyFails i copy = true ↔ ∃ p ∈ o.attributes, s.copyOf copy p.keyval p.value = .error := by
  rw [St.copyFails, ho, Option.any_some, List.any_eq_true]
  refine exists_congr fun p => and_congr_right fun _ => ?_
  split
  · next heq => exact ⟨fun _ => heq, fun _ => rfl⟩
  · next hne => exact ⟨nofun, fun heq => absurd heq hne⟩

theorem Inv.dupList (hi : Inv s m) (ho : s.objs[i]? = some o) (copy : Int → V → CopyResult V) :
    ∃ s', dupList s i copy = some s' ∧ Inv s' (valuesStep s m (.dupList i copy)) := by
  have hmem := List.mem_of_getElem? ho
  have hlen := (List.getElem?_eq_some_iff.1 ho).1
  have hobj : (s.objs ++ [⟨o.kind, []⟩])[s.objs.length]? = some (⟨o.kind, []⟩ : Obj V) := by simp
  have hcopy : ∀ p ∈ o.attributes, ∃ k, s.keyvals p.keyval = some k ∧
      callCopy k copy p = s.copyOf copy p.keyval p.value := by
    intro p hp
    obtain ⟨k, hk, -⟩ := hi.1.live p (List.mem_flatMap.2 ⟨o, hmem, hp⟩)
    refine ⟨k, hk, ?_⟩
    rw [callCopy, St.copyOf, hk]
    rfl
  obtain ⟨s₁, new, ok, m₁, hrun, hinv, ⟨o₁, ho₁, hnew⟩, hother, hok, hval⟩ :=
    (hi.newObj o.kind).dupLoop hobj rfl (hi.1.nodup o hmem) (fun _ _ => List.not_mem_nil) hcopy
  have hfails : s.copyFails i copy = !ok := by
    rw [Bool.eq_iff_iff, copyFails_iff ho, Bool.not_eq_true', ← Bool.not_eq_true, hok]
    simp
  unfold Attr.dupList
  simp only [Option.bind_eq_bind, ho, Option.bind_some, hrun]
  cases ok with
  | false =>
    obtain ⟨s', hs', hinv'⟩ := hinv.deleteLoop ho₁ hnew
    refine ⟨s', by simpa using hs', ?_⟩
    have hsame : valuesStep s m (.dupList i copy) =
        fun j h => if j = s.objs.length then none else m₁ j h := by
      funext j h
      simp only [valuesStep, hfails, Bool.not_false, if_true]
      split
      · rfl
      · next hj => rw [hother j hj]
    rw [hsame]
    exact hinv'
  | true =>
    refine ⟨s₁, rfl, ?_⟩
    have hsame : valuesStep s m (.dupList i copy) = m₁ := by
      funext j h
      simp only [valuesStep, hfails, Bool.not_true, Bool.false_eq_true, if_false]
      split
      · next hj =>
        subst hj
        refine Option.ext fun v => ?_
        have hnone : m s.objs.length h = none := hi.2.absent _ (by simp) h
        rw [hval rfl, hnone, Option.bind_eq_some_iff]
        constructor
        · rintro ⟨w, hw, hv⟩
          obtain ⟨e, he, rfl, rfl⟩ := (hi.2.attr i o ho h w).1 hw
          refine .inr ⟨e, he, rfl, ?_⟩
          split at hv
          · next heq => rw [heq, Option.some.inj hv]
          · cases hv
        · rintro (hno | ⟨e, he, rfl, hv⟩)
          · cases hno
          · refine ⟨e.value, (hi.2.attr i o ho _ _).2 ⟨e, he, rfl, rfl⟩, ?_⟩
            rw [hv]
      · next hj => rw [hother j hj]
    rw [hsame]
    exact hinv

end steps

/-! ## Runs -/

section runs

variable {m : Values V}

/-- An operation is called on an object and a keyval that exist and belong together, and a keyval is
created at a free handle. -/
def Valid (s : St V) : Act V → Prop
  | .newObj _ => True
  | .createKeyval _ h _ _ => s.keyvals h = none
  | .freeKeyval h => (s.keyvals h).isSome = true
  | .setAttr i h _ _ => ∃ o k, s.objs[i]? = some o ∧ s.keyvals h = some k ∧ k.kind = o.kind
  | .deleteAttr i h _ => ∃ o k, s.objs[i]? = some o ∧ s.keyvals h = some k ∧ k.kind = o.kind
  | .dupList i _ => (s.objs[i]?).isSome = true
  | .deleteList i => (s.objs[i]?).isSome = true

def Found (s : St V × Values V) : Act V → Prop
  | .setAttr i h _ _ => ∀ o ∈ s.1.objs[i]?, InPlace o.kind h o.attributes
  | _ => True

theorem Inv.step {a : Act V} (hi : Inv s m) (hv : Valid s a) (hf : Found (s, m) a) :
    ∃ s', Attr.step s a = some s' ∧ Inv s' (valuesStep s m a) := by
  cases a with
  | newObj kind => exact ⟨_, rfl, hi.newObj kind⟩
  | createKeyval kind h hasCopy hasDelete => exact hi.createKeyval hv kind hasCopy hasDelete
  | freeKeyval h =>
    obtain ⟨k, hk⟩ := Option.isSome_iff_exists.1 hv
    exact hi.freeKeyval hk
  | setAttr i h v delOk =>
    obtain ⟨o, k, ho, hk, hkind⟩ := hv
    exact hi.setAttr ho hk hkind (hf o ho) v delOk
  | deleteAttr i h delOk =>
    obtain ⟨o, k, ho, hk, hkind⟩ := hv
    exact hi.deleteAttr ho hk hkind delOk
  | dupList i copy =>
    obtain ⟨o, ho⟩ := Option.isSome_iff_exists.1 hv
    exact hi.dupList ho copy
  | deleteList i =>
    obtain ⟨o, ho⟩ := Option.isSome_iff_exists.1 hv
    obtain ⟨s', hs', hinv⟩ := hi.deleteLoop ho rfl
    refine ⟨s', ?_, hinv⟩
    simp only [Attr.step, deleteList, Option.bind_eq_bind, ho, Option.bind_some, hs']

theorem valid_of_step {a : Act V} (h : step s a = some s') : Valid s a := by
  cases a with
  | newObj kind => trivial
  | createKeyval kind h' hasCopy hasDelete =>
    simp only [step, createKeyval] at h
    split at h
    · cases h
    · next hk => exact hk
  | freeKeyval h' =>
    obtain ⟨k, hk, -⟩ := Option.bind_eq_some_iff.1 h
    exact Option.isSome_iff_exists.2 ⟨k, hk⟩
  | setAttr i h' v delOk =>
    obtain ⟨o, ho, h₁⟩ := Option.bind_eq_some_iff.1 h
    obtain ⟨k, hk, h₂⟩ := Option.bind_eq_some_iff.1 h₁
    exact ⟨o, k, ho, hk, (Option.ite_none_right_eq_some.1 h₂).1⟩
  | deleteAttr i h' delOk =>
    obtain ⟨o, ho, h₁⟩ := Option.bind_eq_some_iff.1 h
    obtain ⟨k, hk, h₂⟩ := Option.bind_eq_some_iff.1 h₁
    exact ⟨o, k, ho, hk, (Option.ite_none_right_eq_some.1 h₂).1⟩
  | dupList i copy =>
    obtain ⟨o, ho, -⟩ := Option.bind_eq_some_iff.1 h
    exact Option.isSome_iff_exists.2 ⟨o, ho⟩
  | deleteList i =>
    obtain ⟨o, ho, -⟩ := Option.bind_eq_some_iff.1 h
    exact Option.isSome_iff_exists.2 ⟨o, ho⟩

theorem Inv.init : Inv (⟨fun _ => none, [], [], []⟩ : St V) fun _ _ => none := by
  refine ⟨⟨nofun, nofun, nofun, List.nodup_nil, fun n => ?_⟩, nofun, fun _ _ _ => rfl⟩
  exact (if_neg fun hno => nomatch hno.1).symm

theorem Inv.run {s : St V × Values V} (h : (attrSys V).ReachWhen Found s) : Inv s.1 s.2 := by
  refine Sys.ReachWhen.inv (I := fun s => Inv s.1 s.2) Inv.init (fun {s a s'} _ hi hf hs => ?_) h
  obtain ⟨s₁, hs₁, rfl⟩ := Option.map_eq_some_iff.1 hs
  obtain ⟨s₂, hs₂, hinv⟩ := hi.step (valid_of_step hs₁) hf
  obtain rfl := Option.some.inj (hs₁.symm.trans hs₂)
  exact hinv

theorem Inv.getAttr (hi : Inv s m) (i : Nat) (h : Int) : getAttr s i h = m i h := by
  rw [Attr.getAttr]
  cases ho : s.objs[i]? with
  | none => exact (hi.2.absent i ho h).symm
  | some o =>
    refine Option.ext fun v => ?_
    rw [Option.bind_some, findAttr_value (hi.1.nodup o (List.mem_of_getElem? ho)), hi.2.attr i o ho]

/-- Attribute lists are finite maps, in every run in which the attributes that are set again are
found. A list has at most one attribute for a keyval, and a search returns the last value that has
been set and not deleted since; the delete callback has run once for every value with one that is
gone, and for no other; a keyval is counted once for every attribute and once for its user; and an
operation that is called as it should be is defined. -/
theorem attributes_are_maps {s : St V} {m : Values V} (h : (attrSys V).ReachWhen Found (s, m)) :
    (∀ o ∈ s.objs, (o.attributes.map Attribute.keyval).Nodup) ∧
      (∀ i h, getAttr s i h = m i h) ∧
      (∀ n, s.log.count (.deleted n) = if s.gone n then 1 else 0) ∧
      (∀ h k, s.keyvals h = some k → k.refCount = s.uses h + if k.wasFreed then 0 else 1) ∧
      (∀ e ∈ s.entries, (s.keyvals e.keyval).isSome = true) ∧
      ∀ a, Valid s a → Found (s, m) a → (step s a).isSome = true := by
  have hi : Inv s m := Inv.run h
  refine ⟨hi.1.nodup, hi.getAttr, hi.1.once, fun h k hk => (hi.1.refs h k hk).1, fun e he => ?_,
    fun a hv hf => ?_⟩
  · obtain ⟨k, hk, -⟩ := hi.1.live e he
    exact Option.isSome_iff_exists.2 ⟨k, hk⟩
  · obtain ⟨s', hs', -⟩ := hi.step hv hf
    exact Option.isSome_iff_exists.2 ⟨s', hs'⟩

instance (kind : Kind) (h : Int) (l : List (Attribute V)) : Decidable (InPlace kind h l) :=
  inferInstanceAs (Decidable (_ → _ → _))

instance (s : St V × Values V) (a : Act V) : Decidable (Found s a) :=
  match a with
  | .setAttr i h _ _ =>
    match ho : s.1.objs[i]? with
    | none => .isTrue fun o hmem => by rw [ho] at hmem; cases hmem
    | some o => decidable_of_iff (InPlace o.kind h o.attributes) (by simp [Found, ho])
  | .newObj _ => .isTrue trivial
  | .createKeyval _ _ _ _ => .isTrue trivial
  | .freeKeyval _ => .isTrue trivial
  | .deleteAttr _ _ _ => .isTrue trivial
  | .dupList _ _ => .isTrue trivial
  | .deleteList _ => .isTrue trivial

/-- A datatype with two attributes, the first of which is set again, is duplicated; then its keyval
is freed and the attribute deleted. -/
def orderedRun : List (Act Nat) :=
  [.createKeyval .type 3 true true, .createKeyval .type 5 true true, .newObj .type,
    .setAttr 0 3 10 true, .setAttr 0 5 20 true, .setAttr 0 3 11 true,
    .dupList 0 fun _ v => .copied v, .freeKeyval 3, .deleteAttr 0 3 true]

/-- A run in which the attribute that is set again is in front: the duplicate has both values, and
the keyval that has been freed is used once. -/
theorem attributes_are_maps_type : ∃ (s : St Nat) (m : Values Nat),
    (attrSys Nat).ReachWhen Found (s, m) ∧ getAttr s 0 3 = none ∧ getAttr s 1 3 = some 11 ∧
      getAttr s 1 5 = some 20 ∧ s.log.count (.deleted 0) = 1 ∧
      (s.keyvals 3).map Keyval.refCount = some 1 := by
  have hrun : (((attrSys Nat).checked Found).exec (attrSys Nat).init orderedRun).map
      (fun s => (s.2 0 3, s.2 1 3, s.2 1 5, decide (s.1.gone 0),
        (s.1.keyvals 3).map Keyval.refCount)) =
        some (none, some 11, some 20, true, some 1) := by
    decide
  obtain ⟨⟨s, m⟩, hs, hval⟩ := Option.map_eq_some_iff.1 hrun
  simp only [Prod.mk.injEq, decide_eq_true_eq] at hval
  obtain ⟨h₁, h₂, h₃, h₄, h₅⟩ := hval
  obtain ⟨hexec, halong⟩ := Sys.checked_along hs
  have hreach : (attrSys Nat).ReachWhen Found (s, m) :=
    @Sys.exec_reachWhen _ _ _ _ _ _ _ [] .init rfl halong hexec
  obtain ⟨-, hget, hlog, -⟩ := attributes_are_maps hreach
  refine ⟨s, m, hreach, ?_, ?_, ?_, ?_, h₅⟩
  · rw [hget, h₁]
  · rw [hget, h₂]
  · rw [hget, h₃]
  · rw [hlog, if_pos h₄]

def unorderedRun : List (Act Nat) :=
  [.createKeyval .type 3 true true, .createKeyval .type 5 true true, .newObj .type,
    .setAttr 0 5 20 true, .setAttr 0 3 10 true, .setAttr 0 3 11 true]

/-- The attribute of the first keyval is behind the other one, and is not found when it is set again:
the list then has two, and when the attribute is deleted the old value is back. -/
theorem attribute_set_twice :
    (∃ (s : St Nat) (m : Values Nat), (attrSys Nat).Reach (s, m) ∧
      ∃ o ∈ s.objs, ¬ (o.attributes.map Attribute.keyval).Nodup) ∧
    ∃ (s : St Nat) (m : Values Nat), (attrSys Nat).Reach (s, m) ∧ m 0 3 = none ∧
      getAttr s 0 3 = some 10 := by
  constructor
  · have hrun : ((attrSys Nat).exec (attrSys Nat).init unorderedRun).map
        (fun s => decide (∃ o ∈ s.1.objs, ¬ (o.attributes.map Attribute.keyval).Nodup)) =
          some true := by
      decide
    obtain ⟨⟨s, m⟩, hs, hval⟩ := Option.map_eq_some_iff.1 hrun
    exact ⟨s, m, Sys.exec_reach .init hs, of_decide_eq_true hval⟩
  · have hrun : ((attrSys Nat).exec (attrSys Nat).init
        (unorderedRun ++ [Act.deleteAttr 0 3 true])).map (fun s => (s.2 0 3, getAttr s.1 0 3)) =
          some (none, some 10) := by
      decide
    obtain ⟨⟨s, m⟩, hs, hval⟩ := Option.map_eq_some_iff.1 hrun
    simp only [Prod.mk.injEq] at hval
    exact ⟨s, m, Sys.exec_reach .init hs, hval⟩

end runs

end PsMpi.Attr
