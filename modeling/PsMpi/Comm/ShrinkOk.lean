import PsMpi.Comm.Shrink

/-!
# When shrinking a communicator is right
-/

open List Option

namespace PsMpi.Shrink

open PsMpi.Groups

/-! ## Freed objects -/

section heap

variable {h : Heap} {i j : Nat} {o : GroupObj} {oc : CommObj}

theorem getElem?_modify_self {α : Type} {l : List α} {f : α → α} {a : α} (ha : l[i]? = some a) :
    (l.modify i f)[i]? = some (f a) := by
  rw [List.getElem?_modify, ha]
  simp

theorem getElem?_modify_ne {α : Type} {l : List α} {f : α → α} (hij : i ≠ j) :
    (l.modify i f)[j]? = l[j]? := by
  rw [List.getElem?_modify]
  simp [hij]

theorem Heap.touchGroup_freed (ho : h.groups[i]? = some o) (hf : o.freed = true) :
    (h.touchGroup i).fault = true := by
  rw [touchGroup, ho, any_some, hf, Bool.or_true]

theorem Heap.touchComm_freed (ho : h.comms[i]? = some oc) (hf : oc.freed = true) :
    (h.touchComm i).fault = true := by
  rw [touchComm, ho, any_some, hf, Bool.or_true]

theorem Heap.touchGroup_live (ho : h.groups[i]? = some o) (hf : o.freed = false) :
    h.touchGroup i = h := by
  rw [touchGroup, ho, any_some, hf, Bool.or_false]

theorem Heap.releaseGroup_groups (ho : h.groups[i]? = some o) :
    (h.releaseGroup i).groups[i]? =
      some { o with refs := o.refs - 1, freed := o.freed || decide (o.refs - 1 = 0) } :=
  getElem?_modify_self ho

theorem Heap.releaseGroup_groups_ne (hij : i ≠ j) :
    (h.releaseGroup i).groups[j]? = h.groups[j]? := getElem?_modify_ne hij

/-! ## Faults stay -/

theorem Heap.releaseGroup_fault (hf : h.fault = true) : (h.releaseGroup i).fault = true := by
  rw [releaseGroup, touchGroup, hf, Bool.true_or]

theorem Heap.releaseGroup?_fault (x : Option Nat) (hf : h.fault = true) :
    (h.releaseGroup? x).fault = true := by
  cases x with
  | none => exact hf
  | some i => exact releaseGroup_fault hf

theorem Heap.releaseComm_touch (hf : (h.touchComm i).fault = true) :
    (h.releaseComm i).fault = true := by
  unfold releaseComm
  split
  · split
    · exact releaseGroup?_fault _ (releaseGroup?_fault _ hf)
    · exact hf
  · exact hf

theorem Heap.touchComm_fault (hf : h.fault = true) : (h.touchComm i).fault = true := by
  rw [touchComm, hf, Bool.true_or]

theorem Heap.touchGroup_fault (hf : h.fault = true) : (h.touchGroup i).fault = true := by
  rw [touchGroup, hf, Bool.true_or]

theorem Heap.releaseComm_fault (hf : h.fault = true) : (h.releaseComm i).fault = true :=
  releaseComm_touch (touchComm_fault hf)

theorem Heap.setGroupRef_fault {n : Int} (hf : h.fault = true) : (h.setGroupRef i n).fault = true :=
  touchGroup_fault hf

theorem Heap.setCommRef_fault {n : Int} (hf : h.fault = true) : (h.setCommRef i n).fault = true :=
  touchComm_fault hf

theorem Heap.addGroupRef_fault (hf : h.fault = true) : (h.addGroupRef i).fault = true :=
  touchGroup_fault hf

theorem Heap.attachGroup_fault (hf : h.fault = true) : (h.attachGroup i j).fault = true :=
  addGroupRef_fault (addGroupRef_fault hf)

theorem cleanComm_fault {newcomm : Option Nat} (hf : h.fault = true) :
    (cleanComm h newcomm).fault = true := by
  cases newcomm with
  | none => exact hf
  | some c =>
    rw [cleanComm]
    split
    · exact Heap.releaseComm_fault (Heap.setCommRef_fault (Heap.touchComm_fault hf))
    · exact Heap.touchComm_fault hf

theorem cleanGroup_touch (hf : (h.touchGroup j).fault = true) : (cleanGroup h j).fault = true := by
  unfold cleanGroup
  split
  · exact Heap.releaseGroup_fault (Heap.setGroupRef_fault hf)
  · exact hf

theorem createGroup_fault {rank : Int} (c : Create) (hf : h.fault = true) :
    (createGroup h j rank c).1.fault = true := by
  cases c with
  | early e =>
    rw [createGroup]
    split <;> exact hf
  | bare e =>
    rw [createGroup]
    split
    · exact hf
    · exact Heap.releaseComm_fault (h := h.allocComm) hf
  | late e =>
    rw [createGroup]
    split
    · exact hf
    · exact Heap.releaseComm_fault (Heap.attachGroup_fault (h := h.allocComm) hf)
  | done =>
    rw [createGroup]
    split
    · exact hf
    · exact Heap.attachGroup_fault (h := h.allocComm) (i := h.comms.length) hf

theorem ownFlag_fault (newcomm : Option Nat) (e : Errno) (hf : h.fault = true) :
    (ownFlag h newcomm e).1.fault = true := by
  match newcomm, e with
  | none, _ => exact hf
  | some c, some e => exact Heap.releaseComm_fault hf
  | some _, none => exact hf

def Round.heap : Round → Heap
  | .failed h _ => h
  | .again h _ => h
  | .success h _ => h

theorem agree_fault (f g : Nat) (newcomm : Option Nat) (e : Errno) (a : Attempt)
    (hf : h.fault = true) : (agree h f g newcomm e a).heap.fault = true := by
  unfold agree
  have h₁ := ownFlag_fault newcomm e hf
  generalize ownFlag h newcomm e = flagged at h₁ ⊢
  have h₂ : (flagged.1.releaseGroup g).fault = true := Heap.releaseGroup_fault h₁
  dsimp only
  split
  · exact cleanGroup_touch (Heap.touchGroup_fault (cleanComm_fault h₂))
  · exact h₂

theorem tryGroup_fault (f g : Nat) (a : Attempt) (hf : h.fault = true) :
    (tryGroup h f g a).heap.fault = true := by
  unfold tryGroup
  have h₁ : (if f ≠ groupEmpty then h.releaseGroup f else h).fault = true := by
    split
    · exact Heap.releaseGroup_fault hf
    · exact hf
  exact agree_fault f g _ _ a (createGroup_fault a.create h₁)

theorem difference_fault {f : Nat} {m : Bool} {h' : Heap} {g : Option Nat}
    (hd : difference h i f m = some (h', g)) (hf : h.fault = true) : h'.fault = true := by
  unfold difference at hd
  obtain ⟨o₁, -, hd⟩ := bind_eq_some_iff.1 hd
  obtain ⟨o₂, -, hd⟩ := bind_eq_some_iff.1 hd
  obtain ⟨⟨g₁, g₂, g₃⟩, -, hd⟩ := bind_eq_some_iff.1 hd
  have htouch : ((h.touchGroup i).touchGroup f).fault = true :=
    Heap.touchGroup_fault (Heap.touchGroup_fault hf)
  dsimp only at hd
  split at hd
  · obtain ⟨rfl, -⟩ := Prod.mk.inj (Option.some.inj hd)
    exact htouch
  · split at hd
    · obtain ⟨rfl, -⟩ := Prod.mk.inj (Option.some.inj hd)
      exact htouch
    · obtain ⟨rfl, -⟩ := Prod.mk.inj (Option.some.inj hd)
      exact htouch

theorem discover_fault {me : Nat} (x : Option Nat) (d : Discovery) (hf : h.fault = true) :
    (discover me h x d).1.fault = true := by
  cases d <;> exact hf

theorem attempt_fault {me : Nat} {v : Vars} {a : Attempt} {round : Round}
    (hr : attempt me h i v a = some round) (hf : h.fault = true) : round.heap.fault = true := by
  unfold attempt at hr
  have h₁ : (discover me h v.globalFailed a.discovery).1.fault = true :=
    discover_fault v.globalFailed a.discovery hf
  generalize discover me h v.globalFailed a.discovery = found at h₁ hr
  obtain ⟨hd, f⟩ := found
  dsimp only at hr
  match f, hr with
  | some f, hr =>
    obtain ⟨⟨h', g⟩, hdiff, hr⟩ := bind_eq_some_iff.1 hr
    have h₂ := difference_fault hdiff h₁
    match g, hr with
    | none, hr =>
      cases hr
      exact h₂
    | some g, hr =>
      cases hr
      exact tryGroup_fault f g a h₂

theorem fnFail_fault {v : Vars} {r : Result} (hr : fnFail h i v = some r) (hf : h.fault = true) :
    r.heap.fault = true := by
  unfold fnFail at hr
  obtain ⟨f, -, hr⟩ := bind_eq_some_iff.1 hr
  obtain ⟨g, -, hr⟩ := bind_eq_some_iff.1 hr
  cases hr
  refine Heap.releaseGroup_fault (Heap.setGroupRef_fault (Heap.setGroupRef_fault ?_))
  split
  · exact hf
  · exact Heap.setCommRef_fault hf

theorem attempts_fault {me : Nat} (as : List Attempt) {v : Vars} {r : Result}
    (hr : attempts me i as h v = some r) (hf : h.fault = true) : r.heap.fault = true := by
  induction as generalizing h v with
  | nil => exact fnFail_fault hr hf
  | cons a as ih =>
    obtain ⟨round, hround, hr⟩ := bind_eq_some_iff.1 hr
    have h₁ := attempt_fault hround hf
    match round, h₁, hr with
    | .failed h' v', h₁, hr => exact fnFail_fault hr h₁
    | .again h' v', h₁, hr => exact ih hr h₁
    | .success h' v', h₁, hr =>
      cases hr
      exact Heap.releaseGroup_fault h₁

end heap

/-! ## An attempt that does not succeed -/

section attempt

variable {h : Heap} {c f g : Nat} {o : GroupObj} {oc : CommObj} {a : Attempt}

theorem Heap.releaseGroup?_comms (x : Option Nat) : (h.releaseGroup? x).comms = h.comms := by
  cases x <;> rfl

theorem Heap.releaseComm_comms (hc : h.comms[c]? = some oc) (hr : oc.refs = 1) :
    (h.releaseComm c).comms[c]? = some { oc with refs := 0, freed := true } := by
  have hmod : (h.comms.modify c fun o : CommObj =>
      { o with refs := o.refs - 1, freed := o.freed || decide (o.refs - 1 = 0) })[c]? = _ :=
    getElem?_modify_self hc
  unfold releaseComm
  rw [hc]
  dsimp only
  rw [if_pos (by omega), releaseGroup?_comms, releaseGroup?_comms]
  refine hmod.trans ?_
  rw [hr, show decide ((1 : Int) - 1 = 0) = true from rfl, Bool.or_true]
  rfl

theorem Heap.allocComm_comms :
    h.allocComm.comms[h.comms.length]? = some ⟨1, false, false, none, none⟩ := by
  rw [allocComm]
  exact List.getElem?_concat_length

theorem Heap.attachGroup_comms (hc : h.comms[c]? = some oc) :
    (h.attachGroup c g).comms[c]? = some { oc with localGroup := some g, remoteGroup := some g } :=
  getElem?_modify_self hc

theorem Heap.attachGroup_groups (hg : h.groups[g]? = some o) :
    (h.attachGroup c g).groups[g]? = some { o with refs := o.refs + 2 } := by
  have h₁ : (h.addGroupRef g).groups[g]? = some { o with refs := o.refs + 1 } :=
    getElem?_modify_self hg
  have h₂ : ((h.addGroupRef g).addGroupRef g).groups[g]? = some { o with refs := o.refs + 1 + 1 } :=
    getElem?_modify_self h₁
  rw [Int.add_assoc] at h₂
  exact h₂

theorem createGroup_undefined (create : Create) : createGroup h g undefined create = (h, none, none) := by
  cases create <;> rw [createGroup, if_pos rfl]

theorem cleanGroup_released (hg : h.groups[g]? = some o) (hr : o.refs = 1) :
    (cleanGroup (h.releaseGroup g) g).fault = true := by
  refine cleanGroup_touch (Heap.touchGroup_freed (Heap.releaseGroup_groups hg) ?_)
  show (o.freed || decide (o.refs - 1 = 0)) = true
  rw [hr]
  exact Bool.or_true _

theorem clean_done (hg : h.groups[g]? = some o) (ho : o.refs = 2) (hc : h.comms[c]? = some oc)
    (hr : oc.refs = 1) (hl : oc.localGroup = some g) (hrem : oc.remoteGroup = some g) :
    (cleanGroup (cleanComm h (some c)) g).fault = true := by
  have hrefs : h.commRefs c = 1 := by
    rw [Heap.commRefs, hc]
    exact hr
  rw [cleanComm, if_pos (by omega)]
  have hset : ((h.touchComm c).setCommRef c 1).comms[c]? = some { oc with refs := 1 } :=
    getElem?_modify_self hc
  have hfree : ((h.touchComm c).setCommRef c 1).releaseComm c =
      ((({ ((h.touchComm c).setCommRef c 1).touchComm c with
        comms := ((h.touchComm c).setCommRef c 1).comms.modify c fun o : CommObj =>
          { o with refs := o.refs - 1, freed := o.freed || decide (o.refs - 1 = 0) } } :
        Heap).releaseGroup g).releaseGroup g) := by
    rw [Heap.releaseComm, hset]
    dsimp only
    rw [if_pos (by decide), hl, hrem]
    rfl
  rw [hfree]
  refine cleanGroup_released (o := { o with refs := 1, freed := o.freed || decide (o.refs - 1 = 0) })
    ?_ rfl
  have hfirst := Heap.releaseGroup_groups (h := { ((h.touchComm c).setCommRef c 1).touchComm c with
        comms := ((h.touchComm c).setCommRef c 1).comms.modify c fun o : CommObj =>
          { o with refs := o.refs - 1, freed := o.freed || decide (o.refs - 1 = 0) } }) hg
  rw [ho] at hfirst ⊢
  exact hfirst

theorem agree_none (e : Errno) (hg : h.groups[g]? = some o) (hr : o.refs = 1) :
    ∃ h' v, agree h f g none e a = .again h' v ∧ h'.fault = true := by
  refine ⟨_, _, if_pos ?_, cleanGroup_released hg hr⟩
  have : ErrClass.procFailed.flag ≤ max ErrClass.procFailed.flag a.others := Nat.le_max_left _ _
  exact Nat.ne_of_gt (Nat.lt_of_lt_of_le (by decide) this)

theorem agree_error (e : ErrClass) (hc : h.comms[c]? = some oc) (hf : oc.freed = true) :
    ∃ h' v, agree h f g (some c) (some e) a = .again h' v ∧ h'.fault = true := by
  have h₁ : (h.releaseComm c).fault = true := Heap.releaseComm_touch (Heap.touchComm_freed hc hf)
  refine ⟨_, _, if_pos ?_, cleanGroup_touch (Heap.touchGroup_fault (cleanComm_fault
    (Heap.releaseGroup_fault h₁)))⟩
  have : e.flag ≤ max e.flag a.others := Nat.le_max_left _ _
  exact Nat.ne_of_gt (Nat.lt_of_lt_of_le (by cases e <;> decide) this)

theorem tryGroup_cases {grp : MpiGroup} (hg : h.groups[g]? = some ⟨1, false, grp⟩)
    (hne : f ≠ groupEmpty → f ≠ g) :
    (∃ h' v, tryGroup h f g a = .again h' v ∧ h'.fault = true) ∨
    (a.create = .done ∧ grp.rank ≠ undefined ∧ a.others = 0) := by
  have hrel : (if f ≠ groupEmpty then h.releaseGroup f else h).groups[g]? =
      some ⟨1, false, grp⟩ := by
    split
    · next hf => rw [Heap.releaseGroup_groups_ne (hne hf), hg]
    · exact hg
  unfold tryGroup
  generalize (if f ≠ groupEmpty then h.releaseGroup f else h) = h₁ at hrel ⊢
  dsimp only
  rw [hrel, map_some, getD_some]
  by_cases hrank : grp.rank = undefined
  · rw [hrank, createGroup_undefined]
    exact .inl (agree_none none hrel rfl)
  cases hcreate : a.create with
  | early e =>
    rw [createGroup, if_neg hrank]
    exact .inl (agree_none (some e) hrel rfl)
  | bare e =>
    rw [createGroup, if_neg hrank]
    exact .inl (agree_error e (Heap.releaseComm_comms Heap.allocComm_comms rfl) rfl)
  | late e =>
    rw [createGroup, if_neg hrank]
    exact .inl (agree_error e (Heap.releaseComm_comms
      (Heap.attachGroup_comms Heap.allocComm_comms) rfl) rfl)
  | done =>
    by_cases hothers : a.others = 0
    · exact .inr ⟨rfl, hrank, hothers⟩
    · rw [createGroup, if_neg hrank]
      refine .inl ⟨_, _, if_pos ?_, ?_⟩
      · have : a.others ≤ max 0 a.others := Nat.le_max_right _ _
        show max 0 a.others ≠ 0
        omega
      · have hgroup := Heap.releaseGroup_groups (Heap.attachGroup_groups (c := h₁.comms.length)
          (h := h₁.allocComm) hrel)
        have hcomm := Heap.attachGroup_comms (g := g) (Heap.allocComm_comms (h := h₁))
        exact clean_done hgroup rfl (getElem?_modify_self hcomm) rfl rfl rfl

end attempt

/-! ## The first attempt -/

def Discovery.lpids : Discovery → List Nat
  | .unset => []
  | .empty => []
  | .group lpids => lpids

section first

variable {h h' : Heap} {i f me : Nat} {o₁ o₂ : GroupObj}

structure SameHeap (me : Nat) (h h' : Heap) : Prop where
  comms : h'.comms = h.comms
  fault : h'.fault = h.fault
  length : h'.groups.length = h.groups.length
  groups : ∀ (j : Nat) (o : GroupObj), h.groups[j]? = some o → o.group.Wf me →
    ∃ g, h'.groups[j]? = some ⟨o.refs, o.freed, g⟩ ∧ SameGroup me o.group g

theorem SameHeap.setGroup (hs : SameHeap me h h') {o : GroupObj} {g : MpiGroup}
    (ho : h.groups[i]? = some o) (hg : SameGroup me o.group g) : SameHeap me h (h'.setGroup i g) := by
  refine ⟨hs.comms, hs.fault, (length_modify _ _ _).trans hs.length, fun j oj hj hwf => ?_⟩
  obtain ⟨g', hj', hsame⟩ := hs.groups j oj hj hwf
  by_cases hij : i = j
  · subst hij
    obtain rfl := Option.some.inj (ho.symm.trans hj)
    have hset := getElem?_modify_self (f := fun o : GroupObj => { o with group := g }) hj'
    exact ⟨g, hset, hg⟩
  · exact ⟨g', (getElem?_modify_ne hij).trans hj', hsame⟩

theorem difference_spec (m : Bool) (h₁ : h.groups[i]? = some o₁) (h₂ : h.groups[f]? = some o₂)
    (hf₁ : o₁.freed = false) (hf₂ : o₂.freed = false) (hw₁ : o₁.group.Wf me)
    (hw₂ : o₂.group.Wf me) :
    ∃ h', SameHeap me h h' ∧ difference h i f m =
      let g := fresh me (o₁.group.lpids.filter fun x => x ∉ o₂.group.lpids)
      if g.size = 0 then some (h', some groupEmpty)
      else if m then some (h', none)
      else some (h'.allocGroup g, some h'.groups.length) := by
  obtain ⟨g₁, g₂, hrun, hs₁, hs₂⟩ := differenceImpl_spec hw₁ hw₂
  have hrefl : SameHeap me h h := ⟨rfl, rfl, rfl, fun j o hj hwf => ⟨o.group, hj, hwf, rfl, rfl⟩⟩
  refine ⟨(h.setGroup i g₁).setGroup f g₂, (hrefl.setGroup h₁ hs₁).setGroup h₂ hs₂, ?_⟩
  unfold difference
  rw [Heap.touchGroup_live h₁ hf₁, Heap.touchGroup_live h₂ hf₂]
  simp only [h₁, h₂, bind_eq_bind, bind_some, hrun]

theorem empty_wf (me : Nat) : MpiGroup.empty.Wf me := by
  rw [← @fresh_nil me]
  exact fresh_wf nodup_nil

theorem discover_spec (d : Discovery) (hd : d ≠ .unset) (x : Option Nat)
    (h0 : h.groups[groupEmpty]? = some ⟨1, false, .empty⟩) (hnd : d.lpids.Nodup) :
    ∃ h' f o, discover me h x d = (h', some f) ∧ h'.groups[f]? = some o ∧ o.refs = 1 ∧
      o.freed = false ∧ o.group.Wf me ∧ o.group.lpids = d.lpids ∧ h'.fault = h.fault ∧
      h'.comms = h.comms ∧
      (∀ (j : Nat) (oj : GroupObj), h.groups[j]? = some oj → h'.groups[j]? = some oj) ∧
      (f = groupEmpty ∨ f = h.groups.length) ∧ f < h'.groups.length := by
  have hwf : MpiGroup.empty.Wf me := empty_wf me
  cases d with
  | unset => exact absurd rfl hd
  | empty =>
    exact ⟨h, groupEmpty, _, rfl, h0, rfl, rfl, hwf, rfl, rfl, rfl, fun _ _ hj => hj, .inl rfl,
      (List.getElem?_eq_some_iff.1 h0).1⟩
  | group lpids =>
    refine ⟨h.allocGroup (fresh me lpids), h.groups.length, _, rfl, List.getElem?_concat_length,
      rfl, rfl, fresh_wf hnd, fresh_lpids, rfl, rfl, fun j oj hj => ?_, .inr rfl, ?_⟩
    · exact (List.getElem?_append_left (List.getElem?_eq_some_iff.1 hj).1).trans hj
    · show h.groups.length < (h.groups ++ [_]).length
      rw [length_append]
      exact Nat.lt_succ_self _

theorem Heap.releaseGroup_live {g : Nat} {o : GroupObj} (ho : h.groups[g]? = some o)
    (hf : o.freed = false) : (h.releaseGroup g).fault = h.fault := by
  show (h.touchGroup g).fault = h.fault
  rw [touchGroup_live ho hf]

theorem Heap.attachGroup_live {g c : Nat} {o : GroupObj} (ho : h.groups[g]? = some o)
    (hf : o.freed = false) : (h.attachGroup c g).fault = h.fault := by
  have h₁ : (h.addGroupRef g).fault = h.fault := by
    show (h.touchGroup g).fault = h.fault
    rw [touchGroup_live ho hf]
  have h₂ : (h.addGroupRef g).groups[g]? = some { o with refs := o.refs + 1 } :=
    getElem?_modify_self ho
  show ((h.addGroupRef g).touchGroup g).fault = h.fault
  rw [touchGroup_live h₂ hf, h₁]

theorem tryGroup_success {g : Nat} {grp : MpiGroup} {a : Attempt}
    (hg : h.groups[g]? = some ⟨1, false, grp⟩) (hne : f ≠ groupEmpty → f ≠ g)
    (hf : ∃ o, h.groups[f]? = some o ∧ o.freed = false) (hcreate : a.create = .done)
    (hrank : grp.rank ≠ undefined) (hothers : a.others = 0) :
    ∃ h' v c, tryGroup h f g a = .success h' v ∧ v.errno = none ∧ v.newcomm = some c ∧
      h'.comms[c]? = some ⟨1, false, true, some g, some g⟩ ∧
      h'.groups[g]? = some ⟨2, false, grp⟩ ∧ h'.fault = h.fault ∧
      ∀ j, j ≠ g → j ≠ f → h'.groups[j]? = h.groups[j]? := by
  obtain ⟨h₁, hh₁⟩ : ∃ h₁, (if f ≠ groupEmpty then h.releaseGroup f else h) = h₁ := ⟨_, rfl⟩
  have hrel : h₁.groups[g]? = some ⟨1, false, grp⟩ ∧ h₁.fault = h.fault ∧
      ∀ j, j ≠ f → h₁.groups[j]? = h.groups[j]? := by
    rw [← hh₁]
    obtain ⟨o, ho, hfree⟩ := hf
    split
    · next hf₀ =>
      exact ⟨(Heap.releaseGroup_groups_ne (hne hf₀)).trans hg, Heap.releaseGroup_live ho hfree,
        fun j hj => Heap.releaseGroup_groups_ne (Ne.symm hj)⟩
    · exact ⟨hg, rfl, fun _ _ => rfl⟩
  obtain ⟨hg₁, hfault₁, hothers₁⟩ := hrel
  have hgroup := Heap.attachGroup_groups (c := h₁.comms.length) (h := h₁.allocComm) hg₁
  have hcomm := Heap.attachGroup_comms (g := g) (Heap.allocComm_comms (h := h₁))
  refine ⟨((h₁.allocComm.attachGroup h₁.comms.length g).commit h₁.comms.length).releaseGroup g,
    ⟨some f, some g, some h₁.comms.length, none⟩, h₁.comms.length, ?_, rfl, rfl,
    getElem?_modify_self hcomm, Heap.releaseGroup_groups hgroup, ?_, fun j hj hjf => ?_⟩
  · unfold tryGroup
    rw [hh₁]
    dsimp only
    rw [hg₁, map_some, getD_some, hcreate, createGroup, if_neg hrank]
    unfold agree
    dsimp only [ownFlag]
    rw [hothers, if_neg (by decide)]
  · have hlive : ((h₁.allocComm.attachGroup h₁.comms.length g).commit h₁.comms.length).fault =
        h₁.fault := Heap.attachGroup_live (h := h₁.allocComm) (c := h₁.comms.length) hg₁ rfl
    have hrelease := Heap.releaseGroup_live (g := g) (o := ⟨1 + 2, false, grp⟩)
      (h := (h₁.allocComm.attachGroup h₁.comms.length g).commit h₁.comms.length) hgroup rfl
    rw [hrelease, hlive, hfault₁]
  · have hattach : (h₁.allocComm.attachGroup h₁.comms.length g).groups[j]? = h₁.groups[j]? :=
      (getElem?_modify_ne (Ne.symm hj)).trans (getElem?_modify_ne (Ne.symm hj))
    exact (Heap.releaseGroup_groups_ne (Ne.symm hj)).trans (hattach.trans (hothers₁ j hjf))

end first

/-! ## The call -/

/-- The first attempt succeeds: the group of the communicator is there, a group of failed processes
is found, there is memory, the communicator is made, and no other process reports an error. -/
structure FirstSucceeds (me : Nat) (cg : CommGroup) (a : Attempt) : Prop where
  group : cg.outOfMemory = false
  discovery : a.discovery ≠ .unset
  memory : a.outOfMemory = false
  create : a.create = .done
  others : a.others = 0
  member : me ∈ cg.group.lpids
  alive : me ∉ a.discovery.lpids

/-- What the call promises: it touches no object that was freed; the group of the communicator keeps
its references; and it returns success only with a committed communicator, which is not freed, and
has the group of those processes that an attempt has not found failed. -/
structure Truthful (cg : CommGroup) (as : Fin 5 → Attempt) (r : Result) : Prop where
  fault : r.heap.fault = false
  commGrp : ∃ o, r.heap.groups[commGrp]? = some o ∧ o.refs = cg.refs ∧ o.freed = false
  success : r.errno = none → ∃ i c n oc g o, r.newcomm = some c ∧ r.heap.comms[c]? = some oc ∧
    oc.refs = (n : Nat) + 1 ∧ oc.freed = false ∧ oc.committed = true ∧ oc.localGroup = some g ∧
    oc.remoteGroup = some g ∧ r.heap.groups[g]? = some o ∧ o.freed = false ∧
    o.group.lpids = cg.group.lpids.filter fun x => x ∉ (as i).discovery.lpids

section call

variable {me : Nat} {cg : CommGroup} {a : Attempt}

theorem firstHeap_eq (cg : CommGroup) : cg.heap.addGroupRef commGrp =
    ⟨[⟨1, false, .empty⟩, ⟨cg.refs + 1, false, cg.group⟩], [], false⟩ := rfl

theorem fresh_rank_ne {lpids : List Nat} : (fresh me lpids).rank ≠ undefined ↔ me ∈ lpids := by
  show rankOf me lpids ≠ undefined ↔ me ∈ lpids
  rw [rankOf]
  split
  · next h => exact iff_of_true (by unfold undefined; omega) h
  · next h => exact iff_of_false (fun hno => hno rfl) h

theorem attempt_first (hg : cg.group.Wf me) (hgm : cg.outOfMemory = false)
    (hnd : a.discovery.lpids.Nodup) {round : Round}
    (hr : attempt me (cg.heap.addGroupRef commGrp) commGrp ⟨none, none, none, none⟩ a =
      some round) :
    (∃ h v, round = .again h v ∧ h.fault = true) ∨ (∃ h v, round = .failed h v ∧ v.newGroup = none) ∨
    FirstSucceeds me cg a := by
  rw [firstHeap_eq] at hr
  unfold attempt at hr
  by_cases hd : a.discovery = .unset
  · rw [hd] at hr
    cases hr
  obtain ⟨h₁, f, o, hdisc, ho, hrefs, hfree, hwf, hlpids, -, -, hkeep, hplace, hlt⟩ :=
    @discover_spec ⟨[⟨1, false, .empty⟩, ⟨cg.refs + 1, false, cg.group⟩], [], false⟩ me a.discovery
      hd none rfl hnd
  obtain ⟨h₂, hsame, hdiff⟩ := difference_spec a.outOfMemory (hkeep commGrp _ rfl) ho rfl hfree hg hwf
  rw [hdisc] at hr
  dsimp only at hr
  rw [hdiff] at hr
  dsimp only at hr
  obtain ⟨gf, hgf, hsamef⟩ := hsame.groups f o ho hwf
  split at hr
  · -- nobody is left
    have hempty := hkeep groupEmpty _ rfl
    obtain ⟨g₀, hg₀, hs₀⟩ := hsame.groups groupEmpty _ hempty (empty_wf me)
    cases hr
    rcases tryGroup_cases (a := a) (f := f) hg₀ (fun hne hno => hne hno) with hagain | ⟨-, hrank, -⟩
    · exact .inl hagain
    · refine absurd ?_ hrank
      rw [hs₀.wf.rank, hs₀.lpids]
      rfl
  · split at hr
    · cases hr
      exact .inr (.inl ⟨_, _, rfl, rfl⟩)
    · next hmem =>
      cases hr
      have hlast : (h₂.allocGroup (fresh me (cg.group.lpids.filter fun x => x ∉ o.group.lpids))).groups[
          h₂.groups.length]? = some ⟨1, false, _⟩ := List.getElem?_concat_length
      rcases tryGroup_cases (a := a) (f := f) hlast (fun _ => by rw [hsame.length]; omega) with
        hagain | ⟨hcreate, hrank, hothers⟩
      · exact .inl hagain
      · refine .inr (.inr ⟨hgm, hd, by simpa using hmem, hcreate, hothers, ?_, ?_⟩)
        · exact mem_of_mem_filter (fresh_rank_ne.1 hrank)
        · have := (mem_filter.1 (fresh_rank_ne.1 hrank)).2
          rw [hlpids] at this
          exact of_decide_eq_true this

theorem attempt_success (hg : cg.group.Wf me) (hnd : a.discovery.lpids.Nodup)
    (ha : FirstSucceeds me cg a) :
    ∃ h v c g o oc, attempt me (cg.heap.addGroupRef commGrp) commGrp ⟨none, none, none, none⟩ a =
        some (.success h v) ∧ v.errno = none ∧ v.newcomm = some c ∧ h.fault = false ∧
      h.comms[c]? = some ⟨1, false, true, some g, some g⟩ ∧ g ≠ commGrp ∧ h.groups[g]? = some o ∧
      o.freed = false ∧ o.group.lpids = cg.group.lpids.filter (fun x => x ∉ a.discovery.lpids) ∧
      h.groups[commGrp]? = some oc ∧ oc.refs = cg.refs + 1 ∧ oc.freed = false := by
  rw [firstHeap_eq]
  unfold attempt
  obtain ⟨h₁, f, o, hdisc, ho, hrefs, hfree, hwf, hlpids, hfault, -, hkeep, hplace, hlt⟩ :=
    @discover_spec ⟨[⟨1, false, .empty⟩, ⟨cg.refs + 1, false, cg.group⟩], [], false⟩ me a.discovery
      ha.discovery none rfl hnd
  have hcomm := hkeep commGrp _ rfl
  obtain ⟨h₂, hsame, hdiff⟩ := difference_spec a.outOfMemory hcomm ho rfl hfree hg hwf
  rw [hdisc]
  dsimp only
  rw [hdiff]
  dsimp only
  have hme : me ∈ cg.group.lpids.filter fun x => x ∉ o.group.lpids := by
    rw [hlpids]
    exact mem_filter.2 ⟨ha.member, decide_eq_true ha.alive⟩
  have hsize : ¬ (fresh me (cg.group.lpids.filter fun x => x ∉ o.group.lpids)).size = 0 := by
    rw [← length_lpids, fresh_lpids]
    exact Nat.ne_of_gt (length_pos_of_mem hme)
  rw [if_neg hsize, if_neg (by rw [ha.memory]; decide)]
  obtain ⟨gf, hgf, -⟩ := hsame.groups f o ho hwf
  obtain ⟨gc, hgc, -⟩ := hsame.groups commGrp _ hcomm hg
  have hfl : f < h₂.groups.length := (List.getElem?_eq_some_iff.1 hgf).1
  have hcl : commGrp < h₂.groups.length := (List.getElem?_eq_some_iff.1 hgc).1
  have hlast : (h₂.allocGroup (fresh me (cg.group.lpids.filter fun x => x ∉ o.group.lpids))).groups[
      h₂.groups.length]? = some ⟨1, false, _⟩ := List.getElem?_concat_length
  have hold : ∀ (j : Nat), j < h₂.groups.length →
      (h₂.allocGroup (fresh me (cg.group.lpids.filter fun x => x ∉ o.group.lpids))).groups[j]? =
        h₂.groups[j]? := fun j hj => List.getElem?_append_left hj
  obtain ⟨h', v, c, hrun, herr, hnew, hcomms, hgroups, hfault', hkeep'⟩ :=
    tryGroup_success hlast (fun _ => Nat.ne_of_lt hfl) ⟨_, (hold f hfl).trans hgf, hfree⟩ ha.create
      (fresh_rank_ne.2 hme) ha.others
  have hcf : commGrp ≠ f := by
    rcases hplace with rfl | rfl
    · decide
    · exact Nat.ne_of_lt (Nat.lt_succ_self 1)
  have hkept := (hkeep' commGrp (Nat.ne_of_lt hcl) hcf).trans ((hold commGrp hcl).trans hgc)
  refine ⟨h', v, c, h₂.groups.length, _, _, congrArg some hrun, herr, hnew, ?_, hcomms,
    Nat.ne_of_gt hcl, hgroups, rfl, ?_, hkept, rfl, rfl⟩
  · exact hfault'.trans (hsame.fault.trans hfault)
  · rw [← hlpids]
    exact fresh_lpids

theorem shrink_truthful {as : Fin 5 → Attempt} (hg : cg.group.Wf me) (hrefs : 1 ≤ cg.refs)
    (hnd : ∀ i, (as i).discovery.lpids.Nodup) :
    (∃ r, shrinkImpl me cg as = some r ∧ Truthful cg as r) ↔ FirstSucceeds me cg (as 0) := by
  have hlist : List.ofFn as = as 0 :: List.ofFn fun i : Fin 4 => as i.succ := ofFn_succ
  constructor
  · rintro ⟨r, hrun, ht⟩
    unfold shrinkImpl at hrun
    by_cases hgm : cg.outOfMemory = true
    · rw [if_pos hgm] at hrun
      cases hrun
    rw [if_neg hgm, hlist] at hrun
    obtain ⟨round, hround, hrun⟩ := bind_eq_some_iff.1 hrun
    rcases attempt_first hg (by simpa using hgm) (hnd 0) hround with ⟨h, v, rfl, hf⟩ |
      ⟨h, v, rfl, hnull⟩ | hfirst
    · have := attempts_fault _ hrun hf
      rw [ht.fault] at this
      cases this
    · obtain ⟨f, -, hrun⟩ := bind_eq_some_iff.1 hrun
      obtain ⟨g, hno, -⟩ := bind_eq_some_iff.1 hrun
      rw [hnull] at hno
      cases hno
    · exact hfirst
  · intro ha
    obtain ⟨h, v, c, g, o, oc, hround, herr, hnew, hfault, hcomm, hne, hgroup, hfree, hlpids, hcg,
      hcr, hcf⟩ := attempt_success hg (hnd 0) ha
    refine ⟨fnExit h commGrp v, ?_, ?_, ⟨_, Heap.releaseGroup_groups hcg, ?_, ?_⟩, fun _ => ?_⟩
    · unfold shrinkImpl
      rw [if_neg (by rw [ha.group]; decide), hlist, attempts, hround]
      rfl
    · exact (Heap.releaseGroup_live hcg hcf).trans hfault
    · show oc.refs - 1 = cg.refs
      omega
    · show (oc.freed || decide (oc.refs - 1 = 0)) = false
      rw [hcf, Bool.false_or]
      exact decide_eq_false (by omega)
    · exact ⟨0, c, 0, _, g, o, hnew, hcomm, rfl, rfl, rfl, rfl, rfl,
        (Heap.releaseGroup_groups_ne (Ne.symm hne)).trans hgroup, hfree, hlpids⟩

end call

def groupOfThree : CommGroup := ⟨fresh 0 [0, 1, 2], 1, false⟩

theorem shrink_truthful_two :
    ∃ r, shrinkImpl 0 groupOfThree (fun _ => ⟨.group [1], false, .done, 0, none⟩) = some r ∧
      Truthful groupOfThree (fun _ => ⟨.group [1], false, .done, 0, none⟩) r :=
  (@shrink_truthful 0 groupOfThree (fun _ => ⟨.group [1], false, .done, 0, none⟩)
    (fresh_wf (by decide)) (by decide) fun _ => by decide).2
    ⟨rfl, nofun, rfl, rfl, rfl, by decide, by decide⟩

/-- Five attempts that another process reports an error for return success with a communicator that has
been freed, after freed objects have been touched; and so does a communicator that comes with an
error in the first attempt. -/
theorem shrink_fails :
    (shrinkImpl 0 groupOfThree fun _ => ⟨.group [1], false, .done, 15, none⟩).map
      (fun r => (r.errno, r.heap.fault, r.newcomm.bind fun c => r.heap.comms[c]?.map CommObj.freed)) =
      some (none, true, some true) ∧
    (shrinkImpl 0 groupOfThree fun i =>
      ⟨.group [1], false, if i = 0 then .late .other else .done, 0, none⟩).map
      (fun r => (r.errno, r.heap.fault)) = some (none, true) ∧
    ¬ ∃ r, shrinkImpl 0 groupOfThree (fun _ => ⟨.group [1], false, .done, 15, none⟩) = some r ∧
      Truthful groupOfThree (fun _ => ⟨.group [1], false, .done, 15, none⟩) r := by
  have hrun : (shrinkImpl 0 groupOfThree fun _ => ⟨.group [1], false, .done, 15, none⟩).map
      (fun r => (r.errno, r.heap.fault, r.newcomm.bind fun c => r.heap.comms[c]?.map CommObj.freed)) =
      some (none, true, some true) := by decide
  refine ⟨hrun, by decide, ?_⟩
  rintro ⟨r, hr, ht⟩
  rw [hr] at hrun
  have hfault := (Prod.mk.inj (Prod.mk.inj (Option.some.inj hrun)).2).1
  rw [ht.fault] at hfault
  cases hfault

end PsMpi.Shrink
