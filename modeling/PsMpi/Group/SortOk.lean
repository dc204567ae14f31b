import PsMpi.Group.Basic
import PsMpi.Lib.Chain

/-!
# The order of the ids is set up
-/

open List Option

namespace PsMpi.Groups

open PsMpi.Lib

def links (f : Int → Int) (a : List Pmap) (n : Nat) : Option Int := a[n]?.map fun e => f e.nextLpid

section links

variable {a : List Pmap} {f : Int → Int} {i : Int} {n m : Nat} {x : Int} {l : List Nat}

theorem links_congr {a' : List Pmap} (h : a'[n]? = a[n]?) : links f a' n = links f a n := by
  rw [links, h, links]

@[simp] theorem map_lpid_setNext : (setNext a n x).map Pmap.lpid = a.map Pmap.lpid := by
  refine ext_getElem? fun m => ?_
  rw [List.getElem?_map, List.getElem?_map, setNext, List.getElem?_modify]
  split <;> cases a[m]? <;> rfl

@[simp] theorem length_setNext : (setNext a n x).length = a.length := length_modify _ _ _

theorem getElem?_setNext_of_ne (h : m ≠ n) : (setNext a n x)[m]? = a[m]? := by
  rw [setNext, List.getElem?_modify]
  simp only [if_neg (Ne.symm h)]
  exact map_id'

theorem links_setNext_self (h : n < a.length) : links id (setNext a n x) n = some x := by
  rw [links, setNext, List.getElem?_modify, List.getElem?_eq_getElem h]
  simp

theorem entryAt_of_follows (h : Follows (links f a) i (n :: l)) :
    ∃ e, entryAt a i = some e ∧ i.toNat = n ∧ a[n]? = some e ∧
      Follows (links f a) (f e.nextLpid) l := by
  obtain ⟨rfl, j, hj, hl⟩ := h
  obtain ⟨e, he, rfl⟩ := map_eq_some_iff.1 hj
  refine ⟨e, ?_, Int.toNat_natCast n, he, hl⟩
  rw [entryAt, if_pos (Int.natCast_nonneg n), Int.toNat_natCast, he]

theorem follows_setNext (h : Follows (links f a) i l) (hn : n ∉ l) :
    Follows (links f (setNext a n x)) i l := by
  refine h.congr fun m hm => links_congr (getElem?_setNext_of_ne ?_)
  rintro rfl
  exact hn hm

end links

theorem convertRest_spec {fuel offset : Nat} {a : List Pmap} {idx2 : Int} {l : List Nat}
    (h : Follows (links (relink offset) a) idx2 l) (hnd : l.Nodup) (hf : l.length < fuel) :
    ∃ a', convertRest fuel a offset idx2 = some a' ∧ a'.map Pmap.lpid = a.map Pmap.lpid ∧
      (∀ n, n ∉ l → a'[n]? = a[n]?) ∧ Follows (links id a') idx2 l := by
  induction l generalizing fuel a idx2 with
  | nil =>
    obtain ⟨fuel, rfl⟩ := Nat.exists_eq_succ_of_ne_zero (Nat.ne_of_gt hf)
    obtain rfl : idx2 = -1 := h
    exact ⟨a, rfl, rfl, fun _ _ => rfl, rfl⟩
  | cons n l ih =>
    obtain ⟨fuel, rfl⟩ := Nat.exists_eq_succ_of_ne_zero (Nat.ne_of_gt (Nat.zero_lt_of_lt hf))
    obtain ⟨e, he, hn, hget, hl⟩ := entryAt_of_follows h
    obtain ⟨hnl, hnd⟩ := nodup_cons.1 hnd
    have hlen : n < a.length := (List.getElem?_eq_some_iff.1 hget).1
    obtain ⟨a', hrun, hids, hframe, hfol⟩ := ih
      (follows_setNext (x := relink offset e.nextLpid) hl hnl) hnd (Nat.lt_of_succ_lt_succ hf)
    refine ⟨a', ?_, hids.trans map_lpid_setNext, fun m hm => ?_, ?_⟩
    · rw [convertRest, if_pos (h.nonneg_iff.2 (cons_ne_nil _ _)), he]
      rw [hn]
      exact hrun
    · obtain ⟨hmn, hml⟩ := not_or.1 (mt mem_cons.2 hm)
      rw [hframe m hml, getElem?_setNext_of_ne hmn]
    · refine ⟨h.1, relink offset e.nextLpid, ?_, hfol⟩
      rw [links_congr (hframe n hnl), links_setNext_self hlen]

def KeyOf (a : List Pmap) (key : Nat → Nat) : Prop := ∀ n e, a[n]? = some e → e.lpid = key n

theorem KeyOf.setNext {a : List Pmap} {key : Nat → Nat} (h : KeyOf a key) (m : Nat) (x : Int) :
    KeyOf (setNext a m x) key := by
  intro n e he
  rw [Groups.setNext, List.getElem?_modify] at he
  obtain ⟨e₀, he₀, rfl⟩ := map_eq_some_iff.1 he
  split <;> exact h n e₀ he₀

theorem mergeLoop_spec (fuel : Nat) {offset cur : Nat} {a : List Pmap} {idx1 idx2 : Int}
    {l₁ l₂ : List Nat} {key : Nat → Nat} (hk : KeyOf a key)
    (h₁ : Follows (links id a) idx1 l₁) (h₂ : Follows (links (relink offset) a) idx2 l₂)
    (hcur : cur < a.length) (hnd : (cur :: (l₁ ++ l₂)).Nodup)
    (hf : l₁.length + l₂.length < fuel) :
    ∃ a', mergeLoop fuel a offset cur idx1 idx2 = some a' ∧ a'.map Pmap.lpid = a.map Pmap.lpid ∧
      (∀ n, n ∉ cur :: (l₁ ++ l₂) → a'[n]? = a[n]?) ∧
      Follows (links id a') cur (cur :: l₁.merge l₂ fun i j => key i ≤ key j) := by
  induction fuel generalizing a cur idx1 idx2 l₁ l₂ with
  | zero => omega
  | succ fuel ih =>
    obtain ⟨hcl, hnd'⟩ := nodup_cons.1 hnd
    have hc₁ : cur ∉ l₁ := fun hm => hcl (mem_append_left _ hm)
    have hc₂ : cur ∉ l₂ := fun hm => hcl (mem_append_right _ hm)
    unfold mergeLoop
    cases l₁ with
    | nil =>
      obtain rfl : idx1 = -1 := h₁
      rw [if_neg (by omega), if_neg (by omega)]
      obtain ⟨a', hrun, hids, hframe, hfol⟩ := convertRest_spec (follows_setNext h₂ hc₂ (x := idx2))
        hnd' (by rwa [length_nil, Nat.zero_add] at hf)
      refine ⟨a', hrun, hids.trans map_lpid_setNext, fun n hn => ?_, rfl, idx2, ?_, ?_⟩
      · obtain ⟨hnc, hnl⟩ := not_or.1 (mt mem_cons.2 hn)
        rw [hframe n hnl, getElem?_setNext_of_ne hnc]
      · rw [links_congr (hframe cur hc₂), links_setNext_self hcur]
      · simpa using hfol
    | cons n₁ l₁ =>
      cases l₂ with
      | nil =>
        obtain rfl : idx2 = -1 := h₂
        rw [if_neg (by omega), if_pos (h₁.nonneg_iff.2 (cons_ne_nil _ _))]
        refine ⟨_, rfl, map_lpid_setNext, fun n hn => getElem?_setNext_of_ne fun h => hn ?_, rfl,
          idx1, links_setNext_self hcur, ?_⟩
        · rw [h]
          exact mem_cons_self
        · rw [merge_right]
          exact follows_setNext h₁ hc₁
      | cons n₂ l₂ =>
        obtain ⟨e1, he1, hn1, hget1, hl1⟩ := entryAt_of_follows h₁
        obtain ⟨e2, he2, hn2, hget2, hl2⟩ := entryAt_of_follows h₂
        rw [if_pos ⟨h₁.nonneg_iff.2 (cons_ne_nil _ _), h₂.nonneg_iff.2 (cons_ne_nil _ _)⟩,
          he1, he2]
        simp only [bind_eq_bind, bind_some]
        rw [hk n₁ e1 hget1, hk n₂ e2 hget2, cons_merge_cons]
        have hlen₁ : n₁ < a.length := (List.getElem?_eq_some_iff.1 hget1).1
        have hlen₂ : n₂ < a.length := (List.getElem?_eq_some_iff.1 hget2).1
        by_cases hle : key n₁ ≤ key n₂
        · rw [if_neg (Nat.not_lt.2 hle), if_pos (decide_eq_true hle), hn1]
          have hnd₁ : (n₁ :: (l₁ ++ n₂ :: l₂)).Nodup := hnd'
          obtain ⟨a', hrun, hids, hframe, hfol⟩ := ih (hk.setNext cur idx1)
            (follows_setNext hl1 fun hm => hc₁ (mem_cons_of_mem _ hm))
            (follows_setNext h₂ hc₂) (by simpa using hlen₁) hnd₁ (by simp at hf ⊢; omega)
          refine ⟨a', hrun, hids.trans map_lpid_setNext, fun n hn => ?_, rfl, idx1, ?_, ?_⟩
          · obtain ⟨hnc, hnl⟩ := not_or.1 (mt mem_cons.2 hn)
            rw [hframe n hnl, getElem?_setNext_of_ne hnc]
          · rw [links_congr (hframe cur hcl), links_setNext_self hcur]
          · rw [h₁.1]
            exact hfol
        · rw [if_pos (Nat.lt_of_not_le hle), if_neg (by simpa using Nat.lt_of_not_le hle), hn2]
          have hperm : (n₂ :: (n₁ :: l₁ ++ l₂)).Perm (n₁ :: l₁ ++ n₂ :: l₂) :=
            perm_middle.symm
          obtain ⟨a', hrun, hids, hframe, hfol⟩ := ih (hk.setNext cur idx2)
            (follows_setNext h₁ hc₁)
            (follows_setNext hl2 fun hm => hc₂ (mem_cons_of_mem _ hm))
            (by simpa using hlen₂) (hperm.nodup_iff.2 hnd') (by simp at hf ⊢; omega)
          refine ⟨a', hrun, hids.trans map_lpid_setNext, fun n hn => ?_, rfl, idx2, ?_, ?_⟩
          · obtain ⟨hnc, hnl⟩ := not_or.1 (mt mem_cons.2 hn)
            rw [hframe n (mt hperm.mem_iff.1 hnl), getElem?_setNext_of_ne hnc]
          · rw [links_congr (hframe cur (mt hperm.mem_iff.1 hcl)), links_setNext_self hcur]
          · rw [h₂.1]
            exact hfol

theorem mergeHalves_spec {offset : Nat} {a : List Pmap} {idx1 idx2 : Int} {l₁ l₂ : List Nat}
    {key : Nat → Nat} (hk : KeyOf a key) (h₁ : Follows (links id a) idx1 l₁)
    (h₂ : Follows (links (relink offset) a) idx2 l₂) (hne : l₁ ≠ []) (hlong : 1 < l₂.length)
    (hperm : (l₁ ++ l₂).Perm (List.range a.length)) :
    ∃ a' first, mergeHalves a offset idx1 idx2 = some (a', first) ∧
      a'.map Pmap.lpid = a.map Pmap.lpid ∧
      Follows (links id a') first (l₁.merge l₂ fun i j => key i ≤ key j) := by
  have hnd : (l₁ ++ l₂).Nodup := hperm.nodup_iff.2 nodup_range
  have hlen : l₁.length + l₂.length = a.length := by simpa using hperm.length_eq
  obtain ⟨n₁, l₁, rfl⟩ := exists_cons_of_ne_nil hne
  obtain ⟨n₂, m₂, l₂, rfl⟩ : ∃ n m l, l₂ = n :: m :: l := by
    match l₂, hlong with
    | n :: m :: l, _ => exact ⟨n, m, l, rfl⟩
  obtain ⟨e1, he1, hn1, hget1, hl1⟩ := entryAt_of_follows h₁
  obtain ⟨e2, he2, hn2, hget2, hl2⟩ := entryAt_of_follows h₂
  have hrel : relink offset e2.nextLpid = e2.nextLpid + offset := by
    have hpos := hl2.nonneg_iff.2 (cons_ne_nil _ _)
    unfold relink at hpos ⊢
    split at hpos
    · next h => rw [if_pos h]
    · contradiction
  rw [mergeHalves, he1, he2]
  simp only [bind_eq_bind, bind_some]
  rw [hk n₁ e1 hget1, hk n₂ e2 hget2, cons_merge_cons, hn1, hn2]
  simp only [length_cons] at hlen
  by_cases hle : key n₁ ≤ key n₂
  · rw [if_neg (Nat.not_lt.2 hle), if_pos (decide_eq_true hle)]
    obtain ⟨a', hrun, hids, -, hfol⟩ := mergeLoop_spec (a.length + 1) hk hl1 h₂
      (List.getElem?_eq_some_iff.1 hget1).1 hnd (by simp only [length_cons]; omega)
    rw [id] at hrun
    rw [hrun]
    exact ⟨a', idx1, rfl, hids, h₁.1 ▸ hfol⟩
  · rw [if_pos (Nat.lt_of_not_le hle), if_neg (by simpa using Nat.lt_of_not_le hle), ← hrel]
    have hmid : (n₂ :: (n₁ :: l₁ ++ m₂ :: l₂)).Perm (n₁ :: l₁ ++ n₂ :: m₂ :: l₂) :=
      perm_middle.symm
    obtain ⟨a', hrun, hids, -, hfol⟩ := mergeLoop_spec (a.length + 1) hk h₁ hl2
      (List.getElem?_eq_some_iff.1 hget2).1 (hmid.nodup_iff.2 hnd)
      (by simp only [length_cons]; omega)
    rw [hrun]
    exact ⟨a', idx2, rfl, hids, h₂.1 ▸ hfol⟩

theorem follows_second {a₁ a₂ : List Pmap} {idx2 : Int} {l : List Nat}
    (h : Follows (links id a₂) idx2 l) :
    Follows (links (relink a₁.length) (a₁ ++ a₂)) (relink a₁.length idx2)
      (l.map (a₁.length + ·)) := by
  induction l generalizing idx2 with
  | nil =>
    obtain rfl : idx2 = -1 := h
    rfl
  | cons n l ih =>
    obtain ⟨rfl, j, hj, hl⟩ := h
    obtain ⟨e, he, rfl⟩ := map_eq_some_iff.1 hj
    refine ⟨?_, relink a₁.length e.nextLpid, ?_, ih hl⟩
    · rw [relink, if_pos (Int.natCast_nonneg n)]
      push_cast
      omega
    · rw [links, List.getElem?_append_right (Nat.le_add_right _ _), Nat.add_sub_cancel_left, he]
      rfl

/-- Entries are linked in the order of the ids: the links lead to every index once, and ids do not
descend. -/
def Threaded (a : List Pmap) (first : Int) (key : Nat → Nat) : Prop :=
  ∃ l, Follows (links id a) first l ∧ l.Perm (List.range a.length) ∧
    l.Pairwise fun i j => key i ≤ key j

theorem mergesortLpidarray_halves {fuel : Nat} {a : List Pmap} (h : 3 ≤ a.length) :
    mergesortLpidarray (fuel + 1) a = (do
      let (a₁, idx1) ← mergesortLpidarray fuel (a.take (a.length / 2))
      let (a₂, idx2) ← mergesortLpidarray fuel (a.drop (a.length / 2))
      mergeHalves (a₁ ++ a₂) (a.length / 2) idx1 (idx2 + (a.length / 2 : Nat))) := by
  match a, h with
  | e₀ :: e₁ :: e₂ :: rest, _ => rfl

theorem mergesortLpidarray_small (fuel : Nat) {a : List Pmap} {key : Nat → Nat} (hk : KeyOf a key)
    (h : a.length ≤ 2) :
    ∃ a' first, mergesortLpidarray fuel a = some (a', first) ∧
      a'.map Pmap.lpid = a.map Pmap.lpid ∧ Threaded a' first key := by
  match a, h with
  | [], _ => exact ⟨[], -1, by unfold mergesortLpidarray; rfl, rfl, [], rfl, .refl _, .nil⟩
  | [e], _ =>
    exact ⟨[{ e with nextLpid := -1 }], 0, by unfold mergesortLpidarray; rfl, rfl, [0],
      ⟨rfl, -1, rfl, rfl⟩, .refl _, pairwise_singleton _ _⟩
  | [e₀, e₁], _ =>
    have hk₀ := hk 0 e₀ rfl
    have hk₁ := hk 1 e₁ rfl
    unfold mergesortLpidarray
    split
    · next hlt =>
      refine ⟨_, _, rfl, rfl, [1, 0], ⟨rfl, 0, rfl, rfl, -1, rfl, rfl⟩, .swap 0 1 [], ?_⟩
      simp only [pairwise_cons, mem_singleton, forall_eq, not_mem_nil]
      exact ⟨by omega, by simp⟩
    · next hlt =>
      refine ⟨_, _, rfl, rfl, [0, 1], ⟨rfl, 1, rfl, rfl, -1, rfl, rfl⟩, .refl _, ?_⟩
      simp only [pairwise_cons, mem_singleton, forall_eq, not_mem_nil]
      exact ⟨by omega, by simp⟩

theorem perm_range_halves {n m : Nat} {l₁ l₂ : List Nat} (h₁ : l₁.Perm (List.range n))
    (h₂ : l₂.Perm (List.range m)) : (l₁ ++ l₂.map (n + ·)).Perm (List.range (n + m)) := by
  rw [range_add]
  exact h₁.append (h₂.map _)

theorem mergesortLpidarray_spec {fuel : Nat} {a : List Pmap} {key : Nat → Nat} (hk : KeyOf a key)
    (hf : a.length ≤ fuel + 2) :
    ∃ a' first, mergesortLpidarray fuel a = some (a', first) ∧
      a'.map Pmap.lpid = a.map Pmap.lpid ∧ Threaded a' first key := by
  induction fuel generalizing a key with
  | zero => exact mergesortLpidarray_small 0 hk hf
  | succ fuel ih =>
    by_cases hsmall : a.length ≤ 2
    · exact mergesortLpidarray_small _ hk hsmall
    have hk₁ : KeyOf (a.take (a.length / 2)) key := by
      intro n e he
      rw [List.getElem?_take] at he
      exact hk n e (ite_none_right_eq_some.1 he).2
    have hk₂ : KeyOf (a.drop (a.length / 2)) fun n => key (a.length / 2 + n) := by
      intro n e he
      rw [List.getElem?_drop] at he
      exact hk _ e he
    obtain ⟨a₁, idx1, hrun₁, hids₁, l₁, hfol₁, hperm₁, hsort₁⟩ :=
      ih hk₁ (by rw [length_take]; omega)
    obtain ⟨a₂, idx2, hrun₂, hids₂, l₂, hfol₂, hperm₂, hsort₂⟩ :=
      ih hk₂ (by rw [length_drop]; omega)
    have hlen₁ : a₁.length = a.length / 2 := by
      have := congrArg List.length hids₁
      simp only [length_map, length_take] at this
      omega
    have hlen₂ : a₂.length = a.length - a.length / 2 := by
      have := congrArg List.length hids₂
      simpa using this
    have hids : (a₁ ++ a₂).map Pmap.lpid = a.map Pmap.lpid := by
      rw [map_append, hids₁, hids₂, ← map_append, take_append_drop]
    have hk' : KeyOf (a₁ ++ a₂) key := by
      intro n e he
      have hmap : (a.map Pmap.lpid)[n]? = some e.lpid := by
        rw [← hids, List.getElem?_map, he]
        rfl
      rw [List.getElem?_map] at hmap
      obtain ⟨e', he', hlp⟩ := map_eq_some_iff.1 hmap
      rw [← hlp, hk n e' he']
    have hperm : (l₁ ++ l₂.map (a₁.length + ·)).Perm (List.range (a₁ ++ a₂).length) := by
      rw [length_append]
      exact perm_range_halves hperm₁ hperm₂
    have hfirst : Follows (links id (a₁ ++ a₂)) idx1 l₁ :=
      hfol₁.congr fun n hn => links_congr
        (List.getElem?_append_left (mem_range.1 (hperm₁.mem_iff.1 hn)))
    have hl₁ : l₁.length = a₁.length := by simpa using hperm₁.length_eq
    have hl₂ : l₂.length = a₂.length := by simpa using hperm₂.length_eq
    have hidx2 : relink a₁.length idx2 = idx2 + (a.length / 2 : Nat) := by
      have hne : l₂ ≠ [] := ne_nil_of_length_pos (by omega)
      rw [relink, if_pos (hfol₂.nonneg_iff.2 hne), hlen₁]
    have hmerge := mergeHalves_spec hk' hfirst (follows_second hfol₂)
      (ne_nil_of_length_pos (by omega)) (by rw [length_map]; omega) hperm
    obtain ⟨a', first, hrun, hids', hfol⟩ := hmerge
    refine ⟨a', first, ?_, hids'.trans hids, _, hfol, ?_, ?_⟩
    · rw [mergesortLpidarray_halves (by omega), hrun₁, hrun₂]
      simp only [bind_eq_bind, bind_some]
      rw [← hidx2, ← hlen₁]
      exact hrun
    · have hlen' : a'.length = (a₁ ++ a₂).length := by
        simpa using congrArg List.length hids'
      rw [hlen']
      exact (merge_perm_append _).trans hperm
    · have htrans : ∀ i j k : Nat, decide (key i ≤ key j) = true → decide (key j ≤ key k) = true →
          decide (key i ≤ key k) = true := by
        intro i j k hij hjk
        exact decide_eq_true (Nat.le_trans (of_decide_eq_true hij) (of_decide_eq_true hjk))
      have htotal : ∀ i j : Nat, (decide (key i ≤ key j) || decide (key j ≤ key i)) = true := by
        intro i j
        rcases Nat.le_total (key i) (key j) with h | h <;> simp [h]
      have hsort := pairwise_merge htrans htotal l₁ (l₂.map (a₁.length + ·))
        (hsort₁.imp fun h => decide_eq_true h)
        (pairwise_map.2 (hsort₂.imp fun h => decide_eq_true (by rw [hlen₁]; exact h)))
      exact hsort.imp fun h => of_decide_eq_true h

end PsMpi.Groups
