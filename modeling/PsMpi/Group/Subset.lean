import PsMpi.Group.OpsOk
import PsMpi.Lib.MapM

/-!
# Members of a group in a communicator

See `MPIR_Group_check_subset` (`mpich2/src/mpi/group/grouputil.c:355`).
-/

open List Option

namespace PsMpi.Groups

open PsMpi.Lib

/-- `MPIR_Comm_kind_t` (`mpir_comm.h`). -/
inductive CommKind where
  | intracomm
  | intercomm
deriving DecidableEq

/-- `MPIR_Comm` (`mpir_comm.h`), `MPIDI_DEV_COMM_DECL` (`mpidpre.h`). -/
structure MpiComm where
  kind : CommKind
  localSize : Nat
  remoteSize : Nat
  vcr : List Nat
  localVcr : List Nat
deriving DecidableEq

/-- `MPID_Comm_get_lpid` (`mpid_comm.c:543`). -/
def commGetLpid (comm : MpiComm) (idx : Nat) (is_remote : Bool) : Option Nat :=
  if comm.kind = .intracomm ∨ is_remote = true then comm.vcr[idx]? else comm.localVcr[idx]?

def MpiComm.localLpids (comm : MpiComm) : List Nat :=
  match comm.kind with
  | .intracomm => comm.vcr
  | .intercomm => comm.localVcr

structure MpiComm.Ok (comm : MpiComm) : Prop where
  localSize : comm.localSize = comm.localLpids.length
  remoteSize : comm.kind = .intracomm → comm.remoteSize = comm.localSize
  nodup : comm.localLpids.Nodup

def narrow (lpid : Nat) : Int :=
  if lpid % 2 ^ 32 < 2 ^ 31 then lpid % 2 ^ 32 else lpid % 2 ^ 32 - 2 ^ 32

/-- The merge of both orders, which ends at an id of the group that is not found or behind the last.
`MPIR_Group_check_subset` (:380). -/
def subsetLoop : Nat → List Pmap → List Pmap → Int → Int → Option Int
  | 0, _, _, _, _ => none
  | fuel + 1, lrankToLpid, vmap, g1Idx, g2Idx =>
    if 0 ≤ g1Idx ∧ 0 ≤ g2Idx then do
      let e1 ← entryAt lrankToLpid g1Idx
      let e2 ← entryAt vmap g2Idx
      let l1Pid := narrow e1.lpid
      let l2Pid := narrow e2.lpid
      if l1Pid < l2Pid then some g1Idx
      else if l1Pid > l2Pid then subsetLoop fuel lrankToLpid vmap g1Idx e2.nextLpid
      else subsetLoop fuel lrankToLpid vmap e1.nextLpid e2.nextLpid
    else some g1Idx

/-- The check that a communicator has the members of a group: the group with its order set up, and
the place of a member that is reported missing. `MPIR_Group_check_subset`
(:355). -/
def checkSubset (g : MpiGroup) (comm : MpiComm) : Option (MpiGroup × Option Int) := do
  let vsize := if comm.kind = .intercomm then comm.localSize else comm.remoteSize
  let lpids ← (List.range vsize).mapM fun i => commGetLpid comm i false
  let g ← setupLpidList g
  let (vmap, g2Idx) ← mergesortLpidarray vsize (lpids.map (⟨·, 0⟩))
  let g1Idx ← subsetLoop (g.size + vsize + 1) g.lrankToLpid vmap g.idxOfFirstLpid g2Idx
  return (g, if 0 ≤ g1Idx then some g1Idx else none)

/-! ## The merge of two lists of ids -/

def allMet : List Nat → List Nat → Bool
  | [], _ => true
  | _ :: _, [] => false
  | x :: xs, y :: ys =>
    if narrow x < narrow y then false
    else if narrow y < narrow x then allMet (x :: xs) ys
    else allMet xs ys

structure SameOrder (x y : Nat) : Prop where
  lt : narrow x < narrow y ↔ x < y
  gt : narrow y < narrow x ↔ y < x

/-- An id of a group and one of a communicator meet in the merge of their 64-bit orders: the lesser
ids of the group have been found before, and the lesser ids of the communicator have been passed. -/
structure Meet (xs ys : List Nat) (x y : Nat) : Prop where
  left : ∀ x' ∈ xs, x' < x → x' ∈ ys ∧ x' < y
  right : ∀ y' ∈ ys, y' < y → y' < x

def Alike (xs ys : List Nat) : Prop := ∀ x ∈ xs, ∀ y ∈ ys, Meet xs ys x y → SameOrder x y

theorem narrow_of_lt {x : Nat} (h : x < 2 ^ 31) : narrow x = x := by
  rw [narrow, if_pos (by omega)]
  omega

theorem sameOrder_of_lt {x y : Nat} (hx : x < 2 ^ 31) (hy : y < 2 ^ 31) : SameOrder x y := by
  constructor <;> rw [narrow_of_lt hx, narrow_of_lt hy] <;> exact Int.ofNat_lt

section merge

variable {px py xs ys : List Nat}

/-- A merge that has passed the ids `px` of the group and `py` of the communicator. -/
structure Passed (px py xs ys : List Nat) : Prop where
  left : (px ++ xs).Pairwise (· < ·)
  right : (py ++ ys).Pairwise (· < ·)
  found : ∀ x ∈ px, x ∈ py
  below : ∀ y ∈ py, ∀ x ∈ xs, y < x

theorem Passed.nil (hx : xs.Pairwise (· < ·)) (hy : ys.Pairwise (· < ·)) : Passed [] [] xs ys :=
  ⟨hx, hy, fun _ h => absurd h not_mem_nil, fun _ h => absurd h not_mem_nil⟩

variable {x y : Nat}

theorem Passed.lt_left (h : Passed px py (x :: xs) ys) : (∀ x' ∈ px, x' < x) ∧ ∀ x' ∈ xs, x < x' :=
  ⟨fun _ hx' => (pairwise_append.1 h.left).2.2 _ hx' _ mem_cons_self,
    (pairwise_cons.1 (pairwise_append.1 h.left).2.1).1⟩

theorem Passed.lt_right (h : Passed px py xs (y :: ys)) : (∀ y' ∈ py, y' < y) ∧ ∀ y' ∈ ys, y < y' :=
  ⟨fun _ hy' => (pairwise_append.1 h.right).2.2 _ hy' _ mem_cons_self,
    (pairwise_cons.1 (pairwise_append.1 h.right).2.1).1⟩

theorem Passed.meet (h : Passed px py (x :: xs) (y :: ys)) :
    Meet (px ++ x :: xs) (py ++ y :: ys) x y := by
  refine ⟨fun x' hx' hlt => ?_, fun y' hy' hlt => ?_⟩
  · rcases mem_append.1 hx' with hx' | hx'
    · exact ⟨mem_append_left _ (h.found x' hx'), h.lt_right.1 x' (h.found x' hx')⟩
    · rcases mem_cons.1 hx' with rfl | hx'
      · exact absurd hlt (Nat.lt_irrefl _)
      · exact absurd (h.lt_left.2 x' hx') (Nat.lt_asymm hlt)
  · rcases mem_append.1 hy' with hy' | hy'
    · exact h.below y' hy' x mem_cons_self
    · rcases mem_cons.1 hy' with rfl | hy'
      · exact absurd hlt (Nat.lt_irrefl _)
      · exact absurd (h.lt_right.2 y' hy') (Nat.lt_asymm hlt)

theorem Passed.skip (h : Passed px py (x :: xs) (y :: ys)) (hlt : y < x) :
    Passed px (py ++ [y]) (x :: xs) ys := by
  refine ⟨h.left, by simpa using h.right, fun x' hx' => mem_append_left _ (h.found x' hx'), ?_⟩
  intro y' hy' x' hx'
  rcases mem_append.1 hy' with hy' | hy'
  · exact h.below y' hy' x' hx'
  · obtain rfl := mem_singleton.1 hy'
    rcases mem_cons.1 hx' with rfl | hx'
    · exact hlt
    · exact Nat.lt_trans hlt (h.lt_left.2 x' hx')

theorem Passed.match (h : Passed px py (x :: xs) (x :: ys)) :
    Passed (px ++ [x]) (py ++ [x]) xs ys := by
  refine ⟨by simpa using h.left, by simpa using h.right, fun x' hx' => ?_, fun y' hy' x' hx' => ?_⟩
  · rcases mem_append.1 hx' with hx' | hx'
    · exact mem_append_left _ (h.found x' hx')
    · exact mem_append_right _ hx'
  · rcases mem_append.1 hy' with hy' | hy'
    · exact h.below y' hy' x' (mem_cons_of_mem _ hx')
    · obtain rfl := mem_singleton.1 hy'
      exact h.lt_left.2 x' hx'

theorem Passed.not_mem (h : Passed px py (x :: xs) (y :: ys)) (hlt : x < y) : x ∉ py ++ y :: ys := by
  intro hno
  rcases mem_append.1 hno with hno | hno
  · exact Nat.lt_irrefl _ (h.below x hno x mem_cons_self)
  · rcases mem_cons.1 hno with rfl | hno
    · exact Nat.lt_irrefl _ hlt
    · exact Nat.lt_asymm hlt (h.lt_right.2 x hno)

theorem Passed.allMet_iff (h : Passed px py xs ys) (ha : Alike (px ++ xs) (py ++ ys)) :
    allMet xs ys = true ↔ ∀ x ∈ xs, x ∈ py ++ ys := by
  induction ys generalizing px py xs with
  | nil =>
    cases xs with
    | nil => exact iff_of_true rfl fun _ hx => absurd hx not_mem_nil
    | cons x xs =>
      refine iff_of_false nofun fun hall => ?_
      have hx := hall x mem_cons_self
      rw [append_nil] at hx
      exact Nat.lt_irrefl _ (h.below x hx x mem_cons_self)
  | cons y ys ih =>
    cases xs with
    | nil => exact iff_of_true rfl fun _ hx => absurd hx not_mem_nil
    | cons x xs =>
      have hord := ha x (mem_append_right _ mem_cons_self) y
        (mem_append_right _ mem_cons_self) h.meet
      rw [allMet]
      rcases Nat.lt_trichotomy x y with hlt | rfl | hgt
      · rw [if_pos (hord.lt.2 hlt)]
        exact iff_of_false nofun fun hall => h.not_mem hlt (hall x mem_cons_self)
      · rw [if_neg (Int.lt_irrefl _), if_neg (Int.lt_irrefl _), ih h.match (by simpa using ha)]
        rw [append_assoc, singleton_append, forall_mem_cons]
        exact (and_iff_right (mem_append_right _ mem_cons_self)).symm
      · rw [if_neg fun hno => Nat.lt_asymm hgt (hord.lt.1 hno), if_pos (hord.gt.2 hgt),
          ih (h.skip hgt) (by simpa using ha), append_assoc, singleton_append]

end merge

/-! ## The check -/

section check

variable {g : MpiGroup} {comm : MpiComm} {me : Nat}

theorem subsetLoop_spec {a₁ a₂ : List Pmap} {k₁ k₂ : Nat → Nat} {idx1 idx2 : Int} {l₁ l₂ : List Nat}
    (fuel : Nat) (hk₁ : KeyOf a₁ k₁) (hk₂ : KeyOf a₂ k₂) (h₁ : Follows (links id a₁) idx1 l₁)
    (h₂ : Follows (links id a₂) idx2 l₂) (hf : l₁.length + l₂.length < fuel) :
    ∃ idx, subsetLoop fuel a₁ a₂ idx1 idx2 = some idx ∧
      (0 ≤ idx ↔ allMet (l₁.map k₁) (l₂.map k₂) = false) := by
  induction fuel generalizing idx1 idx2 l₁ l₂ with
  | zero => omega
  | succ fuel ih =>
    rw [subsetLoop]
    match l₁, l₂ with
    | [], l₂ =>
      obtain rfl : idx1 = -1 := h₁
      refine ⟨-1, if_neg fun hno => absurd hno.1 (by decide), iff_of_false (by decide) ?_⟩
      rw [map_nil, allMet]
      decide
    | n₁ :: l₁, [] =>
      obtain rfl : idx2 = -1 := h₂
      exact ⟨idx1, if_neg fun hno => absurd hno.2 (by decide),
        iff_of_true (h₁.nonneg_iff.2 (cons_ne_nil _ _)) rfl⟩
    | n₁ :: l₁, n₂ :: l₂ =>
      obtain ⟨e1, he1, -, hget1, hl1⟩ := entryAt_of_follows h₁
      obtain ⟨e2, he2, -, hget2, hl2⟩ := entryAt_of_follows h₂
      have h0 := h₁.nonneg_iff.2 (cons_ne_nil _ _)
      rw [if_pos ⟨h0, h₂.nonneg_iff.2 (cons_ne_nil _ _)⟩, he1, he2]
      simp only [bind_eq_bind, bind_some, map_cons]
      rw [hk₁ n₁ e1 hget1, hk₂ n₂ e2 hget2, allMet]
      simp only [length_cons] at hf
      split
      · exact ⟨idx1, rfl, iff_of_true h0 rfl⟩
      · split
        · exact ih h₁ hl2 (by simp only [length_cons]; omega)
        · exact ih hl1 hl2 (by omega)

theorem map_getD_range (l : List Nat) : ((List.range l.length).map fun n => l.getD n 0) = l := by
  refine ext_getElem (by simp) fun i h₁ h₂ => ?_
  rw [getElem_map, getElem_range, getD_eq_getElem?_getD,
    List.getElem?_eq_getElem h₂]
  rfl

theorem MpiComm.Ok.vsize (h : comm.Ok) :
    (if comm.kind = .intercomm then comm.localSize else comm.remoteSize) =
      comm.localLpids.length := by
  rw [← h.localSize]
  split
  · rfl
  · next hk =>
    refine h.remoteSize ?_
    cases hkind : comm.kind with
    | intracomm => rfl
    | intercomm => exact absurd hkind hk

theorem commGetLpid_local (comm : MpiComm) (i : Nat) :
    commGetLpid comm i false = comm.localLpids[i]? := by
  rw [commGetLpid, MpiComm.localLpids]
  cases comm.kind with
  | intracomm => exact if_pos (.inl rfl)
  | intercomm => exact if_neg (by decide)

theorem readLpids (comm : MpiComm) :
    (List.range comm.localLpids.length).mapM (fun i => commGetLpid comm i false) =
      some comm.localLpids := by
  rw [mapM_eq_some (g := fun i => comm.localLpids.getD i 0), map_getD_range]
  intro i hi
  rw [commGetLpid_local, getD_eq_getElem?_getD,
    List.getElem?_eq_getElem (mem_range.1 hi)]
  rfl

theorem needLpidList_eq (g : MpiGroup) : needLpidList g = setupLpidList g := by
  rw [needLpidList]
  split
  · rfl
  · rw [setupLpidList, if_neg (by omega)]

theorem checkSubset_spec (hg : g.Wf me) (hc : comm.Ok) :
    ∃ g' missing xs ys, checkSubset g comm = some (g', missing) ∧ SameGroup me g g' ∧
      xs.Perm g.lpids ∧ xs.Pairwise (· < ·) ∧ ys.Perm comm.localLpids ∧ ys.Pairwise (· < ·) ∧
      (missing = none ↔ allMet xs ys = true) := by
  obtain ⟨g', hneed, hsame, l₁, hfol₁, hperm₁, hs₁⟩ := needLpidList_spec hg
  rw [needLpidList_eq] at hneed
  have hkey : KeyOf (comm.localLpids.map fun x => (⟨x, 0⟩ : Pmap)) fun n =>
      comm.localLpids.getD n 0 := by
    intro n e he
    rw [List.getElem?_map] at he
    obtain ⟨x, hx, rfl⟩ := map_eq_some_iff.1 he
    show x = comm.localLpids.getD n 0
    rw [getD_eq_getElem?_getD, hx]
    rfl
  obtain ⟨vmap, first, hsort, hids, l₂, hfol₂, hperm₂, hs₂⟩ :=
    @mergesortLpidarray_spec comm.localLpids.length _ _ hkey (by simp)
  have hlen₂ : vmap.length = comm.localLpids.length := by
    simpa using congrArg List.length hids
  have hkey₂ : KeyOf vmap fun n => comm.localLpids.getD n 0 := by
    intro n e he
    have hmap := congrArg (·[n]?) hids
    simp only [List.getElem?_map, he, map_some] at hmap
    obtain ⟨e', he', hlp⟩ := map_eq_some_iff.1 hmap.symm
    rw [← hlp]
    exact hkey n e' (by rw [List.getElem?_map]; exact he')
  rw [hlen₂] at hperm₂
  have hys : (l₂.map fun n => comm.localLpids.getD n 0).Perm comm.localLpids := by
    have := hperm₂.map fun n => comm.localLpids.getD n 0
    rwa [map_getD_range] at this
  have hxs : (l₁.map g'.lpidAt).Perm g.lpids := by
    rw [← hsame.lpids, ← map_lpidAt_range]
    exact hperm₁.map _
  obtain ⟨idx, hloop, hidx⟩ := subsetLoop_spec (g'.size + comm.localLpids.length + 1) keyOf_lpidAt
    hkey₂ hfol₁ hfol₂ (by
      have h₁ := hperm₁.length_eq
      have h₂ := hperm₂.length_eq
      rw [length_range] at h₁ h₂
      omega)
  refine ⟨g', if 0 ≤ idx then some idx else none, _, _, ?_, hsame, hxs,
    pairwise_map.2 hs₁, hys, ?_, ?_⟩
  · unfold checkSubset
    rw [hc.vsize]
    simp only [readLpids, hneed, bind_eq_bind, bind_some, hsort, hloop]
    rfl
  · refine pairwise_map.2 ?_
    have hnd := (pairwise_map.1 (hys.nodup_iff.2 hc.nodup))
    exact (hs₂.and hnd).imp fun h => Nat.lt_of_le_of_ne h.1 h.2
  · rw [ite_eq_right_iff]
    constructor
    · intro hno
      rw [← Bool.not_eq_false]
      exact fun hmet => nomatch hno (hidx.2 hmet)
    · intro hmet h0
      exact absurd (hidx.1 h0) (by rw [hmet]; decide)

theorem alike_perm {xs xs' ys ys' : List Nat} (hx : xs.Perm xs') (hy : ys.Perm ys') :
    Alike xs ys ↔ Alike xs' ys' := by
  have hmeet : ∀ x y, Meet xs ys x y ↔ Meet xs' ys' x y := fun x y =>
    ⟨fun h => ⟨fun x' hx' hlt => ⟨hy.mem_iff.1 (h.left x' (hx.mem_iff.2 hx') hlt).1,
        (h.left x' (hx.mem_iff.2 hx') hlt).2⟩, fun y' hy' => h.right y' (hy.mem_iff.2 hy')⟩,
      fun h => ⟨fun x' hx' hlt => ⟨hy.mem_iff.2 (h.left x' (hx.mem_iff.1 hx') hlt).1,
        (h.left x' (hx.mem_iff.1 hx') hlt).2⟩, fun y' hy' => h.right y' (hy.mem_iff.1 hy')⟩⟩
  simp only [Alike, hmeet, hx.mem_iff, hy.mem_iff]

theorem check_subset_of_alike (hg : g.Wf me) (hc : comm.Ok) (ha : Alike g.lpids comm.localLpids) :
    ∃ g' missing, checkSubset g comm = some (g', missing) ∧ g'.lpids = g.lpids ∧
      (missing = none ↔ ∀ x ∈ g.lpids, x ∈ comm.localLpids) := by
  obtain ⟨g', missing, xs, ys, hrun, hsame, hxs, hsx, hys, hsy, hmiss⟩ := checkSubset_spec hg hc
  refine ⟨g', missing, hrun, hsame.lpids, ?_⟩
  rw [hmiss, (Passed.nil hsx hsy).allMet_iff ((alike_perm hxs hys).2 ha)]
  exact ⟨fun h x hx => hys.mem_iff.1 (h x (hxs.mem_iff.2 hx)),
    fun h x hx => hys.mem_iff.2 (h x (hxs.mem_iff.1 hx))⟩

theorem alike_of_subset {xs ys : List Nat} (hx : ∀ x ∈ xs, x < 2 ^ 31)
    (hsub : ∀ x ∈ xs, x ∈ ys) : Alike xs ys := by
  intro x hxs y _ hm
  have hle : ¬ x < y := fun hlt => Nat.lt_irrefl _ (hm.right x (hsub x hxs) hlt)
  exact sameOrder_of_lt (hx x hxs) (Nat.lt_of_le_of_lt (Nat.not_lt.1 hle) (hx x hxs))

theorem alike_of_lt {xs ys : List Nat} (hx : ∀ x ∈ xs, x < 2 ^ 31) (hy : ∀ y ∈ ys, y < 2 ^ 31) :
    Alike xs ys := fun x hxs y hys _ => sameOrder_of_lt (hx x hxs) (hy y hys)

/-- The check finds exactly whether a communicator has the members of a group, as long as two ids
that meet in the merge are in the order of their low words. -/
theorem check_subset (hg : g.Wf me) (hc : comm.Ok) (ha : Alike g.lpids comm.localLpids) :
    ∃ g' missing, checkSubset g comm = some (g', missing) ∧ g'.lpids = g.lpids ∧
      (missing = none ↔ ∀ x ∈ g.lpids, x ∈ comm.localLpids) :=
  check_subset_of_alike hg hc ha

end check

def commOfFour : MpiComm := ⟨.intracomm, 4, 4, [2, 0, 3, 1], []⟩

theorem check_subset_two :
    ∃ g' missing, checkSubset (fresh 1 [3, 1]) commOfFour = some (g', missing) ∧
      g'.lpids = (fresh 1 [3, 1]).lpids ∧
      (missing = none ↔ ∀ x ∈ (fresh 1 [3, 1]).lpids, x ∈ commOfFour.localLpids) :=
  @check_subset _ _ 1 ⟨by decide, fun hno => absurd rfl hno, rfl⟩ ⟨rfl, fun _ => rfl, by decide⟩
    (alike_of_lt (by decide) (by decide))

/-- A process whose id has the low word of a member is taken for it; and a member with a greater id is
not found behind one with a greater low word. -/
theorem check_subset_fails :
    (checkSubset (fresh 0 [2 ^ 32]) ⟨.intracomm, 1, 1, [0], []⟩).map Prod.snd = some none ∧
    ¬ (∀ x ∈ (fresh 0 [2 ^ 32]).lpids, x ∈ [0]) ∧
    (checkSubset (fresh 0 [2 ^ 32]) ⟨.intracomm, 2, 2, [1, 2 ^ 32], []⟩).map Prod.snd =
      some (some 0) ∧
    ∀ x ∈ (fresh 0 [2 ^ 32]).lpids, x ∈ [1, 2 ^ 32] := by
  refine ⟨by decide, by decide, by decide, by decide⟩

end PsMpi.Groups
