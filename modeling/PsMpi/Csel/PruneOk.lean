import PsMpi.Csel.Select
import Mathlib.Data.List.Nodup

/-!
# Pruned selection trees
-/

open List Option

namespace PsMpi.Csel

variable {C : Type} {threaded : Bool} {comm : Comm} {collType : CollType} {args : Args}
  {t t' s : Tree C} {c : C} {op : Op}

/-! ## Operators -/

section operators

def Applies (comm : Comm) (collType : CollType) (args : Args) : Op → Prop
  | .avgMsgSizeLe _ => collType.coll ∈ [.allreduce, .bcast, .reduce, .alltoall]
  | .avgMsgSizeLt _ => collType.coll ∈ [.allreduce, .bcast, .reduce, .alltoall]
  | .totalMsgSizeLe _ => TotalApplies
  | .totalMsgSizeLt _ => TotalApplies
  | .countLe _ => CountApplies
  | .countLtPow2 => CountApplies
  | .isSbufInplace _ => collType.coll ∈ [.alltoall, .alltoallv, .alltoallw]
  | .isBlockRegular _ =>
    collType.coll = .reduceScatter ∧ comm.localSize ≤ args.recvcounts.length
  | .isCommutative _ =>
    collType.coll ∈ [.allreduce, .reduce, .reduceScatter, .reduceScatterBlock]
  | .isOpBuiltIn _ => collType.coll ∈ [.allreduce, .reduce]
  | _ => True
where
  /-- The total size is defined. -/
  TotalApplies : Prop :=
    collType.coll ∈ [.allreduce, .bcast, .reduce, .alltoall, .allgather, .gather, .scatter,
      .reduceScatterBlock] ∨
    collType.coll ∈ [.allgatherv, .reduceScatter] ∧ comm.localSize ≤ args.recvcounts.length ∨
    collType.coll = .alltoallv ∧ comm.localSize ≤ args.sendcounts.length ∨
    collType.coll = .alltoallw ∧ comm.localSize ≤ args.sendcounts.length ∧
      comm.localSize ≤ args.sendtypes.length
  /-- The count is defined. -/
  CountApplies : Prop :=
    collType.coll ∈ [.allreduce, .reduce, .allgather, .reduceScatterBlock] ∨
    collType.coll = .bcast ∧ collType.nonblocking = false ∨
    collType.coll ∈ [.allgatherv, .reduceScatter] ∧ comm.localSize ≤ args.recvcounts.length

theorem getTotalMsgsize_isSome : (getTotalMsgsize comm collType args).isSome = true ↔
    Applies.TotalApplies comm collType args := by
  unfold getTotalMsgsize Applies.TotalApplies sumCounts
  cases collType.coll <;> simp
  split <;> rfl

theorem getCount_isSome : (getCount comm collType args).isSome = true ↔
    Applies.CountApplies comm collType args := by
  unfold getCount Applies.CountApplies sumCounts
  cases collType.coll <;> simp

theorem searchTest_isSome :
    (searchTest threaded comm collType args op).isSome = true ↔ Applies comm collType args op := by
  cases op with
  | avgMsgSizeLe | avgMsgSizeLt =>
    simp only [searchTest, isSome_map, Applies]
    unfold getAvgMsgsize
    cases collType.coll <;> simp
  | totalMsgSizeLe | totalMsgSizeLt =>
    simp only [searchTest, isSome_map, Applies]
    exact getTotalMsgsize_isSome
  | countLe | countLtPow2 =>
    simp only [searchTest, isSome_map, Applies]
    exact getCount_isSome
  | isSbufInplace =>
    simp only [searchTest, isSome_map, Applies]
    unfold isSendbufInplace
    cases collType.coll <;> simp
  | isBlockRegular =>
    simp only [searchTest, isSome_map, Applies]
    unfold isBlockRegular
    cases collType.coll <;> simp
  | isCommutative =>
    simp only [searchTest, isSome_map, Applies]
    unfold Csel.isCommutative
    cases collType.coll <;> simp
  | isOpBuiltIn =>
    simp only [searchTest, isSome_map, Applies]
    unfold Csel.isOpBuiltIn
    cases collType.coll <;> simp
  | _ => exact iff_of_true rfl trivial

theorem searchTest_eq_pruneTest {b : Bool} (hp : pruneTest comm op = some b)
    (hne : op ≠ .commSizeLt comm.localSize) :
    searchTest threaded comm collType args op = some b := by
  cases op with
  | commSizeLt val =>
    have hval : val ≠ comm.localSize := fun heq => hne (heq ▸ rfl)
    rw [← hp]
    show some (decide ((comm.localSize : Int) ≤ val)) = some (decide ((comm.localSize : Int) < val))
    congr 2
    exact propext ⟨fun h => Int.lt_iff_le_and_ne.2 ⟨h, hval.symm⟩, Int.le_of_lt⟩
  | commTypeIntra | commTypeInter | commSizeLe | commSizeNodeCommSize | commSizePow2
  | commHierarchy | isNodeConsecutive | commAvgPpnLe | commAvgPpnLt | any => exact hp
  | _ => cases hp

theorem commSizeLt_tests : pruneTest comm (.commSizeLt comm.localSize) = some false ∧
    searchTest threaded comm collType args (.commSizeLt comm.localSize) = some true := by
  constructor
  · show some (decide ((comm.localSize : Int) < comm.localSize)) = some false
    rw [decide_eq_false (Int.lt_irrefl _)]
  · show some (decide ((comm.localSize : Int) ≤ comm.localSize)) = some true
    rw [decide_eq_true (Int.le_refl _)]

end operators

/-! ## Walks -/

section walks

inductive Meets (threaded : Bool) (comm : Comm) (collType : CollType) (args : Args) :
    Tree C → Op → Prop
  | here {op : Op} {s f : Tree C} : Meets threaded comm collType args (.node op s f) op
  | success {op o : Op} {s f : Tree C} : searchTest threaded comm collType args op = some true →
      Meets threaded comm collType args s o → Meets threaded comm collType args (.node op s f) o
  | failure {op o : Op} {s f : Tree C} : searchTest threaded comm collType args op = some false →
      Meets threaded comm collType args f o → Meets threaded comm collType args (.node op s f) o

theorem search_isSome : (search threaded comm collType args t).isSome = true ↔
    ∀ op, Meets threaded comm collType args t op → Applies comm collType args op := by
  induction t with
  | null => exact iff_of_true rfl nofun
  | container c => exact iff_of_true rfl nofun
  | node op s f ihs ihf =>
    rw [search]
    cases htest : searchTest threaded comm collType args op with
    | none =>
      refine iff_of_false nofun fun h => ?_
      have hsome : (searchTest threaded comm collType args op).isSome = true :=
        searchTest_isSome.2 (h op .here)
      rw [htest] at hsome
      cases hsome
    | some b =>
      have happ : Applies comm collType args op := searchTest_isSome.1 (by rw [htest]; rfl)
      cases b with
      | true =>
        refine ihs.trans ⟨fun h o ho => ?_, fun h o ho => h o (.success htest ho)⟩
        cases ho with
        | here => exact happ
        | success _ ho => exact h o ho
        | failure hf _ =>
          rw [htest] at hf
          cases hf
      | false =>
        refine ihf.trans ⟨fun h o ho => ?_, fun h o ho => h o (.failure htest ho)⟩
        cases ho with
        | here => exact happ
        | success hs _ =>
          rw [htest] at hs
          cases hs
        | failure _ ho => exact h o ho

/-- Pruning does not come to an operator `comm_size<` with the size of the communicator. -/
def Clear (comm : Comm) : Tree C → Prop
  | .null => True
  | .container _ => True
  | .node op success failure => op ≠ .commSizeLt comm.localSize ∧
    match pruneTest comm op with
    | some true => Clear comm success
    | some false => Clear comm failure
    | none => True

theorem search_pruneWalk (hc : Clear comm t) (hw : pruneWalk comm t = some t') :
    search threaded comm collType args t = search threaded comm collType args t' := by
  induction t with
  | null => cases hw
  | container c =>
    cases hw
    rfl
  | node op s f ihs ihf =>
    obtain ⟨hne, hc⟩ := hc
    rw [pruneWalk] at hw
    cases hp : pruneTest comm op with
    | none =>
      rw [hp] at hw
      cases hw
      rfl
    | some b =>
      rw [hp] at hw hc
      rw [search, searchTest_eq_pruneTest hp hne]
      cases b with
      | true => exact ihs hc hw
      | false => exact ihf hc hw

def containers : Tree C → List C
  | .null => []
  | .container c => [c]
  | .node _ success failure => containers success ++ containers failure

theorem mem_containers_of_search (h : search threaded comm collType args t = some (some c)) :
    c ∈ containers t := by
  induction t with
  | null => cases h
  | container c' =>
    obtain rfl := Option.some.inj (Option.some.inj h)
    exact mem_singleton_self _
  | node op s f ihs ihf =>
    rw [search] at h
    obtain ⟨b, -, hb⟩ := bind_eq_some_iff.1 h
    cases b with
    | true => exact mem_append_left _ (ihs hb)
    | false => exact mem_append_right _ (ihf hb)

theorem mem_containers_of_pruneWalk (hw : pruneWalk comm t = some t') (h : c ∈ containers t') :
    c ∈ containers t := by
  induction t with
  | null => cases hw
  | container c' =>
    cases hw
    exact h
  | node op s f ihs ihf =>
    rw [pruneWalk] at hw
    split at hw
    · exact mem_append_left _ (ihs hw)
    · exact mem_append_right _ (ihf hw)
    · cases hw
      exact h

theorem clear_of_mem (hd : (containers t).Nodup)
    (hs : search threaded comm collType args t = some (some c))
    (hw : pruneWalk comm t = some t') (hm : c ∈ containers t') : Clear comm t := by
  induction t with
  | null => trivial
  | container c' => trivial
  | node op s f ihs ihf =>
    rw [containers, nodup_append'] at hd
    rw [search] at hs
    rw [pruneWalk] at hw
    by_cases hne : op = .commSizeLt comm.localSize
    · -- the search goes on with success, and pruning with failure
      subst hne
      obtain ⟨hp, ht⟩ : pruneTest comm (.commSizeLt comm.localSize) = some false ∧
          searchTest threaded comm collType args (.commSizeLt comm.localSize) = some true :=
        commSizeLt_tests
      rw [hp] at hw
      rw [ht] at hs
      exact absurd (mem_containers_of_pruneWalk hw hm) (hd.2.2 (mem_containers_of_search hs))
    · refine ⟨hne, ?_⟩
      cases hp : pruneTest comm op with
      | none => trivial
      | some b =>
        rw [hp] at hw
        rw [searchTest_eq_pruneTest hp hne] at hs
        cases b with
        | true => exact ihs hd.1 hs hw
        | false => exact ihf hd.2.1 hs hw

end walks

/-! ## Operators for collective operations -/

section colls

def CollChain : Tree C → Prop
  | .null => True
  | .node (.collective _) _ failure => CollChain failure
  | _ => False

def subtrees (collType : CollType) : Tree C → List (Tree C)
  | .node (.collective c) success failure =>
    if c = collType then success :: subtrees collType failure else subtrees collType failure
  | _ => []

theorem pruneColls_isSome {trees : CollType → Tree C} :
    (pruneColls comm t trees).isSome = true ↔ CollChain t := by
  induction t generalizing trees with
  | null => exact iff_of_true rfl trivial
  | container c => exact iff_of_false nofun id
  | node op s f _ ihf =>
    cases op with
    | collective c => exact ihf
    | _ => exact iff_of_false nofun id

theorem pruneColls_apply {trees trees' : CollType → Tree C}
    (h : pruneColls comm t trees = some trees') : trees' collType =
      ((subtrees collType t).getLast?.map (pruneTree comm)).getD (trees collType) := by
  induction t generalizing trees with
  | null =>
    cases h
    rfl
  | container c => cases h
  | node op s f _ ihf =>
    cases op with
    | collective c =>
      rw [ihf h, subtrees]
      by_cases hc : c = collType
      · rw [if_pos hc, if_pos hc.symm, List.getLast?_cons]
        cases (subtrees collType f).getLast? <;> rfl
      · rw [if_neg hc, if_neg (Ne.symm hc)]
    | _ => cases h

theorem search_collChain (h : CollChain t) : search threaded comm collType args t =
    match (subtrees collType t).head? with
    | none => some none
    | some s => search threaded comm collType args s := by
  induction t with
  | null => rfl
  | container c => exact h.elim
  | node op s f _ ihf =>
    cases op with
    | collective c =>
      rw [search, subtrees]
      by_cases hc : c = collType
      · have ht : searchTest threaded comm collType args (.collective c) = some true :=
          congrArg some (beq_iff_eq.2 hc)
        rw [ht, if_pos hc]
        rfl
      · have ht : searchTest threaded comm collType args (.collective c) = some false :=
          congrArg some (beq_eq_false_iff_ne.2 hc)
        rw [ht, if_neg hc]
        exact ihf h
    | _ => exact h.elim

theorem mem_containers_of_subtrees (hs : s ∈ subtrees collType t) (h : c ∈ containers s) :
    c ∈ containers t := by
  induction t with
  | null => cases hs
  | container c => cases hs
  | node op s' f _ ihf =>
    cases op with
    | collective c' =>
      rw [subtrees] at hs
      split at hs
      · rcases mem_cons.1 hs with rfl | hs
        · exact mem_append_left _ h
        · exact mem_append_right _ (ihf hs)
      · exact mem_append_right _ (ihf hs)
    | _ => cases hs

theorem nodup_subtrees (hd : (containers t).Nodup) (hs : s ∈ subtrees collType t) :
    (containers s).Nodup := by
  induction t with
  | null => cases hs
  | container c => cases hs
  | node op s' f _ ihf =>
    rw [containers, nodup_append'] at hd
    cases op with
    | collective c' =>
      rw [subtrees] at hs
      split at hs
      · rcases mem_cons.1 hs with rfl | hs
        · exact hd.1
        · exact ihf hd.2.1 hs
      · exact ihf hd.2.1 hs
    | _ => cases hs

theorem subtrees_length_le (hd : (containers t).Nodup) {a b : Tree C}
    (ha : (subtrees collType t).head? = some a) (hb : (subtrees collType t).getLast? = some b)
    (hca : c ∈ containers a) (hcb : c ∈ containers b) : (subtrees collType t).length ≤ 1 := by
  induction t with
  | null => cases ha
  | container c => cases ha
  | node op s' f _ ihf =>
    rw [containers, nodup_append'] at hd
    cases op with
    | collective c' =>
      rw [subtrees] at ha hb ⊢
      split at ha
      · next hc =>
        rw [if_pos hc] at hb ⊢
        obtain rfl : s' = a := Option.some.inj ha
        cases hf : subtrees collType f with
        | nil => exact Nat.le_refl _
        | cons x l =>
          rw [hf, List.getLast?_cons_cons] at hb
          have hmem : b ∈ subtrees collType f := by
            rw [hf]
            exact mem_of_getLast? hb
          exact absurd (mem_containers_of_subtrees hmem hcb) (hd.2.2 hca)
      · next hc =>
        rw [if_neg hc] at hb ⊢
        exact ihf hd.2.1 ha hb
    | _ => cases ha

theorem nodup_pruneWalk (hd : (containers t).Nodup) (hw : pruneWalk comm t = some t') :
    (containers t').Nodup := by
  induction t with
  | null => cases hw
  | container c =>
    cases hw
    exact hd
  | node op s f ihs ihf =>
    have hd' := hd
    rw [containers, nodup_append'] at hd'
    rw [pruneWalk] at hw
    split at hw
    · exact ihs hd'.1 hw
    · exact ihf hd'.2.1 hw
    · cases hw
      exact hd

end colls

/-! ## Pruning -/

section pruning

/-- The tree can be pruned for the communicator, and the way to the container is that of a search. -/
structure Prunes (threaded : Bool) (comm : Comm) (collType : CollType) (args : Args) (t : Tree C) :
    Prop where
  clear : Clear comm t
  chain : CollChain (pruneTree comm t)
  single : (subtrees collType (pruneTree comm t)).length ≤ 1
  clear_subtree : ∀ s ∈ subtrees collType (pruneTree comm t),
    pruneWalk comm s = none ∨ Clear comm s
  applies : ∀ op, Meets threaded comm collType args t op → Applies comm collType args op

def Agrees (threaded : Bool) (comm : Comm) (collType : CollType) (args : Args) (t : Tree C)
    (r : Option C) : Prop :=
  ∃ trees, cselPrune comm t = some trees ∧ search threaded comm collType args t = some r ∧
    searchPruned threaded comm collType args trees = some r

theorem search_pruneTree (h : pruneWalk comm s = none ∨ Clear comm s) :
    search threaded comm collType args (pruneTree comm s) =
      search threaded comm collType args s := by
  unfold pruneTree
  cases hw : pruneWalk comm s with
  | none => rfl
  | some s' =>
    rcases h with h | h
    · rw [hw] at h
      cases h
    · exact (search_pruneWalk h hw).symm

theorem Prunes.agrees (h : Prunes threaded comm collType args t) :
    ∃ r, Agrees threaded comm collType args t r := by
  obtain ⟨r, hr⟩ := isSome_iff_exists.1 (search_isSome.2 h.applies)
  obtain ⟨trees, htrees⟩ := isSome_iff_exists.1
    (pruneColls_isSome.2 h.chain : (cselPrune comm t).isSome = true)
  refine ⟨r, trees, htrees, hr, ?_⟩
  have htree : search threaded comm collType args (pruneTree comm t) =
      search threaded comm collType args t := search_pruneTree (.inr h.clear)
  rw [search_collChain h.chain, hr] at htree
  rw [searchPruned, pruneColls_apply htrees]
  have hsingle := h.single
  have hclear := h.clear_subtree
  generalize subtrees collType (pruneTree comm t) = l at htree hsingle hclear ⊢
  match l with
  | [] => exact htree
  | [s] => exact (search_pruneTree (hclear s mem_cons_self)).trans htree
  | _ :: _ :: _ =>
    rw [length_cons, length_cons] at hsingle
    omega

theorem Prunes.of_agrees (hd : (containers t).Nodup)
    (h : Agrees threaded comm collType args t (some c)) :
    Prunes threaded comm collType args t := by
  obtain ⟨trees, htrees, hs, hp⟩ := h
  have hchain : CollChain (pruneTree comm t) :=
    pruneColls_isSome.1 (isSome_iff_exists.2 ⟨trees, htrees⟩)
  rw [searchPruned, pruneColls_apply htrees] at hp
  -- the container is below the last operator for the operation
  obtain ⟨b, hb⟩ : ∃ b, (subtrees collType (pruneTree comm t)).getLast? = some b := by
    cases hl : (subtrees collType (pruneTree comm t)).getLast? with
    | none =>
      rw [hl] at hp
      cases hp
    | some b => exact ⟨b, rfl⟩
  rw [hb] at hp
  have hp : search threaded comm collType args (pruneTree comm b) = some (some c) := hp
  have hcb : c ∈ containers b := by
    have hmem := mem_containers_of_search hp
    unfold pruneTree at hmem
    cases hw : pruneWalk comm b with
    | none =>
      rw [hw] at hmem
      exact hmem
    | some b' =>
      rw [hw] at hmem
      exact mem_containers_of_pruneWalk hw hmem
  have hcp : c ∈ containers (pruneTree comm t) :=
    mem_containers_of_subtrees (mem_of_getLast? hb) hcb
  obtain ⟨t', hw, ht'⟩ : ∃ t', pruneWalk comm t = some t' ∧ pruneTree comm t = t' := by
    unfold pruneTree at hchain ⊢
    cases hw : pruneWalk comm t with
    | some t' => exact ⟨t', rfl, rfl⟩
    | none =>
      rw [hw] at hchain
      -- a tree that is its own pruned one is empty or has a collective operation at its root
      cases t with
      | null => cases hs
      | container c' => cases hw
      | node op s f =>
        cases op with
        | collective c' => cases hw
        | _ => exact hchain.elim
  rw [ht'] at hchain hb hcp
  have hclear := clear_of_mem hd hs hw hcp
  have hd' := nodup_pruneWalk hd hw
  have hs' := hs
  rw [search_pruneWalk hclear hw, search_collChain hchain] at hs'
  obtain ⟨a, ha⟩ : ∃ a, (subtrees collType t').head? = some a := by
    cases hl : (subtrees collType t').head? with
    | none =>
      rw [hl] at hs'
      cases hs'
    | some a => exact ⟨a, rfl⟩
  rw [ha] at hs'
  have hsingle := subtrees_length_le hd' ha hb (mem_containers_of_search hs') hcb
  refine ⟨hclear, ht' ▸ hchain, ht' ▸ hsingle, fun s hmem => ?_, search_isSome.1 (by rw [hs]; rfl)⟩
  rw [ht'] at hmem
  obtain ⟨l, hl⟩ : ∃ l, subtrees collType t' = l := ⟨_, rfl⟩
  rw [hl] at hmem ha hb hsingle
  match l with
  | [] => cases hmem
  | [x] =>
    obtain rfl : s = x := mem_singleton.1 hmem
    obtain rfl : s = a := Option.some.inj ha
    obtain rfl : s = b := Option.some.inj hb
    cases hws : pruneWalk comm s with
    | none => exact .inl rfl
    | some s' =>
      refine .inr (clear_of_mem (nodup_subtrees hd' (hl ▸ hmem)) hs' hws ?_)
      have hmem' := mem_containers_of_search hp
      rwa [pruneTree, hws] at hmem'
  | _ :: _ :: _ =>
    rw [length_cons, length_cons] at hsingle
    omega

/-- A search of the pruned selector agrees with a search of the whole tree if pruning does not come to
an operator `comm_size<` with the size of the communicator, ends at operators for collective
operations with one for the operation of the call, and the operators on the way are defined for the
call. For a tree with distinct containers this is so only then, if a container is found. -/
theorem prune_agrees (threaded : Bool) (comm : Comm) (collType : CollType) (args : Args)
    (t : Tree C) :
    (Prunes threaded comm collType args t → ∃ r, Agrees threaded comm collType args t r) ∧
      ((containers t).Nodup → ∀ c, search threaded comm collType args t = some (some c) →
        ((∃ r, Agrees threaded comm collType args t r) ↔
          Prunes threaded comm collType args t)) := by
  refine ⟨Prunes.agrees, fun hd c hc => ⟨?_, Prunes.agrees⟩⟩
  rintro ⟨r, hr⟩
  have hrc : some c = r := by
    obtain ⟨-, -, hs, -⟩ := hr
    exact Option.some.inj (hc.symm.trans hs)
  exact Prunes.of_agrees hd (hrc ▸ hr)

def sizeJson : Json :=
  .object [("comm_size<4", .object [("collective=bcast", .object [("algorithm=small", .object [])])]),
    ("comm_size=any", .object [("collective=bcast", .object [("algorithm=large", .object [])])])]

def sizeTree : Tree String :=
  .node (.commSizeLt 4) (.node (.collective ⟨.bcast, false⟩) (.container "algorithm=small") .null)
    (.node .any (.node (.collective ⟨.bcast, false⟩) (.container "algorithm=large") .null) .null)

def firstKey : Json → String
  | .object ((key, _) :: _) => key
  | _ => ""

def flatComm (n : Nat) : Comm := ⟨true, n, n, none, .flat, true, 1, n⟩

def bcastArgs : Args :=
  ⟨false, 1, ⟨[⟨0, 4⟩]⟩, 0, ⟨[]⟩, 0, ⟨[]⟩, [], [], [], .rank 0, ⟨true, true⟩⟩

theorem parseJsonTree_sizeJson : parseJsonTree firstKey sizeJson = some sizeTree := by
  decide +kernel

theorem prune_agrees_five : parseJsonTree firstKey sizeJson = some sizeTree ∧
    ∃ r, Agrees false (flatComm 5) ⟨.bcast, false⟩ bcastArgs sizeTree r := by
  refine ⟨parseJsonTree_sizeJson, (prune_agrees _ _ _ _ _).1 ⟨?_, trivial, by decide, fun s hs => ?_, ?_⟩⟩
  · exact ⟨by decide, by decide, by decide, trivial⟩
  · rw [mem_singleton.1 hs]
    exact .inr trivial
  · exact search_isSome.1 (by decide)

/-- Four processes do not: a search of the whole tree takes four to be less than four. -/
theorem prune_differs : parseJsonTree firstKey sizeJson = some sizeTree ∧
    search false (flatComm 4) ⟨.bcast, false⟩ bcastArgs sizeTree = some (some "algorithm=small") ∧
    (cselPrune (flatComm 4) sizeTree).map
      (searchPruned false (flatComm 4) ⟨.bcast, false⟩ bcastArgs) =
        some (some (some "algorithm=large")) ∧
    ¬ ∃ r, Agrees false (flatComm 4) ⟨.bcast, false⟩ bcastArgs sizeTree r := by
  have hroot : search false (flatComm 4) ⟨.bcast, false⟩ bcastArgs sizeTree =
      some (some "algorithm=small") := by decide
  have hpruned : (cselPrune (flatComm 4) sizeTree).map
      (searchPruned false (flatComm 4) ⟨.bcast, false⟩ bcastArgs) =
        some (some (some "algorithm=large")) := by decide
  refine ⟨parseJsonTree_sizeJson, hroot, hpruned, ?_⟩
  rintro ⟨r, trees, htrees, hs, hp⟩
  rw [htrees, map_some, hp] at hpruned
  rw [hroot] at hs
  rw [← Option.some.inj hs] at hpruned
  exact absurd hpruned (by decide)

end pruning

end PsMpi.Csel
