import PsMpi.Coll.TreeUtil
import PsMpi.Lib.RootedTree

/-!
# K-ary trees are spanning trees

What the processes compute forms a tree if all of them come to an end (`Spans`).
-/

open PsMpi.Lib List Option

namespace PsMpi.Coll

/-! ## Builders -/

section builders

variable {n root r : Nat} {parent : Nat → Option Nat} {children : Nat → List Nat}
  {build : Nat → Option Treealgo}

def Spans (n root : Nat) (build : Nat → Option Treealgo) : Prop :=
  ∃ t : Nat → Treealgo,
    (∀ r < n, build r = some (t r) ∧ (t r).rank = r ∧ (t r).nranks = n ∧
      (t r).numChildren = (t r).children.length) ∧
    IsTree n root (fun r => (t r).parent) fun r => (t r).children

def SumsFit (n root : Nat) : Prop := n - 1 + (n - root) ≤ intMax ∧ n - 1 + root ≤ intMax

/-- What a process computes for a parent and children of the ranks counted from the root. -/
def computed (n root : Nat) (parent : Nat → Option Nat) (children : Nat → List Nat) (r : Nat) :
    Option Treealgo := do
  let x ← localRank r n root
  let p ← parentIf n root (parent x)
  let cs ← (children x).mapM (globalRank n root)
  some (treeOf r n p cs)

theorem globalRank_eq_some {x y : Nat} :
    globalRank n root x = some y ↔ x + root ≤ intMax ∧ shift n root x = y := by
  rw [globalRank, map_eq_some_iff]
  constructor
  · rintro ⟨s, hs, rfl⟩
    obtain ⟨hle, rfl⟩ := addInt_eq_some.1 hs
    exact ⟨hle, rfl⟩
  · rintro ⟨hle, rfl⟩
    exact ⟨_, addInt_of_le hle, rfl⟩

theorem localRank_eq_some {x : Nat} :
    localRank r n root = some x ↔ r + (n - root) ≤ intMax ∧ unshift n root r = x := by
  rw [localRank, map_eq_some_iff]
  constructor
  · rintro ⟨s, hs, rfl⟩
    obtain ⟨hle, rfl⟩ := addInt_eq_some.1 hs
    exact ⟨hle, rfl⟩
  · rintro ⟨hle, rfl⟩
    exact ⟨_, addInt_of_le hle, rfl⟩

theorem mapM_globalRank {l cs : List Nat} : l.mapM (globalRank n root) = some cs ↔
    (∀ c ∈ l, c + root ≤ intMax) ∧ l.map (shift n root) = cs := by
  induction l generalizing cs with
  | nil => simp
  | cons c l ih =>
    rw [mapM_cons]
    constructor
    · intro h
      obtain ⟨y, hy, h⟩ := bind_eq_some_iff.1 h
      obtain ⟨ys, hys, h⟩ := bind_eq_some_iff.1 h
      cases h
      obtain ⟨hc, rfl⟩ := globalRank_eq_some.1 hy
      obtain ⟨hl, rfl⟩ := ih.1 hys
      exact ⟨forall_mem_cons.2 ⟨hc, hl⟩, rfl⟩
    · rintro ⟨hall, rfl⟩
      obtain ⟨hc, hl⟩ := forall_mem_cons.1 hall
      rw [globalRank_eq_some.2 ⟨hc, rfl⟩, ih.2 ⟨hl, rfl⟩]
      rfl

theorem computed_eq_some {t : Treealgo} : computed n root parent children r = some t ↔
    (r + (n - root) ≤ intMax ∧ (∀ y, parent (unshift n root r) = some y → y + root ≤ intMax) ∧
      ∀ c ∈ children (unshift n root r), c + root ≤ intMax) ∧
    t = treeOf r n ((parent (unshift n root r)).map (shift n root))
      ((children (unshift n root r)).map (shift n root)) := by
  unfold computed
  constructor
  · intro h
    obtain ⟨x, hx, h⟩ := bind_eq_some_iff.1 h
    obtain ⟨p, hp, h⟩ := bind_eq_some_iff.1 h
    obtain ⟨cs, hcs, h⟩ := bind_eq_some_iff.1 h
    obtain ⟨hle, rfl⟩ := localRank_eq_some.1 hx
    obtain ⟨hall, rfl⟩ := mapM_globalRank.1 hcs
    cases hpar : parent (unshift n root r) with
    | none =>
      rw [hpar] at hp
      cases hp
      exact ⟨⟨hle, nofun, hall⟩, (Option.some.inj h).symm⟩
    | some y =>
      rw [hpar] at hp
      obtain ⟨z, hz, rfl⟩ := map_eq_some_iff.1 hp
      obtain ⟨hy, rfl⟩ := globalRank_eq_some.1 hz
      refine ⟨⟨hle, fun w hw => ?_, hall⟩, (Option.some.inj h).symm⟩
      rwa [← Option.some.inj hw]
  · rintro ⟨⟨hle, hpar, hall⟩, rfl⟩
    rw [localRank_eq_some.2 ⟨hle, rfl⟩]
    refine bind_eq_some_iff.2 ⟨_, rfl, ?_⟩
    rw [mapM_globalRank.2 ⟨hall, rfl⟩]
    cases hp : parent (unshift n root r) with
    | none => rfl
    | some y =>
      rw [parentIf, globalRank_eq_some.2 ⟨hpar y hp, rfl⟩]
      rfl

theorem spans_iff {cond : Prop} (h : Ordered n parent children) (hroot : root < n)
    (hok : cond → ∀ r < n, build r = computed n root parent children r)
    (hneed : (∀ r < n, ∃ t, build r = some t) → cond) :
    Spans n root build ↔ cond ∧ SumsFit n root := by
  constructor
  · rintro ⟨t, ht, -⟩
    have hall : ∀ r < n, ∃ t, build r = some t := fun r hr => ⟨t r, (ht r hr).1⟩
    have hcond := hneed hall
    have hsums := fun r hr => (computed_eq_some.1
      ((hok hcond r hr).symm.trans (ht r hr).1)).1
    refine ⟨hcond, (hsums (n - 1) (by omega)).1, ?_⟩
    rcases Nat.lt_or_ge 1 n with hn | hn
    · obtain ⟨x, hx, hmem⟩ := h.last_mem hn
      have hle := (hsums (shift n root x) (shift_lt hx)).2.2 (n - 1)
      rw [unshift_shift hroot hx] at hle
      exact hle hmem
    · have := (hsums 0 (by omega)).1
      omega
  · rintro ⟨hcond, hsum, hsum'⟩
    refine ⟨fun r => treeOf r n ((parent (unshift n root r)).map (shift n root))
      ((children (unshift n root r)).map (shift n root)), fun r hr => ⟨?_, rfl, rfl, rfl⟩,
      h.isTree hroot⟩
    rw [hok hcond r hr]
    have hx : unshift n root r < n := unshift_lt hr
    refine computed_eq_some.2 ⟨⟨by omega, fun y hy => ?_, fun c hc => ?_⟩, rfl⟩
    · have := h.parent_lt hx hy
      omega
    · have := ((h.mem _ hx c).1 hc).1
      omega

end builders

/-! ## Blocks of children -/

section kary

variable {n root b k k0 k1 child x c : Nat}

def childBlock (n first count : Nat) : List Nat :=
  ((List.range count).map (first + ·)).filter (· < n)

theorem mem_childBlock {first count : Nat} :
    c ∈ childBlock n first count ↔ c < n ∧ first ≤ c ∧ c < first + count := by
  rw [childBlock, mem_filter, List.mem_map, decide_eq_true_iff]
  constructor
  · rintro ⟨⟨j, hj, rfl⟩, hc⟩
    rw [mem_range] at hj
    omega
  · rintro ⟨hc, hle, hlt⟩
    exact ⟨⟨c - first, mem_range.2 (by omega), by omega⟩, hc⟩

theorem nodup_childBlock {first count : Nat} : (childBlock n first count).Nodup := by
  refine (nodup_range.map_on fun a _ b _ h => ?_).filter _
  exact Nat.add_left_cancel h

theorem childBlock_succ {first count : Nat} (h : first < n) :
    childBlock n first (count + 1) = first :: childBlock n (first + 1) count := by
  have hshift : (fun j => first + Nat.succ j) = fun j => first + 1 + j := by
    funext j
    omega
  rw [childBlock, List.range_succ_eq_map, List.map_cons, List.map_map,
    List.filter_cons_of_pos (by simpa using h)]
  exact congrArg (fun f => first :: (List.map f (List.range count)).filter (· < n)) hshift

theorem childBlock_of_le {first count : Nat} (h : n ≤ first) : childBlock n first count = [] := by
  refine eq_nil_iff_forall_not_mem.2 fun c hc => ?_
  have := mem_childBlock.1 hc
  omega

theorem karyLoop_eq (hn : n ≤ intMax) {todo : Nat} (hb : b + child ≤ intMax) :
    karyLoop n root (some b) todo child = (childBlock n (b + child) todo).mapM (globalRank n root) := by
  induction todo generalizing child with
  | zero => rfl
  | succ todo ih =>
    unfold karyLoop
    simp only [bind, Option.bind, addInt_of_le hb]
    rcases Nat.lt_or_ge (b + child) n with hlt | hge
    · rw [if_neg (Nat.not_le.2 hlt), childBlock_succ hlt, mapM_cons,
        addInt_of_le (show child + 1 ≤ intMax by omega)]
      have hnext : karyLoop n root (some b) todo (child + 1) =
          (childBlock n (b + child + 1) todo).mapM (globalRank n root) :=
        ih (show b + (child + 1) ≤ intMax by omega)
      simp only [hnext]
      rfl
    · rw [if_pos hge, childBlock_of_le hge]
      rfl

theorem karyLoop_first {first : Option Nat} {todo : Nat} {l : List Nat}
    (h : karyLoop n root first (todo + 1) child = some l) :
    ∃ b, first = some b ∧ b + child ≤ intMax := by
  unfold karyLoop at h
  obtain ⟨b, hb, h⟩ := bind_eq_some_iff.1 h
  obtain ⟨val, hval, -⟩ := bind_eq_some_iff.1 h
  exact ⟨b, hb, (addInt_eq_some.1 hval).1⟩

/-! ## The k-ary tree -/

def karyParent (k x : Nat) : Option Nat := if x = 0 then none else some ((x - 1) / k)

def karyChildren (n k x : Nat) : List Nat := childBlock n (x * k + 1) k

theorem div_eq_iff_block {a q : Nat} (hk : 1 ≤ k) : a / k = q ↔ q * k ≤ a ∧ a < q * k + k := by
  constructor
  · rintro rfl
    have hdiv := Nat.div_add_mod a k
    have hmod := Nat.mod_lt a hk
    rw [Nat.mul_comm] at hdiv
    omega
  · rintro ⟨hle, hlt⟩
    refine Nat.div_eq_of_lt_le hle ?_
    rw [Nat.succ_mul]
    exact hlt

theorem kary_ordered (hk : 1 ≤ k) : Ordered n (karyParent k) (karyChildren n k) := by
  refine ⟨rfl, fun x hx _ => ⟨(x - 1) / k, ?_, if_neg (by omega)⟩, fun x _ => nodup_childBlock,
    fun x _ c => ?_⟩
  · exact Nat.lt_of_le_of_lt (Nat.div_le_self _ _) (by omega)
  · rw [karyChildren, mem_childBlock, karyParent, ite_none_left_eq_some, Option.some.injEq]
    refine and_congr_right fun _ => ?_
    rw [div_eq_iff_block hk]
    omega

theorem karyInit_eq (hn : n ≤ intMax) (hmul : (n - 1) * k + 1 ≤ intMax)
    {r : Nat} (hr : r < n) :
    karyInit r n k root = computed n root (karyParent k) (karyChildren n k) r := by
  unfold karyInit computed
  rw [if_neg (by omega)]
  refine bind_congr fun x hx => ?_
  obtain ⟨-, rfl⟩ := localRank_eq_some.1 hx
  obtain ⟨x, hx⟩ : ∃ x, unshift n root r = x := ⟨_, rfl⟩
  have hlt : x < n := hx ▸ unshift_lt hr
  have hle : x * k + 1 ≤ intMax :=
    Nat.le_trans (Nat.succ_le_succ (Nat.mul_le_mul_right k (by omega))) hmul
  rw [hx, mulInt_of_le (by omega), karyLoop_eq hn hle]
  rfl

theorem kary_spans_iff (hn : n ≤ intMax) (hroot : root < n) (hk : 1 ≤ k) :
    Spans n root (fun r => karyInit r n k root) ↔
      (n - 1) * k + 1 ≤ intMax ∧ SumsFit n root := by
  refine spans_iff (kary_ordered hk) hroot (fun h r hr => karyInit_eq hn h hr) fun h => ?_
  obtain ⟨t, ht⟩ := h (shift n root (n - 1)) (shift_lt (by omega))
  unfold karyInit at ht
  rw [if_neg (by omega)] at ht
  obtain ⟨x, hx, ht⟩ := bind_eq_some_iff.1 ht
  obtain ⟨-, rfl⟩ := localRank_eq_some.1 hx
  obtain ⟨p, -, ht⟩ := bind_eq_some_iff.1 ht
  obtain ⟨cs, hcs, -⟩ := bind_eq_some_iff.1 ht
  rw [unshift_shift hroot (by omega)] at hcs
  obtain ⟨k, rfl⟩ := Nat.exists_eq_add_of_le' hk
  obtain ⟨b, hb, hle⟩ := karyLoop_first hcs
  obtain ⟨-, rfl⟩ := mulInt_eq_some.1 hb
  exact hle

/-! ## The k-ary tree for topologies -/

def topoParent (k0 k1 x : Nat) : Option Nat :=
  if x = 0 then none else some ((x + k1 - k0 - 1) / k1)

def topoChildren (n k0 k1 x : Nat) : List Nat :=
  if x = 0 then childBlock n 1 k0 else childBlock n (k0 + (x - 1) * k1 + 1) k1

theorem topo_ordered (hk0 : 1 ≤ k0) (hk : k0 < k1) :
    Ordered n (topoParent k0 k1) (topoChildren n k0 k1) := by
  refine ⟨rfl, fun x hx _ => ⟨(x + k1 - k0 - 1) / k1, ?_, if_neg (by omega)⟩, fun x _ => ?_,
    fun x _ c => ?_⟩
  · obtain ⟨y, rfl⟩ := Nat.exists_eq_add_of_le' hx
    refine Nat.div_lt_of_lt_mul ?_
    have hle : y ≤ k1 * y := Nat.le_mul_of_pos_left y (by omega)
    rw [Nat.mul_succ]
    omega
  · unfold topoChildren
    split
    · exact nodup_childBlock
    · exact nodup_childBlock
  · rw [topoParent, ite_none_left_eq_some, Option.some.injEq,
      div_eq_iff_block (by omega : 1 ≤ k1), topoChildren]
    rcases Nat.eq_zero_or_pos x with rfl | hx
    · rw [if_pos rfl, mem_childBlock]
      omega
    · obtain ⟨y, rfl⟩ := Nat.exists_eq_add_of_le' hx
      rw [if_neg (by omega), mem_childBlock, Nat.add_sub_cancel, Nat.succ_mul]
      omega

theorem karyInitTopoAware_eq (hn : n ≤ intMax) (h3 : 2 < n) (hk0 : 1 ≤ k0) (hk : k0 < k1)
    (hmul : k0 + (n - 2) * k1 + 1 ≤ intMax) {r : Nat} (hr : r < n) :
    karyInitTopoAware r n k0 k1 root =
      computed n root (topoParent k0 k1) (topoChildren n k0 k1) r := by
  unfold karyInitTopoAware computed
  rw [if_neg (by omega)]
  refine bind_congr fun x hx => ?_
  obtain ⟨-, rfl⟩ := localRank_eq_some.1 hx
  obtain ⟨x, hx⟩ : ∃ x, unshift n root r = x := ⟨_, rfl⟩
  have hlt : x < n := hx ▸ unshift_lt hr
  rw [hx]
  rcases Nat.eq_zero_or_pos x with rfl | hpos
  · simp only [topoParent, topoChildren, if_true, parentIf]
    rw [karyLoop_eq hn (by decide)]
  · obtain ⟨y, rfl⟩ := Nat.exists_eq_add_of_le' hpos
    -- the sums of the parent are not larger than the first child of the last rank
    have hprod : y * k1 ≤ (n - 2) * k1 := Nat.mul_le_mul_right k1 (by omega)
    have hsum : y + 1 + k1 ≤ intMax := by
      obtain ⟨m, rfl⟩ := Nat.exists_eq_add_of_le' h3
      have hm : m ≤ m * k1 := Nat.le_mul_of_pos_right m (by omega)
      rw [show m + Nat.succ 2 - 2 = m + 1 by omega, Nat.succ_mul] at hmul
      omega
    simp only [topoParent, topoChildren, if_neg (Nat.succ_ne_zero y), Nat.add_sub_cancel,
      addInt_of_le hsum, bind_some]
    rw [mulInt_of_le (by omega), bind_some, addInt_of_le (by omega), karyLoop_eq hn (by omega)]

def TopoFits (n k0 k1 : Nat) : Prop :=
  if n ≤ 2 ∨ k1 ≤ k0 then (n - 1) * k1 + 1 ≤ intMax else k0 + (n - 2) * k1 + 1 ≤ intMax

theorem topo_spans_iff (hn : n ≤ intMax) (hroot : root < n) (hk0 : 1 ≤ k0) (hk1 : 1 ≤ k1) :
    Spans n root (fun r => karyInitTopoAware r n k0 k1 root) ↔
      TopoFits n k0 k1 ∧ SumsFit n root := by
  unfold TopoFits
  by_cases hsmall : n ≤ 2 ∨ k1 ≤ k0
  · rw [if_pos hsmall, ← kary_spans_iff hn hroot hk1]
    simp only [karyInitTopoAware, if_pos hsmall]
  rw [if_neg hsmall]
  have h3 : 2 < n := by omega
  have hk : k0 < k1 := by omega
  refine spans_iff (topo_ordered hk0 hk) hroot
    (fun h r hr => karyInitTopoAware_eq hn h3 hk0 hk h hr) fun h => ?_
  obtain ⟨t, ht⟩ := h (shift n root (n - 1)) (shift_lt (by omega))
  unfold karyInitTopoAware at ht
  rw [if_neg hsmall] at ht
  obtain ⟨x, hx, ht⟩ := bind_eq_some_iff.1 ht
  obtain ⟨-, rfl⟩ := localRank_eq_some.1 hx
  obtain ⟨p, -, ht⟩ := bind_eq_some_iff.1 ht
  obtain ⟨cs, hcs, -⟩ := bind_eq_some_iff.1 ht
  rw [unshift_shift hroot (by omega), if_neg (by omega)] at hcs
  obtain ⟨k, rfl⟩ := Nat.exists_eq_add_of_le' hk1
  obtain ⟨b, hb, hle⟩ := karyLoop_first hcs
  obtain ⟨a, ha, hb⟩ := bind_eq_some_iff.1 hb
  obtain ⟨-, rfl⟩ := mulInt_eq_some.1 ha
  obtain ⟨-, rfl⟩ := addInt_eq_some.1 hb
  rwa [show n - 1 - 1 = n - 2 by omega] at hle

end kary

end PsMpi.Coll
