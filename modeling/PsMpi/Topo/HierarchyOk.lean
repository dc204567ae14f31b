import PsMpi.Lib.Classes
import PsMpi.Topo.Hierarchy

/-!
# The hierarchy is the same at all processes
-/

open PsMpi.Lib List Function

namespace PsMpi.Topo

/-! ## Loops over the ranks -/

section loops

variable {σ ε : Type} {f : σ → Nat → Except ε σ} {s t : σ} {k n : Nat} {e : ε}

theorem foldlM_range_succ :
    (List.range (n + 1)).foldlM f s = (List.range n).foldlM f s >>= fun t => f t n := by
  simp only [range_succ, foldlM_append, foldlM_cons, foldlM_nil, bind_pure]

theorem foldlM_range_error (hk : k < n) (hpre : (List.range k).foldlM f s = .ok t)
    (hf : f t k = .error e) : (List.range n).foldlM f s = .error e := by
  induction n, hk using Nat.le_induction with
  | base =>
    rw [foldlM_range_succ, hpre]
    exact hf
  | succ n _ ih =>
    rw [foldlM_range_succ, ih]
    rfl

theorem getElem?_filter_range {p : Nat → Bool} {i : Nat} :
    ((List.range n).filter p)[k]? = some i ↔
      i < n ∧ p i = true ∧ ((List.range i).filter p).length = k := by
  have hplace : ∀ i < n, p i = true →
      ((List.range n).filter p)[((List.range i).filter p).length]? = some i := by
    intro i hi hp
    obtain ⟨d, rfl⟩ := Nat.exists_eq_add_of_lt hi
    rw [show i + d + 1 = i + 1 + d by omega, range_add, filter_append, range_succ,
      filter_append, filter_singleton, hp, append_assoc,
      List.getElem?_append_right (Nat.le_refl _), Nat.sub_self]
    rfl
  constructor
  · intro h
    obtain ⟨hi, hp⟩ := mem_filter.1 (mem_of_getElem? h)
    have hi := mem_range.1 hi
    refine ⟨hi, hp, ?_⟩
    have hlt := (List.getElem?_eq_some_iff.1 (hplace i hi hp)).1
    exact (List.getElem?_inj hlt (nodup_range.filter _)).1 ((hplace i hi hp).trans h.symm)
  · rintro ⟨hi, hp, rfl⟩
    exact hplace i hi hp

end loops

/-! ## The processes of the own node -/

section tables

variable {id : Nat → Except Stop Int} {node : Nat → Int} {num my : Int} {k n me : Nat}

def Numbered (id : Nat → Except Stop Int) (node : Nat → Int) (k : Nat) : Prop :=
  ∀ i < k, id i = .ok (node i) ∧ 0 ≤ node i

def localsUpTo (node : Nat → Int) (my : Int) (n me k : Nat) : LocalProcs :=
  let before := fun i => (List.range i).filter fun j => node j = my
  ⟨if me < k ∧ node me = my then (before me).length else -1, before k,
    (List.range n).map fun i => if i < k ∧ node i = my then ((before i).length : Int) else -1⟩

theorem localStep_localsUpTo (hk : k < n) (hid : id k = .ok (node k)) (hpos : 0 ≤ node k) :
    localStep id my me (localsUpTo node my n me k) k = .ok (localsUpTo node my n me (k + 1)) := by
  rw [localStep, hid]
  simp only [if_neg (Int.not_lt.2 hpos)]
  by_cases hmy : node k = my
  · rw [if_pos hmy]
    refine congrArg Except.ok ?_
    unfold localsUpTo
    rw [LocalProcs.mk.injEq]
    refine ⟨?_, ?_, ?_⟩
    · by_cases hme : k = me
      · subst hme
        simp [hmy]
      · have hlt : me < k + 1 ↔ me < k := by omega
        simp only [if_neg hme, hlt]
    · simp [range_succ, hmy]
    · refine ext_getElem? fun i => ?_
      rw [List.getElem?_set, List.getElem?_map, List.getElem?_map, length_map,
        length_range]
      by_cases hik : k = i
      · subst hik
        simp [hk, hmy]
      · rw [if_neg hik]
        by_cases hin : i < n
        · have hlt : i < k + 1 ↔ i < k := by omega
          simp only [List.getElem?_range hin, Option.map_some, hlt]
        · have hnone : (List.range n)[i]? = none := by simpa using hin
          rw [hnone]
          rfl
  · rw [if_neg hmy]
    refine congrArg Except.ok ?_
    have hlt : ∀ i, (i < k + 1 ∧ node i = my) ↔ (i < k ∧ node i = my) := by
      intro i
      refine ⟨fun ⟨hi, hn⟩ => ⟨?_, hn⟩, fun ⟨hi, hn⟩ => ⟨by omega, hn⟩⟩
      rcases Nat.lt_succ_iff_lt_or_eq.1 hi with hi | rfl
      · exact hi
      · exact absurd hn hmy
    have hbefore : (List.range (k + 1)).filter (fun j => decide (node j = my)) =
        (List.range k).filter fun j => decide (node j = my) := by
      rw [range_succ, filter_append, filter_singleton, decide_eq_false hmy, cond_false,
        append_nil]
    simp only [localsUpTo, hlt, hbefore]

theorem localLoop_ok (hn : Numbered id node k) (hk : k ≤ n) :
    (List.range k).foldlM (localStep id my me) ⟨-1, [], List.replicate n (-1)⟩ =
      .ok (localsUpTo node my n me k) := by
  induction k with
  | zero => simp [localsUpTo, pure, Except.pure, map_const']
  | succ k ih =>
    obtain ⟨hid, hpos⟩ := hn k (Nat.lt_succ_self k)
    rw [foldlM_range_succ, ih (fun i hi => hn i (by omega)) (by omega)]
    exact localStep_localsUpTo hk hid hpos

theorem findLocal_ok (hn : Numbered id node n) (hme : me < n) :
    findLocal id n me = .ok (localsUpTo node (node me) n me n) := by
  rw [findLocal, (hn me hme).1]
  simp only [if_pos (hn me hme).2]
  exact localLoop_ok hn (Nat.le_refl n)

theorem findLocal_error (hn : Numbered id node k) (hk : k < n) (hme : id me = .ok my)
    (hpos : 0 ≤ my) {b : Int} (hid : id k = .ok b) (hneg : b < 0) :
    findLocal id n me = .error .error := by
  rw [findLocal, hme]
  simp only [if_pos hpos]
  refine foldlM_range_error hk (localLoop_ok hn (Nat.le_of_lt hk)) ?_
  rw [localStep, hid]
  simp only [if_pos hneg]

theorem findLocal_assertion (hn : Numbered id node k) (hk : k < n) (hme : id me = .ok my)
    (hpos : 0 ≤ my) (hid : id k = .error .assertion) :
    findLocal id n me = .error .assertion := by
  rw [findLocal, hme]
  simp only [if_pos hpos]
  refine foldlM_range_error hk (localLoop_ok hn (Nat.le_of_lt hk)) ?_
  rw [localStep, hid]

/-! ## The roots -/

structure ExternalOk (node : Nat → Int) (num : Int) (me k : Nat) (q : ExternalProcs) : Prop where
  externalRank : q.externalRank =
    if me < k ∧ IsLeader node me then ((leaders node me).length : Int) else -1
  externalRanks : q.externalRanks = leaders node k
  internodeTable : q.internodeTable = (List.range k).map fun i => (classIndex node i : Int)
  nodes_length : q.nodes.length = num.toNat
  nodes : ∀ j < k, q.nodes[(node j).toNat]? = some (classIndex node j : Int)
  free : ∀ b < num.toNat, (∀ j < k, (node j).toNat ≠ b) → q.nodes[b]? = some (-1)

theorem ExternalOk.step {q : ExternalProcs} (h : ExternalOk node num me k q)
    (hid : id k = .ok (node k)) (hpos : ∀ i ≤ k, 0 ≤ node i) (hlt : node k < num) :
    ∃ q', externalStep id num me q k = .ok q' ∧ ExternalOk node num me (k + 1) q' := by
  have hposk := hpos k (Nat.le_refl k)
  have hinj : ∀ j < k, (node j).toNat = (node k).toNat → node j = node k := by
    intro j hj heq
    have := hpos j (Nat.le_of_lt hj)
    omega
  rw [externalStep, hid]
  simp only [if_neg (Int.not_lt.2 hposk), if_pos hlt]
  by_cases hl : IsLeader node k
  · have hfree := h.free (node k).toNat (by omega) fun j hj heq => hl j hj (hinj j hj heq)
    rw [hfree]
    refine ⟨_, rfl, ?_, ?_, ?_, ?_, fun j hj => ?_, fun b hb hj => ?_⟩
    · rw [h.externalRank, h.externalRanks]
      by_cases hme : k = me
      · subst hme
        rw [if_pos rfl, if_pos ⟨Nat.lt_succ_self k, hl⟩]
      · have : me < k + 1 ↔ me < k := by omega
        simp only [if_neg hme, this]
    · rw [h.externalRanks, leaders_succ_of_isLeader hl]
    · rw [h.internodeTable, h.externalRanks, range_succ, map_append, map_singleton,
        hl.classIndex_eq]
    · rw [length_set, h.nodes_length]
    · rw [List.getElem?_set, h.nodes_length, h.externalRanks]
      rcases Nat.lt_succ_iff_lt_or_eq.1 hj with hj | rfl
      · rw [if_neg fun heq => hl j hj (hinj j hj heq.symm)]
        exact h.nodes j hj
      · rw [if_pos rfl, if_pos (by omega), hl.classIndex_eq]
    · rw [List.getElem?_set, if_neg (hj k (Nat.lt_succ_self k))]
      exact h.free b hb fun j hjk => hj j (by omega)
  · obtain ⟨j, hj, hkey⟩ := exists_of_not_isLeader hl
    have hroot : q.nodes[(node k).toNat]? = some (classIndex node k : Int) := by
      rw [← hkey, h.nodes j hj, classIndex_congr hkey]
    rw [hroot]
    have hne : (classIndex node k : Int) ≠ -1 := by omega
    simp only [if_neg hne]
    refine ⟨_, rfl, ?_, ?_, ?_, h.nodes_length, fun i hi => ?_, fun b hb hi => ?_⟩
    · have : (me < k + 1 ∧ IsLeader node me) ↔ (me < k ∧ IsLeader node me) := by
        refine ⟨fun ⟨hlt, hm⟩ => ⟨?_, hm⟩, fun ⟨hlt, hm⟩ => ⟨by omega, hm⟩⟩
        rcases Nat.lt_succ_iff_lt_or_eq.1 hlt with hlt | rfl
        · exact hlt
        · exact absurd hm hl
      simp only [h.externalRank, this]
    · simp only [h.externalRanks, leaders_succ_of_not hl]
    · simp only [h.internodeTable, range_succ, map_append, map_singleton]
    · rcases Nat.lt_succ_iff_lt_or_eq.1 hi with hi | rfl
      · exact h.nodes i hi
      · exact hroot
    · exact h.free b hb fun i hik => hi i (by omega)

theorem externalLoop_ok (hn : Numbered id node k) (hlt : ∀ i < k, node i < num) :
    ∃ q, (List.range k).foldlM (externalStep id num me)
      ⟨-1, [], [], List.replicate num.toNat (-1)⟩ = .ok q ∧ ExternalOk node num me k q := by
  induction k with
  | zero =>
    refine ⟨_, rfl, by simp, rfl, rfl, length_replicate, nofun, fun b hb _ => ?_⟩
    rw [List.getElem?_replicate, if_pos hb]
  | succ k ih =>
    obtain ⟨q, hq, hok⟩ := ih (fun i hi => hn i (by omega)) fun i hi => hlt i (by omega)
    obtain ⟨q', hstep, hok'⟩ := hok.step (hn k (Nat.lt_succ_self k)).1
      (fun i hi => (hn i (by omega)).2) (hlt k (Nat.lt_succ_self k))
    rw [foldlM_range_succ, hq]
    exact ⟨q', hstep, hok'⟩

theorem findExternal_ok (hn : Numbered id node n) (hlt : ∀ i < n, node i < num) :
    ∃ q, findExternal id (.ok num) n me = .ok q ∧ ExternalOk node num me n q :=
  externalLoop_ok hn hlt

theorem findExternal_assertion (hn : Numbered id node n) (hlt : ∀ i < k, node i < num)
    (hk : k < n) (hge : num ≤ node k) : findExternal id (.ok num) n me = .error .assertion := by
  obtain ⟨q, hq, -⟩ : ∃ q, (List.range k).foldlM (externalStep id num me)
      ⟨-1, [], [], List.replicate num.toNat (-1)⟩ = .ok q ∧ ExternalOk node num me k q :=
    externalLoop_ok (fun i hi => hn i (by omega)) hlt
  refine foldlM_range_error hk hq ?_
  obtain ⟨hid, hpos⟩ := hn k hk
  rw [externalStep, hid]
  simp only [if_neg (Int.not_lt.2 hpos), if_neg (Int.not_lt.2 hge)]

/-! ## Consecutive ranks -/

theorem consecutiveFrom_iff {d : Nat} (hstep : (leaders node (k + 1)).length = classIndex node k + 1) :
    consecutiveFrom (classIndex node k)
        ((List.range d).map fun j => (classIndex node (k + 1 + j) : Int)) = true ↔
      ∀ j < d, node (k + 1 + j) = node (k + j) ∨ IsLeader node (k + 1 + j) := by
  induction d generalizing k with
  | zero => simp [consecutiveFrom]
  | succ d ih =>
    have hshift : (List.range d).map ((fun j => (classIndex node (k + 1 + j) : Int)) ∘ Nat.succ) =
        (List.range d).map fun j => (classIndex node (k + 1 + 1 + j) : Int) := by
      refine map_congr_left fun j _ => ?_
      rw [comp_apply, show k + 1 + j.succ = k + 1 + 1 + j by omega]
    have hcases : (∀ j < d + 1, node (k + 1 + j) = node (k + j) ∨ IsLeader node (k + 1 + j)) ↔
        (node (k + 1) = node k ∨ IsLeader node (k + 1)) ∧
          ∀ j < d, node (k + 1 + 1 + j) = node (k + 1 + j) ∨ IsLeader node (k + 1 + 1 + j) := by
      constructor
      · intro h
        refine ⟨h 0 (by omega), fun j hj => ?_⟩
        have := h (j + 1) (by omega)
        rwa [show k + 1 + (j + 1) = k + 1 + 1 + j by omega,
          show k + (j + 1) = k + 1 + j by omega] at this
      · rintro ⟨h0, h⟩ j hj
        cases j with
        | zero => exact h0
        | succ j =>
          have := h j (by omega)
          rwa [show k + 1 + (j + 1) = k + 1 + 1 + j by omega,
            show k + (j + 1) = k + 1 + j by omega]
    rw [range_succ_eq_map, map_cons, map_map, hshift, consecutiveFrom, hcases,
      Nat.add_zero]
    by_cases hl : IsLeader node (k + 1)
    · have hci : classIndex node (k + 1) = classIndex node k + 1 := by
        rw [hl.classIndex_eq, hstep]
      have hnext : (leaders node (k + 1 + 1)).length = classIndex node (k + 1) + 1 := by
        rw [leaders_succ_of_isLeader hl, length_append, hstep, hci]
        rfl
      rw [if_pos (by omega), ← ih hnext, hci]
      simp [hl]
    · have hlt := classIndex_lt_of_not_isLeader hl
      rw [if_neg (by omega)]
      by_cases hkey : node (k + 1) = node k
      · have hci : classIndex node (k + 1) = classIndex node k := classIndex_congr hkey
        have hnext : (leaders node (k + 1 + 1)).length = classIndex node (k + 1) + 1 := by
          rw [leaders_succ_of_not hl, hstep, hci]
        rw [if_neg (by simp [hci]), ← ih hnext, hci]
        simp [hkey]
      · have hci : classIndex node (k + 1) ≠ classIndex node k := fun h =>
          hkey (classIndex_inj.1 h)
        rw [if_pos (by omega)]
        simp [hkey, hl]

theorem consecutive_iff :
    consecutiveFrom 0 ((List.range n).map fun i => (classIndex node i : Int)) = true ↔
      Contiguous node n := by
  rw [contiguous_iff]
  cases n with
  | zero => simp [consecutiveFrom]
  | succ n =>
    have hl : IsLeader node 0 := fun j hj => nomatch hj
    have hzero : classIndex node 0 = 0 := hl.classIndex_eq
    have hone : (leaders node (0 + 1)).length = classIndex node 0 + 1 := by
      rw [leaders_succ_of_isLeader hl, hzero]
      rfl
    have hshift : (List.range n).map ((fun i => (classIndex node i : Int)) ∘ Nat.succ) =
        (List.range n).map fun j => (classIndex node (0 + 1 + j) : Int) := by
      refine map_congr_left fun j _ => ?_
      rw [comp_apply, show 0 + 1 + j = j.succ by omega]
    rw [range_succ_eq_map, map_cons, map_map, hshift, consecutiveFrom, hzero]
    have h := @consecutiveFrom_iff node 0 n hone
    rw [hzero] at h
    simp only [Int.natCast_zero] at h ⊢
    rw [if_neg (by omega), if_neg (by simp), h]
    refine forall_congr' fun i => ?_
    rw [show 0 + 1 + i = i + 1 by omega, Nat.zero_add, Nat.succ_lt_succ_iff]

end tables

/-! ## The tables of a parent -/

section outcome

/-- What the tables of a parent have to be for the classes of processes on the same node: the roots
are the lowest ranks of the nodes, every process has the place of the root of its node, the two tables
for the own node are inverse to each other, and the ranks of every node are consecutive if the
communicator says so. -/
structure Tables (node : Nat → Int) (n me : Nat) (p : Parent) : Prop where
  externalRanks : p.externals.externalRanks = (List.range n).filter fun i => ∀ j < i, node j ≠ node i
  internodeTable_length : p.externals.internodeTable.length = n
  internodeTable : ∀ i < n, ∃ k : Nat, p.externals.internodeTable[i]? = some (k : Int) ∧
    ∃ root, p.externals.externalRanks[k]? = some root ∧ node root = node i ∧
      ∀ j < root, node j ≠ node i
  externalRank : ∀ k : Nat, p.externals.externalRank = k ↔
    p.externals.externalRanks[k]? = some me
  localRanks : p.locals.localRanks = (List.range n).filter fun i => node i = node me
  intranodeTable_length : p.locals.intranodeTable.length = n
  intranodeTable : ∀ k i : Nat, p.locals.localRanks[k]? = some i ↔
    p.locals.intranodeTable[i]? = some (k : Int)
  intranodeTable_other : ∀ i < n, node i ≠ node me → p.locals.intranodeTable[i]? = some (-1)
  localRank : ∃ k : Nat, p.locals.localRank = k ∧ p.locals.localRanks[k]? = some me
  isNodeConsecutive : commIsNodeConsecutive (some p) = true ↔
    ∀ i j k, i < j → j < k → k < n → node i = node k → node j = node i

variable {aware : Bool} {v : View} {c : List Member} {node : Nat → Int} {num : Int} {me : Nat}

theorem tables_of_loops {q : ExternalProcs} {a b : Option (List Nat × Int)} {n : Nat} (hme : me < n)
    (hq : ExternalOk node num me n q) :
    Tables node n me ⟨localsUpTo node (node me) n me n, q, a, b⟩ := by
  have htable : ∀ i < n, q.internodeTable[i]? = some (classIndex node i : Int) := by
    intro i hi
    rw [hq.internodeTable, List.getElem?_map, List.getElem?_range hi]
    rfl
  have hlocal : ∀ i < n, (localsUpTo node (node me) n me n).intranodeTable[i]? =
      some (if node i = node me then
        (((List.range i).filter fun j => node j = node me).length : Int) else -1) := by
    intro i hi
    simp only [localsUpTo, List.getElem?_map, List.getElem?_range hi, Option.map_some, hi, true_and]
  refine ⟨?_, ?_, fun i hi => ?_, fun k => ?_, ?_, ?_, fun k i => ?_, fun i hi hne => ?_, ?_, ?_⟩
  · exact hq.externalRanks
  · rw [hq.internodeTable, length_map, length_range]
  · refine ⟨_, htable i hi, leader node i, ?_, key_leader, fun j hj => ?_⟩
    · rw [hq.externalRanks]
      exact leaders_classIndex hi
    · rw [← (key_leader : node (leader node i) = node i)]
      exact isLeader_leader j hj
  · show q.externalRank = k ↔ q.externalRanks[k]? = some me
    have hplace := getElem?_filter_range (p := fun i => decide (IsLeader node i)) (n := n) (k := k)
      (i := me)
    rw [decide_eq_true_iff] at hplace
    rw [hq.externalRank, hq.externalRanks]
    refine Iff.trans ?_ hplace.symm
    by_cases hl : IsLeader node me
    · rw [if_pos ⟨hme, hl⟩, Int.natCast_inj]
      exact ⟨fun h => ⟨hme, hl, h⟩, fun ⟨_, _, h⟩ => h⟩
    · rw [if_neg fun h => hl h.2]
      exact iff_of_false (by omega) fun h => hl h.2.1
  · rfl
  · simp [localsUpTo]
  · show ((List.range n).filter fun j => node j = node me)[k]? = some i ↔ _
    rw [getElem?_filter_range, decide_eq_true_iff]
    constructor
    · rintro ⟨hi, hn, hlen⟩
      rw [hlocal i hi, if_pos hn, hlen]
    · intro h
      have hi : i < n := by
        have := (List.getElem?_eq_some_iff.1 h).1
        simpa [localsUpTo] using this
      rw [hlocal i hi] at h
      by_cases hn : node i = node me
      · rw [if_pos hn, Option.some.injEq, Int.natCast_inj] at h
        exact ⟨hi, hn, h⟩
      · rw [if_neg hn, Option.some.injEq] at h
        omega
  · rw [hlocal i hi, if_neg hne]
  · refine ⟨((List.range me).filter fun j => node j = node me).length, ?_, ?_⟩
    · simp only [localsUpTo, hme, and_self, if_true]
    · exact getElem?_filter_range.2 ⟨hme, by simp, rfl⟩
  · show consecutiveFrom 0 q.internodeTable = true ↔ _
    rw [hq.internodeTable]
    exact consecutive_iff

def Apart (node : Nat → Int) (n : Nat) : Prop := ∀ i < n, ∀ j < i, node j ≠ node i

theorem create_of_known (hn : Numbered (nodeId aware v c me) node c.length)
    (hnum : numNodes aware v c me = .ok num) (hlt : ∀ i < c.length, node i < num)
    (hme : me < c.length) :
    (Apart node c.length → commCreateSubcomms aware v c me = .ok none) ∧
      (¬ Apart node c.length → ∃ p, commCreateSubcomms aware v c me = .ok (some p) ∧
        Tables node c.length me p) := by
  obtain ⟨q, hfind, hq⟩ := findExternal_ok hn hlt
  have hmem : me ∈ (localsUpTo node (node me) c.length me c.length).localRanks :=
    mem_filter.2 ⟨mem_range.2 hme, by simp⟩
  have hlocals : 0 < (localsUpTo node (node me) c.length me c.length).localRanks.length :=
    length_pos_of_mem hmem
  have hroot : 1 < (localsUpTo node (node me) c.length me c.length).localRanks.length ∨
      0 ≤ q.externalRank := by
    rw [hq.externalRank]
    by_cases hl : IsLeader node me
    · rw [if_pos ⟨hme, hl⟩]
      exact .inr (by omega)
    -- a process that is not the root of its node is not alone there
    · obtain ⟨j, hj, hkey⟩ := exists_of_not_isLeader hl
      refine .inl ?_
      have hj : j ∈ (localsUpTo node (node me) c.length me c.length).localRanks :=
        mem_filter.2 ⟨mem_range.2 (by omega), by simp [hkey]⟩
      refine Nat.lt_of_not_le fun hle => ?_
      obtain ⟨x, hx⟩ := length_eq_one_iff.1 (Nat.le_antisymm hle hlocals)
      rw [hx, mem_singleton] at hj hmem
      omega
  have happart : q.externalRanks.length = c.length ↔ Apart node c.length := by
    rw [hq.externalRanks]
    exact length_leaders_eq
  unfold commCreateSubcomms
  rw [findLocal_ok hn hme, hnum, hfind]
  simp only [if_pos (And.intro hlocals hroot)]
  refine ⟨fun h => ?_, fun h => ?_⟩
  · rw [if_pos (happart.2 h)]
    refine if_pos ?_
    refine Nat.le_antisymm (Nat.le_of_not_lt fun hlt => ?_) hlocals
    -- two processes on one node contradict the numbers
    have hnodup : (localsUpTo node (node me) c.length me c.length).localRanks.Nodup :=
      nodup_range.filter _
    match hl : (localsUpTo node (node me) c.length me c.length).localRanks with
    | [] | [_] => simp [hl] at hlt
    | x :: y :: rest =>
      have hx : x ∈ (localsUpTo node (node me) c.length me c.length).localRanks := by simp [hl]
      have hy : y ∈ (localsUpTo node (node me) c.length me c.length).localRanks := by simp [hl]
      have hxy : x ≠ y := by
        rw [hl] at hnodup
        exact fun heq => (nodup_cons.1 hnodup).1 (heq ▸ mem_cons_self)
      obtain ⟨hxn, hx⟩ := mem_filter.1 hx
      obtain ⟨hyn, hy⟩ := mem_filter.1 hy
      rw [decide_eq_true_iff] at hx hy
      rw [mem_range] at hxn hyn
      rcases Nat.lt_or_gt_of_ne hxy with hlt | hlt
      · exact h y hyn x hlt (hx.trans hy.symm)
      · exact h x hxn y hlt (hy.trans hx.symm)
  · rw [if_neg fun heq => h (happart.1 heq)]
    exact ⟨_, rfl, tables_of_loops hme hq⟩

end outcome

end PsMpi.Topo
