import PsMpi.Csel.PruneOk
import Mathlib.Algebra.Order.Ring.Int

/-!
# All ranks select the same algorithm

The operators of a selection tree ask every rank about its own arguments.
-/

open List Option

namespace PsMpi.Csel

/-! ## Calls that match -/

section calls

def message (count : Int) (t : Datatype) : List Basic :=
  (List.replicate count.toNat t.signature).flatten

def Carries (count : Int) (t : Datatype) (msg : List Basic) : Prop :=
  0 ≤ count ∧ message count t = msg

theorem Carries.bytes {count : Int} {t : Datatype} {msg : List Basic} (h : Carries count t msg) :
    t.size * count = (msg.map fun b => (b.size : Int)).sum := by
  obtain ⟨hpos, rfl⟩ := h
  obtain ⟨n, rfl⟩ := Int.eq_ofNat_of_zero_le hpos
  rw [message, Int.toNat_natCast, map_flatten, sum_flatten, map_replicate,
    map_replicate, sum_replicate, Datatype.size, nsmul_eq_mul, mul_comm]

/-- A call of a collective operation: the arguments of the ranks of the local group and of the remote
group (the same one in an intracommunicator), and what the ranks know about the communicator. -/
structure Call where
  collType : CollType
  intra : Bool
  n : Nat
  m : Nat
  args : Nat → Args
  remote : Nat → Args
  comm : Nat → Comm
  threaded : Nat → Bool

def SameReduction (a b : Args) : Prop :=
  a.count = b.count ∧ a.datatype = b.datatype ∧ a.op = b.op

def sendsGather (intra : Bool) (i : Nat) (a : Args) : Prop :=
  if intra then a.root ≠ .rank i ∨ a.inPlace = false else ∃ r, a.root = .rank r

def receivesGather (intra : Bool) (i : Nat) (a : Args) : Prop :=
  if intra then a.root = .rank i else a.root = .root

def Call.ArgsMatch (q : Call) : Prop :=
  match q.collType.coll with
  | .allreduce => ∀ i < q.n, ∀ j < q.n, SameReduction (q.args i) (q.args j)
  | .reduce => ∀ i < q.n, ∀ j < q.n, (q.args i).root ≠ .procNull → (q.args j).root ≠ .procNull →
      SameReduction (q.args i) (q.args j)
  | .reduceScatter => ∀ i < q.n, ∀ j < q.n, (q.args i).recvcounts = (q.args j).recvcounts ∧
      (q.args i).datatype = (q.args j).datatype ∧ (q.args i).op = (q.args j).op
  | .reduceScatterBlock => ∀ i < q.n, ∀ j < q.n, (q.args i).recvcount = (q.args j).recvcount ∧
      (q.args i).datatype = (q.args j).datatype ∧ (q.args i).op = (q.args j).op
  | .bcast => ∃ msg,
      (∀ i < q.n, (q.args i).root ≠ .procNull →
        Carries (q.args i).count (q.args i).datatype msg) ∧
      ∀ j < q.m, (q.remote j).root ≠ .procNull →
        Carries (q.remote j).count (q.remote j).datatype msg
  | .alltoall => (∀ i < q.n, ∀ j < q.n, (q.args i).inPlace = (q.args j).inPlace) ∧
      ∃ there back,
        (∀ i < q.n, ((q.args i).inPlace = false →
          Carries (q.args i).sendcount (q.args i).sendtype there) ∧
          Carries (q.args i).recvcount (q.args i).recvtype back) ∧
        ∀ j < q.m, ((q.remote j).inPlace = false →
          Carries (q.remote j).sendcount (q.remote j).sendtype back) ∧
          Carries (q.remote j).recvcount (q.remote j).recvtype there
  | .alltoallv => (∀ i < q.n, ∀ j < q.n, (q.args i).inPlace = (q.args j).inPlace) ∧
      ∀ i < q.n, ∀ j < q.m, (q.args i).inPlace = false → ∃ sent received msg,
        (q.args i).sendcounts[j]? = some sent ∧ (q.remote j).recvcounts[i]? = some received ∧
          Carries sent (q.args i).sendtype msg ∧ Carries received (q.remote j).recvtype msg
  | .alltoallw => (∀ i < q.n, ∀ j < q.n, (q.args i).inPlace = (q.args j).inPlace) ∧
      ∀ i < q.n, ∀ j < q.m, (q.args i).inPlace = false → ∃ sent sendtype received,
        (q.args i).sendcounts[j]? = some sent ∧ (q.args i).sendtypes[j]? = some sendtype ∧
          (q.remote j).recvcounts[i]? = some received ∧ 0 ≤ sent ∧ 0 ≤ received
  | .allgather => ∃ msg,
      (∀ i < q.n, Carries (q.args i).recvcount (q.args i).recvtype msg) ∧
      ∀ j < q.m, (q.remote j).inPlace = false →
        Carries (q.remote j).sendcount (q.remote j).sendtype msg
  | .allgatherv => ∃ msgs : Nat → List Basic,
      (∀ i < q.n, (q.args i).recvcounts.length = q.m ∧
        ∀ (j : Nat) (count : Int), (q.args i).recvcounts[j]? = some count →
          Carries count (q.args i).recvtype (msgs j)) ∧
      ∀ j < q.m, (q.remote j).inPlace = false →
        Carries (q.remote j).sendcount (q.remote j).sendtype (msgs j)
  | .gather => ∃ msg, ∀ i < q.n,
      (sendsGather q.intra i (q.args i) → Carries (q.args i).sendcount (q.args i).sendtype msg) ∧
      (receivesGather q.intra i (q.args i) → Carries (q.args i).recvcount (q.args i).recvtype msg)
  | .scatter => ∃ msg, ∀ i < q.n,
      (sendsGather q.intra i (q.args i) → Carries (q.args i).recvcount (q.args i).recvtype msg) ∧
      (receivesGather q.intra i (q.args i) → Carries (q.args i).sendcount (q.args i).sendtype msg)
  | _ => True

/-- Two ranks know the same about a communicator; the communicators for the nodes may differ, but not
in whether all processes are on one node. -/
structure SameComm (a b : Comm) : Prop where
  intra : a.intra = b.intra
  localSize : a.localSize = b.localSize
  remoteSize : a.remoteSize = b.remoteSize
  nodeCommSize : a.nodeCommSize = some a.localSize ↔ b.nodeCommSize = some b.localSize
  hierarchyKind : a.hierarchyKind = b.hierarchyKind
  isNodeConsecutive : a.isNodeConsecutive = b.isNodeConsecutive
  nodeCount : a.nodeCount = b.nodeCount
  pof2 : a.pof2 = b.pof2

structure Call.Matches (q : Call) : Prop where
  args : q.ArgsMatch
  comm : ∀ i < q.n, ∀ j < q.n, SameComm (q.comm i) (q.comm j)
  intra : ∀ i < q.n, (q.comm i).intra = q.intra
  root : q.intra = true → ∀ i < q.n, ∃ r, (q.args i).root = .rank r

def Call.test (q : Call) (i : Nat) (op : Op) : Option Bool :=
  searchTest (q.threaded i) (q.comm i) q.collType (q.args i) op

def Call.search {C : Type} (q : Call) (i : Nat) (t : Tree C) : Option (Option C) :=
  Csel.search (q.threaded i) (q.comm i) q.collType (q.args i) t

def Call.Meets {C : Type} (q : Call) (i : Nat) (t : Tree C) (op : Op) : Prop :=
  Csel.Meets (q.threaded i) (q.comm i) q.collType (q.args i) t op

def Independent (intra : Bool) (coll : Coll) (inPlace : Bool) : Op → Prop
  | .isMultiThreaded _ => False
  | .avgMsgSizeLe _ => SizeIndependent
  | .avgMsgSizeLt _ => SizeIndependent
  | .totalMsgSizeLe _ => TotalIndependent
  | .totalMsgSizeLt _ => TotalIndependent
  | .countLe _ => CountIndependent
  | .countLtPow2 => CountIndependent
  | .isCommutative _ => ¬ (coll = .reduce ∧ intra = false)
  | .isOpBuiltIn _ => ¬ (coll = .reduce ∧ intra = false)
  | _ => True
where
  /-- The size of a message, where all ranks describe the same one. -/
  SizeIndependent : Prop :=
    coll ∉ [.bcast, .reduce, .alltoall] ∨ coll ∈ [.bcast, .reduce] ∧ intra = true ∨
      coll = .alltoall ∧ inPlace = false
  /-- The total size, where it is one for all ranks. -/
  TotalIndependent : Prop :=
    SizeIndependent ∧ coll ∉ [.alltoallv, .alltoallw, .gather, .scatter]
  /-- The count, where all ranks have to give the same one. -/
  CountIndependent : Prop :=
    coll ∉ [.bcast, .reduce, .allgather, .allgatherv] ∨ coll = .reduce ∧ intra = true

end calls

/-! ## Outcomes -/

section outcomes

variable {q : Call} {r s : Nat} {op : Op}

theorem bytes_sum {t : Datatype} {l : List Int} {m : Nat → List Basic}
    (h : ∀ (j : Nat) (count : Int), l[j]? = some count → Carries count t (m j)) :
    t.size * l.sum =
      ((List.range l.length).map fun j => ((m j).map fun b => (b.size : Int)).sum).sum := by
  induction l generalizing m with
  | nil => simp
  | cons count l ih =>
    have hfirst := (h 0 count rfl).bytes
    have hrest := ih (m := fun j => m (j + 1)) fun j c hj => h (j + 1) c hj
    rw [List.sum_cons, mul_add, hfirst, hrest, length_cons, range_succ_eq_map,
      List.map_cons, List.sum_cons, List.map_map]
    rfl

theorem Call.Matches.of_coll (hm : q.Matches) {coll : Coll} (hcoll : q.collType.coll = coll) :
    Call.ArgsMatch { q with collType := ⟨coll, q.collType.nonblocking⟩ } := by
  rw [← hcoll]
  exact hm.args

theorem Call.Matches.ne_procNull (hm : q.Matches) (hi : q.intra = true) (hr : r < q.n) :
    (q.args r).root ≠ .procNull := by
  obtain ⟨k, hk⟩ := hm.root hi r hr
  rw [hk]
  nofun

theorem Call.Matches.bcast_bytes (hm : q.Matches) (hcoll : q.collType.coll = .bcast)
    (hi : q.intra = true) (hr : r < q.n) (hs : s < q.n) :
    (q.args r).datatype.size * (q.args r).count = (q.args s).datatype.size * (q.args s).count := by
  obtain ⟨msg, hmsg, -⟩ := hm.of_coll hcoll
  rw [(hmsg r hr (hm.ne_procNull hi hr)).bytes, (hmsg s hs (hm.ne_procNull hi hs)).bytes]

theorem Call.Matches.reduce_same (hm : q.Matches) (hcoll : q.collType.coll = .reduce)
    (hi : q.intra = true) (hr : r < q.n) (hs : s < q.n) :
    SameReduction (q.args r) (q.args s) :=
  hm.of_coll hcoll r hr s hs (hm.ne_procNull hi hr) (hm.ne_procNull hi hs)

theorem Call.Matches.allreduce_same (hm : q.Matches) (hcoll : q.collType.coll = .allreduce)
    (hr : r < q.n) (hs : s < q.n) : SameReduction (q.args r) (q.args s) :=
  hm.of_coll hcoll r hr s hs

theorem Call.Matches.reduceScatter_same (hm : q.Matches)
    (hcoll : q.collType.coll = .reduceScatter) (hr : r < q.n) (hs : s < q.n) :
    (q.args r).recvcounts = (q.args s).recvcounts ∧ (q.args r).datatype = (q.args s).datatype ∧
      (q.args r).op = (q.args s).op :=
  hm.of_coll hcoll r hr s hs

theorem Call.Matches.reduceScatterBlock_same (hm : q.Matches)
    (hcoll : q.collType.coll = .reduceScatterBlock) (hr : r < q.n) (hs : s < q.n) :
    (q.args r).recvcount = (q.args s).recvcount ∧ (q.args r).datatype = (q.args s).datatype ∧
      (q.args r).op = (q.args s).op :=
  hm.of_coll hcoll r hr s hs

theorem Call.Matches.alltoall_bytes (hm : q.Matches) (hcoll : q.collType.coll = .alltoall)
    (hp : (q.args r).inPlace = false) (hr : r < q.n) (hs : s < q.n) :
    (q.args r).sendtype.size * (q.args r).sendcount =
      (q.args s).sendtype.size * (q.args s).sendcount := by
  obtain ⟨hsame, there, back, hmsg, -⟩ := hm.of_coll hcoll
  rw [((hmsg r hr).1 hp).bytes, ((hmsg s hs).1 ((hsame s hs r hr).trans hp)).bytes]

theorem Call.Matches.localSize (hm : q.Matches) (hr : r < q.n) (hs : s < q.n) :
    (q.comm r).localSize = (q.comm s).localSize := (hm.comm r hr s hs).localSize

theorem Call.Matches.avg_eq (hm : q.Matches) (hr : r < q.n) (hs : s < q.n)
    (hind : Independent.SizeIndependent q.intra q.collType.coll (q.args r).inPlace) :
    getAvgMsgsize q.collType (q.args r) = getAvgMsgsize q.collType (q.args s) := by
  unfold getAvgMsgsize
  cases hcoll : q.collType.coll with
  | allreduce =>
    obtain ⟨hc, ht, -⟩ := hm.allreduce_same hcoll hr hs
    simp only [hc, ht]
  | bcast =>
    have hi : q.intra = true := by simpa [Independent.SizeIndependent, hcoll] using hind
    exact congrArg some (hm.bcast_bytes hcoll hi hr hs)
  | reduce =>
    have hi : q.intra = true := by simpa [Independent.SizeIndependent, hcoll] using hind
    obtain ⟨hc, ht, -⟩ := hm.reduce_same hcoll hi hr hs
    simp only [hc, ht]
  | alltoall =>
    have hp : (q.args r).inPlace = false := by
      simpa [Independent.SizeIndependent, hcoll] using hind
    exact congrArg some (hm.alltoall_bytes hcoll hp hr hs)
  | _ => rfl

theorem Call.Matches.total_eq (hm : q.Matches) (hr : r < q.n) (hs : s < q.n)
    (hind : Independent.TotalIndependent q.intra q.collType.coll (q.args r).inPlace) :
    getTotalMsgsize (q.comm r) q.collType (q.args r) =
      getTotalMsgsize (q.comm s) q.collType (q.args s) := by
  have hn := hm.localSize hr hs
  obtain ⟨hsize, hnot⟩ := hind
  unfold getTotalMsgsize
  rw [hn]
  cases hcoll : q.collType.coll with
  | allreduce =>
    obtain ⟨hc, ht, -⟩ := hm.allreduce_same hcoll hr hs
    simp only [hc, ht]
  | bcast =>
    have hi : q.intra = true := by simpa [Independent.SizeIndependent, hcoll] using hsize
    simp only [← mul_assoc, hm.bcast_bytes hcoll hi hr hs]
  | reduce =>
    have hi : q.intra = true := by simpa [Independent.SizeIndependent, hcoll] using hsize
    obtain ⟨hc, ht, -⟩ := hm.reduce_same hcoll hi hr hs
    simp only [hc, ht]
  | alltoall =>
    have hp : (q.args r).inPlace = false := by
      simpa [Independent.SizeIndependent, hcoll] using hsize
    simp only [← mul_assoc, hm.alltoall_bytes hcoll hp hr hs]
  | allgather =>
    obtain ⟨msg, hmsg, -⟩ := hm.of_coll hcoll
    simp only [← mul_assoc, (hmsg r hr).bytes, (hmsg s hs).bytes]
  | allgatherv =>
    obtain ⟨msgs, hmsgs, -⟩ := hm.of_coll hcoll
    obtain ⟨hlr, hmr⟩ := hmsgs r hr
    obtain ⟨hls, hms⟩ := hmsgs s hs
    have htake : ∀ i, (∀ (j : Nat) (count : Int), (q.args i).recvcounts[j]? = some count →
        Carries count (q.args i).recvtype (msgs j)) →
        ∀ (j : Nat) (count : Int), ((q.args i).recvcounts.take (q.comm s).localSize)[j]? =
          some count → Carries count (q.args i).recvtype (msgs j) := by
      intro i hi j count hj
      rw [List.getElem?_take] at hj
      split at hj
      · exact hi j count hj
      · cases hj
    simp only [sumCounts, hlr, hls]
    split
    · simp only [map_some, bytes_sum (htake r hmr), bytes_sum (htake s hms),
        length_take, hlr, hls]
    · rfl
  | reduceScatter =>
    obtain ⟨hc, ht, -⟩ := hm.reduceScatter_same hcoll hr hs
    simp only [hc, ht]
  | reduceScatterBlock =>
    obtain ⟨hc, ht, -⟩ := hm.reduceScatterBlock_same hcoll hr hs
    simp only [hc, ht]
  | alltoallv | alltoallw | gather | scatter => simp [hcoll] at hnot
  | _ => rfl

theorem Call.Matches.count_eq (hm : q.Matches) (hr : r < q.n) (hs : s < q.n)
    (hind : Independent.CountIndependent q.intra q.collType.coll) :
    getCount (q.comm r) q.collType (q.args r) = getCount (q.comm s) q.collType (q.args s) := by
  have hn := hm.localSize hr hs
  unfold getCount
  rw [hn]
  cases hcoll : q.collType.coll with
  | allreduce =>
    obtain ⟨hc, -, -⟩ := hm.allreduce_same hcoll hr hs
    simp only [hc]
  | reduce =>
    have hi : q.intra = true := by simpa [Independent.CountIndependent, hcoll] using hind
    obtain ⟨hc, -, -⟩ := hm.reduce_same hcoll hi hr hs
    simp only [hc]
  | reduceScatter =>
    obtain ⟨hc, -, -⟩ := hm.reduceScatter_same hcoll hr hs
    simp only [hc]
  | reduceScatterBlock =>
    obtain ⟨hc, -, -⟩ := hm.reduceScatterBlock_same hcoll hr hs
    simp only [hc]
  | bcast | allgather | allgatherv => simp [Independent.CountIndependent, hcoll] at hind
  | _ => rfl

theorem Call.Matches.op_eq (hm : q.Matches) (hr : r < q.n) (hs : s < q.n)
    (hind : ¬ (q.collType.coll = .reduce ∧ q.intra = false))
    (hcoll : q.collType.coll ∈ [.allreduce, .reduce, .reduceScatter, .reduceScatterBlock]) :
    (q.args r).op = (q.args s).op := by
  simp only [mem_cons, not_mem_nil, or_false] at hcoll
  rcases hcoll with hcoll | hcoll | hcoll | hcoll
  · exact (hm.allreduce_same hcoll hr hs).2.2
  · have hi : q.intra = true := by simpa [hcoll] using hind
    exact (hm.reduce_same hcoll hi hr hs).2.2
  · exact (hm.reduceScatter_same hcoll hr hs).2.2
  · exact (hm.reduceScatterBlock_same hcoll hr hs).2.2

theorem Call.Matches.inPlace_eq (hm : q.Matches) (hr : r < q.n) (hs : s < q.n) :
    isSendbufInplace q.collType (q.args r) = isSendbufInplace q.collType (q.args s) := by
  unfold isSendbufInplace
  cases hcoll : q.collType.coll with
  | alltoall => exact congrArg some ((hm.of_coll hcoll).1 r hr s hs)
  | alltoallv => exact congrArg some ((hm.of_coll hcoll).1 r hr s hs)
  | alltoallw => exact congrArg some ((hm.of_coll hcoll).1 r hr s hs)
  | _ => rfl

theorem Call.Matches.regular_eq (hm : q.Matches) (hr : r < q.n) (hs : s < q.n) :
    isBlockRegular (q.comm r) q.collType (q.args r) =
      isBlockRegular (q.comm s) q.collType (q.args s) := by
  unfold isBlockRegular
  rw [hm.localSize hr hs]
  cases hcoll : q.collType.coll with
  | reduceScatter => simp only [(hm.reduceScatter_same hcoll hr hs).1]
  | _ => rfl

theorem Call.Matches.test_eq (hm : q.Matches) (hr : r < q.n) (hs : s < q.n)
    (hind : Independent q.intra q.collType.coll (q.args r).inPlace op) :
    q.test r op = q.test s op := by
  have hc := hm.comm r hr s hs
  unfold Call.test
  cases op with
  | isMultiThreaded val => exact hind.elim
  | avgMsgSizeLe val | avgMsgSizeLt val => simp only [searchTest, hm.avg_eq hr hs hind]
  | totalMsgSizeLe val | totalMsgSizeLt val => simp only [searchTest, hm.total_eq hr hs hind]
  | countLe val | countLtPow2 => simp only [searchTest, hm.count_eq hr hs hind, hc.pof2]
  | isSbufInplace val => simp only [searchTest, hm.inPlace_eq hr hs]
  | isBlockRegular val => simp only [searchTest, hm.regular_eq hr hs]
  | isCommutative val =>
    have hop := hm.op_eq hr hs hind
    simp only [searchTest, Csel.isCommutative]
    cases hcoll : q.collType.coll with
    | allreduce | reduce | reduceScatter | reduceScatterBlock => simp only [hop (by simp [hcoll])]
    | _ => rfl
  | isOpBuiltIn val =>
    have hop := hm.op_eq hr hs hind
    simp only [searchTest, Csel.isOpBuiltIn]
    cases hcoll : q.collType.coll with
    | allreduce | reduce => simp only [hop (by simp [hcoll])]
    | _ => rfl
  | commSizeNodeCommSize =>
    show some (_ == _) = some (_ == _)
    rw [Option.some.injEq, Bool.eq_iff_iff, beq_iff_eq, beq_iff_eq]
    exact hc.nodeCommSize
  | commTypeIntra | commTypeInter => simp only [searchTest, hc.intra]
  | commSizeLe | commSizeLt | commSizePow2 => simp only [searchTest, hc.localSize]
  | commHierarchy => simp only [searchTest, hc.hierarchyKind]
  | isNodeConsecutive => simp only [searchTest, hc.isNodeConsecutive]
  | commAvgPpnLe | commAvgPpnLt => simp only [searchTest, hc.localSize, hc.nodeCount]
  | collective | any => rfl

end outcomes

/-! ## Searches -/

section searches

variable {C : Type} {q : Call} {r s : Nat} {t : Tree C}

theorem Call.search_eq (h : ∀ op, q.Meets r t op → q.test r op = q.test s op) :
    q.search r t = q.search s t := by
  induction t with
  | null => rfl
  | container c => rfl
  | node op a b iha ihb =>
    have hop := h op .here
    unfold Call.search at iha ihb ⊢
    unfold Call.test at hop
    rw [Csel.search, Csel.search, ← hop]
    cases htest : searchTest (q.threaded r) (q.comm r) q.collType (q.args r) op with
    | none => rfl
    | some v =>
      cases v with
      | true => exact iha fun o ho => h o (.success htest ho)
      | false => exact ihb fun o ho => h o (.failure htest ho)

theorem Call.test_eq_of_search (hd : (containers t).Nodup) {c : C}
    (hr : q.search r t = some (some c)) (hs : q.search s t = some (some c)) {op : Op}
    (hm : q.Meets r t op) : q.test r op = q.test s op := by
  induction t with
  | null => cases hm
  | container c => cases hm
  | node o a b iha ihb =>
    rw [containers, nodup_append'] at hd
    unfold Call.search at hr hs iha ihb
    rw [Csel.search] at hr hs
    obtain ⟨v, hv, hr⟩ := bind_eq_some_iff.1 hr
    obtain ⟨w, hw, hs⟩ := bind_eq_some_iff.1 hs
    have hvw : v = w := by
      cases v with
      | true =>
        cases w with
        | true => rfl
        | false =>
          exact absurd (mem_containers_of_search hs) (hd.2.2 (mem_containers_of_search hr))
      | false =>
        cases w with
        | false => rfl
        | true =>
          exact absurd (mem_containers_of_search hr) (hd.2.2 (mem_containers_of_search hs))
    subst hvw
    cases hm with
    | here => exact hv.trans hw.symm
    | success ht hm =>
      rw [ht] at hv
      cases hv
      exact iha hd.1 hr hs hm
    | failure ht hm =>
      rw [ht] at hv
      cases hv
      exact ihb hd.2.1 hr hs hm

def Call.SameOutcomes (q : Call) (t : Tree C) : Prop :=
  ∀ r < q.n, ∀ s < q.n, ∀ op, q.Meets r t op →
    ¬ Independent q.intra q.collType.coll (q.args r).inPlace op → q.test r op = q.test s op

/-- If the operators whose outcome may depend on the rank have the same outcome at all ranks where
they come to one, all ranks reach the same container; and if all ranks reach one of the distinct
containers of a tree, only then. -/
theorem ranks_select_same {q : Call} (hm : q.Matches) (t : Tree C) :
    (q.SameOutcomes t → ∀ r < q.n, ∀ s < q.n, q.search r t = q.search s t) ∧
      ((containers t).Nodup → (∀ r < q.n, ∃ c, q.search r t = some (some c)) →
        ((∀ r < q.n, ∀ s < q.n, q.search r t = q.search s t) ↔ q.SameOutcomes t)) := by
  have henough : q.SameOutcomes t → ∀ r < q.n, ∀ s < q.n, q.search r t = q.search s t := by
    intro h r hr s hs
    refine Call.search_eq fun op hop => ?_
    by_cases hind : Independent q.intra q.collType.coll (q.args r).inPlace op
    · exact hm.test_eq hr hs hind
    · exact h r hr s hs op hop hind
  refine ⟨henough, fun hd hfound => ⟨fun hsame r hr s hs op hop _ => ?_, henough⟩⟩
  obtain ⟨c, hc⟩ := hfound r hr
  exact Call.test_eq_of_search hd hc ((hsame r hr s hs).symm.trans hc) hop

end searches

def describe (count : Int) (t : Datatype) : Args :=
  ⟨false, count, t, 0, ⟨[]⟩, 0, ⟨[]⟩, [], [], [], .rank 0, ⟨true, true⟩⟩

/-- A broadcast of two integers of four bytes between two processes: the root describes them as one
value of a datatype with two integers, the other process as two values of a datatype with one. -/
def twoIntegers : Call :=
  let args : Nat → Args := fun i =>
    if i = 0 then describe 1 ⟨[⟨0, 4⟩, ⟨0, 4⟩]⟩ else describe 2 ⟨[⟨0, 4⟩]⟩
  ⟨⟨.bcast, false⟩, true, 2, 2, args, args, fun _ => flatComm 2, fun _ => false⟩

theorem twoIntegers_matches : twoIntegers.Matches := by
  have hcarries : ∀ i < 2, (twoIntegers.args i).root ≠ .procNull →
      Carries (twoIntegers.args i).count (twoIntegers.args i).datatype [⟨0, 4⟩, ⟨0, 4⟩] := by
    intro i hi _
    have hi : i = 0 ∨ i = 1 := by omega
    rcases hi with rfl | rfl
    · exact ⟨by decide, by decide⟩
    · exact ⟨by decide, by decide⟩
  refine ⟨⟨_, hcarries, hcarries⟩, fun _ _ _ _ => ⟨rfl, rfl, rfl, Iff.rfl, rfl, rfl, rfl, rfl⟩,
    fun _ _ => rfl, fun _ i hi => ⟨0, ?_⟩⟩
  have hi : i = 0 ∨ i = 1 := by
    have hi : i < 2 := hi
    omega
  rcases hi with rfl | rfl
  · rfl
  · rfl

def chosenBy (op : Op) : Tree String :=
  .node (.collective ⟨.bcast, false⟩)
    (.node op (.container "algorithm=small") (.node .any (.container "algorithm=large") .null)) .null

theorem ranks_select_same_size : twoIntegers.search 0 (chosenBy (.avgMsgSizeLe 8)) =
    twoIntegers.search 1 (chosenBy (.avgMsgSizeLe 8)) := by
  refine (ranks_select_same twoIntegers_matches _).1 (fun r hr s hs op hop hind => ?_) 0 (by decide)
    1 (by decide)
  refine absurd ?_ hind
  cases hop with
  | here => trivial
  | failure _ hop => cases hop
  | success _ hop =>
    cases hop with
    | here => exact .inr (.inl ⟨by decide, rfl⟩)
    | success _ hop => cases hop
    | failure _ hop =>
      cases hop with
      | here => trivial
      | success _ hop => cases hop
      | failure _ hop => cases hop

theorem ranks_differ : twoIntegers.Matches ∧
    twoIntegers.search 0 (chosenBy (.countLe 1)) = some (some "algorithm=small") ∧
    twoIntegers.search 1 (chosenBy (.countLe 1)) = some (some "algorithm=large") ∧
    ¬ ∀ r < 2, ∀ s < 2, twoIntegers.search r (chosenBy (.countLe 1)) =
      twoIntegers.search s (chosenBy (.countLe 1)) := by
  refine ⟨twoIntegers_matches, by decide, by decide, fun h => ?_⟩
  exact absurd (h 0 (by decide) 1 (by decide)) (by decide)

end PsMpi.Csel
