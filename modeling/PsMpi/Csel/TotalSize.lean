import PsMpi.Csel.Select
import PsMpi.Lib.CInt64
import Mathlib.Algebra.BigOperators.Intervals
import Mathlib.Algebra.BigOperators.Ring.Finset
import Mathlib.Algebra.Order.BigOperators.Group.Finset
import Mathlib.Data.List.GetD
import Mathlib.Tactic.Linarith
import Mathlib.Tactic.Ring

/-!
# Total message sizes

See `get_total_msgsize` (`csel.c:981`).
-/

open List Option

namespace PsMpi.Csel

open PsMpi.Lib

/-! ## The arithmetic of the machine -/

section aint

variable (comm : Comm) (collType : CollType) (args : Args)

def mulCount (totalBytes count : Int) (size : Nat) : Option Int := do
  let n ← fitInt64 (count * size)
  fitInt64 (totalBytes * n)

/-- `csel.c:1010`. -/
def addCounts (n : Nat) (counts : List Int) : Option Int :=
  if n ≤ counts.length then (counts.take n).foldlM (fun count c => fitInt64 (count + c)) 0 else none

def mulCounts (totalBytes : Int) (n : Nat) (counts : List Int) : Option Int := do
  let count ← addCounts n counts
  fitInt64 (totalBytes * count)

def addSizes (n : Nat) (counts : List Int) (types : List Datatype) : Option Int :=
  if n ≤ counts.length ∧ n ≤ types.length then
    ((counts.zip types).take n).foldlM (fun totalBytes p => do
      let x ← fitInt64 (p.1 * p.2.size)
      fitInt64 (totalBytes + x)) 0
  else none

def rootedSize (rootcount count : Int) : Option Int :=
  if args.root = .root then
    if comm.intra then fitInt64 (rootcount * comm.localSize)
    else fitInt64 (rootcount * comm.remoteSize)
  else fitInt64 (count * comm.localSize)

/-- `get_total_msgsize` (:981). -/
def totalMsgsize : Option Int :=
  match collType.coll with
  | .allreduce => mulCount args.datatype.size args.count comm.localSize
  | .bcast => mulCount args.datatype.size args.count comm.localSize
  | .reduce => mulCount args.datatype.size args.count comm.localSize
  | .alltoall => mulCount args.sendtype.size args.sendcount comm.localSize
  | .alltoallv => mulCounts args.sendtype.size comm.localSize args.sendcounts
  | .alltoallw => addSizes comm.localSize args.sendcounts args.sendtypes
  | .allgather => mulCount args.recvtype.size args.recvcount comm.localSize
  | .allgatherv => mulCounts args.recvtype.size comm.localSize args.recvcounts
  | .gather => rootedSize comm args args.recvcount args.sendcount
  | .scatter => rootedSize comm args args.sendcount args.recvcount
  | .reduceScatter => mulCounts args.datatype.size comm.localSize args.recvcounts
  | .reduceScatterBlock =>
    if collType.nonblocking then fitInt64 (args.recvcount * comm.localSize)
    else mulCount args.datatype.size args.recvcount comm.localSize
  | _ => none

end aint

/-! ## The number of bytes of an operation -/

section spec

variable (comm : Comm) (coll : Coll) (args : Args)

/-- The number of peers of a process: the size of the communicator, and in an intercommunicator the
remote size at the root and for the operations with a message for every remote process. -/
def peers : Nat :=
  if comm.intra then comm.localSize
  else match coll with
    | .bcast | .reduce | .gather | .scatter =>
      if args.root = .root then comm.remoteSize else comm.localSize
    | .alltoall | .alltoallv | .alltoallw | .allgather | .allgatherv => comm.remoteSize
    | _ => comm.localSize

def part (i : Nat) : Int × Datatype :=
  match coll with
  | .allreduce | .bcast | .reduce => (args.count, args.datatype)
  | .alltoall => (args.sendcount, args.sendtype)
  | .alltoallv => (args.sendcounts.getD i 0, args.sendtype)
  | .alltoallw => (args.sendcounts.getD i 0, args.sendtypes.getD i ⟨[]⟩)
  | .allgather => (args.recvcount, args.recvtype)
  | .allgatherv => (args.recvcounts.getD i 0, args.recvtype)
  | .gather =>
    if args.root = .root then (args.recvcount, args.recvtype) else (args.sendcount, args.sendtype)
  | .scatter =>
    if args.root = .root then (args.sendcount, args.sendtype) else (args.recvcount, args.recvtype)
  | .reduceScatter => (args.recvcounts.getD i 0, args.datatype)
  | .reduceScatterBlock => (args.recvcount, args.datatype)
  | _ => (0, ⟨[]⟩)

def bytes (p : Int × Datatype) : Int := p.1 * p.2.size

def exactSize : Int := ∑ i ∈ Finset.range (peers comm coll args), bytes (part coll args i)

def Handled : Prop :=
  coll ∈ [.allreduce, .bcast, .reduce, .alltoall, .alltoallv, .alltoallw, .allgather, .allgatherv,
    .gather, .scatter, .reduceScatter, .reduceScatterBlock]

def Irregular : Prop := coll ∈ [.alltoallv, .alltoallw, .allgatherv, .reduceScatter]

def Assigned : Prop := coll ∈ [.gather, .scatter, .reduceScatterBlock]

instance : Decidable (Irregular coll) := inferInstanceAs (Decidable (_ ∈ _))

instance : Decidable (Assigned coll) := inferInstanceAs (Decidable (_ ∈ _))

structure Promised : Prop where
  count : ∀ i, 0 ≤ (part coll args i).1
  sendcounts : coll = .alltoallv ∨ coll = .alltoallw →
    args.sendcounts.length = peers comm coll args
  sendtypes : coll = .alltoallw → args.sendtypes.length = peers comm coll args
  recvcounts : coll = .allgatherv ∨ coll = .reduceScatter →
    args.recvcounts.length = peers comm coll args

def SizeKept : Prop :=
  if Assigned coll then
    (part coll args 0).2.size = 1 ∨ (part coll args 0).1 = 0 ∨ peers comm coll args = 0
  else if Irregular coll then
    comm.localSize ≤ peers comm coll args ∧
    (∀ i, comm.localSize ≤ i → i < peers comm coll args → bytes (part coll args i) = 0) ∧
    (coll ≠ .alltoallw → (part coll args 0).2.size = 0 →
      IsInt64 (∑ i ∈ Finset.range comm.localSize, (part coll args i).1))
  else
    (comm.localSize = peers comm coll args ∨ bytes (part coll args 0) = 0) ∧
    ((part coll args 0).2.size = 0 → IsInt64 ((part coll args 0).1 * comm.localSize))

end spec

/-! ## The unbounded model

What does not leave `MPI_Aint` is the value that the searches of a tree are modelled with. -/

section unbounded

variable {comm : Comm} {collType : CollType} {args : Args} {a v x y : Int} {n : Nat}

theorem foldlM_eq_some {α : Type} {f : Int → α → Option Int} {g : α → Int} {l : List α}
    (hf : ∀ a p b, f a p = some b → b = a + g p) (h : l.foldlM f a = some v) :
    v = a + (l.map g).sum := by
  induction l generalizing a with
  | nil => simpa using h.symm
  | cons p l ih =>
    rw [foldlM_cons, Option.bind_eq_bind, Option.bind_eq_some_iff] at h
    obtain ⟨b, hb, h⟩ := h
    rw [ih h, hf a p b hb, map_cons, sum_cons, add_assoc]

theorem mulCount_some (h : mulCount a x n = some v) : v = a * (x * n) := by
  simp only [mulCount, Option.bind_eq_bind, Option.bind_eq_some_iff, fitInt64_eq_some] at h
  obtain ⟨_, ⟨-, rfl⟩, -, rfl⟩ := h
  rfl

theorem mulCounts_some {l : List Int} (h : mulCounts a n l = some v) :
    (sumCounts n l).map (fun k => a * k) = some v := by
  simp only [mulCounts, addCounts, Option.bind_eq_bind, Option.bind_eq_some_iff, fitInt64_eq_some,
    Option.ite_none_right_eq_some] at h
  obtain ⟨k, ⟨hn, hk⟩, -, rfl⟩ := h
  have hsum := foldlM_eq_some (g := fun c => c) (fun a c b hb => (fitInt64_eq_some.1 hb).2.symm) hk
  rw [List.map_id', zero_add] at hsum
  rw [sumCounts, if_pos hn, Option.map_some, hsum]

theorem addSizes_some {l : List Int} {t : List Datatype} (h : addSizes n l t = some v) :
    n ≤ l.length ∧ n ≤ t.length ∧ v = (((l.zip t).take n).map fun p => p.1 * p.2.size).sum := by
  rw [addSizes, Option.ite_none_right_eq_some] at h
  obtain ⟨⟨hl, ht⟩, h⟩ := h
  refine ⟨hl, ht, ?_⟩
  have hsum := foldlM_eq_some (g := fun p : Int × Datatype => p.1 * p.2.size) (fun a p b hb => ?_) h
  · rwa [zero_add] at hsum
  · simp only [Option.bind_eq_bind, Option.bind_eq_some_iff, fitInt64_eq_some] at hb
    obtain ⟨_, ⟨-, rfl⟩, -, rfl⟩ := hb
    rfl

theorem rootedSize_some (h : rootedSize comm args x y = some v) : v = gatherSize comm args x y := by
  unfold rootedSize at h
  unfold gatherSize
  split_ifs at h ⊢ <;> exact (fitInt64_eq_some.1 h).2.symm

theorem totalMsgsize_some (h : totalMsgsize comm collType args = some v) :
    getTotalMsgsize comm collType args = some v := by
  obtain ⟨coll, nb⟩ := collType
  cases coll <;> simp only [totalMsgsize, reduceCtorEq] at h <;> simp only [getTotalMsgsize]
  case allreduce | bcast | reduce | alltoall | allgather => rw [mulCount_some h]
  case alltoallv | allgatherv | reduceScatter => exact mulCounts_some h
  case gather | scatter => rw [rootedSize_some h]
  case alltoallw =>
    obtain ⟨hl, ht, rfl⟩ := addSizes_some h
    rw [if_pos ⟨hl, ht⟩]
  case reduceScatterBlock =>
    split at h
    · rw [if_pos ‹_›, (fitInt64_eq_some.1 h).2]
    · rw [if_neg ‹_›, mulCount_some h]

end unbounded

/-! ## Each kind of accumulation -/

section kinds

variable {a c s x y : Int} {n m : Nat}

theorem Datatype.size_nonneg (t : Datatype) : 0 ≤ t.size := sum_nonneg fun x hx => by
  obtain ⟨b, -, rfl⟩ := mem_map.1 hx
  exact Int.natCast_nonneg b.size

theorem fitInt64_bind_add (ha : 0 ≤ a) (hx : 0 ≤ x) :
    ((fitInt64 x).bind fun x => fitInt64 (a + x)) = fitInt64 (a + x) := by
  by_cases h : IsInt64 x
  · rw [fitInt64, if_pos h, bind_some]
  · have hsum : ¬ IsInt64 (a + x) := fun hs => h (hs.of_le hx (by omega))
    rw [fitInt64, if_neg h, fitInt64, if_neg hsum, bind_none]

theorem foldlM_add {α : Type} {f : Int → α → Option Int} {g : α → Int} {l : List α}
    (hg : ∀ p ∈ l, 0 ≤ g p) (hf : ∀ p ∈ l, ∀ a, 0 ≤ a → f a p = fitInt64 (a + g p)) (ha : 0 ≤ a)
    (hfit : IsInt64 a) : l.foldlM f a = fitInt64 (a + (l.map g).sum) := by
  induction l generalizing a with
  | nil => simp [fitInt64, hfit]
  | cons p l ih =>
    have hp : 0 ≤ g p := hg p mem_cons_self
    have hl : 0 ≤ (l.map g).sum := sum_nonneg fun y hy => by
      obtain ⟨q, hq, rfl⟩ := mem_map.1 hy
      exact hg q (mem_cons_of_mem p hq)
    rw [foldlM_cons, hf p mem_cons_self a ha, map_cons, sum_cons, ← add_assoc]
    by_cases h : IsInt64 (a + g p)
    · rw [fitInt64, if_pos h]
      exact ih (fun q hq => hg q (mem_cons_of_mem p hq))
        (fun q hq => hf q (mem_cons_of_mem p hq)) (by omega) h
    · have hsum : ¬ IsInt64 (a + g p + (l.map g).sum) := fun hs => h (hs.of_le (by omega) (by omega))
      rw [fitInt64, if_neg h, fitInt64, if_neg hsum]
      rfl

theorem sum_take {α : Type} (g : α → Int) (d : α) (l : List α) (h : n ≤ l.length) :
    ((l.take n).map g).sum = ∑ i ∈ Finset.range n, g (l.getD i d) := by
  induction n with
  | zero => rfl
  | succ n ih =>
    rw [Finset.sum_range_succ, ← ih (by omega), take_add_one, map_append, sum_append,
      getD_eq_getElem?_getD, List.getElem?_eq_getElem (by omega)]
    simp

theorem mulCount_eq (hc : 0 ≤ c) (hs : 0 ≤ s) (hexact : IsInt64 (m * (c * s))) :
    mulCount s c n = some (m * (c * s)) ↔ ((n = m ∨ c * s = 0) ∧ (s = 0 → IsInt64 (c * n))) := by
  have hn : 0 ≤ c * n := by positivity
  rw [mulCount]
  simp only [Option.bind_eq_bind, Option.bind_eq_some_iff, fitInt64_eq_some]
  constructor
  · rintro ⟨x, ⟨hfit, rfl⟩, -, h⟩
    refine ⟨?_, fun _ => hfit⟩
    have h' : ((n : Int) - m) * (c * s) = 0 := by linarith [h, mul_comm s (c * n)]
    rcases mul_eq_zero.1 h' with h' | h'
    · exact .inl (by omega)
    · exact .inr h'
  · rintro ⟨h, hfit⟩
    have heq : s * (c * n) = m * (c * s) := by
      rcases h with rfl | h
      · ring
      · rw [h, mul_zero, mul_comm c, mul_left_comm, mul_comm s, h, mul_zero]
    have hfit' : IsInt64 (c * n) := by
      rcases hs.eq_or_lt with h0 | h0
      · exact hfit h0.symm
      · rw [← heq] at hexact
        exact hexact.of_le hn (le_mul_of_one_le_left hn h0)
    exact ⟨_, ⟨hfit', rfl⟩, heq ▸ hexact, heq⟩

theorem fitInt64_count_eq (hc : 0 ≤ c) (hs : 0 ≤ s) (hexact : IsInt64 (m * (c * s))) :
    fitInt64 (c * m) = some (m * (c * s)) ↔ s = 1 ∨ c = 0 ∨ m = 0 := by
  rw [fitInt64_eq_some]
  constructor
  · rintro ⟨-, h⟩
    have h' : (c * m) * (s - 1) = 0 := by linarith
    rcases mul_eq_zero.1 h' with h' | h'
    · rcases mul_eq_zero.1 h' with h' | h'
      · exact .inr (.inl h')
      · exact .inr (.inr (by omega))
    · exact .inl (by omega)
  · intro h
    have heq : c * m = m * (c * s) := by
      rcases h with rfl | rfl | rfl
      · ring
      · simp
      · simp
    exact ⟨heq ▸ hexact, heq⟩

theorem sum_range_eq_iff {f : Nat → Int} (hf : ∀ i, 0 ≤ f i) (h : n ≤ m) :
    ∑ i ∈ Finset.range n, f i = ∑ i ∈ Finset.range m, f i ↔ ∀ i, n ≤ i → i < m → f i = 0 := by
  rw [← Finset.sum_range_add_sum_Ico f h, left_eq_add,
    Finset.sum_eq_zero_iff_of_nonneg fun i _ => hf i]
  simp only [Finset.mem_Ico, and_imp]

theorem addCounts_eq {l : List Int} (hc : ∀ i, 0 ≤ l.getD i 0) (h : n ≤ l.length) :
    addCounts n l = fitInt64 (∑ i ∈ Finset.range n, l.getD i 0) := by
  have hl : ∀ x ∈ l.take n, 0 ≤ x := fun x hx => by
    obtain ⟨i, hi, rfl⟩ := mem_iff_getElem.1 (mem_of_mem_take hx)
    have := hc i
    rwa [getD_eq_getElem _ _ hi] at this
  have hsum := sum_take (fun x : Int => x) 0 l h
  rw [addCounts, if_pos h, foldlM_add hl (fun _ _ _ _ => rfl) le_rfl (by decide), zero_add, hsum]

theorem mulCounts_eq {l : List Int} (hc : ∀ i, 0 ≤ l.getD i 0) (hs : 0 ≤ s) (hm : l.length = m)
    (hexact : IsInt64 (∑ i ∈ Finset.range m, l.getD i 0 * s)) :
    mulCounts s n l = some (∑ i ∈ Finset.range m, l.getD i 0 * s) ↔
      n ≤ m ∧ (∀ i, n ≤ i → i < m → l.getD i 0 * s = 0) ∧
      (s = 0 → IsInt64 (∑ i ∈ Finset.range n, l.getD i 0)) := by
  rw [mulCounts]
  by_cases hnm : n ≤ m
  · have hpos : 0 ≤ ∑ i ∈ Finset.range n, l.getD i 0 := Finset.sum_nonneg fun i _ => hc i
    have hmul : s * ∑ i ∈ Finset.range n, l.getD i 0 = ∑ i ∈ Finset.range n, l.getD i 0 * s := by
      rw [mul_comm, Finset.sum_mul]
    rw [← sum_range_eq_iff (fun i => mul_nonneg (hc i) hs) hnm, ← hmul, addCounts_eq hc (hm ▸ hnm)]
    simp only [Option.bind_eq_bind, Option.bind_eq_some_iff, fitInt64_eq_some]
    constructor
    · rintro ⟨x, ⟨hfit, rfl⟩, -, h⟩
      exact ⟨hnm, h, fun _ => hfit⟩
    · rintro ⟨-, h, hfit⟩
      have hfit' : IsInt64 (∑ i ∈ Finset.range n, l.getD i 0) := by
        rcases hs.eq_or_lt with h0 | h0
        · exact hfit h0.symm
        · rw [← h] at hexact
          exact hexact.of_le hpos (le_mul_of_one_le_left hpos h0)
      exact ⟨_, ⟨hfit', rfl⟩, h ▸ hexact, h⟩
  · rw [addCounts, if_neg (hm ▸ hnm)]
    exact ⟨nofun, fun h => absurd h.1 hnm⟩

theorem addSizes_eq {l : List Int} {t : List Datatype} (hc : ∀ i, 0 ≤ l.getD i 0)
    (hm : l.length = m) (hm' : t.length = m)
    (hexact : IsInt64 (∑ i ∈ Finset.range m, bytes (l.getD i 0, t.getD i ⟨[]⟩))) :
    addSizes n l t = some (∑ i ∈ Finset.range m, bytes (l.getD i 0, t.getD i ⟨[]⟩)) ↔
      n ≤ m ∧ ∀ i, n ≤ i → i < m → bytes (l.getD i 0, t.getD i ⟨[]⟩) = 0 := by
  have hpos : ∀ i, 0 ≤ bytes (l.getD i 0, t.getD i ⟨[]⟩) := fun i =>
    mul_nonneg (hc i) (Datatype.size_nonneg _)
  rw [addSizes]
  by_cases hnm : n ≤ m
  · have hzip : (l.zip t).length = m := by rw [length_zip, hm, hm', min_self]
    have hmem : ∀ p ∈ (l.zip t).take n, 0 ≤ bytes p := fun p hp => by
      obtain ⟨i, hi, hp⟩ := mem_iff_getElem.1 (mem_of_mem_take hp)
      rw [getElem_zip] at hp
      have := hpos i
      rwa [getD_eq_getElem _ _ (by omega), getD_eq_getElem _ _ (by omega), hp] at this
    have hsum : ∑ i ∈ Finset.range n, bytes ((l.zip t).getD i (0, ⟨[]⟩)) =
        ∑ i ∈ Finset.range n, bytes (l.getD i 0, t.getD i ⟨[]⟩) :=
      Finset.sum_congr rfl fun i hi => by
        have hi' := Finset.mem_range.1 hi
        rw [getD_eq_getElem _ _ (by omega), getD_eq_getElem _ _ (by omega),
          getD_eq_getElem _ _ (by omega), getElem_zip]
    have hstep : ∀ p ∈ (l.zip t).take n, ∀ a : Int, 0 ≤ a →
        (do let x ← fitInt64 (p.1 * p.2.size); fitInt64 (a + x)) = fitInt64 (a + bytes p) :=
      fun p hp a ha => fitInt64_bind_add ha (hmem p hp)
    rw [if_pos ⟨hm ▸ hnm, hm' ▸ hnm⟩, foldlM_add hmem hstep le_rfl (by decide), zero_add,
      sum_take bytes (0, ⟨[]⟩) _ (by omega), hsum,
      ← sum_range_eq_iff hpos hnm, fitInt64_eq_some]
    exact ⟨fun h => ⟨hnm, h.2⟩, fun h => ⟨h.2 ▸ hexact, h.2⟩⟩
  · rw [if_neg fun h => hnm (hm ▸ h.1)]
    exact ⟨nofun, fun h => absurd h.1 hnm⟩

end kinds

/-! ## The total size -/

section total

variable {comm : Comm} {coll : Coll} {args : Args} {nb : Bool}

theorem exactSize_regular (h : ¬ Irregular coll) : exactSize comm coll args =
    peers comm coll args * ((part coll args 0).1 * (part coll args 0).2.size) := by
  have hpart : ∀ i, part coll args i = part coll args 0 := fun i => by
    cases coll
    case alltoallv | alltoallw | allgatherv | reduceScatter => exact absurd (by decide) h
    all_goals rfl
  have hsum : exactSize comm coll args =
      ∑ _i ∈ Finset.range (peers comm coll args), bytes (part coll args 0) :=
    Finset.sum_congr rfl fun i _ => congrArg bytes (hpart i)
  rw [hsum, Finset.sum_const, Finset.card_range, nsmul_eq_mul, bytes]

theorem totalMsgsize_regular (hcoll : Handled coll) (ha : ¬ Assigned coll) (hi : ¬ Irregular coll) :
    totalMsgsize comm ⟨coll, nb⟩ args =
      mulCount (part coll args 0).2.size (part coll args 0).1 comm.localSize := by
  cases coll
  case allreduce | bcast | reduce | alltoall | allgather => rfl
  case alltoallv | alltoallw | allgatherv | reduceScatter => exact absurd (by decide) hi
  case gather | scatter | reduceScatterBlock => exact absurd (by decide) ha
  all_goals exact absurd hcoll (by unfold Handled; decide)

theorem totalMsgsize_assigned (ha : Assigned coll) (hnb : coll = .reduceScatterBlock → nb = true) :
    totalMsgsize comm ⟨coll, nb⟩ args =
      fitInt64 ((part coll args 0).1 * peers comm coll args) := by
  rw [Assigned, mem_cons, mem_cons, mem_singleton] at ha
  rcases ha with rfl | rfl | rfl
  · simp only [totalMsgsize, rootedSize, part, peers]
    split <;> split <;> rfl
  · simp only [totalMsgsize, rootedSize, part, peers]
    split <;> split <;> rfl
  · obtain rfl := hnb rfl
    simp only [totalMsgsize, part, peers, ite_self, if_true]

theorem totalMsgsize_irregular (hi : Irregular coll) (hp : Promised comm coll args)
    (hexact : IsInt64 (exactSize comm coll args)) :
    totalMsgsize comm ⟨coll, nb⟩ args = some (exactSize comm coll args) ↔
      SizeKept comm coll args := by
  have hi' := hi
  rw [Irregular, mem_cons, mem_cons, mem_cons, mem_singleton] at hi'
  have ha : ¬ Assigned coll := by rcases hi' with rfl | rfl | rfl | rfl <;> decide
  have hsize := Datatype.size_nonneg (part coll args 0).2
  rw [SizeKept, if_neg ha, if_pos hi]
  rcases hi' with rfl | rfl | rfl | rfl
  · refine (mulCounts_eq hp.count hsize (hp.sendcounts (.inl rfl)) hexact).trans ?_
    exact and_congr_right fun _ => and_congr_right fun _ => (imp_iff_right nofun).symm
  · refine (addSizes_eq hp.count (hp.sendcounts (.inr rfl)) (hp.sendtypes rfl) hexact).trans ?_
    exact and_congr_right fun _ => (and_iff_left fun h => absurd rfl h).symm
  · refine (mulCounts_eq hp.count hsize (hp.recvcounts (.inl rfl)) hexact).trans ?_
    exact and_congr_right fun _ => and_congr_right fun _ => (imp_iff_right nofun).symm
  · refine (mulCounts_eq hp.count hsize (hp.recvcounts (.inr rfl)) hexact).trans ?_
    exact and_congr_right fun _ => and_congr_right fun _ => (imp_iff_right nofun).symm

theorem totalMsgsize_reduceScatterBlock (hp : Promised comm .reduceScatterBlock args)
    (hexact : IsInt64 (exactSize comm .reduceScatterBlock args))
    (h : args.datatype.size = 1 ∨ args.recvcount = 0 ∨ comm.localSize = 0) :
    totalMsgsize comm ⟨.reduceScatterBlock, false⟩ args =
      some (exactSize comm .reduceScatterBlock args) := by
  have hpeers : peers comm .reduceScatterBlock args = comm.localSize := by simp [peers]
  rw [exactSize_regular (by decide), hpeers] at hexact ⊢
  refine (mulCount_eq (hp.count 0) (Datatype.size_nonneg _) hexact).2 ⟨.inl rfl, fun hs => ?_⟩
  rcases h with h | h | h
  · exact absurd (h.symm.trans hs) (by decide)
  · rw [show (part .reduceScatterBlock args 0).1 = 0 from h, zero_mul]
    decide
  · rw [h, Nat.cast_zero, mul_zero]
    decide

theorem totalMsgsize_iff (hcoll : Handled coll) (hi : ¬ Irregular coll)
    (hp : Promised comm coll args) (hexact : IsInt64 (exactSize comm coll args)) :
    (∀ nb, totalMsgsize comm ⟨coll, nb⟩ args = some (exactSize comm coll args)) ↔
      SizeKept comm coll args := by
  have hexact' := hexact
  rw [exactSize_regular hi] at hexact'
  by_cases ha : Assigned coll
  · rw [SizeKept, if_pos ha]
    have hcount := fitInt64_count_eq (hp.count 0) (Datatype.size_nonneg _) hexact'
    rw [← exactSize_regular hi] at hcount
    constructor
    · intro h
      have htrue := h true
      rw [totalMsgsize_assigned ha fun _ => rfl] at htrue
      exact hcount.1 htrue
    · intro h nb
      by_cases hnb : coll = .reduceScatterBlock → nb = true
      · rw [totalMsgsize_assigned ha hnb]
        exact hcount.2 h
      · push Not at hnb
        obtain ⟨rfl, hnb⟩ := hnb
        rw [Bool.eq_false_of_not_eq_true hnb]
        exact totalMsgsize_reduceScatterBlock hp hexact (by simpa [part, peers] using h)
  · rw [SizeKept, if_neg ha, if_neg hi, bytes]
    have hmul := mulCount_eq (n := comm.localSize) (hp.count 0) (Datatype.size_nonneg _) hexact'
    rw [← exactSize_regular hi] at hmul
    have hfalse := @totalMsgsize_regular comm coll args false hcoll ha hi
    rw [← hmul, ← hfalse]
    refine ⟨fun h => h false, fun h nb => ?_⟩
    rwa [totalMsgsize_regular hcoll ha hi] at h ⊢

/-- The total size is the number of bytes of the whole operation, and both variants of an operation
have the same, exactly if the size is kept. -/
theorem total_size_exact (hcoll : Handled coll) (hp : Promised comm coll args)
    (hexact : IsInt64 (exactSize comm coll args)) :
    ((∀ nb, totalMsgsize comm ⟨coll, nb⟩ args = some (exactSize comm coll args)) ∧
      totalMsgsize comm ⟨coll, false⟩ args = totalMsgsize comm ⟨coll, true⟩ args) ↔
      SizeKept comm coll args := by
  have hsame : (∀ nb, totalMsgsize comm ⟨coll, nb⟩ args = some (exactSize comm coll args)) →
      totalMsgsize comm ⟨coll, false⟩ args = totalMsgsize comm ⟨coll, true⟩ args :=
    fun h => (h false).trans (h true).symm
  rw [and_iff_left_of_imp hsame]
  by_cases hi : Irregular coll
  · exact ⟨fun h => (totalMsgsize_irregular hi hp hexact).1 (h false),
      fun h nb => (totalMsgsize_irregular hi hp hexact).2 h⟩
  · exact totalMsgsize_iff hcoll hi hp hexact

end total

/-! ## A gather of two integers -/

section gatherInts

def pair : Comm := ⟨true, 2, 2, none, .flat, true, 1, 2⟩

def gatherInts : Args where
  inPlace := false
  count := 1
  datatype := ⟨[⟨0, 4⟩]⟩
  sendcount := 1
  sendtype := ⟨[⟨0, 4⟩]⟩
  recvcount := 1
  recvtype := ⟨[⟨0, 4⟩]⟩
  sendcounts := [1, 1]
  sendtypes := [⟨[⟨0, 4⟩]⟩, ⟨[⟨0, 4⟩]⟩]
  recvcounts := [1, 1]
  root := .rank 0
  op := ⟨true, true⟩

theorem gatherInts_promised {coll : Coll} (h : coll = .gather ∨ coll = .allreduce) :
    Promised pair coll gatherInts := by
  rcases h with rfl | rfl
  · exact ⟨fun _ => Int.one_nonneg, by simp, by simp, by simp⟩
  · exact ⟨fun _ => Int.one_nonneg, by simp, by simp, by simp⟩

theorem total_size_exact_pair : SizeKept pair .allreduce gatherInts :=
  (total_size_exact (by unfold Handled; decide) (gatherInts_promised (.inr rfl)) (by decide)).1
    ⟨by decide, by decide⟩

theorem total_size_lost : ¬ ∀ (comm : Comm) (coll : Coll) (args : Args), Handled coll →
    Promised comm coll args → IsInt64 (exactSize comm coll args) →
    (∀ nb, totalMsgsize comm ⟨coll, nb⟩ args = some (exactSize comm coll args)) ∧
      totalMsgsize comm ⟨coll, false⟩ args = totalMsgsize comm ⟨coll, true⟩ args := by
  intro h
  have hgather := (h pair .gather gatherInts (by unfold Handled; decide)
    (gatherInts_promised (.inl rfl)) (by decide)).1 false
  have hlost : totalMsgsize pair ⟨.gather, false⟩ gatherInts = some 2 := by decide
  have hexact : exactSize pair .gather gatherInts = 8 := by decide
  rw [hlost, hexact] at hgather
  exact absurd hgather (by decide)

end gatherInts

end PsMpi.Csel
