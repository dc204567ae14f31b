import Mathlib.Algebra.GroupWithZero.Nat
import Mathlib.Algebra.Ring.Int.Defs
import Mathlib.Data.Set.BooleanAlgebra
import Mathlib.Order.CompletePartialOrder

/-!
# The layout of a shared-memory window

See `mpich2/src/mpid/psp/src/mpid_rma.c`.
-/

namespace PsMpi.Rma

/-- A pointer into a shared-memory object, `undefined` where memory has never been written. -/
inductive ShmPtr
  | undefined
  | null
  | addr (shmid offset : Int)

def ShmPtr.add : ShmPtr → Int → ShmPtr
  | .addr shmid offset, k => .addr shmid (offset + k)
  | p, k => if k = 0 then p else .undefined

/-- The arguments at the processes of a communicator of one node, where `noncontig` is
`alloc_shared_noncontig`, and the objects that `shmget` makes. -/
structure SharedAlloc where
  localSize : Nat
  two_le : 2 ≤ localSize
  size : Nat → Nat
  size_lt : ∀ r, size r < 2 ^ 63
  dispUnit : Nat → Int
  noncontig : Bool
  shmget : Nat → Int
  shmget_ne : ∀ r, shmget r ≠ -1
  shmget_inj : ∀ r q, shmget r = shmget q → r = q

structure SharedQuery where
  size : Int
  dispUnit : Option Int
  base : ShmPtr

namespace SharedAlloc

variable (x : SharedAlloc)

/-- `mpid_rma.c:955`. -/
def totalSize : Nat → Int
  | 0 => 0
  | i + 1 => (totalSize i + x.size i).bmod (2 ^ 64)

/-- `:989-993`. -/
def contigBuf (shm : ShmPtr) : Nat → ShmPtr
  | 0 => shm
  | i + 1 => (contigBuf shm i).add (x.size i)

/-- `:1006-1029`. -/
def shmidBuf (i : Nat) : Int := if 0 < x.size i then x.shmget i else -1

/-- `MPID_PSP_Win_allocate_shmget` (`:995-998,1019-1022`). -/
def base (rank : Nat) : ShmPtr :=
  if x.noncontig then if 0 < x.size rank then .addr (x.shmget rank) 0 else .null
  else if 0 < x.totalSize x.localSize then x.contigBuf (.addr (x.shmget 0) 0) rank
  else .null

/-- `MPID_PSP_Win_allocate_shmget` (:891). -/
def ptrBuf (rank i : Nat) : ShmPtr :=
  if x.noncontig then
    if i = rank then x.base rank
    else if x.shmidBuf i ≠ -1 then .addr (x.shmidBuf i) 0
    else .null
  else if 0 < x.totalSize x.localSize then x.contigBuf (.addr (x.shmget 0) 0) i
  else .undefined

/-- `MPID_Win_shared_query` (:1186). -/
def sharedQuery (rank : Nat) : Option Nat → SharedQuery
  | some r => ⟨x.size r, some (x.dispUnit r), x.ptrBuf rank r⟩
  | none =>
    match (List.range x.localSize).find? fun i => 0 < x.size i with
    | some i => ⟨x.size i, some (x.dispUnit i), x.ptrBuf rank i⟩
    | none => ⟨0, none, .null⟩

/-- `:964,1006`. -/
def length (shmid : Int) : Int :=
  if x.noncontig then
    match (List.range x.localSize).find? fun r => x.shmget r = shmid with
    | some r => x.size r
    | none => 0
  else x.totalSize x.localSize

def segment (r : Nat) : Set (Int × Int) :=
  {b | ∃ o, x.base r = .addr b.1 o ∧ o ≤ b.2 ∧ b.2 < o + x.size r}

/-- The segments lie in the objects and are apart, they follow each other unless they need not, and
all processes find them. -/
structure Layout : Prop where
  backed : ∀ r < x.localSize, 0 < x.size r → ∃ s o, x.base r = .addr s o ∧ 0 ≤ o ∧
    o + x.size r ≤ x.length s
  disjoint : ∀ r < x.localSize, ∀ q < x.localSize, r ≠ q → Disjoint (x.segment r) (x.segment q)
  contiguous : x.noncontig = false → ∀ r, r + 1 < x.localSize →
    x.base (r + 1) = (x.base r).add (x.size r)
  query : ∀ p < x.localSize, ∀ r < x.localSize,
    (x.sharedQuery p (some r)).size = x.size r ∧
    (x.sharedQuery p (some r)).dispUnit = some (x.dispUnit r) ∧
    (x.sharedQuery p (some r)).base ≠ .undefined ∧
    (0 < x.size r → (x.sharedQuery p (some r)).base = x.base r)
  procNull : ∀ p < x.localSize, ∀ r < x.localSize, 0 < x.size r → (∀ q < r, x.size q = 0) →
    x.sharedQuery p none = ⟨x.size r, some (x.dispUnit r), x.base r⟩
  procNullEmpty : ∀ p < x.localSize, (∀ r < x.localSize, x.size r = 0) →
    (x.sharedQuery p none).size = 0 ∧ (x.sharedQuery p none).base = .null

/-! ## Offsets -/

def offset : Nat → Int
  | 0 => 0
  | i + 1 => offset i + x.size i

variable {x}

theorem contigBuf_eq (s : Int) (i : Nat) : x.contigBuf (.addr s 0) i = .addr s (x.offset i) := by
  induction i with
  | zero => rfl
  | succ i ih => rw [contigBuf, ih, offset, ShmPtr.add]

theorem totalSize_eq (i : Nat) : x.totalSize i = (x.offset i).bmod (2 ^ 64) := by
  induction i with
  | zero => rfl
  | succ i ih => rw [totalSize, ih, offset, Int.bmod_add_bmod]

theorem offset_mono {r q : Nat} (h : r ≤ q) : x.offset r ≤ x.offset q := by
  induction h with
  | refl => exact le_refl _
  | step _ ih => exact ih.trans (Int.le_add_of_nonneg_right (Int.natCast_nonneg _))

theorem offset_end {r q : Nat} (h : r < q) : x.offset r + x.size r ≤ x.offset q := offset_mono h

theorem offset_nonneg (r : Nat) : 0 ≤ x.offset r := offset_mono (Nat.zero_le r)

theorem totalSize_of_lt (h : x.offset x.localSize < 2 ^ 63) :
    x.totalSize x.localSize = x.offset x.localSize := by
  have h0 := x.offset_nonneg x.localSize
  rw [totalSize_eq, Int.bmod_eq_of_le] <;> omega

/-! ## The layout -/

theorem base_noncontig (hn : x.noncontig = true) {r : Nat} (h : 0 < x.size r) :
    x.base r = .addr (x.shmget r) 0 := by
  simp [base, hn, h]

theorem ptrBuf_noncontig (hn : x.noncontig = true) (p r : Nat) : x.ptrBuf p r = x.base r := by
  by_cases hs : 0 < x.size r
  · have hr : x.shmidBuf r = x.shmget r := if_pos hs
    simp only [ptrBuf, hn, hr, x.shmget_ne, ne_eq, not_false_eq_true, if_true, base_noncontig hn hs]
    split
    · rename_i hrp
      rw [← hrp, base_noncontig hn hs]
    · rfl
  · have hr : x.shmidBuf r = -1 := if_neg hs
    have hb : x.base r = .null := by simp [base, hn, hs]
    simp only [ptrBuf, hn, hr, ne_eq, not_true_eq_false, if_true, if_false, hb]
    split
    · rename_i hrp
      rw [← hrp, hb]
    · rfl

theorem base_contig (hn : x.noncontig = false) (ht : 0 < x.totalSize x.localSize) (r : Nat) :
    x.base r = .addr (x.shmget 0) (x.offset r) := by
  simp [base, hn, ht, contigBuf_eq]

theorem ptrBuf_contig (hn : x.noncontig = false) (ht : 0 < x.totalSize x.localSize) (p r : Nat) :
    x.ptrBuf p r = x.base r := by
  simp [ptrBuf, base, hn, ht]

/-- The condition under which the table of all processes is that of the segments. -/
def Laid (x : SharedAlloc) : Prop :=
  x.noncontig = true ∨ 0 < x.offset x.localSize ∧ x.offset x.localSize < 2 ^ 63

theorem ptrBuf_eq_base (h : x.Laid) (p r : Nat) : x.ptrBuf p r = x.base r := by
  rcases h with hn | ⟨h0, h63⟩
  · exact ptrBuf_noncontig hn p r
  · cases hn : x.noncontig with
    | true => exact ptrBuf_noncontig hn p r
    | false => exact ptrBuf_contig hn (totalSize_of_lt h63 ▸ h0) p r

theorem base_ne_undefined (r : Nat) : x.base r ≠ .undefined := by
  unfold base
  rw [contigBuf_eq]
  split_ifs <;> nofun

theorem find_first {r : Nat} (hr : r < x.localSize) (h : 0 < x.size r)
    (hfirst : ∀ q < r, x.size q = 0) :
    (List.range x.localSize).find? (fun i => 0 < x.size i) = some r := by
  rw [List.find?_range_eq_some]
  exact ⟨by simpa using h, by simpa using hr, fun q hq => by simp [hfirst q hq]⟩

theorem length_noncontig (hn : x.noncontig = true) {r : Nat} (hr : r < x.localSize) :
    x.length (x.shmget r) = x.size r := by
  have hf : (List.range x.localSize).find? (fun q => x.shmget q = x.shmget r) = some r := by
    rw [List.find?_range_eq_some]
    refine ⟨by simp, by simpa using hr, fun q hq => ?_⟩
    have hne : x.shmget q ≠ x.shmget r := fun he => hq.ne (x.shmget_inj q r he)
    simp [hne]
  simp [length, hn, hf]

theorem segments_disjoint (h : x.Laid) {r q : Nat} (hne : r ≠ q) :
    Disjoint (x.segment r) (x.segment q) := by
  refine Set.disjoint_left.2 ?_
  rintro ⟨s, b⟩ ⟨o, ho, hle, hlt⟩ ⟨o', ho', hle', hlt'⟩
  dsimp only at ho ho' hle hle' hlt hlt'
  cases hn : x.noncontig with
  | true =>
    rw [base_noncontig hn (by omega)] at ho ho'
    cases ho
    exact hne (x.shmget_inj r q (ShmPtr.addr.inj ho').1.symm)
  | false =>
    obtain ⟨h0, h63⟩ := h.resolve_left (by simp [hn])
    rw [base_contig hn (totalSize_of_lt h63 ▸ h0)] at ho ho'
    cases ho
    cases ho'
    rcases Nat.lt_or_gt_of_ne hne with hlt | hlt
    · have := offset_end (x := x) hlt
      omega
    · have := offset_end (x := x) hlt
      omega

theorem base_backed (h : x.Laid) {r : Nat} (hr : r < x.localSize) (hs : 0 < x.size r) :
    ∃ s o, x.base r = .addr s o ∧ 0 ≤ o ∧ o + x.size r ≤ x.length s := by
  cases hn : x.noncontig with
  | true =>
    refine ⟨_, _, base_noncontig hn hs, le_refl _, ?_⟩
    rw [length_noncontig hn hr, Int.zero_add]
  | false =>
    obtain ⟨h0, h63⟩ := h.resolve_left (by simp [hn])
    refine ⟨_, _, base_contig hn (totalSize_of_lt h63 ▸ h0) r, x.offset_nonneg r, ?_⟩
    simp only [length, hn, Bool.false_eq_true, if_false, totalSize_of_lt h63]
    exact offset_end hr

theorem layout_of_laid (h : x.Laid) : x.Layout where
  backed _ hr hs := base_backed h hr hs
  disjoint _ _ _ _ hne := segments_disjoint h hne
  contiguous hn r _ := by
    obtain ⟨h0, h63⟩ := h.resolve_left (by simp [hn])
    have ht := totalSize_of_lt h63 ▸ h0
    rw [base_contig hn ht, base_contig hn ht, ShmPtr.add, offset]
  query p _ r _ := by
    have hb := ptrBuf_eq_base h p r
    exact ⟨rfl, rfl, fun he => base_ne_undefined r (hb.symm.trans he), fun _ => hb⟩
  procNull p _ r hr hs hfirst := by
    simp only [sharedQuery, find_first hr hs hfirst, ptrBuf_eq_base h]
  procNullEmpty p _ hall := by
    have hf : (List.range x.localSize).find? (fun i => 0 < x.size i) = none := by
      rw [List.find?_range_eq_none]
      intro i hi
      simp [hall i hi]
    simp [sharedQuery, hf]

theorem offset_le_total (h : x.Layout) (hn : x.noncontig = false)
    (ht : 0 < x.totalSize x.localSize) {k : Nat} (hk : k ≤ x.localSize) :
    x.offset k ≤ x.totalSize x.localSize := by
  induction k with
  | zero => exact ht.le
  | succ k ih =>
    have ih := ih (Nat.le_of_succ_le hk)
    rw [offset]
    by_cases hs : 0 < x.size k
    · obtain ⟨s, o, hb, -, hle⟩ := h.backed k hk hs
      rw [base_contig hn ht] at hb
      cases hb
      simpa only [length, hn, Bool.false_eq_true, if_false] using hle
    · omega

/-- The segments of a window are laid out well if and only if they need not be contiguous, or their
total size is positive and is an `MPI_Aint`. -/
theorem shared_layout_iff (x : SharedAlloc) : x.Layout ↔
    x.noncontig = true ∨ 0 < x.offset x.localSize ∧ x.offset x.localSize < 2 ^ 63 := by
  refine ⟨fun h => ?_, layout_of_laid⟩
  have hpos : 0 < x.localSize := Nat.lt_of_lt_of_le Nat.two_pos x.two_le
  cases hn : x.noncontig with
  | true => exact .inl rfl
  | false =>
    refine .inr ?_
    by_cases ht : 0 < x.totalSize x.localSize
    · have hle := offset_le_total h hn ht (le_refl _)
      have h63 : x.totalSize x.localSize < 2 ^ 63 := by
        rw [totalSize_eq]
        exact Int.lt_of_lt_of_le (Int.bmod_lt (by decide)) (by decide)
      have hlt : x.offset x.localSize < 2 ^ 63 := by omega
      exact ⟨totalSize_of_lt hlt ▸ ht, hlt⟩
    · -- without an object, no process has a table
      have hq := (h.query 0 hpos 0 hpos).2.2.1
      simp [sharedQuery, ptrBuf, hn, ht] at hq

/-- Two processes without memory. -/
def emptyAlloc : SharedAlloc where
  localSize := 2
  two_le := le_refl _
  size _ := 0
  size_lt _ := by decide
  dispUnit _ := 1
  noncontig := false
  shmget r := r
  shmget_ne r := by omega
  shmget_inj r q h := by omega

theorem shared_query_undefined :
    (emptyAlloc.sharedQuery 0 (some 0)).base = .undefined ∧ ¬ emptyAlloc.Layout :=
  ⟨rfl, fun h => (h.query 0 (by decide) 0 (by decide)).2.2.1 rfl⟩

end SharedAlloc

end PsMpi.Rma
