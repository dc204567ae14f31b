import Mathlib.Algebra.GroupWithZero.Nat
import Mathlib.Algebra.Ring.Int.Defs
import PsMpi.Lib.Scatter
import Mathlib.Algebra.BigOperators.Group.List.Basic

/-!
# Datatypes and their packing
-/

open PsMpi.Lib List

namespace PsMpi.Data

/-- A basic type. The largest ones are the complex and the pair types of `long double`. -/
structure Basic where
  id : Nat
  size : Nat
  pos : 0 < size
  le : size ≤ 32
  deriving DecidableEq

abbrev Mem := Int → UInt8

def block (a : Int) (n : Nat) : List Int := (List.range n).map fun i : Nat => a + (i : Int)

@[simp] theorem block_length (a : Int) (n : Nat) : (block a n).length = n := by simp [block]

theorem block_nodup (a : Int) (n : Nat) : (block a n).Nodup := by
  refine List.Nodup.map (fun i j h => ?_) nodup_range
  have h : a + (i : Int) = a + (j : Int) := h
  omega

theorem block_append (a : Int) (n k : Nat) : block a n ++ block (a + n) k = block a (n + k) := by
  simp only [block, range_add, map_append, map_map]
  congr 1
  refine map_congr_left fun i _ => ?_
  simp [Int.add_assoc]

theorem block_map_add (a b : Int) (n : Nat) : (block b n).map (a + ·) = block (a + b) n := by
  simp [block, Function.comp_def, Int.add_assoc]

def bytesOf (typemap : List (Int × Basic)) : List Int :=
  typemap.flatMap fun e => block e.1 e.2.size

/-- `struct MPIR_Datatype`, `update_yaksa_type` (`mpir_datatype.h`,
`typerep_yaksa_create.c:17`). -/
structure Datatype where
  predefined : Bool
  typemap : List (Int × Basic)
  extent : Int
  isContig : Bool
  trueLb : Int
  contig : isContig = true → bytesOf typemap = block trueLb (bytesOf typemap).length ∧
    extent = (bytesOf typemap).length

namespace Datatype

def size (d : Datatype) : Nat := (bytesOf d.typemap).length

def displs (d : Datatype) (n : Nat) : List Int :=
  (List.range n).flatMap fun i : Nat => (bytesOf d.typemap).map ((i : Int) * d.extent + ·)

def signature (d : Datatype) (n : Nat) : List Basic :=
  (List.replicate n (d.typemap.map (·.2))).flatten

theorem displs_succ (d : Datatype) (n : Nat) :
    d.displs (n + 1) = d.displs n ++ (bytesOf d.typemap).map (n * d.extent + ·) := by
  simp [displs, range_succ]

@[simp] theorem displs_length (d : Datatype) (n : Nat) : (d.displs n).length = n * d.size := by
  induction n with
  | zero => simp [displs]
  | succ n ih => rw [displs_succ, length_append, ih, length_map, size, Nat.succ_mul]

theorem displs_contig (d : Datatype) (h : d.isContig = true) (n : Nat) :
    d.displs n = block d.trueLb (n * d.size) := by
  obtain ⟨hb, he⟩ := d.contig h
  induction n with
  | zero => simp [displs, block]
  | succ n ih =>
    rw [displs_succ, ih, hb, he, block_map_add, ← size, Nat.succ_mul, ← block_append]
    congr 2
    push_cast
    rw [Int.add_comm]

theorem displs_prefix (d : Datatype) {n k : Nat} (h : n ≤ k) : d.displs n <+: d.displs k := by
  obtain ⟨j, rfl⟩ := Nat.exists_eq_add_of_le h
  induction j with
  | zero => exact prefix_rfl
  | succ j ih =>
    rw [← Nat.add_assoc, displs_succ]
    exact (ih (Nat.le_add_right n j)).trans (prefix_append _ _)

end Datatype

def sigSize (sig : List Basic) : Nat := (sig.map (·.size)).sum

theorem sigSize_append (s t : List Basic) : sigSize (s ++ t) = sigSize s + sigSize t := by
  simp [sigSize]

theorem sigSize_typemap (t : List (Int × Basic)) : sigSize (t.map (·.2)) = (bytesOf t).length := by
  induction t with
  | nil => rfl
  | cons e t ih =>
    simp only [sigSize, bytesOf, map_cons, sum_cons, flatMap_cons,
      length_append, block_length] at ih ⊢
    rw [ih]

namespace Datatype

theorem signature_succ (d : Datatype) (n : Nat) :
    d.signature (n + 1) = d.typemap.map (·.2) ++ d.signature n := by
  simp [signature, replicate_succ]

theorem sigSize_signature (d : Datatype) (n : Nat) : sigSize (d.signature n) = n * d.size := by
  induction n with
  | zero => simp [signature, sigSize]
  | succ n ih => rw [signature_succ, sigSize_append, ih, sigSize_typemap, ← size, Nat.succ_mul,
      Nat.add_comm]

theorem signature_prefix (d : Datatype) {n k : Nat} (h : n ≤ k) :
    d.signature n <+: d.signature k := by
  obtain ⟨j, rfl⟩ := Nat.exists_eq_add_of_le h
  refine ⟨d.signature j, ?_⟩
  rw [signature, signature, signature, ← flatten_append, replicate_append_replicate]

end Datatype

/-! ## Whole elements -/

def Boundary (sig : List Basic) (len : Nat) : Prop := ∃ s, s <+: sig ∧ sigSize s = len

variable {sig : List Basic} {len lim : Nat}

theorem boundary_zero (sig : List Basic) : Boundary sig 0 := ⟨[], nil_prefix, rfl⟩

theorem boundary_total (sig : List Basic) : Boundary sig (sigSize sig) :=
  ⟨sig, prefix_rfl, rfl⟩

theorem Boundary.le (h : Boundary sig len) : len ≤ sigSize sig := by
  obtain ⟨s, ⟨t, rfl⟩, rfl⟩ := h
  rw [sigSize_append]
  exact Nat.le_add_right _ _

theorem Boundary.next (h : Boundary sig len) (hlt : len < sigSize sig) :
    ∃ b : Basic, Boundary sig (len + b.size) := by
  obtain ⟨s, ⟨t, rfl⟩, rfl⟩ := h
  cases t with
  | nil => simp at hlt
  | cons b t => exact ⟨b, s ++ [b], ⟨t, by simp⟩, by simp [sigSize]⟩

def wholeLen : List Basic → Nat → Nat
  | [], _ => 0
  | b :: sig, lim => if b.size ≤ lim then b.size + wholeLen sig (lim - b.size) else 0

theorem wholeLen_le (sig : List Basic) (lim : Nat) : wholeLen sig lim ≤ lim := by
  induction sig generalizing lim with
  | nil => exact Nat.zero_le _
  | cons b sig ih =>
    have := ih (lim - b.size)
    unfold wholeLen
    split <;> omega

theorem wholeLen_boundary (sig : List Basic) (lim : Nat) : Boundary sig (wholeLen sig lim) := by
  induction sig generalizing lim with
  | nil => exact boundary_zero []
  | cons b sig ih =>
    unfold wholeLen
    split
    · obtain ⟨s, hs, he⟩ := ih (lim - b.size)
      refine ⟨b :: s, cons_prefix_cons.2 ⟨rfl, hs⟩, ?_⟩
      rw [← he]
      simp [sigSize]
    · exact boundary_zero _

theorem le_wholeLen (h : Boundary sig len) (hle : len ≤ lim) : len ≤ wholeLen sig lim := by
  obtain ⟨s, hs, rfl⟩ := h
  induction sig generalizing s lim with
  | nil =>
    obtain rfl := prefix_nil.1 hs
    exact Nat.le_refl _
  | cons b sig ih =>
    cases s with
    | nil => exact Nat.zero_le _
    | cons c s =>
      obtain ⟨rfl, hs'⟩ := cons_prefix_cons.1 hs
      have hsize : sigSize (c :: s) = c.size + sigSize s := by simp [sigSize]
      rw [hsize] at hle ⊢
      have : sigSize s ≤ wholeLen sig (lim - c.size) := ih s hs' (by omega)
      rw [wholeLen, if_pos (by omega)]
      omega

/-! ## The datatype engine -/

/-- `MPIR_Typerep_pack`, `MPIR_Typerep_unpack` (`typerep_yaksa_pack.c:127`, `:288`). -/
structure Typerep where
  pack : Mem → Int → (count : Int) → Datatype → (offset maxBytes : Nat) → List UInt8
  unpack : Mem → List UInt8 → Int → (count : Int) → Datatype → (offset : Nat) → Mem × Nat

def addrs (a : Int) (n : Nat) (d : Datatype) : List Int := (d.displs n).map (a + ·)

@[simp] theorem addrs_length (a : Int) (n : Nat) (d : Datatype) :
    (addrs a n d).length = n * d.size := by
  simp [addrs]

structure Typerep.FollowsTypemap (T : Typerep) : Prop where
  pack : ∀ (m : Mem) (a : Int) (n : Nat) (d : Datatype) (off k : Nat),
    Boundary (d.signature n) off → ∃ len ≤ k,
      T.pack m a n d off k = ((gather m (addrs a n d)).drop off).take len ∧
      Boundary (d.signature n) (off + len) ∧
      ∀ len' ≤ k, Boundary (d.signature n) (off + len') → len' ≤ len
  unpack : ∀ (m : Mem) (bs : List UInt8) (a : Int) (n : Nat) (d : Datatype) (off : Nat),
    Boundary (d.signature n) off → Boundary (d.signature n) (min (off + bs.length) (n * d.size)) →
    T.unpack m bs a n d off =
      (scatter m ((addrs a n d).drop off) bs, min bs.length (n * d.size - off))
  unpack_nil : ∀ (m : Mem) (a : Int) (c : Int) (d : Datatype) (off : Nat),
    T.unpack m [] a c d off = (m, 0)

theorem Typerep.FollowsTypemap.pack_all {T : Typerep} (hT : T.FollowsTypemap) (m : Mem) (a : Int)
    (n : Nat) (d : Datatype) {k : Nat} (hk : n * d.size ≤ k) :
    T.pack m a n d 0 k = gather m (addrs a n d) := by
  obtain ⟨len, -, hp, -, hmax⟩ := hT.pack m a n d 0 k (boundary_zero _)
  have hlen : n * d.size ≤ len := by
    refine hmax _ hk ?_
    rw [Nat.zero_add, ← d.sigSize_signature n]
    exact boundary_total _
  rw [hp, drop_zero, take_of_length_le (by simpa using hlen)]

def Typerep.ref : Typerep where
  pack m a c d off k :=
    ((gather m (addrs a c.toNat d)).drop off).take (wholeLen (d.signature c.toNat) (off + k) - off)
  unpack m bs a c d off := (scatter m ((addrs a c.toNat d).drop off) bs,
    min bs.length (c.toNat * d.size - off))

theorem Typerep.ref_followsTypemap : Typerep.ref.FollowsTypemap where
  pack m a n d off k hoff := by
    have hle := wholeLen_le (d.signature n) (off + k)
    have hge : off ≤ wholeLen (d.signature n) (off + k) := le_wholeLen hoff (Nat.le_add_right _ _)
    refine ⟨wholeLen (d.signature n) (off + k) - off, by omega, rfl, ?_, fun len' hk hb => ?_⟩
    · rw [Nat.add_sub_of_le hge]
      exact wholeLen_boundary _ _
    · have := le_wholeLen hb (Nat.add_le_add_left hk off)
      omega
  unpack m bs a n d off _ _ := rfl
  unpack_nil m a c d off := by simp [Typerep.ref]

/-- The data that a call names: a count of elements at an address. The number of its bytes is one that
`MPI_Aint` holds. -/
structure TypedBuf where
  addr : Int
  count : Nat
  datatype : Datatype
  fits : count * datatype.size < 2 ^ 63

namespace TypedBuf

def total (b : TypedBuf) : Nat := b.count * b.datatype.size

def positions (b : TypedBuf) : List Int := addrs b.addr b.count b.datatype

def signature (b : TypedBuf) : List Basic := b.datatype.signature b.count

@[simp] theorem positions_length (b : TypedBuf) : b.positions.length = b.total := by
  simp [positions, total]

theorem sigSize_signature (b : TypedBuf) : sigSize b.signature = b.total :=
  b.datatype.sigSize_signature b.count

theorem positions_direct (b : TypedBuf) (h : b.datatype.isContig = true ∨ b.total = 0) :
    b.positions = block (b.addr + b.datatype.trueLb) b.total := by
  rcases h with h | h
  · rw [positions, addrs, b.datatype.displs_contig h, block_map_add]
    rfl
  · have hl : b.positions.length = 0 := by rw [positions_length, h]
    rw [length_eq_zero_iff.1 hl, h]
    rfl

end TypedBuf

def byteType : Datatype := ⟨true, [(0, ⟨0, 1, by decide, by decide⟩)], 1, true, 0, fun _ => by decide⟩

def everyOtherByte : Datatype :=
  ⟨false, [(0, ⟨0, 1, by decide, by decide⟩)], 2, false, 0, fun h => by cases h⟩

theorem Typerep.FollowsTypemap.pack_buf {T : Typerep} (hT : T.FollowsTypemap) (m : Mem)
    (b : TypedBuf) : T.pack m b.addr b.count b.datatype 0 b.total = gather m b.positions :=
  hT.pack_all m b.addr b.count b.datatype (Nat.le_refl _)

theorem Typerep.FollowsTypemap.unpack_buf {T : Typerep} (hT : T.FollowsTypemap) (m : Mem)
    (b : TypedBuf) {msg : List UInt8} (h : msg.length = b.total) :
    T.unpack m msg b.addr b.count b.datatype 0 = (scatter m b.positions msg, b.total) := by
  have hmin : min (0 + msg.length) (b.count * b.datatype.size) = b.total := by
    rw [h, Nat.zero_add]
    exact Nat.min_self _
  have hb : Boundary b.signature (min (0 + msg.length) (b.count * b.datatype.size)) := by
    rw [hmin, ← b.sigSize_signature]
    exact boundary_total _
  rw [hT.unpack m msg b.addr b.count b.datatype 0 (boundary_zero _) hb, drop_zero, h]
  exact congrArg _ (Nat.min_self _)

end PsMpi.Data
