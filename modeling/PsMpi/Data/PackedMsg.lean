import PsMpi.Data.Datatype

/-!
# Packed messages
-/

open PsMpi.Lib

namespace PsMpi.Data

namespace TypedBuf

def intCount (b : TypedBuf) : Int :=
  if b.count % 2 ^ 32 < 2 ^ 31 then (b.count % 2 ^ 32 : Nat) else (b.count % 2 ^ 32 : Nat) - 2 ^ 32

/-- `MPID_PSP_packed_msg_prepare` (`mpid_psp_packed_msg.h:50-58`). -/
def packed (b : TypedBuf) : Bool := !(b.datatype.isContig || b.total == 0)

/-- Prepare and pack a message. `MPID_PSP_packed_msg_prepare`, `MPID_PSP_packed_msg_pack`
(:39, :77). -/
def packedMsgPack (T : Typerep) (m : Mem) (b : TypedBuf) : Option (List UInt8) :=
  if b.packed then
    let bytes := T.pack m b.addr b.intCount b.datatype 0 b.total
    if bytes.length = b.total then some bytes else none
  else
    some (gather m (block (b.addr + b.datatype.trueLb) b.total))

/-- `MPID_PSP_packed_msg_prepare`, `MPID_PSP_packed_msg_unpack` (:39, :101). -/
def packedMsgUnpack (T : Typerep) (m : Mem) (b : TypedBuf) (msg : List UInt8) : Mem × Bool :=
  if b.packed then
    let bytes := msg.take b.total
    let r := T.unpack m bytes b.addr b.intCount b.datatype 0
    (r.1, r.2 == bytes.length)
  else
    (scatter m (block (b.addr + b.datatype.trueLb) b.total) msg, true)

end TypedBuf

open TypedBuf

variable {T : Typerep} {m : Mem} {b : TypedBuf} {msg : List UInt8}

theorem intCount_of_lt (h : b.count < 2 ^ 31) : b.intCount = b.count := by
  unfold intCount
  split <;> omega

theorem intCount_toNat_le (b : TypedBuf) : b.intCount.toNat ≤ b.count := by
  unfold intCount
  split <;> omega

theorem intCount_lt (b : TypedBuf) : b.intCount.toNat < 2 ^ 31 := by
  unfold intCount
  split <;> omega

theorem packed_eq_false (h : b.packed = false) : b.datatype.isContig = true ∨ b.total = 0 := by
  simpa [packed, or_iff_not_imp_left] using h

theorem total_pos (h : b.packed = true) : 0 < b.total := by
  simp only [packed, Bool.not_eq_true', Bool.or_eq_false_iff, beq_eq_false_iff_ne] at h
  omega

theorem packedMsgPack_eq (hT : T.FollowsTypemap) (m : Mem)
    (h : b.packed = true → b.count < 2 ^ 31) :
    packedMsgPack T m b = some (gather m b.positions) := by
  unfold packedMsgPack
  cases hp : b.packed with
  | false => rw [if_neg (by simp), positions_direct b (packed_eq_false hp)]
  | true =>
    have hpack : T.pack m b.addr b.intCount b.datatype 0 b.total = gather m b.positions := by
      rw [intCount_of_lt (h hp)]
      exact hT.pack_all m b.addr b.count b.datatype (Nat.le_refl _)
    simp [hpack]

theorem positions_take {n : Nat} (h : n ≤ b.count) :
    b.positions.take (n * b.datatype.size) = addrs b.addr n b.datatype := by
  have hp : addrs b.addr n b.datatype <+: b.positions := (b.datatype.displs_prefix h).map _
  rw [List.prefix_iff_eq_take.1 hp, addrs_length]

theorem boundary_of_le {d : Datatype} {n k len : Nat} (h : n ≤ k) (hb : Boundary (d.signature k) len)
    (hlen : len ≤ n * d.size) : Boundary (d.signature n) len := by
  obtain ⟨t, ht, rfl⟩ := hb
  rcases List.prefix_or_prefix_of_prefix ht (d.signature_prefix h) with hp | hp
  · exact ⟨t, hp, rfl⟩
  · refine ⟨d.signature n, List.prefix_rfl, ?_⟩
    obtain ⟨u, rfl⟩ := hp
    rw [sigSize_append] at hlen ⊢
    rw [d.sigSize_signature] at hlen ⊢
    omega

theorem packedMsgUnpack_eq (hT : T.FollowsTypemap) (m : Mem) (msg : List UInt8)
    (hb : Boundary b.signature (min b.total msg.length))
    (h : b.packed = true → min b.total msg.length ≤ b.intCount.toNat * b.datatype.size) :
    packedMsgUnpack T m b msg = (scatter m b.positions msg, true) := by
  unfold packedMsgUnpack
  cases hp : b.packed with
  | false => rw [if_neg (by simp), positions_direct b (packed_eq_false hp)]
  | true =>
    have hlen : (msg.take b.total).length = min b.total msg.length := List.length_take
    have hunpack : T.unpack m (msg.take b.total) b.addr b.intCount b.datatype 0 =
        (scatter m b.positions msg, min b.total msg.length) := by
      rcases Int.lt_or_le b.intCount 0 with hneg | hpos
      · -- a negative count does no harm to an empty message
        have hz : min b.total msg.length = 0 := by
          have := h hp
          rw [Int.toNat_of_nonpos (Int.le_of_lt hneg)] at this
          omega
        have hnil : msg.take b.total = [] := List.length_eq_zero_iff.1 (hlen.trans hz)
        rw [hnil, hT.unpack_nil, hz,
          ← scatter_take m b.positions msg (Nat.le_of_eq (positions_length b)), hnil, scatter_nil]
      · obtain ⟨n, hn⟩ := Int.eq_ofNat_of_zero_le hpos
        have hle : n ≤ b.count := by have := intCount_toNat_le b; rw [hn] at this; simpa using this
        have hfit : min b.total msg.length ≤ n * b.datatype.size := by
          have := h hp
          rw [hn] at this
          simpa using this
        have hmin : min (0 + (msg.take b.total).length) (n * b.datatype.size) =
            min b.total msg.length := by omega
        rw [hn, hT.unpack _ _ _ _ _ _ (boundary_zero _)
          (by rw [hmin]; exact boundary_of_le hle hb hfit), List.drop_zero,
          ← positions_take hle, scatter_take_left _ _ _ (by omega),
          scatter_take _ _ _ (by simp)]
        congr 1
        omega
    simp [hunpack, hlen]

end PsMpi.Data
