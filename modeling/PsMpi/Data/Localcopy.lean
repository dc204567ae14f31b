import PsMpi.Data.Datatype

/-!
# Copies within one memory

`MPIR_Localcopy` copies between two buffers of a process.
-/

open PsMpi.Lib

namespace PsMpi.Data

/-- `COPY_BUFFER_SZ` (`utils.c:47`). -/
def copyBufferSz : Nat := 16384

/-- `do_localcopy` (:179-218). -/
def localcopyLoop (T : Typerep) (s r : TypedBuf) (copySz : Nat) :
    (fuel : Nat) → Mem → (sfirst rfirst : Nat) → Option Mem
  | 0, _, _, _ => none
  | fuel + 1, m, sfirst, rfirst =>
    let maxPackBytes :=
      if copyBufferSz < copySz - sfirst then copyBufferSz else copySz - sfirst
    let bytes := T.pack m s.addr s.count s.datatype sfirst maxPackBytes
    if bytes.length = 0 then none
    else
      let u := T.unpack m bytes r.addr r.count r.datatype rfirst
      if u.2 = 0 then none
      else if bytes.length ≠ u.2 then none
      else if rfirst + u.2 = copySz then some u.1
      else localcopyLoop T s r copySz fuel u.1 (sfirst + bytes.length) (rfirst + u.2)

/-- `MPIR_Localcopy`, `do_localcopy` (:381, :56). -/
def localcopy (T : Typerep) (m : Mem) (s r : TypedBuf) : Option Mem :=
  if s.total = 0 ∨ r.total = 0 then some m
  else
    let copySz := if r.total < s.total then r.total else s.total
    if s.datatype.isContig then
      let u := T.unpack m (gather m (block (s.addr + s.datatype.trueLb) copySz)) r.addr r.count
        r.datatype 0
      if u.2 = copySz then some u.1 else none
    else if r.datatype.isContig then
      let bytes := T.pack m s.addr s.count s.datatype 0 copySz
      if bytes.length = copySz then
        some (scatter m (block (r.addr + r.datatype.trueLb) copySz) bytes)
      else
        none
    else
      localcopyLoop T s r copySz copySz m 0 0

variable {T : Typerep} {m m₀ : Mem} {s r : TypedBuf}

def copied (m₀ : Mem) (s r : TypedBuf) (off : Nat) : Mem :=
  scatter m₀ (r.positions.take off) ((gather m₀ s.positions).take off)

theorem copied_add (m₀ : Mem) {off len : Nat} (hs : off + len ≤ s.total) (hr : off + len ≤ r.total) :
    scatter (copied m₀ s r off) (r.positions.drop off)
      (((gather m₀ s.positions).drop off).take len) = copied m₀ s r (off + len) := by
  have hlen : (((gather m₀ s.positions).drop off).take len).length = len := by
    simp only [List.length_take, List.length_drop, gather_length, TypedBuf.positions_length]
    omega
  rw [copied, copied, List.take_add, List.take_add, scatter_append,
    scatter_take_left _ _ _ (Nat.le_of_eq hlen)]
  simp only [List.length_take, gather_length, TypedBuf.positions_length]
  omega

theorem gather_copied (hd : ∀ p ∈ s.positions, p ∉ r.positions) (off : Nat) :
    gather (copied m₀ s r off) s.positions = gather m₀ s.positions :=
  gather_scatter fun p hp hr => hd p hp (List.mem_of_mem_take hr)

theorem localcopyLoop_eq (hT : T.FollowsTypemap) (hsig : s.signature = r.signature)
    (hd : ∀ p ∈ s.positions, p ∉ r.positions) {fuel off : Nat} (hoff : Boundary s.signature off)
    (hlt : off < s.total) (hfuel : s.total - off ≤ fuel) :
    localcopyLoop T s r s.total fuel (copied m₀ s r off) off off =
      some (copied m₀ s r s.total) := by
  have htotal : r.total = s.total := by rw [← s.sigSize_signature, hsig, r.sigSize_signature]
  induction fuel generalizing off with
  | zero => omega
  | succ fuel ih =>
    unfold localcopyLoop
    set k := if copyBufferSz < s.total - off then copyBufferSz else s.total - off with hk
    have hkle : k ≤ s.total - off := by rw [hk]; split <;> omega
    -- a round packs at least one element
    obtain ⟨b, hb⟩ := hoff.next (by rw [s.sigSize_signature]; exact hlt)
    have hbk : b.size ≤ k := by
      have := b.le
      have := hb.le
      rw [s.sigSize_signature] at this
      rw [hk, copyBufferSz]
      split <;> omega
    obtain ⟨len, hlen, hpack, hbound, hmax⟩ := hT.pack (copied m₀ s r off) s.addr s.count
      s.datatype off k hoff
    have hpos : 0 < len := Nat.lt_of_lt_of_le b.pos (hmax _ hbk hb)
    rw [← TypedBuf.positions, gather_copied hd] at hpack
    have hbytes : (((gather m₀ s.positions).drop off).take len).length = len := by
      simp only [List.length_take, List.length_drop, gather_length, TypedBuf.positions_length]
      omega
    have hround := hT.unpack (copied m₀ s r off) (((gather m₀ s.positions).drop off).take len) r.addr
      r.count r.datatype off (by rw [← TypedBuf.signature, ← hsig]; exact hoff) (by
        rw [← TypedBuf.signature, ← hsig, hbytes, ← TypedBuf.total, htotal,
          Nat.min_eq_left (by omega)]
        exact hbound)
    rw [← TypedBuf.positions, copied_add m₀ (by omega) (by omega), hbytes, ← TypedBuf.total, htotal,
      Nat.min_eq_left (by omega)] at hround
    simp only [hpack, hround, hbytes]
    rw [if_neg (by omega), if_neg (by omega), if_neg (by simp)]
    split
    · rename_i he
      rw [he]
    · exact ih hbound (by omega) (by omega)

theorem localcopy_eq (hT : T.FollowsTypemap) (m : Mem) (hsig : s.signature = r.signature)
    (hd : ∀ p ∈ s.positions, p ∉ r.positions) :
    localcopy T m s r = some (scatter m r.positions (gather m s.positions)) := by
  have htotal : r.total = s.total := by rw [← s.sigSize_signature, hsig, r.sigSize_signature]
  have hall : copied m s r s.total = scatter m r.positions (gather m s.positions) := by
    rw [copied, List.take_of_length_le (by simp [htotal]), List.take_of_length_le (by simp)]
  unfold localcopy
  split
  · rename_i h
    have hz : s.total = 0 := by omega
    have hnil : s.positions = [] := List.length_eq_zero_iff.1 (by simp [hz])
    simp [hnil, gather]
  · rw [htotal, if_neg (Nat.lt_irrefl _)]
    split
    · rename_i hc
      have hlen : (gather m s.positions).length = r.total := by simp [htotal]
      have hround := hT.unpack_buf m r hlen
      simp only [← s.positions_direct (.inl hc), hround, htotal, if_true]
    · split
      · rename_i hc
        have hblock := r.positions_direct (.inl hc)
        rw [htotal] at hblock
        simp [hT.pack_buf, ← hblock]
      · have hstart : copied m s r 0 = m := by simp [copied]
        have hloop : localcopyLoop T s r s.total s.total (copied m s r 0) 0 0 = _ :=
          localcopyLoop_eq hT hsig hd (boundary_zero _) (by omega) (Nat.sub_le _ _)
        rwa [hstart, hall] at hloop

end PsMpi.Data
