import PsMpi.Data.PackedMsg

/-!
# The data of a message

A send names its data by address, count and datatype.
-/

open PsMpi.Lib PsMpi.Data

namespace PsMpi.Pt2pt

inductive RecvError
  | success
  | truncate
  | type

open TypedBuf

/-- `sendrequest_prepare_data`, `copy_data` (`mpid_isend.c:107`, `:135`). -/
def sendData (T : Typerep) (m : Mem) (b : TypedBuf) : Option (List UInt8) := packedMsgPack T m b

/-- `prepare_data`, `prepare_cleanup`, `receive_done_noncontig`, `receive_done`
(`mpid_irecv.c:335`, `:357`, `:107`, `:67`). -/
def recvData (T : Typerep) (m : Mem) (b : TypedBuf) (msg : List UInt8) : Mem × RecvError :=
  let r := packedMsgUnpack T m b msg
  (r.1, if b.total < msg.length then .truncate else if r.2 then .success else .type)

def Matching (s r : TypedBuf) : Prop := s.signature <+: r.signature ∨ r.signature <+: s.signature

/-- A message has been transferred: the bytes of the send typemap are in the receive typemap, in order
and as far as both go, nothing else has changed, and the error says whether there were more. -/
structure Transferred (ms : Mem) (s : TypedBuf) (mr : Mem) (r : TypedBuf) (out : Mem × RecvError) :
    Prop where
  data : ∀ (i : Nat) (p q : Int), s.positions[i]? = some p → r.positions[i]? = some q → out.1 q = ms p
  frame : ∀ q, q ∉ r.positions.take s.total → out.1 q = mr q
  error : out.2 = if r.total < s.total then .truncate else .success

def TransferOk (T : Typerep) (ms mr : Mem) (s r : TypedBuf) : Prop :=
  ∃ msg, sendData T ms s = some msg ∧ Transferred ms s mr r (recvData T mr r msg)

def CountsFit (s r : TypedBuf) : Prop :=
  (s.packed = true → s.count < 2 ^ 31) ∧
    (r.packed = true → min r.total s.total ≤ r.intCount.toNat * r.datatype.size)

variable {T : Typerep} {ms mr m : Mem} {s r b : TypedBuf}

theorem sendData_fails (hT : T.FollowsTypemap) (m : Mem) (hp : b.packed = true)
    (hi : 0 ≤ b.intCount) (h : 2 ^ 31 ≤ b.count) : sendData T m b = none := by
  obtain ⟨n, hn⟩ := Int.eq_ofNat_of_zero_le hi
  have hlt : n < b.count := by
    have := intCount_lt b
    rw [hn, Int.toNat_natCast] at this
    omega
  have hsize : 0 < b.datatype.size := Nat.pos_of_mul_pos_left (total_pos hp)
  have hless : n * b.datatype.size < b.total := Nat.mul_lt_mul_of_pos_right hlt hsize
  have hpack := hT.pack_all m b.addr n b.datatype (Nat.le_of_lt hless)
  simp only [sendData, packedMsgPack, hp, if_true, hn, hpack, gather_length, addrs_length]
  rw [if_neg (Nat.ne_of_lt hless)]

theorem Matching.boundary (h : Matching s r) :
    Boundary r.signature (min r.total s.total) := by
  have hs := s.sigSize_signature
  have hr := r.sigSize_signature
  rcases h with hp | hp
  · refine ⟨s.signature, hp, ?_⟩
    obtain ⟨u, hu⟩ := hp
    rw [← hu, sigSize_append] at hr
    omega
  · refine ⟨r.signature, List.prefix_rfl, ?_⟩
    obtain ⟨u, hu⟩ := hp
    rw [← hu, sigSize_append] at hs
    omega

theorem transferred_scatter (hnd : r.positions.Nodup) : Transferred ms s mr r
    (scatter mr r.positions (gather ms s.positions),
      if r.total < s.total then .truncate else .success) where
  data i p q hp hq := by
    refine scatter_get hnd hq ?_
    rw [gather, List.getElem?_map, hp]
    rfl
  frame q hq := scatter_frame (by simpa using hq)
  error := rfl

theorem transferOk_of_countsFit (hT : T.FollowsTypemap) (hsig : Matching s r)
    (hnd : r.positions.Nodup) (h : CountsFit s r) : TransferOk T ms mr s r := by
  refine ⟨_, packedMsgPack_eq hT ms h.1, ?_⟩
  have hlen : (gather ms s.positions).length = s.total := by simp
  rw [recvData, packedMsgUnpack_eq hT mr _ (by rw [hlen]; exact hsig.boundary)
    (by rw [hlen]; exact h.2), hlen]
  exact transferred_scatter hnd

/-! ## The counts that do not fit -/

theorem count_lt_of_transferOk (h : TransferOk Typerep.ref ms mr s r) (hp : s.packed = true) :
    s.count < 2 ^ 31 := by
  by_contra hge
  obtain ⟨msg, hmsg, -⟩ := h
  have hlt : s.intCount.toNat < s.count := by have := intCount_lt s; omega
  have hsize : 0 < s.datatype.size := Nat.pos_of_mul_pos_left (total_pos hp)
  have hless : s.intCount.toNat * s.datatype.size < s.total :=
    Nat.mul_lt_mul_of_pos_right hlt hsize
  simp only [sendData, packedMsgPack, hp, if_true, Typerep.ref, List.length_take, List.length_drop,
    gather_length, addrs_length] at hmsg
  rw [if_neg (by omega)] at hmsg
  cases hmsg

theorem unpack_le_of_transferOk (h : TransferOk Typerep.ref (fun _ => 1) (fun _ => 0) s r)
    (hnd : r.positions.Nodup) (hp : r.packed = true) :
    min r.total s.total ≤ r.intCount.toNat * r.datatype.size := by
  by_contra hgt
  obtain ⟨msg, -, htr⟩ := h
  have hr : r.intCount.toNat * r.datatype.size < r.positions.length := by
    rw [positions_length]; omega
  have hs : r.intCount.toNat * r.datatype.size < s.positions.length := by
    rw [positions_length]; omega
  have hone := htr.data _ _ _ (List.getElem?_eq_getElem hs) (List.getElem?_eq_getElem hr)
  simp only [recvData, packedMsgUnpack, hp, if_true, Typerep.ref, List.drop_zero] at hone
  rw [← positions_take (intCount_toNat_le r), scatter_frame] at hone
  · cases hone
  · intro hmem
    have hmem := List.mem_of_mem_take hmem
    obtain ⟨j, hj, he⟩ := List.mem_take_iff_getElem.1 hmem
    have := hnd.getElem_inj_iff.1 he
    omega

/-- Exactly when the counts fit, a matching receive gets the data of a send, whatever is in the two
memories and with every datatype engine that follows the typemap. -/
theorem transfer_exact (s r : TypedBuf) (hsig : Matching s r) (hnd : r.positions.Nodup) :
    (∀ T : Typerep, T.FollowsTypemap → ∀ ms mr, TransferOk T ms mr s r) ↔ CountsFit s r := by
  constructor
  · intro h
    have href := h Typerep.ref Typerep.ref_followsTypemap (fun _ => 1) (fun _ => 0)
    exact ⟨count_lt_of_transferOk href, unpack_le_of_transferOk href hnd⟩
  · exact fun h T hT ms mr => transferOk_of_countsFit hT hsig hnd h

/-- Three bytes that are packed are received into two contiguous ones and truncated. -/
theorem transfer_exact_truncates :
    TransferOk Typerep.ref (fun _ => 1) (fun _ => 0) ⟨0, 3, everyOtherByte, by decide⟩
      ⟨100, 2, byteType, by decide⟩ :=
  (transfer_exact ⟨0, 3, everyOtherByte, by decide⟩ ⟨100, 2, byteType, by decide⟩
    (.inr (by decide)) (by decide)).2 ⟨fun _ => by decide, fun h => by cases h⟩
    Typerep.ref Typerep.ref_followsTypemap (fun _ => 1) (fun _ => 0)

/-- A send of `2 ^ 32 + 1` bytes that are not contiguous: the packing function is asked for one byte
only, and the assertion that all has been packed fails. -/
theorem transfer_count_overflow :
    ¬ ∀ s r : TypedBuf, Matching s r → r.positions.Nodup → ∀ T : Typerep, T.FollowsTypemap →
      ∀ ms mr, TransferOk T ms mr s r := by
  intro h
  have hnd : TypedBuf.positions ⟨0, 2 ^ 32 + 1, byteType, by decide⟩ |>.Nodup := by
    rw [positions_direct _ (.inl rfl)]
    exact block_nodup _ _
  obtain ⟨msg, hmsg, -⟩ := h ⟨0, 2 ^ 32 + 1, everyOtherByte, by decide⟩
    ⟨0, 2 ^ 32 + 1, byteType, by decide⟩ (.inl List.prefix_rfl) hnd Typerep.ref
    Typerep.ref_followsTypemap (fun _ => 0) (fun _ => 0)
  rw [sendData_fails Typerep.ref_followsTypemap _ (by decide) (by decide) (by decide)] at hmsg
  cases hmsg

end PsMpi.Pt2pt
