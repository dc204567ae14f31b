import PsMpi.Data.Localcopy
import PsMpi.Data.PackedMsg

/-!
# The data of puts and gets
-/

open PsMpi.Lib PsMpi.Data

namespace PsMpi.Rma

/-! ## Windows -/

structure RankInfo where
  baseAddr : Int
  dispUnit : Int

/-- `MPID_Win_create`, `MPID_PSP_Win_allocate_shared` (`mpid_rma.c:248`, `:1120`). -/
structure WinData where
  size : Nat
  rank : Nat
  shared : Bool
  base : Int
  dispUnit : Int
  rankInfo : Nat → RankInfo
  shmAttr : Option (Nat → RankInfo)
  rank_lt : rank < size
  own : rankInfo rank = ⟨base, dispUnit⟩
  shm : ∀ a, shmAttr = some a → a rank = ⟨base, dispUnit⟩ ∧
    ∀ r, (a r).dispUnit = (rankInfo r).dispUnit
  alone : shared = true → shmAttr = none → size = 1

/-- `MPID_PSP_shm_rma_get_base` (:826). -/
def WinData.shmRmaGetBase (w : WinData) (rank : Nat) : Option RankInfo :=
  match w.shmAttr with
  | some a => some (a rank)
  | none => if rank = w.rank then some ⟨w.base, w.dispUnit⟩ else none

/-- `MPIDI_PSP_Put_generic`, `MPIDI_PSP_Get_generic` (`mpid_rma_put.c:96-102`,
`mpid_rma_get.c:115-121`). -/
def WinData.localBase (w : WinData) (target : Nat) : Option RankInfo :=
  if w.shared then w.shmRmaGetBase target else some ⟨w.base, w.dispUnit⟩

def WinData.isLocal (w : WinData) (target : Nat) : Bool := target == w.rank || w.shared

/-- Where the window of a target begins in the memory in which the origin finds it. -/
def WinData.place (w : WinData) (target : Nat) : RankInfo :=
  if w.isLocal target then (w.localBase target).getD ⟨w.base, w.dispUnit⟩
  else w.rankInfo target

/-! ## Datatypes in messages -/

/-- `MPIR_Typerep_flatten`, `MPIR_Typerep_unflatten`, `MPIR_Typerep_flatten_size`
(`typerep_flatten.c`). -/
structure Flattener where
  Flat : Type
  flatten : Datatype → Flat
  unflatten : Flat → Datatype
  flattenSize : Flat → Nat

def Flattener.Lossless (F : Flattener) : Prop := ∀ d, F.unflatten (F.flatten d) = d

/-- A datatype in the header of a message: a predefined one is sent by its handle. -/
inductive Encoded (F : Flattener)
  | handle (d : Datatype)
  | flat (f : F.Flat)

/-- `MPID_PSP_Datatype_encode` (`mpid_psp_datatype.c:18`). -/
def datatypeEncode (F : Flattener) (d : Datatype) : Encoded F :=
  if d.predefined then .handle d else .flat (F.flatten d)

/-- `MPID_PSP_Datatype_decode` (:44). -/
def datatypeDecode {F : Flattener} : Encoded F → Datatype
  | .handle d => d
  | .flat f => F.unflatten f

/-- `MPID_PSP_Datatype_get_size` (`mpid_psp_datatype.h:78`). -/
def datatypeGetSize (F : Flattener) (d : Datatype) : Nat :=
  (if d.predefined then 0 else F.flattenSize (F.flatten d)) + 24

/-- The header of a message with an encoded datatype fits in the header of pscom, whose length field
has two bytes. `MPIDI_PSP_Put_generic`, `MPIDI_PSP_Get_generic` (`mpid_rma_put.c:190`,
`mpid_rma_get.c:196`). -/
def HeaderFits (F : Flattener) (sizeofHeader : Nat) (d : Datatype) : Prop :=
  sizeofHeader + datatypeGetSize F d < 1 <<< (8 * 2)

instance (F : Flattener) (k : Nat) (d : Datatype) : Decidable (HeaderFits F k d) :=
  inferInstanceAs (Decidable (_ < _))

def sizeofPutHeader : Nat := 32

def sizeofGetHeader : Nat := 48

def TypedBuf.of? (addr : Int) (count : Nat) (d : Datatype) : Option TypedBuf :=
  if h : count * d.size < 2 ^ 63 then some ⟨addr, count, d, h⟩ else none

/-! ## Puts and gets -/

structure RmaOp where
  origin : TypedBuf
  target : Nat
  targetDisp : Int
  targetCount : Nat
  targetDatatype : Datatype
  originInt : origin.count < 2 ^ 31
  targetInt : targetCount < 2 ^ 31
  targetFits : targetCount * targetDatatype.size < 2 ^ 63

def RmaOp.targetBuf (op : RmaOp) (p : RankInfo) : TypedBuf :=
  ⟨p.baseAddr + p.dispUnit * op.targetDisp, op.targetCount, op.targetDatatype, op.targetFits⟩

structure Mems where
  origin : Mem
  target : Mem

/-- `MPID_do_recv_rma_put`, `rma_put_receive_done` (`mpid_rma_put.c:290`, `:263`).
-/
def doRecvRmaPut {F : Flattener} (T : Typerep) (m : Mem) (addr : Int) (count : Nat)
    (encodedType : Encoded F) (msg : List UInt8) : Option Mem :=
  (TypedBuf.of? addr count (datatypeDecode encodedType)).map fun b =>
    (b.packedMsgUnpack T m msg).1

/-- `MPID_do_recv_rma_get_req`, `io_done_get_answer_recv` (`mpid_rma_get.c:350`,
`:304`). -/
def doRecvRmaGetReq {F : Flattener} (T : Typerep) (m : Mem) (addr : Int) (count : Nat)
    (encodedType : Encoded F) : Option (List UInt8) :=
  (TypedBuf.of? addr count (datatypeDecode encodedType)).bind fun b => b.packedMsgPack T m

/-- `MPIDI_PSP_Put_generic` (`mpid_rma_put.c:43`). -/
def putGeneric (pscomRmaApi : Bool) (T : Typerep) (F : Flattener) (w : WinData) (op : RmaOp)
    (s : Mems) : Option Mems :=
  if w.isLocal op.target then do
    let p ← w.localBase op.target
    let m ← localcopy T s.origin op.origin (op.targetBuf p)
    return { s with origin := m }
  else do
    let msg ← op.origin.packedMsgPack T s.origin
    let targetBuf := (op.targetBuf (w.rankInfo op.target)).addr
    if pscomRmaApi && op.targetDatatype.isContig then
      let targetAddr := targetBuf + op.targetDatatype.trueLb
      return { s with target := scatter s.target (block targetAddr msg.length) msg }
    else if HeaderFits F sizeofPutHeader op.targetDatatype then
      let m ← doRecvRmaPut T s.target targetBuf op.targetCount
        (datatypeEncode F op.targetDatatype) msg
      return { s with target := m }
    else
      none

/-- `MPIDI_PSP_Get_generic`, `io_done_rma_get_answer` (`mpid_rma_get.c:62`,
`:39`). -/
def getGeneric (pscomRmaApi : Bool) (T : Typerep) (F : Flattener) (w : WinData) (op : RmaOp)
    (s : Mems) : Option Mems :=
  if w.isLocal op.target then do
    let p ← w.localBase op.target
    let m ← localcopy T s.origin (op.targetBuf p) op.origin
    return { s with origin := m }
  else
    let targetBuf := (op.targetBuf (w.rankInfo op.target)).addr
    if pscomRmaApi && op.targetDatatype.isContig && op.origin.datatype.isContig then
      let targetAddr := targetBuf + op.targetDatatype.trueLb
      let originAddr := op.origin.addr + op.origin.datatype.trueLb
      let len := op.origin.total
      some { s with
        origin := scatter s.origin (block originAddr len) (gather s.target (block targetAddr len)) }
    else if HeaderFits F sizeofGetHeader op.targetDatatype then do
      let msg ← doRecvRmaGetReq T s.target targetBuf op.targetCount
        (datatypeEncode F op.targetDatatype)
      return { s with origin := (op.origin.packedMsgUnpack T s.origin msg).1 }
    else
      none

/-! ## What they are for -/

/-- Puts and gets name data that can be moved: both sides have the same basic types, the target is a
rank of the window, and within one memory the two sides do not overlap. -/
structure RmaOp.Valid (op : RmaOp) (w : WinData) : Prop where
  target_lt : op.target < w.size
  sig : op.origin.signature = (op.targetBuf (w.place op.target)).signature
  disjoint : w.isLocal op.target = true →
    ∀ p ∈ op.origin.positions, p ∉ (op.targetBuf (w.place op.target)).positions

/-- The memories after a put: the bytes of the origin typemap are in the target typemap. -/
def putSpec (w : WinData) (op : RmaOp) (s : Mems) : Mems :=
  let positions := (op.targetBuf (w.place op.target)).positions
  let bytes := gather s.origin op.origin.positions
  if w.isLocal op.target then { s with origin := scatter s.origin positions bytes }
  else { s with target := scatter s.target positions bytes }

/-- The memories after a get: the bytes of the target typemap are in the origin typemap. -/
def getSpec (w : WinData) (op : RmaOp) (s : Mems) : Mems :=
  let positions := (op.targetBuf (w.place op.target)).positions
  let bytes := gather (if w.isLocal op.target then s.origin else s.target) positions
  { s with origin := scatter s.origin op.origin.positions bytes }

variable {T : Typerep} {F : Flattener} {w : WinData} {op : RmaOp} {s : Mems}

/-! ## All ways do the same -/

theorem WinData.localBase_eq {target : Nat} (h : target < w.size) (hl : w.isLocal target = true) :
    w.localBase target = some (w.place target) := by
  unfold place localBase shmRmaGetBase
  rw [if_pos hl]
  cases hs : w.shared with
  | false => rfl
  | true =>
    cases ha : w.shmAttr with
    | some a => rfl
    | none =>
      -- a shared window without mapped segments has one process
      have htarget : target = w.rank := by
        have := w.alone hs ha
        have := w.rank_lt
        omega
      simp [htarget]

theorem WinData.place_dispUnit {target : Nat} (h : target < w.size) :
    (w.place target).dispUnit = (w.rankInfo target).dispUnit := by
  unfold place
  split
  · rename_i hl
    unfold localBase shmRmaGetBase
    cases hs : w.shared with
    | false =>
      have htarget : target = w.rank := by simpa [isLocal, hs] using hl
      simp [htarget, w.own]
    | true =>
      cases ha : w.shmAttr with
      | some a => simp [(w.shm a ha).2]
      | none =>
        have htarget : target = w.rank := by
          have := w.alone hs ha
          have := w.rank_lt
          omega
        simp [htarget, w.own]
  · rfl

theorem datatypeDecode_encode (hF : F.Lossless) (d : Datatype) :
    datatypeDecode (datatypeEncode F d) = d := by
  unfold datatypeEncode
  split
  · rfl
  · exact hF d

theorem of?_decode (hF : F.Lossless) (op : RmaOp) (p : RankInfo) :
    TypedBuf.of? (op.targetBuf p).addr op.targetCount
      (datatypeDecode (datatypeEncode F op.targetDatatype)) = some (op.targetBuf p) := by
  rw [datatypeDecode_encode hF]
  exact dif_pos op.targetFits

theorem RmaOp.Valid.total (h : op.Valid w) (p : RankInfo) :
    (op.targetBuf p).total = op.origin.total := by
  rw [← op.origin.sigSize_signature, h.sig]
  exact ((op.targetBuf (w.place op.target)).sigSize_signature).symm

theorem packedMsgUnpack_all (hT : T.FollowsTypemap) (m : Mem) {b : TypedBuf} (hb : b.count < 2 ^ 31)
    {msg : List UInt8} (h : msg.length = b.total) :
    b.packedMsgUnpack T m msg = (scatter m b.positions msg, true) := by
  have hmin : min b.total msg.length = b.total := by rw [h, Nat.min_self]
  refine packedMsgUnpack_eq hT m msg ?_ fun _ => ?_
  · rw [hmin, ← b.sigSize_signature]
    exact boundary_total _
  · rw [hmin, intCount_of_lt hb, Int.toNat_natCast]
    exact Nat.le_refl _

theorem put_eq (pscomRmaApi : Bool) (hT : T.FollowsTypemap) (hF : F.Lossless) (hv : op.Valid w)
    (hh : w.isLocal op.target = false → (pscomRmaApi && op.targetDatatype.isContig) = false →
      HeaderFits F sizeofPutHeader op.targetDatatype) (s : Mems) :
    putGeneric pscomRmaApi T F w op s = some (putSpec w op s) := by
  unfold putGeneric putSpec
  cases hl : w.isLocal op.target with
  | true =>
    simp only [if_true]
    rw [WinData.localBase_eq hv.target_lt hl]
    simp [localcopy_eq hT s.origin hv.sig (hv.disjoint hl)]
  | false =>
    have hplace : w.place op.target = w.rankInfo op.target := by simp [WinData.place, hl]
    have hlen : (gather s.origin op.origin.positions).length =
        (op.targetBuf (w.rankInfo op.target)).total := by rw [hv.total]; simp
    simp only [Bool.false_eq_true, if_false, packedMsgPack_eq hT s.origin fun _ => op.originInt,
      Option.bind_eq_bind, Option.bind_some, hplace]
    split
    · rename_i hc
      have htarget := TypedBuf.positions_direct (op.targetBuf (w.rankInfo op.target))
        (.inl (Bool.and_eq_true_iff.1 hc).2)
      rw [hlen, htarget]
      rfl
    · rename_i hc
      rw [if_pos (hh hl (by simpa using hc)), doRecvRmaPut, of?_decode hF]
      simp only [Option.map_some, Option.bind_some]
      rw [packedMsgUnpack_all hT s.target op.targetInt hlen]
      rfl

theorem get_eq (pscomRmaApi : Bool) (hT : T.FollowsTypemap) (hF : F.Lossless) (hv : op.Valid w)
    (hh : w.isLocal op.target = false →
      (pscomRmaApi && op.targetDatatype.isContig && op.origin.datatype.isContig) = false →
      HeaderFits F sizeofGetHeader op.targetDatatype) (s : Mems) :
    getGeneric pscomRmaApi T F w op s = some (getSpec w op s) := by
  unfold getGeneric getSpec
  cases hl : w.isLocal op.target with
  | true =>
    simp only [if_true]
    rw [WinData.localBase_eq hv.target_lt hl]
    have hd : ∀ p ∈ (op.targetBuf (w.place op.target)).positions, p ∉ op.origin.positions :=
      fun p hp ho => hv.disjoint hl p ho hp
    simp [localcopy_eq hT s.origin hv.sig.symm hd]
  | false =>
    have hplace : w.place op.target = w.rankInfo op.target := by simp [WinData.place, hl]
    have htotal := hv.total (w.rankInfo op.target)
    simp only [Bool.false_eq_true, if_false, hplace]
    split
    · rename_i hc
      obtain ⟨hc, horigin⟩ := Bool.and_eq_true_iff.1 hc
      have htarget := TypedBuf.positions_direct (op.targetBuf (w.rankInfo op.target))
        (.inl (Bool.and_eq_true_iff.1 hc).2)
      rw [op.origin.positions_direct (.inl horigin), htarget, htotal]
      rfl
    · rename_i hc
      have hlen : (gather s.target (op.targetBuf (w.rankInfo op.target)).positions).length =
          op.origin.total := by simp [htotal]
      rw [if_pos (hh hl (by simpa using hc)), doRecvRmaGetReq, of?_decode hF]
      simp only [Option.bind_eq_bind, Option.bind_some]
      rw [packedMsgPack_eq hT s.target fun _ => op.targetInt]
      simp only [Option.bind_some]
      rw [packedMsgUnpack_all hT s.origin op.originInt hlen]
      rfl

end PsMpi.Rma
