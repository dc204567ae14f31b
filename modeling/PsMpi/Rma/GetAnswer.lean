import PsMpi.Lib.Pairing
import PsMpi.Lib.Trans
import PsMpi.Rma.Data

/-!
# Gets that wait for their answers
-/

open PsMpi.Lib PsMpi.Data List

namespace PsMpi.Rma

structure Get where
  id : Nat
  origin : TypedBuf
  target : TypedBuf
  originInt : origin.count < 2 ^ 31
  targetInt : target.count < 2 ^ 31
  sig : origin.signature = target.signature

/-- `MPIDI_PSP_PSCOM_Xheader_rma_get_mem_locations_t` (`mpidpre.h:133`). -/
structure MemLocations where
  originAddr : Int
  targetBuf : Int
  deriving DecidableEq

def Get.memLocations (g : Get) : MemLocations := ⟨g.origin.addr, g.target.addr⟩

/-- An answer on its way. `get` is the get that it answers and `mem` the memory of the target when it
was made; neither is sent. -/
structure Answer where
  memLocations : MemLocations
  data : List UInt8
  get : Get
  mem : Mem

/-- One connection: requests and answers on their way, and the meeting of the answers with the
receives for them. -/
structure GetSt where
  originMem : Mem
  targetMem : Mem
  requests : List Get
  answers : List Answer
  meet : Pairing Get Answer

inductive GetAct
  | get (origin target : TypedBuf) (originInt : origin.count < 2 ^ 31)
      (targetInt : target.count < 2 ^ 31) (sig : origin.signature = target.signature)
  | request
  | answer
  | originStore (m : Mem)
  | targetStore (m : Mem)

namespace GetSt

/-- `accept_rma_get_answer` (`mpid_rma_get.c:24`). -/
def receiver (s : GetSt) (a : Answer) : Option Get :=
  (pick? (fun g => decide (g.memLocations = a.memLocations)) s.meet.waiting).map (·.1)

/-- `io_done_rma_get_answer` (:39). -/
def ioDoneRmaGetAnswer (T : Typerep) (s : GetSt) (a : Answer) (rest : List Answer) : GetSt :=
  { s with
    answers := rest
    originMem :=
      match s.receiver a with
      | some g => (g.origin.packedMsgUnpack T s.originMem a.data).1
      | none => s.originMem
    meet := s.meet.answer Get.memLocations Answer.memLocations a }

/-- `MPIDI_PSP_Get_generic`, `io_done_get_answer_recv` (:185-262,
:304). -/
def step (T : Typerep) (s : GetSt) : GetAct → Option GetSt
  | .get origin target ho ht hs =>
    let g : Get := ⟨s.meet.reqs.length, origin, target, ho, ht, hs⟩
    some { s with
      requests := s.requests ++ [g]
      meet := s.meet.request Get.memLocations Answer.memLocations g }
  | .request =>
    match s.requests with
    | [] => none
    | g :: rest =>
      (g.target.packedMsgPack T s.targetMem).map fun data =>
        { s with requests := rest, answers := s.answers ++ [⟨g.memLocations, data, g, s.targetMem⟩] }
  | .answer =>
    match s.answers with
    | [] => none
    | a :: rest => some (s.ioDoneRmaGetAnswer T a rest)
  | .originStore m => some { s with originMem := m }
  | .targetStore m => some { s with targetMem := m }

/-- What gets on one connection promise: every answer has been taken by the get that asked for it,
none is left over, a request that arrives is answered, and an answer that arrives puts the data that
the target had when it answered into the origin buffer of its own get. -/
structure GetsOk (T : Typerep) (s : GetSt) : Prop where
  own : ∀ p ∈ s.meet.pairs, p.1 = p.2.get
  noneKept : s.meet.kept = []
  answered : s.requests ≠ [] → (s.step T .request).isSome = true
  unpacked : ∀ a rest, s.answers = a :: rest → ∃ s', s.step T .answer = some s' ∧
    s'.originMem = scatter s.originMem a.get.origin.positions (gather a.mem a.get.target.positions)

structure Ok (s : GetSt) : Prop where
  fifo : Pairing.Fifo Get.memLocations Answer.memLocations s.meet
  order : (s.meet.anss ++ s.answers).map (·.get) ++ s.requests = s.meet.reqs
  answers : ∀ a ∈ s.meet.anss ++ s.answers, a.memLocations = a.get.memLocations ∧
    a.data = gather a.mem a.get.target.positions

def init (originMem targetMem : Mem) : GetSt := ⟨originMem, targetMem, [], [], .init⟩

theorem init_ok (originMem targetMem : Mem) : (init originMem targetMem).Ok :=
  ⟨Pairing.init_fifo, rfl, fun _ h => absurd h not_mem_nil⟩

variable {T : Typerep} {s s' : GetSt} {a : GetAct}

theorem step_ok (hT : T.FollowsTypemap) (h : s.Ok) (hst : s.step T a = some s') : s'.Ok := by
  cases a with
  | get origin target ho ht hs =>
    cases hst
    refine ⟨Pairing.request_fifo h.fifo _, ?_, by simpa using h.answers⟩
    simp [← h.order]
  | request =>
    simp only [step] at hst
    split at hst
    · cases hst
    · rename_i g rest hr
      obtain ⟨data, hdata, rfl⟩ := Option.map_eq_some_iff.1 hst
      rw [packedMsgPack_eq hT _ fun _ => g.targetInt] at hdata
      cases hdata
      refine ⟨h.fifo, ?_, fun a ha => ?_⟩
      · rw [← h.order, hr]
        simp
      · simp only [← append_assoc] at ha
        rcases mem_append.1 ha with ha | ha
        · exact h.answers a ha
        · rw [mem_singleton.1 ha]
          exact ⟨rfl, rfl⟩
  | answer =>
    simp only [step] at hst
    split at hst
    · cases hst
    · rename_i b rest hb
      cases hst
      have hsplit : s.meet.anss ++ s.answers = s.meet.anss ++ [b] ++ rest := by simp [hb]
      refine ⟨Pairing.answer_fifo h.fifo _, ?_, ?_⟩
      · simpa [ioDoneRmaGetAnswer, hsplit] using h.order
      · simpa [ioDoneRmaGetAnswer, hsplit] using h.answers
  | originStore m => obtain rfl := Option.some.inj hst; exact ⟨h.fifo, h.order, h.answers⟩
  | targetStore m => obtain rfl := Option.some.inj hst; exact ⟨h.fifo, h.order, h.answers⟩

theorem Ok.anss_prefix (h : s.Ok) : s.meet.anss.map (·.get) <+: s.meet.reqs := by
  rw [← h.order, map_append, append_assoc]
  exact prefix_append _ _

theorem Ok.anss_keys (h : s.Ok) : ∀ a ∈ s.meet.anss, a.memLocations = a.get.memLocations :=
  fun a ha => (h.answers a (mem_append_left _ ha)).1

theorem Ok.own (h : s.Ok) {p : Get × Answer} (hp : p ∈ s.meet.pairs) : p.1 = p.2.get :=
  h.fifo.agree (Pairing.Agree.of_map_prefix h.anss_keys h.anss_prefix) hp

theorem Ok.noneKept (h : s.Ok) : s.meet.kept = [] :=
  h.fifo.kept_nil_of_map_prefix h.anss_keys h.anss_prefix

theorem Ok.receiver_eq (hT : T.FollowsTypemap) (h : s.Ok) {b : Answer} {rest : List Answer}
    (hb : s.answers = b :: rest) : s.receiver b = some b.get := by
  have hst : s.step T .answer = some (s.ioDoneRmaGetAnswer T b rest) := by simp only [step, hb]
  have hnext := step_ok hT h hst
  have hkept := hnext.noneKept
  simp only [ioDoneRmaGetAnswer, Pairing.answer] at hkept
  unfold receiver
  cases hp : pick? (fun g : Get => decide (g.memLocations = b.memLocations)) s.meet.waiting with
  | none =>
    rw [hp] at hkept
    simp at hkept
  | some x =>
    obtain ⟨g, rest'⟩ := x
    have hpair : (g, b) ∈ (s.meet.answer Get.memLocations Answer.memLocations b).pairs := by
      simp [Pairing.answer, hp]
    exact congrArg some (hnext.own hpair)

theorem Ok.getsOk (hT : T.FollowsTypemap) (h : s.Ok) : s.GetsOk T := by
  refine ⟨fun p hp => h.own hp, h.noneKept, fun hr => ?_, fun b rest hb => ?_⟩
  · obtain ⟨g, rest, hg⟩ := exists_cons_of_ne_nil hr
    simp [step, hg, packedMsgPack_eq hT s.targetMem fun _ => g.targetInt]
  · refine ⟨s.ioDoneRmaGetAnswer T b rest, by simp only [step, hb], ?_⟩
    have hdata := (h.answers b (by simp [hb])).2
    have hlen : b.data.length = b.get.origin.total := by
      rw [hdata, gather_length, TypedBuf.positions_length, ← b.get.origin.sigSize_signature,
        b.get.sig, b.get.target.sigSize_signature]
    simp only [ioDoneRmaGetAnswer, h.receiver_eq hT hb]
    rw [packedMsgUnpack_all hT s.originMem b.get.originInt hlen, ← hdata]

end GetSt

def getSys (T : Typerep) (originMem targetMem : Mem) : Sys GetSt GetAct :=
  ⟨.init originMem targetMem, GetSt.step T⟩

/-- With every engine that follows the typemap and loses nothing of a datatype: puts and gets move the
bytes of one typemap to the other in every way that they can take, if the header of a message has room
for the target datatype where one is sent; displacements have the unit of the target; and every answer
is unpacked by the get that asked for it, with any number of gets on the connection. -/
theorem rma_paths_agree (pscomRmaApi : Bool) (T : Typerep) (F : Flattener) (hT : T.FollowsTypemap)
    (hF : F.Lossless) :
    (∀ w op s, RmaOp.Valid op w →
      (w.isLocal op.target = false → (pscomRmaApi && op.targetDatatype.isContig) = false →
        HeaderFits F sizeofPutHeader op.targetDatatype) →
      putGeneric pscomRmaApi T F w op s = some (putSpec w op s)) ∧
    (∀ w op s, RmaOp.Valid op w →
      (w.isLocal op.target = false →
        (pscomRmaApi && op.targetDatatype.isContig && op.origin.datatype.isContig) = false →
        HeaderFits F sizeofGetHeader op.targetDatatype) →
      getGeneric pscomRmaApi T F w op s = some (getSpec w op s)) ∧
    (∀ (w : WinData) target, target < w.size →
      (w.place target).dispUnit = (w.rankInfo target).dispUnit) ∧
    (∀ originMem targetMem s, (getSys T originMem targetMem).Reach s → s.GetsOk T) := by
  refine ⟨fun w op s hv hh => put_eq pscomRmaApi hT hF hv hh s,
    fun w op s hv hh => get_eq pscomRmaApi hT hF hv hh s,
    fun w target ht => WinData.place_dispUnit ht, fun originMem targetMem s hr => ?_⟩
  have hok : s.Ok := hr.inv (GetSt.init_ok originMem targetMem) fun h hst => GetSt.step_ok hT h hst
  exact hok.getsOk hT

def twoWindows : WinData where
  size := 2
  rank := 0
  shared := false
  base := 1000
  dispUnit := 1
  rankInfo r := if r = 0 then ⟨1000, 1⟩ else ⟨5000, 8⟩
  shmAttr := none
  rank_lt := Nat.two_pos
  own := rfl
  shm := fun _ h => by cases h
  alone := fun h => by cases h

/-- Datatypes are encoded as the datatype engine does it for a list of blocks, with two words for each
block after the header of 64 bytes. -/
def blockFlattener : Flattener := ⟨Datatype, id, id, fun d => 64 + 16 * d.typemap.length⟩

def putTwoBytes : RmaOp :=
  ⟨⟨0, 2, byteType, by decide⟩, 1, 3, 2, everyOtherByte, by decide, by decide, by decide⟩

/-- The put is sent as a message, and its bytes arrive at the addresses 5024 and 5026. -/
theorem rma_paths_agree_put :
    putGeneric true Typerep.ref blockFlattener twoWindows putTwoBytes ⟨fun _ => 7, fun _ => 0⟩ =
      some ⟨fun _ => 7, scatter (fun _ => 0) [5024, 5026] [7, 7]⟩ :=
  (rma_paths_agree true Typerep.ref blockFlattener Typerep.ref_followsTypemap fun _ => rfl).1
    twoWindows putTwoBytes ⟨fun _ => 7, fun _ => 0⟩ ⟨by decide, by decide, fun h => by cases h⟩
    fun _ _ => by decide

theorem byte_le : 1 ≤ 32 := by decide

def manyBlocks (n : Nat) : Datatype where
  predefined := false
  typemap := (List.range n).map fun i : Nat => (2 * (i : Int), ⟨0, 1, Nat.one_pos, byte_le⟩)
  extent := 2 * n
  isContig := false
  trueLb := 0
  contig := fun h => by cases h

theorem manyBlocks_signature (n : Nat) :
    (manyBlocks n).signature 1 = byteType.signature n := by
  simp [Datatype.signature, manyBlocks, byteType, Function.comp_def]

theorem manyBlocks_size (n : Nat) : (manyBlocks n).size = n := by
  have h := (manyBlocks n).sigSize_signature 1
  have hb : byteType.size = 1 := by decide
  rw [manyBlocks_signature, byteType.sigSize_signature, hb] at h
  omega

def putManyBlocks : RmaOp :=
  ⟨⟨0, 5000, byteType, by decide⟩, 1, 0, 1, manyBlocks 5000, by decide, by decide,
    by rw [manyBlocks_size]; decide⟩

/-- The encoding of a target datatype with five thousand blocks does not fit in the header of a
message, and the assertion fails. -/
theorem rma_put_header_too_long :
    ¬ ∀ (pscomRmaApi : Bool) (T : Typerep) (F : Flattener), T.FollowsTypemap → F.Lossless →
      ∀ w op s, RmaOp.Valid op w →
        putGeneric pscomRmaApi T F w op s = some (putSpec w op s) := by
  intro h
  have hv : putManyBlocks.Valid twoWindows :=
    ⟨by decide, (manyBlocks_signature 5000).symm, fun hl => by cases hl⟩
  have hput := h true Typerep.ref blockFlattener Typerep.ref_followsTypemap (fun _ => rfl)
    twoWindows putManyBlocks ⟨fun _ => 0, fun _ => 0⟩ hv
  have hfits : ¬ HeaderFits blockFlattener sizeofPutHeader putManyBlocks.targetDatatype := by
    simp [HeaderFits, datatypeGetSize, blockFlattener, sizeofPutHeader, putManyBlocks, manyBlocks]
  have hlocal : twoWindows.isLocal putManyBlocks.target = false := by decide
  have hcontig : putManyBlocks.targetDatatype.isContig = false := rfl
  simp [putGeneric, hlocal, hcontig, hfits] at hput

end PsMpi.Rma
