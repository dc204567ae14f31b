import PsMpi.Coll.BcastGatherOk

/-!
# Broadcast by scatter and allgather delivers
-/

open List Option

namespace PsMpi.Coll

open PsMpi.Lib PsMpi.Lib.Network PsMpi.Lib.Hypercube

section bcast

variable {α : Type} {call : BcastCall} {L i j g m : Nat} {S : Nat → BcastBufs α}
  {buf : Nat → Nat → α} {data : Nat → α}

/-! ## Recursive doubling -/

theorem subtree_whole (hj : j < 2 ^ L) (hi : i ≤ L) : rootOf i j + 2 ^ i ≤ 2 ^ L := by
  obtain ⟨d, rfl⟩ := Nat.exists_eq_add_of_le hi
  have hlt : j / 2 ^ i < 2 ^ d := Nat.div_lt_of_lt_mul (by rwa [← Nat.pow_add])
  have hmul := Nat.mul_le_mul_right (2 ^ i) hlt
  rw [Nat.succ_mul] at hmul
  rwa [rootOf, Nat.pow_add, Nat.mul_comm (2 ^ i)]

theorem bcastDoublingLoop_eq (hroot : call.root < call.commSize) (hL : call.commSize = 2 ^ L)
    (hg : g < call.commSize) {d fuel : Nat} (hi : i + d = L) (hf : d < fuel) :
    bcastDoublingLoop call g fuel (2 ^ i) i =
      some (((List.range' i d).map (doublePhase call L)).flatMap fun a =>
        (a.instrs g : List (BcastInstr α))) := by
  induction d generalizing i fuel with
  | zero =>
    obtain ⟨fuel, rfl⟩ := Nat.exists_eq_succ_of_ne_zero (Nat.ne_of_gt hf)
    obtain rfl : i = L := hi
    rw [bcastDoublingLoop, if_neg (Nat.not_lt_of_le hL.le)]
    rfl
  | succ d ih =>
    obtain ⟨fuel, rfl⟩ := Nat.exists_eq_succ_of_ne_zero (Nat.ne_of_gt (Nat.zero_lt_of_lt hf))
    have hiL : i < L := by omega
    have hrel : call.relativeRank g < 2 ^ L := hL ▸ call.relativeRank_lt hroot hg
    have hdst : call.relativeRank g ^^^ 2 ^ i < 2 ^ L := xor_lt hrel hiL
    have hmask : 2 ^ i < call.commSize := by
      rw [hL]
      exact Nat.pow_lt_pow_right (Nat.lt_succ_self 1) hiL
    have hrank : ((call.relativeRank g ^^^ 2 ^ i) + call.root) % call.commSize =
        call.rankOf (call.relativeRank g ^^^ 2 ^ i) := by
      rw [BcastCall.rankOf, if_pos (hL ▸ hdst)]
    have hwhole : ¬ call.commSize < rootOf i (call.relativeRank g ^^^ 2 ^ i) + 2 ^ i := by
      rw [hL]
      exact Nat.not_lt_of_le (subtree_whole hdst hiL.le)
    have hphase : (doublePhase call L i : Phase Nat (BcastBufs α) (List α)).instrs g = _ :=
      cubePhase_instrs (call.numOf_eq hg) rfl rfl
    rw [bcastDoublingLoop, if_pos hmask]
    simp only [shift_eq_rootOf, if_pos (show call.relativeRank g ^^^ 2 ^ i < call.commSize from
      hL ▸ hdst), if_neg hwhole, bind_eq_bind, bind_some, hrank]
    rw [shiftLeft_pow, ih (by omega) (Nat.lt_of_succ_lt_succ hf), bind_some,
      range'_succ, map_cons, flatMap_cons, hphase, append_nil]
    rfl

theorem doublePhase_matched (hroot : call.root < call.commSize) (hL : call.commSize = 2 ^ L)
    (hi : i < L) : (doublePhase call L i : Phase Nat (BcastBufs α) (List α)).Matched :=
  cubePhase_matched (call.numbering hroot hL.le) hi

theorem doublePhase_out (hL : call.commSize = 2 ^ L) (hg : call.commSize ≤ g) :
    (doublePhase call L i : Phase Nat (BcastBufs α) (List α)).instrs g = [] := by
  refine cubePhase_instrs_none ?_
  rw [BcastCall.numOf, if_neg (Nat.not_lt.2 hg), if_neg (Nat.not_lt.2 (hL ▸ hg))]

/-! ## All phases -/

variable (call) in
def startFns (isContig : Nat → Bool) (g : Nat) : List (BcastBufs α → BcastBufs α) :=
  if g < call.commSize then
    (if isContig g then [fun s => { s with tmpBuf := s.buffer }]
      else if g = call.root then
        [fun s => { s with tmpBuf := localcopy s.buffer s.tmpBuf call.nbytes }]
      else []) ++ [BcastBufs.setCurr (if g = call.root then call.nbytes else 0)]
  else []

variable (call) in
def ownFns (g : Nat) : List (BcastBufs α → BcastBufs α) :=
  if g < call.commSize then [.setCurr (call.blockSize (call.relativeRank g))] else []

variable (call) in
def outFns (isContig : Nat → Bool) (g : Nat) : List (BcastBufs α → BcastBufs α) :=
  if g < call.commSize then
    if isContig g then [fun s => { s with buffer := s.tmpBuf }]
    else if g = call.root then []
    else [fun s => { s with buffer := localcopy s.tmpBuf s.buffer call.nbytes }]
  else []

variable (call L) in
def gatherPhases : Allgather → List (Phase Nat (BcastBufs α) (List α))
  | .ring => (List.range (call.commSize - 1)).map (ringPhase call)
  | .recursiveDoubling => (List.range L).map (doublePhase call L)

variable (call L) in
def bcastPhases (allgather : Allgather) (isContig : Nat → Bool) :
    List (Phase Nat (BcastBufs α) (List α)) :=
  .calc (startFns call isContig) :: (scatterPhases call L L ++
    (.calc (ownFns call) :: (gatherPhases call L allgather ++ [Phase.calc (outFns call isContig)])))

def Delivered (call : BcastCall) (buffer : Nat → Nat → α) (S : Nat → BcastBufs α) : Prop :=
  ∀ r < call.commSize, (S r).truncated = false ∧ (S r).sizeMismatch = false ∧
    ∀ e < call.nbytes, (S r).buffer e = buffer call.root e

theorem Spread.start (hroot : call.root < call.commSize) (hL : call.commSize ≤ 2 ^ L)
    (hsize : (S call.root).currSize = call.nbytes)
    (hbytes : ∀ e < call.nbytes, (S call.root).tmpBuf e = data e) : Spread call data L S := by
  have hzero : ∀ j < call.commSize, j % 2 ^ L = 0 → j = 0 := fun j hj hmod => by
    rwa [Nat.mod_eq_of_lt (hj.trans_le hL)] at hmod
  constructor
  · intro j hj hmod
    rw [hzero j hj hmod, call.rankOf_zero hroot, hsize, call.span_zero hroot hL]
  · intro j hj hmod e _ hhi
    rw [hzero j hj hmod, call.span_zero hroot hL] at hhi
    rw [hzero j hj hmod, call.rankOf_zero hroot]
    exact hbytes e (by omega)

theorem start_after (isContig : Nat → Bool) (buffer tmpBuf : Nat → Nat → α) (g : Nat) :
    ((Phase.calc (startFns call isContig) : Phase Nat (BcastBufs α) (List α)).after
      (fun r => .start (buffer r) (tmpBuf r)) g) =
      if g < call.commSize then
        { BcastBufs.start (buffer g) (if isContig g then buffer g
            else if g = call.root then localcopy (buffer g) (tmpBuf g) call.nbytes
            else tmpBuf g) with
          currSize := if g = call.root then call.nbytes else 0 }
      else .start (buffer g) (tmpBuf g) := by
  rw [calc_after, startFns]
  by_cases hg : g < call.commSize
  · rw [if_pos hg, if_pos hg, foldl_append]
    by_cases hc : isContig g
    · simp only [if_pos hc]
      rfl
    · by_cases hr : g = call.root
      · simp only [if_neg hc, if_pos hr]
        rfl
      · simp only [if_neg hc, if_neg hr]
        rfl
  · rw [if_neg hg, if_neg hg]
    rfl

theorem own_after (g : Nat) :
    ((Phase.calc (ownFns call) : Phase Nat (BcastBufs α) (List α)).after S g) =
      if g < call.commSize then (S g).setCurr (call.blockSize (call.relativeRank g)) else S g := by
  rw [calc_after, ownFns]
  split <;> rfl

theorem Intact.own (h : Intact buf S) : Intact buf
    ((Phase.calc (ownFns call) : Phase Nat (BcastBufs α) (List α)).after S) := by
  constructor
  · intro g
    rw [own_after]
    split <;> exact h.buffer g
  · intro g
    rw [own_after]
    split <;> exact h.truncated g
  · intro g
    rw [own_after]
    split <;> exact h.sizeMismatch g

theorem Spread.collected (hroot : call.root < call.commSize) (h : Spread call data 0 S) :
    Collected call data 0
      ((Phase.calc (ownFns call) : Phase Nat (BcastBufs α) (List α)).after S) := by
  constructor
  · intro g hg
    rw [own_after, if_pos hg, Nat.zero_add, Finset.sum_range_one, call.back_zero hroot hg]
    rw [← call.blockSize_eq]
    rfl
  · intro g hg k hk e hlo hhi
    obtain rfl := Nat.le_zero.1 hk
    have hj := call.relativeRank_lt hroot hg
    have hbytes := h.bytes _ hj (Nat.mod_one _) e
    rw [call.rankOf_relativeRank hroot hg] at hbytes
    rw [call.back_zero hroot hg] at hlo hhi
    rw [own_after, if_pos hg]
    exact hbytes hlo hhi

theorem Spread.doubled (hroot : call.root < call.commSize) (h : Spread call data 0 S) :
    Doubled call data 0
      ((Phase.calc (ownFns call) : Phase Nat (BcastBufs α) (List α)).after S) := by
  have hself : ∀ j, rootOf 0 j = j := fun j => by
    rw [rootOf, Nat.pow_zero, Nat.div_one, Nat.mul_one]
  constructor
  · intro j hj
    rw [own_after, if_pos (call.rankOf_lt hroot hj), call.relativeRank_rankOf hroot hj, hself,
      ← call.blockSize_eq]
    rfl
  · intro j hj e hlo hhi
    rw [hself] at hlo hhi
    rw [own_after, if_pos (call.rankOf_lt hroot hj)]
    exact h.bytes j hj (Nat.mod_one _) e hlo hhi

theorem after_gatherPhases (hroot : call.root < call.commSize) {allgather : Allgather}
    (hpow : allgather = .recursiveDoubling → call.commSize = 2 ^ L)
    (h : Spread call data 0 S) (hintact : Intact buf S) :
    let S' := afterAll (.calc (ownFns call) :: gatherPhases call L allgather) S
    Complete call data S' ∧ Intact buf S' := by
  cases allgather with
  | ring => exact after_ring hroot (h.collected hroot) hintact.own
  | recursiveDoubling => exact after_double hroot (hpow rfl) (h.doubled hroot) hintact.own

theorem out_after (isContig : Nat → Bool) {buffer : Nat → Nat → α}
    (hc : Complete call (buffer call.root) S) (hi : Intact buffer S) : Delivered call buffer
      ((Phase.calc (outFns call isContig) : Phase Nat (BcastBufs α) (List α)).after S) := by
  intro r hr
  rw [calc_after, outFns, if_pos hr]
  by_cases hcontig : isContig r
  · rw [if_pos hcontig]
    exact ⟨hi.truncated r, hi.sizeMismatch r, hc.bytes r hr⟩
  · rw [if_neg hcontig]
    by_cases hroot : r = call.root
    · rw [if_pos hroot]
      exact ⟨hi.truncated r, hi.sizeMismatch r, fun e _ => by
        rw [foldl_nil, hi.buffer, hroot]⟩
    · rw [if_neg hroot]
      refine ⟨hi.truncated r, hi.sizeMismatch r, fun e he => ?_⟩
      exact (if_pos he).trans (hc.bytes r hr e he)

theorem start_spread (hroot : call.root < call.commSize) (hL : call.commSize ≤ 2 ^ L)
    (isContig : Nat → Bool) (buffer tmpBuf : Nat → Nat → α) :
    let S := (Phase.calc (startFns call isContig) : Phase Nat (BcastBufs α) (List α)).after
      fun r => .start (buffer r) (tmpBuf r)
    Spread call (buffer call.root) L S ∧ Intact buffer S := by
  have hstart := @start_after α call isContig buffer tmpBuf
  generalize (Phase.calc (startFns call isContig)).after (fun r => .start (buffer r) (tmpBuf r)) = S
    at hstart ⊢
  constructor
  · refine Spread.start hroot hL ?_ fun e he => ?_
    · rw [hstart, if_pos hroot]
      exact if_pos rfl
    · rw [hstart, if_pos hroot]
      simp only [if_true, BcastBufs.start]
      split
      · rfl
      · exact if_pos he
  · constructor <;>
    · intro g
      rw [hstart]
      split <;> rfl

theorem after_bcastPhases (hpos : 0 < call.nbytes) (hroot : call.root < call.commSize)
    (hL : call.commSize ≤ 2 ^ L) {allgather : Allgather}
    (hpow : allgather = .recursiveDoubling → call.commSize = 2 ^ L) (isContig : Nat → Bool)
    (buffer tmpBuf : Nat → Nat → α) : Delivered call buffer
      (afterAll (bcastPhases call L allgather isContig) fun r => .start (buffer r) (tmpBuf r)) := by
  rw [bcastPhases, afterAll_cons, afterAll_append, ← cons_append, afterAll_append,
    afterAll_cons, afterAll_nil]
  obtain ⟨hspread, hintact⟩ := start_spread hroot hL isContig buffer tmpBuf
  obtain ⟨hown, hintact⟩ := after_scatterPhases hpos hroot hL hspread hintact
  obtain ⟨hall, hintact⟩ := after_gatherPhases hroot hpow hown hintact
  exact out_after isContig hall hintact

theorem bcastPhases_matched (hroot : call.root < call.commSize) (hL : call.commSize ≤ 2 ^ L)
    {allgather : Allgather} (hpow : allgather = .recursiveDoubling → call.commSize = 2 ^ L)
    (isContig : Nat → Bool) {a : Phase Nat (BcastBufs α) (List α)}
    (ha : a ∈ bcastPhases call L allgather isContig) : a.Matched := by
  rcases mem_cons.1 ha with rfl | ha
  · exact calc_matched _
  · rcases mem_append.1 ha with ha | ha
    · exact scatterPhases_matched hroot hL ha
    · rcases mem_cons.1 ha with rfl | ha
      · exact calc_matched _
      · rcases mem_append.1 ha with ha | ha
        · cases allgather with
          | ring =>
            obtain ⟨m, -, rfl⟩ := mem_map.1 ha
            exact ringPhase_matched
          | recursiveDoubling =>
            obtain ⟨i, hi, rfl⟩ := mem_map.1 ha
            exact doublePhase_matched hroot (hpow rfl) (mem_range.1 hi)
        · obtain rfl := mem_singleton.1 ha
          exact calc_matched _

theorem bcastPhases_out {allgather : Allgather}
    (hpow : allgather = .recursiveDoubling → call.commSize = 2 ^ L) (isContig : Nat → Bool)
    (hg : call.commSize ≤ g) {a : Phase Nat (BcastBufs α) (List α)}
    (ha : a ∈ bcastPhases call L allgather isContig) : a.instrs g = [] := by
  have hout := Nat.not_lt.2 hg
  rcases mem_cons.1 ha with rfl | ha
  · rw [calc_instrs, startFns, if_neg hout, map_nil]
  · rcases mem_append.1 ha with ha | ha
    · obtain ⟨i, -, ha⟩ := mem_flatMap.1 ha
      exact (downPhases_out hg ha).1
    · rcases mem_cons.1 ha with rfl | ha
      · rw [calc_instrs, ownFns, if_neg hout, map_nil]
      · rcases mem_append.1 ha with ha | ha
        · cases allgather with
          | ring =>
            obtain ⟨m, -, rfl⟩ := mem_map.1 ha
            exact ringPhase_out hg
          | recursiveDoubling =>
            obtain ⟨i, -, rfl⟩ := mem_map.1 ha
            exact doublePhase_out (hpow rfl) hg
        · obtain rfl := mem_singleton.1 ha
          rw [calc_instrs, outFns, if_neg hout, map_nil]

theorem follows_out {as : List (Phase Nat (BcastBufs α) (List α))}
    (h : ∀ a ∈ as, a.instrs g = []) : Code.Follows g as S (.done : BcastCode α) := by
  induction as generalizing S with
  | nil => rfl
  | cons a as ih =>
    have htail : ∀ b ∈ as, b.instrs g = [] := fun b hb => h b (mem_cons_of_mem a hb)
    exact Code.follows_idle (h a mem_cons_self) (ih htail)

/-! ## Programs -/

theorem gather_eq (hroot : call.root < call.commSize) (hg : g < call.commSize)
    {allgather : Allgather} (hpow : allgather = .recursiveDoubling → call.commSize = 2 ^ L) :
    (match allgather with
      | .ring => some (ringAllgather call g)
      | .recursiveDoubling => bcastDoublingAllgather call g) =
    some ((.calc (ownFns call) :: gatherPhases call L allgather).flatMap fun a =>
      (a.instrs g : List (BcastInstr α))) := by
  have hown : ((Phase.calc (ownFns call) : Phase Nat (BcastBufs α) (List α)).instrs g) =
      [.compute (.setCurr (call.blockSize (call.relativeRank g)))] := by
    rw [calc_instrs, ownFns, if_pos hg]
    rfl
  rw [flatMap_cons, hown]
  cases allgather with
  | ring =>
    have hloop := ringLoop_eq (α := α) (m := 0) hroot hg (k := call.commSize - 1) (by omega)
    have hself : (g + call.commSize - 0) % call.commSize = g := by
      rw [Nat.sub_zero, Nat.add_mod_right, Nat.mod_eq_of_lt hg]
    have hleft : g + call.commSize - (0 + 1) = call.commSize + g - 1 := by omega
    rw [hself, hleft] at hloop
    simp only [ringAllgather, call.mod_relativeRank hroot hg, hloop, gatherPhases, range_eq_range']
    rfl
  | recursiveDoubling =>
    have hL := hpow rfl
    have hfuel : L < call.commSize + 1 := by
      rw [hL]
      exact Nat.lt_succ_of_lt Nat.lt_two_pow_self
    have hloop := bcastDoublingLoop_eq (α := α) (i := 0) hroot hL hg (Nat.zero_add L) hfuel
    rw [Nat.pow_zero] at hloop
    simp only [bcastDoublingAllgather, hloop, bind_eq_bind, bind_some, gatherPhases,
      range_eq_range']
    rfl

theorem checkSize_follows (isContig : Nat → Bool) (hg : g < call.commSize)
    (h : (S g).currSize = call.nbytes) :
    Code.Follows g [.calc (outFns call isContig)] S (checkSize call g (isContig g)) := by
  refine Code.follows_branch ?_
  rw [if_neg (by simp [h])]
  have hout : (Phase.calc (outFns call isContig) : Phase Nat (BcastBufs α) (List α)).instrs g =
      unpackOut call g (isContig g) := by
    rw [calc_instrs, outFns, if_pos hg, unpackOut]
    split
    · rfl
    · split <;> rfl
  rw [← hout]
  exact Code.follows_cons rfl

theorem bcastCode_follows (hpos : 0 < call.nbytes) (hroot : call.root < call.commSize)
    (hL : call.commSize ≤ 2 ^ L) (hmin : ∀ t < L, 2 ^ t < call.commSize) {allgather : Allgather}
    (hpow : allgather = .recursiveDoubling → call.commSize = 2 ^ L) (isContig : Nat → Bool)
    (buffer tmpBuf : Nat → Nat → α) (hg : g < call.commSize) :
    ∃ code, bcastCode call g allgather (isContig g) = some code ∧
      Code.Follows g (bcastPhases call L allgather isContig)
        (fun r => .start (buffer r) (tmpBuf r)) code := by
  obtain ⟨scatter, hscatter, hfollows⟩ := scatterForBcast_follows (α := α) hpos hroot hL hmin
    (call.relativeRank_lt hroot hg)
  simp only [call.rankOf_relativeRank hroot hg] at hscatter hfollows
  have hgather := gather_eq (α := α) hroot hg hpow
  have hpack : (startFns call isContig g).map Instr.compute =
      (packIn call g (isContig g) ++
        [Instr.compute (.setCurr (if g = call.root then call.nbytes else 0))] :
          List (BcastInstr α)) := by
    rw [startFns, if_pos hg, map_append, packIn]
    split
    · rfl
    · split <;> rfl
  obtain ⟨hspread, hintact⟩ := start_spread hroot hL isContig buffer tmpBuf
  obtain ⟨hown, hintact⟩ := after_scatterPhases hpos hroot hL hspread hintact
  obtain ⟨hall, -⟩ := after_gatherPhases hroot hpow hown hintact
  refine ⟨.ofList ((startFns call isContig g).map .compute) (scatter.append
    (.ofList ((.calc (ownFns call) :: gatherPhases call L allgather).flatMap fun a => a.instrs g)
      (checkSize call g (isContig g)))), ?_, ?_⟩
  · rw [hpack, Code.ofList_append]
    cases allgather with
    | ring =>
      rw [bcastCode, bcastIntraScatterRingAllgather, if_neg hpos.ne', hscatter,
        Option.some.inj hgather]
      rfl
    | recursiveDoubling =>
      simp only [bcastCode, bcastIntraScatterRecursiveDoublingAllgather, if_neg hpos.ne', hscatter,
        hgather, bind_eq_bind, bind_some]
      rfl
  · refine Code.follows_cons (Code.follows_append (hfollows hspread) ?_)
    exact Code.follows_ofList (checkSize_follows isContig hg (hall.size g hg))

theorem bcastCode_zero (h : call.nbytes = 0) (allgather : Allgather) (isContig : Bool) :
    (bcastCode call g allgather isContig : Option (BcastCode α)) = some .done := by
  cases allgather
  · exact if_pos h
  · exact if_pos h

/-- The broadcast by scatter and allgather delivers the bytes of the root. All programs are defined,
no run is without end or gets stuck, and when all processes are at their ends, all messages have
been taken, none was too long for its receive, no check of the number of bytes has failed, and the
buffers have the bytes of the root. -/
theorem bcast_delivers (hroot : call.root < call.commSize) (allgather : Allgather)
    (hpow : allgather = .recursiveDoubling → ∃ L, call.commSize = 2 ^ L) (isContig : Nat → Bool)
    (buffer tmpBuf : Nat → Nat → α) :
    (∀ r < call.commSize, (bcastCode (α := α) call r allgather (isContig r)).isSome) ∧
      CodeComputes (bcastProg call allgather isContig) (fun r => .start (buffer r) (tmpBuf r))
        (Delivered call buffer) := by
  obtain ⟨L, hL, hmin, hpow⟩ : ∃ L, call.commSize ≤ 2 ^ L ∧ (∀ t < L, 2 ^ t < call.commSize) ∧
      (allgather = .recursiveDoubling → call.commSize = 2 ^ L) := by
    refine ⟨Nat.clog 2 call.commSize, Nat.le_pow_clog (by decide) _,
      fun t ht => Nat.pow_lt_of_lt_clog ht, fun h => ?_⟩
    obtain ⟨L, hL⟩ := hpow h
    rw [hL, Nat.clog_pow 2 L (by decide)]
  rcases Nat.eq_zero_or_pos call.nbytes with h0 | hpos
  · refine ⟨fun r _ => by rw [bcastCode_zero h0]; rfl, ?_⟩
    have hdone : ∀ r, bcastProg (α := α) call allgather isContig r = .done := fun r => by
      unfold bcastProg
      rw [bcastCode_zero h0, getD_some, ite_self]
    refine (codeComputes_iff (nofun : ∀ a ∈ [], Phase.Matched a) nodup_nil
      (fun p _ => hdone p) (fun p => by rw [hdone p]; rfl)).2 fun r _ => ?_
    exact ⟨rfl, rfl, fun e he => absurd he (by omega)⟩
  · have hcode := fun r (hr : r < call.commSize) =>
      bcastCode_follows hpos hroot hL hmin hpow isContig buffer tmpBuf hr
    refine ⟨fun r hr => ?_, ?_⟩
    · obtain ⟨code, h, -⟩ := hcode r hr
      rw [h]
      rfl
    · have hout : ∀ p, p ∉ List.range call.commSize →
          bcastProg (α := α) call allgather isContig p = .done := fun p hp =>
        if_neg fun h => hp (mem_range.2 h)
      refine (codeComputes_iff (fun a ha => bcastPhases_matched hroot hL hpow isContig ha)
        nodup_range hout fun p => ?_).2
        (after_bcastPhases hpos hroot hL hpow isContig buffer tmpBuf)
      by_cases hp : p < call.commSize
      · obtain ⟨code, h, hf⟩ := hcode p hp
        have hprog : bcastProg call allgather isContig p = code := by
          unfold bcastProg
          rw [if_pos hp, h, getD_some]
        rwa [hprog]
      · rw [hout p fun h => hp (mem_range.1 h)]
        exact follows_out fun a ha => bcastPhases_out hpow isContig (Nat.le_of_not_lt hp) ha

/-- Seven bytes from the process 1 to four processes by recursive doubling; every block has two
bytes, the last one a single byte. -/
theorem bcast_delivers_four : CodeComputes
    (bcastProg ⟨7, 4, 1⟩ .recursiveDoubling fun _ => true)
    (fun r => .start (fun e => 10 * r + e) fun _ => 0)
    (Delivered ⟨7, 4, 1⟩ fun r e => 10 * r + e) :=
  (bcast_delivers (show 1 < 4 by decide) .recursiveDoubling (fun _ => ⟨2, rfl⟩)
    (fun _ => true) (fun r e => 10 * r + e) fun _ _ => 0).2

end bcast

end PsMpi.Coll
