import PsMpi.Coll.ReduceScatterHalving

/-!
# Each process gets its block of the reduction
-/

open List Option

namespace PsMpi.Coll

open PsMpi.Lib PsMpi.Lib.Network PsMpi.Lib.Hypercube

section scattered

variable {α : Type} {call : ScatterCall α}
  {intra : ScatterCall α → Nat → Option (List (ScatterInstr α))}

def scatterProg (intra : ScatterCall α → Nat → Option (List (ScatterInstr α)))
    (call : ScatterCall α) (r : Nat) : List (ScatterInstr α) :=
  if r < call.recvcounts.length then (intra call r).getD [] else []

/-- No assertion fails and nothing is out of the bounds of a buffer at any process; whatever the
pace of the processes, every message is received, its length is that of its receive, and at the end
each process has its block of the reduction of all vectors, in the order of the ranks. -/
def Scattered (intra : ScatterCall α → Nat → Option (List (ScatterInstr α)))
    (call : ScatterCall α) : Prop :=
  ∀ (sendbuf : Nat → Option (Nat → α)) (recvbuf tmpRecvbuf tmpResults : Nat → Nat → α),
    (∀ r < call.recvcounts.length, (intra call r).isSome) ∧
    Computes (scatterProg intra call)
      (fun r => ⟨sendbuf r, recvbuf r, tmpRecvbuf r, tmpResults r, false⟩) fun S =>
        (∀ r, (S r).mismatch = false) ∧
        ∀ r < call.recvcounts.length, ∀ e < call.recvcounts.getD r 0, (S r).recvbuf e =
          seg call.op (fun q => (sendbuf q).getD (recvbuf q) (partDisp call.recvcounts r + e)) 0
            (call.recvcounts.length - 1)

theorem scattered_of_phases {phases : List (Phase Nat (ScatterBufs α) (List α))}
    (hm : ∀ a ∈ phases, a.Matched)
    (hout : ∀ a ∈ phases, ∀ r, r ∉ List.range call.recvcounts.length → a.instrs r = [])
    (hprog : ∀ r < call.recvcounts.length,
      intra call r = some (if call.recvcounts.sum = 0 then []
        else phases.flatMap fun a => a.instrs r))
    (hafter : ∀ (v : Nat → Nat → α) (S : Nat → ScatterBufs α), ScatterAgree S →
      (∀ g < call.recvcounts.length, ∀ e < call.recvcounts.sum,
        (S g).sendbuf.getD (S g).recvbuf e = v g e) →
      ScatterAgree (afterAll phases S) ∧
        ∀ g < call.recvcounts.length, ∀ e < call.recvcounts.getD g 0,
          (afterAll phases S g).recvbuf e =
            seg call.op (fun r => v r (partDisp call.recvcounts g + e)) 0
              (call.recvcounts.length - 1)) : Scattered intra call := by
  intro sendbuf recvbuf tmpRecvbuf tmpResults
  refine ⟨fun r hr => by rw [hprog r hr]; rfl, ?_⟩
  by_cases h0 : call.recvcounts.sum = 0
  · have hnone : ∀ a ∈ ([] : List (Phase Nat (ScatterBufs α) (List α))), a.Matched := nofun
    refine (computes_iff hnone (nodup_nil : ([] : List Nat).Nodup) nofun fun r => ?_).2 ?_
    · rw [scatterProg]
      split
      · next hr =>
        rw [hprog r hr, if_pos h0]
        rfl
      · rfl
    · refine ⟨fun _ => rfl, fun r hr e he => ?_⟩
      have hend := partDisp_succ hr
      have hle := @partDisp_le call.recvcounts (r + 1)
      omega
  · refine (computes_iff hm nodup_range hout fun r => ?_).2
      (hafter (fun q => (sendbuf q).getD (recvbuf q)) _ (fun _ => rfl) fun _ _ _ _ => rfl)
    rw [scatterProg]
    split
    · next hr =>
      rw [hprog r hr, if_neg h0]
      rfl
    · next hr =>
      exact (flatMap_eq_nil_iff.2 fun a ha => hout a ha r (by rwa [mem_range])).symm

/-! ## Sums that do not fit -/

theorem exists_crossing {cnts : List Nat} (h : (intMax : Int) < cnts.sum) :
    ∃ r < cnts.length,
      (partDisp cnts r : Int) ≤ intMax ∧ (intMax : Int) < partDisp cnts (r + 1) := by
  by_contra hno
  have hall : ∀ k ≤ cnts.length, (partDisp cnts k : Int) ≤ intMax := by
    intro k hk
    induction k with
    | zero => exact Int.natCast_nonneg _
    | succ k ih =>
      by_contra hlt
      exact hno ⟨k, hk, ih (Nat.le_of_succ_le hk), by omega⟩
  have := hall cnts.length (Nat.le_refl _)
  rw [partDisp_of_le (Nat.le_refl _)] at this
  omega

theorem ownBlock_eq_none {r : Nat} (hr : r < call.recvcounts.length)
    (hle : (partDisp call.recvcounts r : Int) ≤ intMax)
    (hlt : (intMax : Int) < partDisp call.recvcounts (r + 1)) :
    (intDisps call.recvcounts)[r]? = some (partDisp call.recvcounts r : Int) ∧
      call.recvcounts[r]? = some (call.recvcounts.getD r 0) ∧ call.recvcounts.getD r 0 ≠ 0 ∧
      inBuf (intSum call.recvcounts 0) (partDisp call.recvcounts r)
        (call.recvcounts.getD r 0) = false := by
  have hend := partDisp_succ hr
  have htotal := @intSum_le call.recvcounts 0 (by decide)
  refine ⟨?_, ?_, by omega, ?_⟩
  · rw [getElem?_intDisps hr]
    unfold partDisp at hle ⊢
    rw [intSum_eq (Int.le_refl 0) (by omega), Int.zero_add]
  · rw [List.getElem?_eq_getElem hr, getD_eq_getElem _ _ hr]
  · rw [inBuf, decide_eq_false_iff_not]
    omega

theorem not_scattered_of_none {r : Nat} (hr : r < call.recvcounts.length)
    (h : intra call r = none) [Nonempty α] : ¬ Scattered intra call := by
  intro hs
  obtain ⟨a⟩ := ‹Nonempty α›
  have hsome := (hs (fun _ => none) (fun _ _ => a) (fun _ _ => a) fun _ _ => a).1 r hr
  rw [h] at hsome
  cases hsome

theorem not_scattered_of_nil [Nontrivial α] (hpos : 0 < call.recvcounts.sum)
    (h : ∀ r < call.recvcounts.length, intra call r = some []) : ¬ Scattered intra call := by
  intro hs
  obtain ⟨r, hr, hcnt⟩ : ∃ r < call.recvcounts.length, 0 < call.recvcounts.getD r 0 := by
    obtain ⟨c, hc, hne⟩ : ∃ c ∈ call.recvcounts, c ≠ 0 := by
      by_contra hno
      refine Nat.ne_of_gt hpos (sum_eq_zero fun c hc => ?_)
      by_contra hne
      exact hno ⟨c, hc, hne⟩
    obtain ⟨r, hr, rfl⟩ := mem_iff_getElem.1 hc
    exact ⟨r, hr, by rw [getD_eq_getElem _ _ hr]; exact Nat.pos_of_ne_zero hne⟩
  obtain ⟨a, -⟩ := exists_pair_ne α
  obtain ⟨b, hb⟩ := exists_ne (seg call.op (fun _ => a) 0 (call.recvcounts.length - 1))
  have hprog : ∀ p, scatterProg intra call p =
      ([] : List (Phase Nat (ScatterBufs α) (List α))).flatMap fun x => x.instrs p := by
    intro p
    rw [scatterProg]
    split
    · next hp =>
      rw [h p hp]
      rfl
    · rfl
  have hnone : ∀ x ∈ ([] : List (Phase Nat (ScatterBufs α) (List α))), x.Matched := nofun
  have hres := (hs (fun _ => some fun _ => a) (fun _ _ => b) (fun _ _ => a) fun _ _ => a).2
  rw [computes_iff hnone (nodup_nil : ([] : List Nat).Nodup) nofun hprog] at hres
  exact hb (hres.2 r hr 0 hcnt)

theorem not_scattered [Nontrivial α] (h : (intMax : Int) < call.recvcounts.sum)
    (hzero : intSum call.recvcounts 0 = 0 → ∀ r, intra call r = some [])
    (hneg : intSum call.recvcounts 0 < 0 → ∀ r, intra call r = none)
    (hcross : ∀ r < call.recvcounts.length, 0 < intSum call.recvcounts 0 →
      (partDisp call.recvcounts r : Int) ≤ intMax →
      (intMax : Int) < partDisp call.recvcounts (r + 1) →
      ∃ q < call.recvcounts.length, intra call q = none) : ¬ Scattered intra call := by
  obtain ⟨r, hr, hle, hlt⟩ := exists_crossing h
  rcases Int.lt_trichotomy (intSum call.recvcounts 0) 0 with hn | hz | hp
  · exact not_scattered_of_none hr (hneg hn r)
  · exact not_scattered_of_nil (by unfold intMax at h; omega) fun r _ => hzero hz r
  · obtain ⟨q, hq, hnone⟩ := hcross r hr hp hle hlt
    exact not_scattered_of_none hq hnone

end scattered

/-! ## Both algorithms -/

section main

variable {α : Type}

theorem doubling_scattered {call : ScatterCall α} (hsum : call.recvcounts.sum ≤ intMax)
    (ha : ∀ x y z, call.op (call.op x y) z = call.op x (call.op y z))
    (hcomm : call.isCommutative = true → ∀ x y, call.op x y = call.op y x) :
    Scattered reduceScatterIntraRecursiveDoubling call := by
  have hL : ∀ i, 2 ^ i < call.recvcounts.length ↔ i < Nat.clog 2 call.recvcounts.length :=
    fun i => (Nat.lt_clog_iff_pow_lt (Nat.lt_succ_self 1)).symm
  have hlen : call.recvcounts.length ≤ 2 ^ Nat.clog 2 call.recvcounts.length :=
    Nat.le_pow_clog (Nat.lt_succ_self 1) _
  exact scattered_of_phases (fun a ha => doublingPhases_matched ha)
    (fun a ha r hr => doublingPhases_out ha hr) (fun r hr => doubling_eq hsum hL hr)
    fun v S hagree hv => after_doublingPhases ha hcomm hlen hagree hv

theorem halving_scattered {call : ScatterCall α} (hn : 0 < call.recvcounts.length)
    (hsum : call.recvcounts.sum ≤ intMax) (hcommutes : call.isCommutative = true)
    (ha : ∀ x y z, call.op (call.op x y) z = call.op x (call.op y z))
    (hcomm : ∀ x y, call.op x y = call.op y x) :
    Scattered reduceScatterIntraRecursiveHalving call := by
  obtain ⟨L, rem, hlen, hrem⟩ := exists_size hn
  exact scattered_of_phases (fun a ha => halvingPhases_matched hlen hrem ha)
    (fun a ha r hr => halvingPhases_out hlen hrem ha hr)
    (fun r hr => halving_eq hcommutes hsum hlen hrem hr)
    fun v S hagree hv => after_halvingPhases ha hcomm hlen hrem hagree hv

theorem ownBlock_none {call : ScatterCall α} {r : Nat} (hr : r < call.recvcounts.length)
    (hle : (partDisp call.recvcounts r : Int) ≤ intMax)
    (hlt : (intMax : Int) < partDisp call.recvcounts (r + 1)) :
    ownBlock call r (intSum call.recvcounts 0) = none := by
  obtain ⟨hdisp, hcnt, -, hout⟩ := ownBlock_eq_none hr hle hlt
  rw [ownBlock, hdisp, hcnt]
  simp only [bind_eq_bind, bind_some, hout, Bool.false_eq_true, if_false]

theorem doubling_not_scattered [Nontrivial α] {call : ScatterCall α}
    (h : (intMax : Int) < call.recvcounts.sum) :
    ¬ Scattered reduceScatterIntraRecursiveDoubling call := by
  refine not_scattered h (fun hz r => ?_) (fun hn r => ?_) fun r hr hp hle hlt => ⟨r, hr, ?_⟩
  · unfold reduceScatterIntraRecursiveDoubling
    simp only [if_pos hz]
  · unfold reduceScatterIntraRecursiveDoubling
    simp only [if_neg (Int.ne_of_lt hn), if_pos hn]
  · unfold reduceScatterIntraRecursiveDoubling
    simp only [if_neg (Int.ne_of_gt hp), if_neg (Int.not_lt.2 (Int.le_of_lt hp)),
      ownBlock_none hr hle hlt, bind_eq_bind, bind_none]
    exact bind_eq_none_iff.2 fun _ _ => rfl

theorem halving_not_scattered [Nontrivial α] {call : ScatterCall α}
    (hn : 0 < call.recvcounts.length) (h : (intMax : Int) < call.recvcounts.sum)
    (hcommutes : call.isCommutative = true) :
    ¬ Scattered reduceScatterIntraRecursiveHalving call := by
  refine not_scattered h (fun hz r => ?_) (fun hn r => ?_) fun r hr hp hle hlt => ?_
  · unfold reduceScatterIntraRecursiveHalving
    simp only [hcommutes, if_pos hz]
    rfl
  · unfold reduceScatterIntraRecursiveHalving
    simp only [hcommutes, if_neg (Int.ne_of_lt hn), if_pos hn]
    rfl
  · obtain ⟨L, rem, hlen, hrem⟩ := exists_size hn
    have hpof2 : mplPof2 call.recvcounts.length = 2 ^ L := by rw [hlen, mplPof2_eq hrem]
    have hsub : call.recvcounts.length - 2 ^ L = rem := by omega
    have hstart : ∀ q, reduceScatterIntraRecursiveHalving call q = (do
        let is ← halvingMain call q (intSum call.recvcounts 0) (2 ^ L) rem (newrank q rem)
        let post ← halvingPost call q (intSum call.recvcounts 0) rem
        return [Instr.compute (ScatterBufs.copyIn (intSum call.recvcounts 0).toNat)] ++
          halvingPre call q (intSum call.recvcounts 0) rem ++ is ++ post) := by
      intro q
      unfold reduceScatterIntraRecursiveHalving
      simp only [hcommutes, if_neg (Int.ne_of_gt hp), if_neg (Int.not_lt.2 (Int.le_of_lt hp)),
        hpof2, hsub]
      rfl
    by_cases heven : r < 2 * rem ∧ r % 2 = 0
    · -- the block is sent by the next process
      obtain ⟨hdisp, hcnt, hne, hout⟩ := ownBlock_eq_none hr hle hlt
      have hpost : halvingPost call (r + 1) (intSum call.recvcounts 0) rem = none := by
        rw [halvingPost, if_pos (by omega), if_pos (by omega), Nat.add_sub_cancel, hdisp, hcnt]
        simp only [bind_eq_bind, bind_some, if_neg hne, hout, Bool.false_eq_true,
          if_false]
      refine ⟨r + 1, by omega, ?_⟩
      rw [hstart, hpost]
      exact bind_eq_none_iff.2 fun _ _ => rfl
    · obtain ⟨j, hnum⟩ : ∃ j, newrank r rem = some j := by
        rw [newrank]
        split
        · rw [if_neg (by omega)]
          exact ⟨_, rfl⟩
        · exact ⟨_, rfl⟩
      have hmain : halvingMain call r (intSum call.recvcounts 0) (2 ^ L) rem (some j) = none := by
        rw [halvingMain, newCnts_eq hlen]
        simp only [bind_eq_bind, bind_some, ownBlock_none hr hle hlt,
          bind_none]
        exact bind_eq_none_iff.2 fun _ _ => rfl
      refine ⟨r, hr, ?_⟩
      rw [hstart, hnum, hmain]
      rfl

/-- For every size of the communicator, all numbers of elements and every associative operation,
each process gets its block of the reduction in the order of the ranks if and only if the sum of the
numbers of elements fits into an `int`; for commutative operations the same holds for recursive
halving. -/
theorem reduce_scatter_fits [Nontrivial α] {call : ScatterCall α} (hn : 0 < call.recvcounts.length)
    (ha : ∀ x y z, call.op (call.op x y) z = call.op x (call.op y z))
    (hcomm : call.isCommutative = true → ∀ x y, call.op x y = call.op y x) :
    (Scattered reduceScatterIntraRecursiveDoubling call ↔ call.recvcounts.sum ≤ intMax) ∧
    (call.isCommutative = true →
      (Scattered reduceScatterIntraRecursiveHalving call ↔ call.recvcounts.sum ≤ intMax)) := by
  refine ⟨⟨fun hs => ?_, fun hsum => doubling_scattered hsum ha hcomm⟩, fun hcommutes =>
    ⟨fun hs => ?_, fun hsum => halving_scattered hn hsum hcommutes ha (hcomm hcommutes)⟩⟩
  · by_contra hsum
    exact doubling_not_scattered (by omega) hs
  · by_contra hsum
    exact halving_not_scattered hn (by omega) hcommutes hs

/-- Three processes with blocks of different lengths and a commutative operation. -/
theorem reduce_scatter_fits_three :
    (Scattered reduceScatterIntraRecursiveDoubling ⟨[1, 0, 2], fun x y : Int => x + y, true⟩ ↔
      [1, 0, 2].sum ≤ intMax) ∧
    ((⟨[1, 0, 2], fun x y : Int => x + y, true⟩ : ScatterCall Int).isCommutative = true →
      (Scattered reduceScatterIntraRecursiveHalving ⟨[1, 0, 2], fun x y : Int => x + y, true⟩ ↔
        [1, 0, 2].sum ≤ intMax)) :=
  reduce_scatter_fits (by decide) Int.add_assoc fun _ => Int.add_comm

theorem reduce_scatter_large :
    ¬ Scattered reduceScatterIntraRecursiveDoubling
        ⟨[1073741824, 1073741824], fun x y : Int => x + y, true⟩ ∧
    ¬ Scattered reduceScatterIntraRecursiveHalving
        ⟨[1073741824, 1073741824], fun x y : Int => x + y, true⟩ :=
  ⟨doubling_not_scattered (by decide), halving_not_scattered (by decide) (by decide) rfl⟩

end main

end PsMpi.Coll
