import PsMpi.Coll.ReduceScatterDoubling

/-!
# Reduce-scatter by recursive halving

As before, the sum of all numbers of elements fits into an `int`.
-/

open List Option

namespace PsMpi.Coll

open PsMpi.Lib PsMpi.Lib.Network PsMpi.Lib.Hypercube

/-! ## Reductions with a stride -/

section strided

variable {α : Type} {op : α → α → α} {u w : Nat → α} {L i : Nat}

theorem seg_interleave (ha : ∀ x y z, op (op x y) z = op x (op y z)) (hc : ∀ x y, op x y = op y x)
    (u : Nat → α) (k : Nat) :
    op (seg op (fun a => u (2 * a)) 0 k) (seg op (fun a => u (2 * a + 1)) 0 k) =
      seg op u 0 (2 * k + 1) := by
  induction k with
  | zero => rfl
  | succ k ih =>
    have hlen : 2 * (k + 1) + 1 = 2 * k + 1 + 1 + 1 := by omega
    rw [hlen]
    simp only [seg, Nat.zero_add] at ih ⊢
    rw [← ih]
    have heven : 2 * (k + 1) = 2 * k + 1 + 1 := by omega
    rw [heven]
    generalize seg op (fun a => u (2 * a)) 0 k = a
    generalize seg op (fun a => u (2 * a + 1)) 0 k = b
    generalize u (2 * k + 1 + 1) = x
    generalize u (2 * k + 1 + 1 + 1) = y
    rw [ha, ha, ha, ← ha x, hc x b, ha b]

def strided (op : α → α → α) (w : Nat → α) (L i c : Nat) : α :=
  seg op (fun a => w (c + a * 2 ^ i)) 0 (2 ^ (L - i) - 1)

theorem strided_succ (ha : ∀ x y z, op (op x y) z = op x (op y z)) (hc : ∀ x y, op x y = op y x)
    (hi : i < L) (c : Nat) :
    op (strided op w L (i + 1) c) (strided op w L (i + 1) (c + 2 ^ i)) = strided op w L i c := by
  have hpos := Nat.two_pow_pos (L - (i + 1))
  have hhalf := two_halves hi
  have hlen : 2 ^ (L - i) - 1 = 2 * (2 ^ (L - (i + 1)) - 1) + 1 := by omega
  have heven : (fun a => w (c + a * 2 ^ (i + 1))) = fun a => w (c + 2 * a * 2 ^ i) := by
    funext a
    congr 1
    ring
  have hodd : (fun a => w (c + 2 ^ i + a * 2 ^ (i + 1))) =
      fun a => w (c + (2 * a + 1) * 2 ^ i) := by
    funext a
    congr 1
    ring
  rw [strided, strided, strided, hlen, ← seg_interleave ha hc, heven, hodd]

end strided

/-! ## Parts -/

section parts

variable {cnts : List Nat} {L rem k : Nat}

def edge (rem k : Nat) : Nat := if k ≤ rem then 2 * k else k + rem

theorem edge_succ (rem k : Nat) : edge rem (k + 1) = edge rem k + if k < rem then 2 else 1 := by
  unfold edge
  split <;> split <;> split <;> omega

theorem edge_mono {k m : Nat} (h : k ≤ m) : edge rem k ≤ edge rem m := by
  unfold edge
  split <;> split <;> omega

def numCnts (cnts : List Nat) (L rem : Nat) : List Nat :=
  (List.range (2 ^ L)).map fun k =>
    if k < rem then cnts.getD (2 * k + 1) 0 + cnts.getD (2 * k) 0 else cnts.getD (k + rem) 0

@[simp] theorem length_numCnts : (numCnts cnts L rem).length = 2 ^ L := by
  rw [numCnts, length_map, length_range]

theorem getD_numCnts (hk : k < 2 ^ L) : (numCnts cnts L rem).getD k 0 =
    if k < rem then cnts.getD (2 * k + 1) 0 + cnts.getD (2 * k) 0 else cnts.getD (k + rem) 0 := by
  rw [List.getD_eq_getElem _ _ (by rwa [length_numCnts])]
  unfold numCnts
  rw [getElem_map, getElem_range]

theorem newCnts_eq {α : Type} {call : ScatterCall α}
    (hlen : call.recvcounts.length = 2 ^ L + rem) :
    newCnts call (2 ^ L) rem = some (numCnts call.recvcounts L rem) := by
  have hget : ∀ k < call.recvcounts.length,
      call.recvcounts[k]? = some (call.recvcounts.getD k 0) := fun k hk => by
    rw [List.getElem?_eq_getElem hk, List.getD_eq_getElem _ _ hk]
  have hmem : ∀ l : List Nat, (∀ k ∈ l, k < 2 ^ L) →
      (l.mapM fun i =>
        let old := realRank rem i
        if old < 2 * rem then do
          let cnt ← call.recvcounts[old]?
          let left ← call.recvcounts[old - 1]?
          return cnt + left
        else call.recvcounts[old]?) =
      some (l.map fun k =>
        if k < rem then call.recvcounts.getD (2 * k + 1) 0 + call.recvcounts.getD (2 * k) 0
        else call.recvcounts.getD (k + rem) 0) := by
    intro l hl
    induction l with
    | nil => rfl
    | cons k l ih =>
      have hk := hl k List.mem_cons_self
      have ih := ih fun k hk => hl k (List.mem_cons_of_mem _ hk)
      rw [List.mapM_cons, ih]
      by_cases hlt : k < rem
      · have hold : realRank rem k = 2 * k + 1 := by rw [realRank, if_pos hlt, Nat.mul_comm]
        simp only [hold, if_pos hlt, if_pos (show 2 * k + 1 < 2 * rem by omega),
          hget (2 * k + 1) (by omega), Nat.add_sub_cancel, hget (2 * k) (by omega),
          Option.bind_eq_bind, Option.bind_some, Option.pure_def, List.map_cons]
      · have hold : realRank rem k = k + rem := if_neg hlt
        simp only [hold, if_neg hlt, if_neg (show ¬ k + rem < 2 * rem by omega),
          hget (k + rem) (by omega), Option.bind_eq_bind, Option.bind_some, Option.pure_def,
          List.map_cons]
  exact hmem _ fun k hk => List.mem_range.1 hk

theorem partDisp_numCnts (hlen : cnts.length = 2 ^ L + rem) (hk : k ≤ 2 ^ L) :
    partDisp (numCnts cnts L rem) k = partDisp cnts (edge rem k) := by
  induction k with
  | zero => rfl
  | succ k ih =>
    rw [partDisp_succ (by rw [length_numCnts]; omega), ih (by omega), getD_numCnts (by omega),
      edge_succ]
    have hedge : edge rem k = if k < rem then 2 * k else k + rem := by
      unfold edge
      split <;> split <;> omega
    split at hedge
    · next hlt =>
      rw [if_pos hlt, if_pos hlt, hedge, @partDisp_succ cnts (2 * k + 1) (by omega),
        @partDisp_succ cnts (2 * k) (by omega)]
      omega
    · next hge =>
      rw [if_neg hge, if_neg hge, hedge, partDisp_succ (by omega)]

theorem sum_numCnts (hlen : cnts.length = 2 ^ L + rem) (hrem : rem < 2 ^ L) :
    (numCnts cnts L rem).sum = cnts.sum := by
  have hedge : edge rem (2 ^ L) = cnts.length := by
    unfold edge
    split <;> omega
  have := partDisp_numCnts hlen (Nat.le_refl (2 ^ L))
  rwa [hedge, partDisp_of_le (Nat.le_refl _), partDisp_of_le (by rw [length_numCnts])] at this

theorem intCnts_eq {lo hi : Nat} (hsum : cnts.sum ≤ intMax) (hlo : lo ≤ hi)
    (hhi : hi ≤ cnts.length) :
    intCnts cnts lo hi = some ((partDisp cnts hi - partDisp cnts lo : Nat) : Int) := by
  have hsplit := sum_take_add_sum_drop (cnts.take hi) lo
  rw [take_take, Nat.min_eq_left hlo] at hsplit
  have hle := @partDisp_le cnts hi
  unfold partDisp at hle ⊢
  rw [intCnts, if_pos hhi, intSum_eq (Int.le_refl 0) (by omega)]
  congr 1
  omega

def partsAt (cnts : List Nat) (i root : Nat) : Nat × Nat :=
  if partDisp cnts (root + 2 ^ i) - partDisp cnts root = 0 then (0, 0)
  else (partDisp cnts root, partDisp cnts (root + 2 ^ i) - partDisp cnts root)

theorem partRange_eq {i root : Nat} (h : root + 2 ^ i ≤ cnts.length) :
    partRange cnts.sum cnts root
      ((partDisp cnts (root + 2 ^ i) - partDisp cnts root : Nat) : Int) =
      some (partsAt cnts i root) := by
  have hpos := Nat.two_pow_pos i
  have hle := @partDisp_le cnts (root + 2 ^ i)
  have hmono := @partDisp_mono cnts _ _ (Nat.le_add_right root (2 ^ i))
  rw [partRange, partsAt]
  by_cases h0 : partDisp cnts (root + 2 ^ i) - partDisp cnts root = 0
  · rw [if_pos (by rw [h0]; rfl), if_pos h0]
  · have hin : inBuf cnts.sum (partDisp cnts root)
        ((partDisp cnts (root + 2 ^ i) - partDisp cnts root : Nat) : Int) = true := by
      rw [inBuf, decide_eq_true_eq]
      right
      omega
    rw [if_neg (by omega), if_neg h0, getElem?_disps (by omega)]
    simp only [Option.bind_eq_bind, Option.bind_some, Option.pure_def]
    rw [if_pos hin, Int.toNat_natCast]

theorem mem_partsAt {i root e : Nat} (h₁ : partDisp cnts root ≤ e)
    (h₂ : e < partDisp cnts (root + 2 ^ i)) :
    (partsAt cnts i root).2 ≠ 0 ∧
      (partsAt cnts i root).1 ≤ e ∧ e < (partsAt cnts i root).1 + (partsAt cnts i root).2 := by
  unfold partsAt
  rw [if_neg (by omega)]
  simp only
  omega

end parts

/-! ## Phases -/

section phases

variable {α : Type} (call : ScatterCall α) (L rem i : Nat)

def halvingNum (g : Nat) : Option Nat :=
  if g < call.recvcounts.length then newrank g rem else none

variable {call L rem} in
theorem halving_numbering (hlen : call.recvcounts.length = 2 ^ L + rem) (hrem : rem < 2 ^ L) :
    Numbering L (halvingNum call rem) (realRank rem) := by
  refine ⟨fun j hj => ?_, fun g j h => ?_⟩
  · rw [halvingNum, hlen, if_pos (realRank_lt hj), newrank_realRank]
  · obtain ⟨hg, hnew⟩ := ite_none_right_eq_some.1 h
    exact ⟨newrank_lt (hlen ▸ hg) hrem hnew, realRank_newrank hnew⟩

def keptParts (j : Nat) : Nat × Nat := partsAt (numCnts call.recvcounts L rem) i (rootOf i j)

def partsUpd (parts : Nat × Nat) (s : ScatterBufs α) (msg : List α) : ScatterBufs α :=
  ScatterBufs.reduceTmp call.op parts.1 parts.2 (s.recvTmp parts.1 parts.2 msg)

def evenPhase : Phase Nat (ScatterBufs α) (List α) :=
  .single (fun g => if g < 2 * rem ∧ g % 2 = 0 then
      some (g + 1, fun s => slice s.tmpResults 0 call.recvcounts.sum) else none)
    fun g => if g < 2 * rem ∧ g % 2 ≠ 0 then
      some (g - 1, partsUpd call (0, call.recvcounts.sum)) else none

/-- Numbers send the parts that their partners keep in the dimension `i`, unless they are empty. -/
def halvePhase : Phase Nat (ScatterBufs α) (List α) :=
  cubePhase (halvingNum call rem) (realRank rem) i
    (fun j => decide ((keptParts call L rem i (j ^^^ 2 ^ i)).2 ≠ 0))
    (fun j s => slice s.tmpResults (keptParts call L rem i (j ^^^ 2 ^ i)).1
      (keptParts call L rem i (j ^^^ 2 ^ i)).2)
    fun j => partsUpd call (keptParts call L rem i j)

def numberedPhase : Phase Nat (ScatterBufs α) (List α) :=
  .calc fun g => if (halvingNum call rem g).isSome then
    [ScatterBufs.copyOut (partDisp call.recvcounts g) (call.recvcounts.getD g 0)] else []

def backPhase : Phase Nat (ScatterBufs α) (List α) :=
  .single (fun g => if (g < 2 * rem ∧ g % 2 ≠ 0) ∧ call.recvcounts.getD (g - 1) 0 ≠ 0 then
      some (g - 1, fun s => slice s.tmpResults (partDisp call.recvcounts (g - 1))
        (call.recvcounts.getD (g - 1) 0)) else none)
    fun g => if (g < 2 * rem ∧ g % 2 = 0) ∧ call.recvcounts.getD g 0 ≠ 0 then
      some (g + 1, ScatterBufs.recvRecv (call.recvcounts.getD g 0)) else none

def halvingPhases : List (Phase Nat (ScatterBufs α) (List α)) :=
  copyPhase call :: evenPhase call rem ::
    ((List.range L).reverse.map (halvePhase call L rem) ++
      [numberedPhase call rem, backPhase call rem])

end phases

/-! ## Programs -/

section programs

variable {α : Type} {call : ScatterCall α} {L rem i g j : Nat}

theorem evenPhase_instrs (g : Nat) : (evenPhase call rem).instrs g =
    halvingPre call g call.recvcounts.sum rem := by
  unfold halvingPre
  rw [Int.toNat_natCast]
  by_cases hlt : g < 2 * rem
  · by_cases heven : g % 2 = 0
    · rw [if_pos hlt, if_pos heven]
      exact single_instrs_send (if_pos ⟨hlt, heven⟩) (if_neg fun h => h.2 heven)
    · rw [if_pos hlt, if_neg heven]
      exact single_instrs_recv (if_neg fun h => heven h.2) (if_pos ⟨hlt, heven⟩)
  · rw [if_neg hlt]
    exact single_instrs_none (if_neg fun h => hlt h.1) (if_neg fun h => hlt h.1)

theorem halvePhase_instrs (h : halvingNum call rem g = some j) :
    (halvePhase call L rem i).instrs g = halvingExchange call (realRank rem (j ^^^ 2 ^ i))
      (keptParts call L rem i (j ^^^ 2 ^ i)) (keptParts call L rem i j) := by
  have hrecv : decide ((keptParts call L rem i (j ^^^ 2 ^ i ^^^ 2 ^ i)).2 ≠ 0) =
      decide ((keptParts call L rem i j).2 ≠ 0) := by rw [xor_xor]
  unfold halvingExchange
  by_cases hs : (keptParts call L rem i (j ^^^ 2 ^ i)).2 ≠ 0
  · by_cases hr : (keptParts call L rem i j).2 ≠ 0
    · rw [if_pos hs, if_pos hr]
      exact cubePhase_instrs h (decide_eq_true hs) (hrecv.trans (decide_eq_true hr))
    · rw [if_pos hs, if_neg hr]
      exact cubePhase_instrs_send h (decide_eq_true hs) (hrecv.trans (decide_eq_false hr))
  · by_cases hr : (keptParts call L rem i j).2 ≠ 0
    · rw [if_neg hs, if_pos hr]
      exact cubePhase_instrs_recv h (decide_eq_false hs) (hrecv.trans (decide_eq_true hr))
    · rw [if_neg hs, if_neg hr]
      exact cubePhase_instrs_quiet h (decide_eq_false hs) (hrecv.trans (decide_eq_false hr))

theorem rootOf_add_le (hi : i ≤ L) (hj : j < 2 ^ L) : rootOf i j + 2 ^ i ≤ 2 ^ L := by
  have hdiv : j / 2 ^ i < 2 ^ (L - i) := by
    rw [Nat.div_lt_iff_lt_mul (Nat.two_pow_pos i), ← Nat.pow_add, Nat.sub_add_cancel hi]
    exact hj
  have hpow : 2 ^ L = 2 ^ (L - i) * 2 ^ i := by rw [← Nat.pow_add, Nat.sub_add_cancel hi]
  have := Nat.mul_le_mul_right (2 ^ i) (Nat.succ_le_of_lt hdiv)
  rw [Nat.succ_mul] at this
  rw [rootOf, hpow]
  exact this

theorem halving_cursor (i j : Nat) :
    (if j < j ^^^ 2 ^ i then rootOf (i + 1) j + 2 ^ i else rootOf (i + 1) j) =
        rootOf i (j ^^^ 2 ^ i) ∧
      (if j < j ^^^ 2 ^ i then rootOf (i + 1) j else rootOf (i + 1) j + 2 ^ i) = rootOf i j ∧
      (if j < j ^^^ 2 ^ i then rootOf (i + 1) j + 2 ^ (i + 1) else rootOf i j) =
        rootOf i (j ^^^ 2 ^ i) + 2 ^ i ∧
      (if j < j ^^^ 2 ^ i then rootOf i (j ^^^ 2 ^ i) else rootOf (i + 1) j + 2 ^ (i + 1)) =
        rootOf i j + 2 ^ i := by
  have hroot := rootOf_xor i j
  have hnext := rootOf_succ i j
  by_cases h : j < j ^^^ 2 ^ i
  · simp only [if_pos h] at hroot hnext ⊢
    omega
  · have := le_rootOf h
    simp only [if_neg h] at hroot hnext ⊢
    omega

theorem scatterHalving_eq (hsum : call.recvcounts.sum ≤ intMax)
    (hlen : call.recvcounts.length = 2 ^ L + rem) (hrem : rem < 2 ^ L)
    (h : halvingNum call rem g = some j) {fuel : Nat} (hi : i ≤ L) (hf : i < fuel) :
    scatterHalving call call.recvcounts.sum (numCnts call.recvcounts L rem) j rem fuel (2 ^ i >>> 1)
        ⟨rootOf i j, rootOf i j, rootOf i j + 2 ^ i⟩ =
      some ((List.range i).reverse.flatMap fun i => (halvePhase call L rem i).instrs g) := by
  have hj := ((halving_numbering hlen hrem).of_num g j h).1
  have hcnts := sum_numCnts hlen hrem
  induction i generalizing fuel with
  | zero =>
    obtain ⟨fuel, rfl⟩ := Nat.exists_eq_succ_of_ne_zero (Nat.ne_of_gt hf)
    rfl
  | succ i ih =>
    obtain ⟨fuel, rfl⟩ := Nat.exists_eq_succ_of_ne_zero (Nat.ne_of_gt (Nat.zero_lt_of_lt hf))
    have hself := rootOf_add_le (Nat.le_of_succ_le hi) hj
    have hpeer := rootOf_add_le (Nat.le_of_succ_le hi) (xor_lt hj hi)
    obtain ⟨hsend, hrecv, hsendEnd, hrecvEnd⟩ := halving_cursor i j
    have hcnt := fun root (hroot : root + 2 ^ i ≤ 2 ^ L) =>
      @intCnts_eq (numCnts call.recvcounts L rem) root (root + 2 ^ i) (hcnts.symm ▸ hsum)
        (Nat.le_add_right root (2 ^ i)) (by rwa [length_numCnts])
    have hrange := fun root (hroot : root + 2 ^ i ≤ 2 ^ L) =>
      @partRange_eq (numCnts call.recvcounts L rem) i root (by rwa [length_numCnts])
    rw [hcnts] at hrange
    rw [shiftRight_pow, scatterHalving, if_pos (Nat.two_pow_pos i), range_succ,
      reverse_concat, flatMap_cons, halvePhase_instrs h]
    simp only [decide_eq_true_eq, hsend, hrecv, hsendEnd, hrecvEnd, hcnt _ hself, hcnt _ hpeer,
      hrange _ hself, hrange _ hpeer, Option.bind_eq_bind, Option.bind_some]
    rw [ih (Nat.le_of_succ_le hi) (Nat.lt_of_succ_lt_succ hf)]
    rfl

theorem halvingMain_eq (hsum : call.recvcounts.sum ≤ intMax)
    (hlen : call.recvcounts.length = 2 ^ L + rem) (hrem : rem < 2 ^ L)
    (hg : g < call.recvcounts.length) :
    halvingMain call g call.recvcounts.sum (2 ^ L) rem (newrank g rem) =
      some (((List.range L).reverse.map (halvePhase call L rem)).flatMap (fun a => a.instrs g) ++
        (numberedPhase call rem).instrs g) := by
  have hnum : newrank g rem = halvingNum call rem g := by rw [halvingNum, if_pos hg]
  rw [hnum, List.flatMap_map]
  cases h : halvingNum call rem g with
  | none =>
    have hidle :
        ((List.range L).reverse.flatMap fun i => (halvePhase call L rem i).instrs g) = [] :=
      List.flatMap_eq_nil_iff.2 fun i _ => cubePhase_instrs_none h
    have hown : (numberedPhase call rem).instrs g = [] := by
      rw [numberedPhase, calc_instrs, h]
      rfl
    rw [hidle, hown]
    rfl
  | some j =>
    have hj := ((halving_numbering hlen hrem).of_num g j h).1
    have hroot : rootOf L j = 0 := by rw [rootOf, Nat.div_eq_of_lt hj, Nat.zero_mul]
    have hfuel : L < 2 ^ L + 1 := Nat.lt_succ_of_lt Nat.lt_two_pow_self
    have hloop := scatterHalving_eq hsum hlen hrem h (Nat.le_refl L) hfuel
    rw [hroot, Nat.zero_add] at hloop
    have hown : (ownPhase call).instrs g = (numberedPhase call rem).instrs g := by
      rw [ownPhase, numberedPhase, calc_instrs, calc_instrs, if_pos hg, h]
      rfl
    simp only [halvingMain, newCnts_eq hlen, hloop, ownBlock_eq hsum hg, hown, Option.bind_eq_bind,
      Option.bind_some, Option.pure_def]

theorem halvingPost_eq (hsum : call.recvcounts.sum ≤ intMax)
    (hlen : call.recvcounts.length = 2 ^ L + rem) (hg : g < call.recvcounts.length) :
    halvingPost call g call.recvcounts.sum rem = some ((backPhase call rem).instrs g) := by
  have hcnt : ∀ k < call.recvcounts.length,
      call.recvcounts[k]? = some (call.recvcounts.getD k 0) := fun k hk => by
    rw [List.getElem?_eq_getElem hk, List.getD_eq_getElem _ _ hk]
  have hdisp : ∀ k < call.recvcounts.length,
      (intDisps call.recvcounts)[k]? = some (partDisp call.recvcounts k : Int) := fun k hk => by
    rw [getElem?_intDisps hk, intSum_take hsum]
  have hin : ∀ k < call.recvcounts.length, inBuf call.recvcounts.sum
      (partDisp call.recvcounts k) (call.recvcounts.getD k 0) = true := fun k hk => by
    have hend := partDisp_succ hk
    have hle := @partDisp_le call.recvcounts (k + 1)
    rw [inBuf, decide_eq_true_eq]
    right
    omega
  rw [halvingPost]
  by_cases hlt : g < 2 * rem
  · rw [if_pos hlt]
    by_cases hodd : g % 2 = 1
    · simp only [if_pos hodd, hcnt (g - 1) (by omega), hdisp (g - 1) (by omega),
        hin (g - 1) (by omega), Option.bind_eq_bind, Option.bind_some, Option.pure_def, if_true]
      by_cases h0 : call.recvcounts.getD (g - 1) 0 = 0
      · have hinstrs : (backPhase call rem).instrs g = [] :=
          single_instrs_none (if_neg fun h => h.2 h0) (if_neg (by omega))
        rw [if_pos h0, hinstrs]
      · have hinstrs : (backPhase call rem).instrs g = sendTo (g - 1) _ :=
          single_instrs_send (if_pos ⟨⟨hlt, by omega⟩, h0⟩) (if_neg (by omega))
        rw [if_neg h0, hinstrs, Int.toNat_natCast]
    · simp only [if_neg hodd, hcnt g hg, Option.bind_eq_bind, Option.bind_some, Option.pure_def]
      by_cases h0 : call.recvcounts.getD g 0 = 0
      · have hinstrs : (backPhase call rem).instrs g = [] :=
          single_instrs_none (if_neg (by omega)) (if_neg fun h => h.2 h0)
        rw [if_pos h0, hinstrs]
      · have hinstrs : (backPhase call rem).instrs g = recvFrom (g + 1) _ :=
          single_instrs_recv (if_neg (by omega)) (if_pos ⟨⟨hlt, by omega⟩, h0⟩)
        rw [if_neg h0, hinstrs]
  · have hinstrs : (backPhase call rem).instrs g = [] :=
      single_instrs_none (if_neg fun h => hlt h.1.1) (if_neg fun h => hlt h.1.1)
    rw [if_neg hlt, hinstrs]

theorem halving_eq (hcomm : call.isCommutative = true) (hsum : call.recvcounts.sum ≤ intMax)
    (hlen : call.recvcounts.length = 2 ^ L + rem) (hrem : rem < 2 ^ L)
    (hg : g < call.recvcounts.length) :
    reduceScatterIntraRecursiveHalving call g =
      some (if call.recvcounts.sum = 0 then []
        else (halvingPhases call L rem).flatMap fun a => a.instrs g) := by
  have htotal : intSum call.recvcounts 0 = call.recvcounts.sum := by
    rw [intSum_eq (Int.le_refl 0) (by omega), Int.zero_add]
  unfold reduceScatterIntraRecursiveHalving
  rw [htotal]
  simp only [hcomm]
  by_cases h0 : call.recvcounts.sum = 0
  · rw [if_neg Bool.noConfusion, if_pos (by rw [h0]; rfl), if_pos h0]
  · have hpof2 : mplPof2 call.recvcounts.length = 2 ^ L := by rw [hlen, mplPof2_eq hrem]
    have hsub : call.recvcounts.length - 2 ^ L = rem := by omega
    simp only [if_neg (show ¬ (call.recvcounts.sum : Int) = 0 by omega),
      if_neg (show ¬ (call.recvcounts.sum : Int) < 0 by omega), if_neg h0, hpof2, hsub,
      halvingMain_eq hsum hlen hrem hg, halvingPost_eq hsum hlen hg, Option.bind_eq_bind,
      Option.bind_some, Option.pure_def, Bool.true_eq_false, if_false]
    rw [halvingPhases, flatMap_cons, flatMap_cons, flatMap_append,
      flatMap_cons, flatMap_cons, flatMap_nil, append_nil, copyPhase,
      calc_instrs, if_pos hg, evenPhase_instrs, Int.toNat_natCast]
    simp only [append_assoc]
    rfl

end programs

/-! ## Messages match -/

section matching

variable {α : Type} {call : ScatterCall α} {L rem i g : Nat}
  {a : Phase Nat (ScatterBufs α) (List α)}

theorem evenPhase_matched : (evenPhase call rem).Matched := by
  refine single_ite_matched fun p q => ⟨?_, ?_⟩
  · rintro ⟨hp, rfl⟩
    dsimp only
    omega
  · rintro ⟨hq, rfl⟩
    dsimp only
    omega

theorem backPhase_matched : (backPhase call rem).Matched := by
  refine single_ite_matched fun p q => ⟨?_, ?_⟩
  · rintro ⟨⟨hp, hcnt⟩, rfl⟩
    exact ⟨⟨by dsimp only; omega, hcnt⟩, by dsimp only; omega⟩
  · rintro ⟨⟨hq, hcnt⟩, rfl⟩
    exact ⟨⟨by dsimp only; omega, hcnt⟩, rfl⟩

theorem mem_halvingPhases (ha : a ∈ halvingPhases call L rem) : a = copyPhase call ∨
    a = evenPhase call rem ∨ (∃ i < L, a = halvePhase call L rem i) ∨ a = numberedPhase call rem ∨
    a = backPhase call rem := by
  rcases mem_cons.1 ha with rfl | ha
  · exact .inl rfl
  rcases mem_cons.1 ha with rfl | ha
  · exact .inr (.inl rfl)
  rcases mem_append.1 ha with ha | ha
  · obtain ⟨i, hi, rfl⟩ := mem_map.1 ha
    exact .inr (.inr (.inl ⟨i, List.mem_range.1 (mem_reverse.1 hi), rfl⟩))
  · rcases mem_cons.1 ha with rfl | ha
    · exact .inr (.inr (.inr (.inl rfl)))
    · exact .inr (.inr (.inr (.inr (mem_singleton.1 ha))))

theorem halvingPhases_matched (hlen : call.recvcounts.length = 2 ^ L + rem) (hrem : rem < 2 ^ L)
    (ha : a ∈ halvingPhases call L rem) : a.Matched := by
  rcases mem_halvingPhases ha with rfl | rfl | ⟨i, hi, rfl⟩ | rfl | rfl
  · exact calc_matched _
  · exact evenPhase_matched
  · exact cubePhase_matched (halving_numbering hlen hrem) hi
  · exact calc_matched _
  · exact backPhase_matched

theorem halvingPhases_out (hlen : call.recvcounts.length = 2 ^ L + rem) (hrem : rem < 2 ^ L)
    (ha : a ∈ halvingPhases call L rem) (hg : g ∉ List.range call.recvcounts.length) :
    a.instrs g = [] := by
  rw [List.mem_range] at hg
  have hnum : halvingNum call rem g = none := if_neg hg
  rcases mem_halvingPhases ha with rfl | rfl | ⟨i, hi, rfl⟩ | rfl | rfl
  · rw [copyPhase, calc_instrs, if_neg hg]
    rfl
  · exact single_instrs_none (if_neg (by omega)) (if_neg (by omega))
  · exact cubePhase_instrs_none hnum
  · rw [numberedPhase, calc_instrs, hnum]
    rfl
  · exact single_instrs_none (if_neg (by omega)) (if_neg (by omega))

end matching

/-! ## Values -/

section values

variable {α : Type} {call : ScatterCall α} {L rem i : Nat} {S : Nat → ScatterBufs α}
  {v : Nat → Nat → α}

theorem tmpResults_reduceTmp {s : ScatterBufs α} {src : Nat → α} {parts : Nat × Nat} {e : Nat}
    (h : parts.1 ≤ e ∧ e < parts.1 + parts.2) :
    (partsUpd call parts s (slice src parts.1 parts.2)).tmpResults e =
      call.op (src e) (s.tmpResults e) := by
  show (if parts.1 ≤ e ∧ e < parts.1 + parts.2 then
    call.op (writeAt s.tmpRecvbuf parts.1 parts.2 (slice src parts.1 parts.2) e) (s.tmpResults e)
    else s.tmpResults e) = _
  rw [if_pos h, writeAt_slice, if_pos h]

theorem partsUpd_agree {s : ScatterBufs α} {src : Nat → α} {parts : Nat × Nat}
    (h : s.mismatch = false) :
    (partsUpd call parts s (slice src parts.1 parts.2)).mismatch = false := by
  show (s.mismatch || decide ((slice src parts.1 parts.2).length ≠ parts.2)) = false
  rw [h, length_slice, Bool.false_or, decide_eq_false_iff_not]
  exact not_not_intro rfl

def InTree (cnts : List Nat) (rem i j e : Nat) : Prop :=
  partDisp cnts (edge rem (rootOf i j)) ≤ e ∧ e < partDisp cnts (edge rem (rootOf i j + 2 ^ i))

/-- Each number has the reduction of the values of all numbers that are its own modulo `2 ^ i`, for
the parts of its subtree. -/
def Strided (call : ScatterCall α) (v : Nat → Nat → α) (L rem i : Nat) (S : Nat → ScatterBufs α) :
    Prop :=
  ∀ j < 2 ^ L, ∀ e, InTree call.recvcounts rem i j e → (S (realRank rem j)).tmpResults e =
    strided call.op (pairs call.op rem fun g => v g e) L i (j % 2 ^ i)

theorem inTree_succ {cnts : List Nat} {j e : Nat} (h : InTree cnts rem i j e) :
    InTree cnts rem (i + 1) j e := by
  have hnext := rootOf_succ i j
  have hpos := Nat.two_pow_pos i
  have hpow : 2 ^ (i + 1) = 2 ^ i + 2 ^ i := by omega
  have hlo : rootOf (i + 1) j ≤ rootOf i j := by
    split at hnext <;> omega
  have hhi : rootOf i j + 2 ^ i ≤ rootOf (i + 1) j + 2 ^ (i + 1) := by
    split at hnext <;> omega
  exact ⟨Nat.le_trans (partDisp_mono (edge_mono hlo)) h.1,
    Nat.lt_of_lt_of_le h.2 (partDisp_mono (edge_mono hhi))⟩

theorem mem_keptParts (hlen : call.recvcounts.length = 2 ^ L + rem) {j e : Nat} (hi : i ≤ L)
    (hj : j < 2 ^ L) (h : InTree call.recvcounts rem i j e) : (keptParts call L rem i j).2 ≠ 0 ∧
      (keptParts call L rem i j).1 ≤ e ∧
      e < (keptParts call L rem i j).1 + (keptParts call L rem i j).2 := by
  have hle := rootOf_add_le hi hj
  have hpos := Nat.two_pow_pos i
  refine mem_partsAt ?_ ?_
  · rw [partDisp_numCnts hlen (by omega)]
    exact h.1
  · rw [partDisp_numCnts hlen hle]
    exact h.2

theorem even_phase (hlen : call.recvcounts.length = 2 ^ L + rem) (hagree : ScatterAgree S)
    (h : ∀ g < call.recvcounts.length, ∀ e < call.recvcounts.sum, (S g).tmpResults e = v g e) :
    ScatterAgree ((evenPhase call rem).after S) ∧
      Strided call v L rem L ((evenPhase call rem).after S) := by
  have hodd : ∀ g, g < 2 * rem ∧ g % 2 ≠ 0 → (evenPhase call rem).after S g =
      partsUpd call (0, call.recvcounts.sum) (S g)
        (slice (S (g - 1)).tmpResults 0 call.recvcounts.sum) := by
    intro g hg
    refine @single_after _ _ _ _ _ _ S g (g - 1) (fun s => slice s.tmpResults 0 call.recvcounts.sum)
      (partsUpd call (0, call.recvcounts.sum)) (if_pos hg) ?_
    rw [if_pos (by omega), Nat.sub_add_cancel (by omega)]
  have hother : ∀ g, ¬ (g < 2 * rem ∧ g % 2 ≠ 0) → (evenPhase call rem).after S g = S g :=
    fun g hg => single_after_none (if_neg hg)
  refine ⟨fun g => ?_, fun j hj e he => ?_⟩
  · by_cases hg : g < 2 * rem ∧ g % 2 ≠ 0
    · rw [hodd g hg]
      exact partsUpd_agree (hagree g)
    · rw [hother g hg]
      exact hagree g
  · have hroot : rootOf L j = 0 := by rw [rootOf, Nat.div_eq_of_lt hj, Nat.zero_mul]
    have hsum : e < call.recvcounts.sum := by
      refine Nat.lt_of_lt_of_le he.2 (partDisp_le _)
    have hone : strided call.op (pairs call.op rem fun g => v g e) L L (j % 2 ^ L) =
        pairs call.op rem (fun g => v g e) j := by
      rw [strided, Nat.sub_self, Nat.pow_zero, Nat.sub_self, Nat.mod_eq_of_lt hj, seg, Nat.zero_mul,
        Nat.add_zero]
    rw [hone]
    unfold pairs realRank
    by_cases hlt : j < rem
    · rw [if_pos hlt, if_pos hlt, hodd _ (by omega)]
      refine (tmpResults_reduceTmp ⟨Nat.zero_le e, by omega⟩).trans ?_
      rw [Nat.add_sub_cancel, h _ (by omega) e hsum, h _ (by omega) e hsum, Nat.mul_comm]
    · rw [if_neg hlt, if_neg hlt, hother _ (by omega)]
      exact h _ (by omega) e hsum

theorem halve_phase (ha : ∀ x y z, call.op (call.op x y) z = call.op x (call.op y z))
    (hcomm : ∀ x y, call.op x y = call.op y x) (hlen : call.recvcounts.length = 2 ^ L + rem)
    (hrem : rem < 2 ^ L) (hi : i < L) (h : ScatterAgree S ∧ Strided call v L rem (i + 1) S) :
    ScatterAgree ((halvePhase call L rem i).after S) ∧
      Strided call v L rem i ((halvePhase call L rem i).after S) := by
  have hnum := halving_numbering hlen hrem
  refine ⟨?_, fun j hj e he => ?_⟩
  · refine cubePhase_all (P := fun s : ScatterBufs α => s.mismatch = false) hnum hi
      (fun j s s' hs => ?_) h.1
    simp only [xor_xor]
    exact partsUpd_agree hs
  · have hkept := mem_keptParts hlen (Nat.le_of_lt hi) hj he
    have hin := inTree_succ he
    have hself := h.2 j hj e hin
    have hpeer := h.2 (j ^^^ 2 ^ i) (xor_lt hj hi) e (by
      rw [InTree, rootOf_xor_of_lt (Nat.lt_add_one i)]
      exact hin)
    have hafter : (halvePhase call L rem i).after S (realRank rem j) = _ :=
      cubePhase_after hnum hi hj (by rw [xor_xor]; exact decide_eq_true hkept.1)
    rw [hafter]
    simp only [xor_xor]
    refine (tmpResults_reduceTmp hkept.2).trans ?_
    rw [hself, hpeer, mod_succ i j, mod_succ i (j ^^^ 2 ^ i), xor_xor, xor_mod]
    by_cases hlt : j < j ^^^ 2 ^ i
    · rw [if_pos hlt, if_neg (Nat.lt_asymm hlt), hcomm, strided_succ ha hcomm hi]
    · have := xor_ne j i
      rw [if_neg hlt, if_pos (by omega), strided_succ ha hcomm hi]

theorem writeAt_slice_from {buf src : Nat → α} {disp cnt e : Nat} (he : e < cnt) :
    writeAt buf 0 cnt (slice src disp cnt) e = src (disp + e) := by
  unfold writeAt slice
  rw [if_pos ⟨Nat.zero_le e, by omega⟩, Nat.sub_zero]
  simp only [List.getElem?_map, List.getElem?_range he, map_some,
    getD_some]

theorem inTree_block {cnts : List Nat} {j g e : Nat} (hg : g < cnts.length) (he : e < cnts.getD g 0)
    (hlo : edge rem j ≤ g) (hhi : g < edge rem (j + 1)) :
    InTree cnts rem 0 j (partDisp cnts g + e) := by
  have hroot : rootOf 0 j = j := by rw [rootOf, Nat.pow_zero, Nat.div_one, Nat.mul_one]
  have hend := partDisp_succ hg
  have h₁ := @partDisp_mono cnts _ _ hlo
  have h₂ := @partDisp_mono cnts (g + 1) _ hhi
  rw [InTree, hroot, Nat.pow_zero]
  omega

theorem last_phases (hlen : call.recvcounts.length = 2 ^ L + rem) (hrem : rem < 2 ^ L)
    {res : Nat → α} (hagree : ScatterAgree S)
    (h : ∀ j < 2 ^ L, ∀ e, InTree call.recvcounts rem 0 j e →
      (S (realRank rem j)).tmpResults e = res e) :
    ScatterAgree ((backPhase call rem).after ((numberedPhase call rem).after S)) ∧
      ∀ g < call.recvcounts.length, ∀ e < call.recvcounts.getD g 0,
        ((backPhase call rem).after ((numberedPhase call rem).after S) g).recvbuf e =
          res (partDisp call.recvcounts g + e) := by
  have hown : ∀ g, (numberedPhase call rem).after S g =
      if (halvingNum call rem g).isSome then
        (S g).copyOut (partDisp call.recvcounts g) (call.recvcounts.getD g 0) else S g := by
    intro g
    rw [numberedPhase, calc_after]
    split <;> rfl
  have hagree' : ScatterAgree ((numberedPhase call rem).after S) := fun g => by
    rw [hown]
    split <;> exact hagree g
  have hresults : ∀ g, ((numberedPhase call rem).after S g).tmpResults = (S g).tmpResults :=
    fun g => by
      rw [hown]
      split <;> rfl
  generalize (numberedPhase call rem).after S = T at hown hagree' hresults
  have hback : ∀ g, (g < 2 * rem ∧ g % 2 = 0) ∧ call.recvcounts.getD g 0 ≠ 0 →
      (backPhase call rem).after T g = (T g).recvRecv (call.recvcounts.getD g 0)
        (slice (T (g + 1)).tmpResults (partDisp call.recvcounts g)
          (call.recvcounts.getD g 0)) := by
    intro g hg
    refine @single_after _ _ _ _ _ _ T g (g + 1) (fun s => slice s.tmpResults
      (partDisp call.recvcounts g) (call.recvcounts.getD g 0))
      (ScatterBufs.recvRecv (call.recvcounts.getD g 0)) (if_pos hg) ?_
    rw [Nat.add_sub_cancel]
    exact if_pos ⟨by omega, hg.2⟩
  have hother : ∀ g, ¬ ((g < 2 * rem ∧ g % 2 = 0) ∧ call.recvcounts.getD g 0 ≠ 0) →
      (backPhase call rem).after T g = T g := fun g hg => single_after_none (if_neg hg)
  refine ⟨fun g => ?_, fun g hg e he => ?_⟩
  · by_cases hg : (g < 2 * rem ∧ g % 2 = 0) ∧ call.recvcounts.getD g 0 ≠ 0
    · rw [hback g hg]
      show (_ || decide ((slice _ _ _).length ≠ _)) = false
      rw [hagree' g, length_slice, Bool.false_or, decide_eq_false_iff_not]
      exact not_not_intro rfl
    · rw [hother g hg]
      exact hagree' g
  · by_cases heven : g < 2 * rem ∧ g % 2 = 0
    · have hrank : realRank rem (g / 2) = g + 1 := by
        rw [realRank, if_pos (by omega)]
        omega
      have hres := h (g / 2) (by omega) (partDisp call.recvcounts g + e)
        (inTree_block hg he (by unfold edge; split <;> omega) (by unfold edge; split <;> omega))
      rw [hrank] at hres
      rw [hback g ⟨heven, by omega⟩]
      refine (writeAt_slice_from he).trans ?_
      rw [hresults]
      exact hres
    · obtain ⟨j, hnum⟩ : ∃ j, halvingNum call rem g = some j := by
        rw [halvingNum, if_pos hg, newrank]
        split
        · rw [if_neg (by omega)]
          exact ⟨_, rfl⟩
        · exact ⟨_, rfl⟩
      obtain ⟨hj, hrank⟩ := (halving_numbering hlen hrem).of_num g j hnum
      have hres := h j hj (partDisp call.recvcounts g + e) (by
        unfold realRank at hrank
        refine inTree_block hg he ?_ ?_
        · unfold edge
          split at hrank <;> split <;> omega
        · unfold edge
          split at hrank <;> split <;> omega)
      rw [hrank] at hres
      rw [hother g fun h => heven h.1, hown, hnum, if_pos isSome_some]
      exact (if_pos he).trans hres

theorem after_halvingPhases (ha : ∀ x y z, call.op (call.op x y) z = call.op x (call.op y z))
    (hcomm : ∀ x y, call.op x y = call.op y x) (hlen : call.recvcounts.length = 2 ^ L + rem)
    (hrem : rem < 2 ^ L) (hagree : ScatterAgree S)
    (hv : ∀ g < call.recvcounts.length, ∀ e < call.recvcounts.sum,
      (S g).sendbuf.getD (S g).recvbuf e = v g e) :
    ScatterAgree (afterAll (halvingPhases call L rem) S) ∧
      ∀ g < call.recvcounts.length, ∀ e < call.recvcounts.getD g 0,
        (afterAll (halvingPhases call L rem) S g).recvbuf e =
          seg call.op (fun r => v r (partDisp call.recvcounts g + e)) 0
            (call.recvcounts.length - 1) := by
  have hcopy : ∀ g, (copyPhase call).after S g =
      if g < call.recvcounts.length then (S g).copyIn call.recvcounts.sum else S g := by
    intro g
    rw [copyPhase, calc_after]
    split <;> rfl
  have hagree' : ScatterAgree ((copyPhase call).after S) := fun g => by
    rw [hcopy]
    split <;> exact hagree g
  have heven := @even_phase α call L rem _ v hlen hagree' fun g hg e he => by
    rw [hcopy, if_pos hg]
    exact (if_pos he).trans (hv g hg e he)
  have hhalve := afterAll_reverse (P := fun i T => ScatterAgree T ∧ Strided call v L rem i T)
    (fun i T hi hT => halve_phase ha hcomm hlen hrem hi hT) (Nat.le_refl L) heven
  rw [halvingPhases, afterAll_cons, afterAll_cons, afterAll_append, afterAll_cons, afterAll_cons,
    afterAll_nil]
  refine @last_phases _ _ _ _ _ hlen hrem
    (fun e => seg call.op (fun r => v r e) 0 (call.recvcounts.length - 1)) hhalve.1
    fun j hj e he => ?_
  have hpos := Nat.two_pow_pos L
  rw [hhalve.2 j hj e he, strided, Nat.pow_zero, Nat.mod_one, Nat.sub_zero]
  have hplain : (fun a => pairs call.op rem (fun g => v g e) (0 + a * 1)) =
      pairs call.op rem fun g => v g e := by
    funext a
    rw [Nat.zero_add, Nat.mul_one]
  rw [hplain, seg_pairs ha, if_neg (by omega), hlen]
  congr 1
  omega

end values

end PsMpi.Coll
