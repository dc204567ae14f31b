import PsMpi.Coll.ReduceScatter
import PsMpi.Coll.ReduceScatterGatherOk

/-!
# Reduce-scatter by recursive doubling
-/

open List Option

namespace PsMpi.Coll

open PsMpi.Lib PsMpi.Lib.Network PsMpi.Lib.Hypercube

/-! ## Sums -/

section sums

variable {cnts : List Nat} {start : Int} {r : Nat}

theorem wrapInt_le (n : Int) : wrapInt n ≤ intMax := by
  unfold wrapInt intMax
  omega

theorem intSum_eq (h0 : 0 ≤ start) (h : start + cnts.sum ≤ intMax) :
    intSum cnts start = start + cnts.sum := by
  induction cnts generalizing start with
  | nil => simp [intSum]
  | cons c cnts ih =>
    rw [sum_cons, Nat.cast_add] at h
    have hwrap : wrapInt (start + c) = start + c := by
      unfold intMax at h
      exact wrapInt_of_lt (by omega) (by omega)
    rw [intSum, foldl_cons, hwrap]
    refine (ih (by omega) (by omega)).trans ?_
    rw [sum_cons, Nat.cast_add, Int.add_assoc]

theorem intSum_le (h : start ≤ intMax) : intSum cnts start ≤ intMax := by
  induction cnts generalizing start with
  | nil => exact h
  | cons c cnts ih => exact ih (wrapInt_le _)

theorem getElem?_intDisps (h : r < cnts.length) :
    (intDisps cnts)[r]? = some (intSum (cnts.take r) 0) := by
  rw [intDisps, List.getElem?_map, List.getElem?_range h, map_some]

theorem partDisp_le (k : Nat) : partDisp cnts k ≤ cnts.sum := by
  have := @partDisp_mono cnts _ _ (Nat.le_max_left k cnts.length)
  unfold partDisp at this ⊢
  rwa [take_of_length_le (Nat.le_max_right k cnts.length)] at this

theorem partDisp_of_le {k : Nat} (h : cnts.length ≤ k) : partDisp cnts k = cnts.sum := by
  rw [partDisp, take_of_length_le h]

theorem intSum_take (h : cnts.sum ≤ intMax) (k : Nat) :
    intSum (cnts.take k) 0 = partDisp cnts k := by
  have := @partDisp_le cnts k
  unfold partDisp at this ⊢
  rw [intSum_eq (Int.le_refl 0) (by omega), Int.zero_add]

theorem intSum_drop (h : cnts.sum ≤ intMax) (k : Nat) :
    intSum (cnts.drop k) 0 = cnts.sum - partDisp cnts k := by
  have hsplit := sum_take_add_sum_drop cnts k
  unfold partDisp
  rw [intSum_eq (Int.le_refl 0) (by omega)]
  omega

theorem intSum_between (h : cnts.sum ≤ intMax) (k m : Nat) :
    intSum ((cnts.drop k).take m) (partDisp cnts k) = partDisp cnts (k + m) := by
  have hsum : partDisp cnts (k + m) = partDisp cnts k + ((cnts.drop k).take m).sum := by
    rw [partDisp, take_add, sum_append]
    rfl
  have hle := @partDisp_le cnts (k + m)
  rw [intSum_eq (Int.natCast_nonneg _) (by omega)]
  omega

theorem partDisp_succ (h : r < cnts.length) :
    partDisp cnts (r + 1) = partDisp cnts r + cnts.getD r 0 := by
  rw [partDisp, partDisp, take_succ_eq_append_getElem h, sum_append, sum_singleton,
    getD_eq_getElem _ _ h]

end sums

/-! ## Blocks outside a subtree -/

section trees

variable {α : Type} {cnts : List Nat} {root mask e : Nat} {buf src : Nat → α}

def outsideOf (cnts : List Nat) (root mask : Nat) : Indexed :=
  ⟨partDisp cnts root, partDisp cnts (root + mask), cnts.sum - partDisp cnts (root + mask)⟩

theorem treeType_eq {call : ScatterCall α} (h : call.recvcounts.sum ≤ intMax) (root mask : Nat) :
    treeType call root mask = outsideOf call.recvcounts root mask := by
  simp only [treeType, outsideOf, intSum_take h, intSum_between h, intSum_drop h]

def OutTree (cnts : List Nat) (root mask e : Nat) : Prop :=
  e < partDisp cnts root ∨ partDisp cnts (root + mask) ≤ e ∧ e < cnts.sum

instance : Decidable (OutTree cnts root mask e) := inferInstanceAs (Decidable (_ ∨ _))

theorem outside_fits : (outsideOf cnts root mask).fits cnts.sum = true := by
  have h₁ := @partDisp_le cnts root
  have h₂ := @partDisp_le cnts (root + mask)
  rw [Indexed.fits, Bool.and_eq_true, inBuf, inBuf, decide_eq_true_eq, decide_eq_true_eq]
  simp only [outsideOf]
  constructor
  · right
    omega
  · right
    omega

theorem outside_blk1 : (outsideOf cnts root mask).blk1.toNat =
    cnts.sum - partDisp cnts (root + mask) := by
  show ((cnts.sum : Int) - partDisp cnts (root + mask)).toNat = _
  omega

theorem length_pack (t : Indexed) (buf : Nat → α) : (t.pack buf).length = t.size := by
  rw [Indexed.pack, length_append, length_slice, length_slice, Indexed.size]

/-- The two blocks of the type. -/
theorem outTree_iff : OutTree cnts root mask e ↔
    (partDisp cnts (root + mask) ≤ e ∧
      e < partDisp cnts (root + mask) + (cnts.sum - partDisp cnts (root + mask))) ∨
    0 ≤ e ∧ e < 0 + partDisp cnts root := by
  have hle := @partDisp_le cnts (root + mask)
  unfold OutTree
  omega

theorem unpack_pack :
    (outsideOf cnts root mask).unpack buf ((outsideOf cnts root mask).pack src) e =
    if OutTree cnts root mask e then src e else buf e := by
  have htake : ((outsideOf cnts root mask).pack src).take (outsideOf cnts root mask).blk0.toNat =
      slice src 0 (outsideOf cnts root mask).blk0.toNat :=
    take_left' length_slice
  have hdrop : ((outsideOf cnts root mask).pack src).drop (outsideOf cnts root mask).blk0.toNat =
      slice src (outsideOf cnts root mask).dis1.toNat (outsideOf cnts root mask).blk1.toNat :=
    drop_left' length_slice
  rw [Indexed.unpack, htake, hdrop, writeAt_slice, writeAt_slice, outside_blk1]
  simp only [outTree_iff, ite_or]
  rfl

theorem reduce_outside (op : α → α → α) : (outsideOf cnts root mask).reduce op src buf e =
    if OutTree cnts root mask e then op (src e) (buf e) else buf e := by
  have hmono := @partDisp_mono cnts _ _ (Nat.le_add_right root mask)
  rw [Indexed.reduce, reduceLocal, outside_blk1, reduceLocal]
  simp only [outTree_iff, ite_or]
  show (if partDisp cnts (root + mask) ≤ e ∧
      e < partDisp cnts (root + mask) + (cnts.sum - partDisp cnts (root + mask)) then
      op (src e) (if 0 ≤ e ∧ e < 0 + partDisp cnts root then op (src e) (buf e) else buf e)
    else _) = _
  split
  · rw [if_neg (by omega)]
  · rfl

end trees

/-! ## Subtrees -/

section subtrees

variable {α : Type} {op : α → α → α} {v : Nat → α} {n i j t : Nat}

def rootOf (i j : Nat) : Nat := j / 2 ^ i * 2 ^ i

theorem shift_eq_rootOf (j i : Nat) : j >>> i <<< i = rootOf i j := by
  rw [Nat.shiftRight_eq_div_pow, Nat.shiftLeft_eq, rootOf]

theorem rootOf_le (i j : Nat) : rootOf i j ≤ j := Nat.div_mul_le_self j (2 ^ i)

theorem rootOf_add_mod (i j : Nat) : rootOf i j + j % 2 ^ i = j := by
  rw [rootOf, Nat.mul_comm]
  exact Nat.div_add_mod j (2 ^ i)

theorem lt_rootOf_add (i j : Nat) : j < rootOf i j + 2 ^ i := by
  have := rootOf_add_mod i j
  have := Nat.mod_lt j (Nat.two_pow_pos i)
  omega

theorem rootOf_xor (i j : Nat) : rootOf i (j ^^^ 2 ^ i) =
    if j < j ^^^ 2 ^ i then rootOf i j + 2 ^ i else rootOf i j - 2 ^ i := by
  unfold rootOf
  rw [xor_div, xor_one]
  by_cases h : j / 2 ^ i % 2 = 0
  · rw [if_pos h, if_pos ((lt_xor_iff j i).2 h), Nat.add_mul, Nat.one_mul]
  · rw [if_neg h, if_neg fun hlt => h ((lt_xor_iff j i).1 hlt), Nat.sub_mul, Nat.one_mul]

theorem rootOf_succ (i j : Nat) : rootOf (i + 1) j =
    if j < j ^^^ 2 ^ i then rootOf i j else rootOf i j - 2 ^ i := by
  unfold rootOf
  rw [Nat.pow_succ, ← Nat.div_div_eq_div_mul]
  by_cases h : j / 2 ^ i % 2 = 0
  · have hb : j / 2 ^ i / 2 * 2 = j / 2 ^ i := by
      generalize j / 2 ^ i = b at h ⊢
      omega
    rw [if_pos ((lt_xor_iff j i).2 h), Nat.mul_comm (2 ^ i) 2, ← Nat.mul_assoc, hb]
  · have hb : j / 2 ^ i / 2 * 2 = j / 2 ^ i - 1 := by
      generalize j / 2 ^ i = b at h ⊢
      omega
    rw [if_neg fun hlt => h ((lt_xor_iff j i).1 hlt), Nat.mul_comm (2 ^ i) 2, ← Nat.mul_assoc, hb,
      Nat.sub_mul, Nat.one_mul]

theorem le_rootOf (h : ¬ j < j ^^^ 2 ^ i) : 2 ^ i ≤ rootOf i j := by
  have hodd : j / 2 ^ i % 2 ≠ 0 := fun h0 => h ((lt_xor_iff j i).2 h0)
  have hpos : 1 ≤ j / 2 ^ i := by
    generalize j / 2 ^ i = b at hodd
    omega
  have := Nat.mul_le_mul_right (2 ^ i) hpos
  rwa [Nat.one_mul] at this

theorem xor_mod (i j : Nat) : (j ^^^ 2 ^ i) % 2 ^ i = j % 2 ^ i := by
  rw [Nat.xor_mod_two_pow, Nat.mod_self, Nat.xor_zero]

theorem xor_eq (i j : Nat) :
    j ^^^ 2 ^ i = if j < j ^^^ 2 ^ i then j + 2 ^ i else j - 2 ^ i := by
  have hself := rootOf_add_mod i j
  have hpeer := rootOf_add_mod i (j ^^^ 2 ^ i)
  rw [xor_mod, rootOf_xor] at hpeer
  split at hpeer
  · next h =>
    rw [if_pos h]
    omega
  · next h =>
    have := le_rootOf h
    rw [if_neg h]
    omega

theorem rootOf_xor_of_lt (h : t < i) (j : Nat) : rootOf i (j ^^^ 2 ^ t) = rootOf i j := by
  have hdiv : (j ^^^ 2 ^ t) / 2 ^ i = j / 2 ^ i := div_pow_of_le h (xor_div_succ j t)
  rw [rootOf, rootOf, hdiv]

def sub (op : α → α → α) (v : Nat → α) (n i root : Nat) : α :=
  seg op v root (min (2 ^ i) (n - root) - 1)

theorem sub_succ (ha : ∀ x y z, op (op x y) z = op x (op y z)) {root : Nat} (h : root + 2 ^ i < n) :
    op (sub op v n i root) (sub op v n i (root + 2 ^ i)) = sub op v n (i + 1) root := by
  have hpos := Nat.two_pow_pos i
  have hnext : root + 2 ^ i = root + (2 ^ i - 1) + 1 := by omega
  have hlen : 2 ^ i - 1 + (min (2 ^ i) (n - (root + 2 ^ i)) - 1) + 1 =
      min (2 ^ (i + 1)) (n - root) - 1 := by
    rw [Nat.pow_succ]
    omega
  rw [sub, sub, sub, Nat.min_eq_left (by omega), hnext, seg_append ha, ← hnext, hlen]

theorem sub_alone {root : Nat} (h : n ≤ root + 2 ^ i) :
    sub op v n (i + 1) root = sub op v n i root := by
  rw [sub, sub, Nat.pow_succ]
  congr 1
  omega

def behind (n i j : Nat) : Nat := n - (rootOf i j + 2 ^ i)

theorem partner_lt_iff (h : j < j ^^^ 2 ^ i) : j ^^^ 2 ^ i < n ↔ j % 2 ^ i < behind n i j := by
  have heq := xor_eq i j
  have hself := rootOf_add_mod i j
  rw [if_pos h] at heq
  unfold behind
  omega

theorem behind_pos_iff (h : j < j ^^^ 2 ^ i) : rootOf i (j ^^^ 2 ^ i) < n ↔ 0 < behind n i j := by
  rw [rootOf_xor, if_pos h]
  unfold behind
  omega

theorem mod_succ (t j : Nat) : j % 2 ^ (t + 1) =
    if j < j ^^^ 2 ^ t then j % 2 ^ t else j % 2 ^ t + 2 ^ t := by
  have hself := rootOf_add_mod t j
  have hnext := rootOf_add_mod (t + 1) j
  rw [rootOf_succ] at hnext
  split at hnext
  · next h =>
    rw [if_pos h]
    omega
  · next h =>
    have := le_rootOf h
    rw [if_neg h]
    omega

end subtrees

/-! ## Phases -/

section phases

variable {α : Type} (call : ScatterCall α) (L i t : Nat)

def selfNum (g : Nat) : Option Nat := if g < 2 ^ L then some g else none

variable {L} in
theorem self_numbering : Numbering L (selfNum L) id :=
  ⟨fun _ hj => if_pos hj, fun _ _ h =>
    have h := ite_none_right_eq_some.1 h
    have heq := Option.some.inj h.2
    ⟨heq ▸ h.1, heq.symm⟩⟩

def outOf (j : Nat) : Indexed := outsideOf call.recvcounts (rootOf i j) (2 ^ i)

def exchangePhase : Phase Nat (ScatterBufs α) (List α) :=
  cubePhase (selfNum L) id i
    (fun j => decide (j < call.recvcounts.length ∧ j ^^^ 2 ^ i < call.recvcounts.length))
    (fun j s => (outOf call i j).pack s.tmpResults)
    fun j => ScatterBufs.recvIndexed (outOf call i (j ^^^ 2 ^ i))

/-- A process passes on what it has received: it has the data at the level `t`, and its partner does
not. -/
def passes (n i t j : Nat) : Bool :=
  decide (j < j ^^^ 2 ^ i ∧ j < j ^^^ 2 ^ t ∧ j % 2 ^ (t + 1) < behind n i j ∧
    behind n i j ≤ (j ^^^ 2 ^ t) % 2 ^ (t + 1))

def passPhase : Phase Nat (ScatterBufs α) (List α) :=
  cubePhase (selfNum L) id t (passes call.recvcounts.length i t)
    (fun j s => (outOf call i (j ^^^ 2 ^ i)).pack s.tmpRecvbuf)
    fun j => ScatterBufs.recvIndexed (outOf call i (j ^^^ 2 ^ i))

def orderedAt (j : Nat) : Bool :=
  call.isCommutative || decide (rootOf i (j ^^^ 2 ^ i) < rootOf i j)

def reducePhase : Phase Nat (ScatterBufs α) (List α) :=
  .calc fun g =>
    if g < call.recvcounts.length ∧ rootOf i (g ^^^ 2 ^ i) < call.recvcounts.length then
      [ScatterBufs.reduceIndexed call.op (orderedAt call i g) (outOf call i (g ^^^ 2 ^ i))] else []

def stepPhases : List (Phase Nat (ScatterBufs α) (List α)) :=
  exchangePhase call L i ::
    ((List.range i).reverse.map (passPhase call L i) ++ [reducePhase call i])

def copyPhase : Phase Nat (ScatterBufs α) (List α) :=
  .calc fun g => if g < call.recvcounts.length then
    [ScatterBufs.copyIn call.recvcounts.sum] else []

def ownPhase : Phase Nat (ScatterBufs α) (List α) :=
  .calc fun g => if g < call.recvcounts.length then
    [ScatterBufs.copyOut (partDisp call.recvcounts g) (call.recvcounts.getD g 0)] else []

def doublingPhases : List (Phase Nat (ScatterBufs α) (List α)) :=
  copyPhase call :: ((List.range L).flatMap (stepPhases call L) ++ [ownPhase call])

end phases

/-! ## Programs -/

section programs

variable {α : Type} {call : ScatterCall α} {L i t g : Nat}

theorem selfNum_eq (hn : call.recvcounts.length ≤ 2 ^ L) (hg : g < call.recvcounts.length) :
    selfNum L g = some g := if_pos (Nat.lt_of_lt_of_le hg hn)

theorem exchangePhase_instrs (hn : call.recvcounts.length ≤ 2 ^ L)
    (hg : g < call.recvcounts.length) : (exchangePhase call L i).instrs g =
      if g ^^^ 2 ^ i < call.recvcounts.length then
        sendRecv (g ^^^ 2 ^ i) (fun s => (outOf call i g).pack s.tmpResults) (g ^^^ 2 ^ i)
          (ScatterBufs.recvIndexed (outOf call i (g ^^^ 2 ^ i))) else [] := by
  have hnum := selfNum_eq hn hg
  by_cases hp : g ^^^ 2 ^ i < call.recvcounts.length
  · rw [if_pos hp, exchangePhase, cubePhase_instrs hnum (decide_eq_true ⟨hg, hp⟩)
      (by rw [xor_xor]; exact decide_eq_true ⟨hp, hg⟩)]
    rfl
  · rw [if_neg hp, exchangePhase, cubePhase_instrs_quiet hnum (decide_eq_false fun h => hp h.2)
      (by rw [xor_xor]; exact decide_eq_false fun h => hp h.1)]

theorem passes_eq_true {n j : Nat} : passes n i t j = true ↔
    j < j ^^^ 2 ^ i ∧ j < j ^^^ 2 ^ t ∧ j % 2 ^ (t + 1) < behind n i j ∧
      behind n i j ≤ (j ^^^ 2 ^ t) % 2 ^ (t + 1) := decide_eq_true_iff

theorem behind_xor {n : Nat} (h : t < i) (j : Nat) : behind n i (j ^^^ 2 ^ t) = behind n i j := by
  rw [behind, behind, rootOf_xor_of_lt h]

theorem lt_xor_xor (h : t < i) (j : Nat) :
    j ^^^ 2 ^ t < j ^^^ 2 ^ t ^^^ 2 ^ i ↔ j < j ^^^ 2 ^ i := by
  rw [lt_xor_iff, lt_xor_iff, div_pow_of_le h (xor_div_succ j t)]

theorem passes_iff {n : Nat} {c : Int} (h : g < g ^^^ 2 ^ i)
    (hc : c = n - rootOf i g - (2 ^ i : Nat)) :
    (g < g ^^^ 2 ^ t ∧ (g : Int) < rootOf (t + 1) g + c ∧
      rootOf (t + 1) g + c ≤ ((g ^^^ 2 ^ t : Nat) : Int)) ↔ passes n i t g = true := by
  have hself := rootOf_add_mod (t + 1) g
  have hpeer := rootOf_add_mod (t + 1) (g ^^^ 2 ^ t)
  rw [rootOf_xor_of_lt (Nat.lt_add_one t)] at hpeer
  rw [passes_eq_true, behind, and_iff_right h]
  generalize (g ^^^ 2 ^ t) % 2 ^ (t + 1) = b at hpeer ⊢
  generalize g % 2 ^ (t + 1) = a at hself ⊢
  generalize 2 ^ i = m at hc ⊢
  omega

theorem passes_xor_iff {n : Nat} {c : Int} (h : g < g ^^^ 2 ^ i) (ht : t < i)
    (hc : c = n - rootOf i g - (2 ^ i : Nat)) :
    (g ^^^ 2 ^ t < g ∧ ((g ^^^ 2 ^ t : Nat) : Int) < rootOf (t + 1) g + c ∧
      rootOf (t + 1) g + c ≤ (g : Int)) ↔ passes n i t (g ^^^ 2 ^ t) = true := by
  have hsub := rootOf_xor_of_lt (Nat.lt_add_one t) g
  have hroot := rootOf_xor_of_lt ht g
  rw [← passes_iff (c := c) ((lt_xor_xor ht g).2 h) (by rw [hroot, hc]), xor_xor, hsub]

theorem passOn_eq {n : Nat} {c : Int} (hlen : call.recvcounts.length = n) (hn : n ≤ 2 ^ L)
    (hg : g < n) (h : g < g ^^^ 2 ^ i) (hc : c = n - rootOf i g - (2 ^ i : Nat)) {fuel : Nat}
    (ht : t ≤ i) (hf : t < fuel) :
    passOn g c (outOf call i (g ^^^ 2 ^ i)) fuel (2 ^ t >>> 1) t =
      some ((List.range t).reverse.flatMap fun t => (passPhase call L i t).instrs g,
        decide (0 < behind n i g ∧ behind n i g ≤ g % 2 ^ t)) := by
  subst hlen
  have hnum := selfNum_eq hn hg
  induction t generalizing fuel with
  | zero =>
    obtain ⟨fuel, rfl⟩ := Nat.exists_eq_succ_of_ne_zero (Nat.ne_of_gt hf)
    have hno : ¬ (0 < behind call.recvcounts.length i g ∧
        behind call.recvcounts.length i g ≤ g % 2 ^ 0) := by
      rw [Nat.pow_zero, Nat.mod_one]
      omega
    rw [decide_eq_false hno]
    rfl
  | succ t ih =>
    obtain ⟨fuel, rfl⟩ := Nat.exists_eq_succ_of_ne_zero (Nat.ne_of_gt (Nat.zero_lt_of_lt hf))
    have hpos := Nat.two_pow_pos t
    have hself := mod_succ t g
    have hpeer := mod_succ t (g ^^^ 2 ^ t)
    rw [xor_xor, xor_mod] at hpeer
    have hxor := xor_ne g t
    have hsend := passes_iff (t := t) h hc
    have hrecv := passes_xor_iff h ht hc
    have hbehind := behind_xor (n := call.recvcounts.length) ht g
    have hdst := lt_xor_xor ht g
    rw [shiftRight_pow, passOn, if_neg (Nat.ne_of_gt hpos), Nat.add_sub_cancel,
      ih (Nat.le_of_succ_le ht) (Nat.lt_of_succ_lt_succ hf), range_succ, reverse_concat,
      flatMap_cons, shift_eq_rootOf]
    simp only [Option.bind_eq_bind, Option.bind_some, hsend, hrecv, Option.pure_def]
    clear hsend hrecv
    by_cases hs : passes call.recvcounts.length i t g = true
    · have hr : passes call.recvcounts.length i t (g ^^^ 2 ^ t) = false := by
        refine Bool.eq_false_iff.2 fun hr => ?_
        rw [passes_eq_true] at hs hr
        rw [xor_xor] at hr
        exact Nat.lt_asymm hs.2.1 hr.2.1
      rw [if_pos hs, passPhase, cubePhase_instrs_send hnum hs hr]
      rw [passes_eq_true] at hs
      rw [if_pos hs.2.1] at hself
      rw [hself]
      rfl
    · rw [if_neg hs]
      by_cases hr : passes call.recvcounts.length i t (g ^^^ 2 ^ t) = true
      · rw [if_pos hr, passPhase, cubePhase_instrs_recv hnum (Bool.eq_false_iff.2 hs) hr]
        rw [passes_eq_true, hbehind, xor_xor] at hr
        rw [decide_eq_true (⟨by omega, hr.2.2.2⟩ : 0 < _ ∧ _)]
        rfl
      · rw [if_neg hr, passPhase, cubePhase_instrs_quiet hnum (Bool.eq_false_iff.2 hs)
          (Bool.eq_false_iff.2 hr)]
        rw [passes_eq_true, hbehind, hdst, xor_xor, and_iff_right h] at hr
        rw [passes_eq_true, and_iff_right h] at hs
        congr 2
        rw [decide_eq_decide]
        split at hself
        · rw [hself]
        · rw [if_pos (by omega)] at hpeer
          omega

theorem passPhase_instrs_nil (hlen : call.recvcounts.length ≤ 2 ^ L)
    (hg : g < call.recvcounts.length) (ht : t < i)
    (h : g < g ^^^ 2 ^ i → 2 ^ i ≤ behind call.recvcounts.length i g) :
    (passPhase call L i t).instrs g = [] := by
  have hle : 2 ^ (t + 1) ≤ 2 ^ i := Nat.pow_le_pow_right Nat.two_pos ht
  have hno : ∀ j, behind call.recvcounts.length i j = behind call.recvcounts.length i g →
      (j < j ^^^ 2 ^ i ↔ g < g ^^^ 2 ^ i) → passes call.recvcounts.length i t j = false := by
    intro j hj hlt
    refine Bool.eq_false_iff.2 fun hp => ?_
    rw [passes_eq_true, hj, hlt] at hp
    have := h hp.1
    have := Nat.mod_lt (j ^^^ 2 ^ t) (Nat.two_pow_pos (t + 1))
    omega
  exact cubePhase_instrs_quiet (selfNum_eq hlen hg) (hno g rfl Iff.rfl)
    (hno (g ^^^ 2 ^ t) (behind_xor ht g) (lt_xor_xor ht g))

theorem bitsLoop_eq {m k fuel : Nat} (hf : m + 1 < fuel) :
    bitsLoop fuel (2 ^ m) k = some (k + m) := by
  induction m generalizing k fuel with
  | zero =>
    obtain ⟨fuel, rfl⟩ : ∃ f, fuel = f + 2 := ⟨fuel - 2, by omega⟩
    rfl
  | succ m ih =>
    obtain ⟨fuel, rfl⟩ := Nat.exists_eq_succ_of_ne_zero (Nat.ne_of_gt (Nat.zero_lt_of_lt hf))
    rw [bitsLoop, if_neg (Nat.ne_of_gt (Nat.two_pow_pos _)), shiftRight_pow,
      ih (Nat.lt_of_succ_lt_succ hf)]
    congr 1
    omega

theorem received_iff {n : Nat} (hg : g < n) :
    (g ^^^ 2 ^ i < n ∨ g < g ^^^ 2 ^ i ∧ 0 < behind n i g ∧ behind n i g ≤ g % 2 ^ i) ↔
      rootOf i (g ^^^ 2 ^ i) < n := by
  have hroot := rootOf_le i (g ^^^ 2 ^ i)
  by_cases h : g < g ^^^ 2 ^ i
  · rw [behind_pos_iff h, partner_lt_iff h]
    omega
  · have := xor_ne g i
    constructor
    · omega
    · omega

theorem pass_eq (hlen : call.recvcounts.length ≤ 2 ^ L) (hg : g < call.recvcounts.length) :
    ∃ received : Bool, (received = true ↔ g < g ^^^ 2 ^ i ∧
        0 < behind call.recvcounts.length i g ∧ behind call.recvcounts.length i g ≤ g % 2 ^ i) ∧
      if call.recvcounts.length < rootOf i (g ^^^ 2 ^ i) + 2 ^ i then
        passOn g ((call.recvcounts.length : Int) - rootOf i g - (2 ^ i : Nat))
          (outOf call i (g ^^^ 2 ^ i)) (2 ^ i + 1) (2 ^ i >>> 1) i =
          some ((List.range i).reverse.flatMap fun t => (passPhase call L i t).instrs g, received)
      else (List.range i).reverse.flatMap (fun t => (passPhase call L i t).instrs g) = [] ∧
        received = false := by
  have hpow := @Nat.lt_two_pow_self i
  have hroot := rootOf_xor i g
  by_cases h : call.recvcounts.length < rootOf i (g ^^^ 2 ^ i) + 2 ^ i
  · have hlt : g < g ^^^ 2 ^ i := by
      by_contra hno
      have := le_rootOf hno
      have := rootOf_le i g
      rw [if_neg hno] at hroot
      omega
    refine ⟨decide (0 < behind call.recvcounts.length i g ∧
      behind call.recvcounts.length i g ≤ g % 2 ^ i), ?_, ?_⟩
    · rw [decide_eq_true_iff, and_iff_right hlt]
    · rw [if_pos h]
      exact passOn_eq rfl hlen hg hlt rfl (Nat.le_refl i) (by omega)
  · have hbehind : g < g ^^^ 2 ^ i → 2 ^ i ≤ behind call.recvcounts.length i g := by
      intro hlt
      rw [if_pos hlt] at hroot
      unfold behind
      omega
    refine ⟨false, iff_of_false Bool.false_ne_true fun hr => ?_, ?_⟩
    · have := hbehind hr.1
      have := Nat.mod_lt g (Nat.two_pow_pos i)
      omega
    · rw [if_neg h]
      refine ⟨flatMap_eq_nil_iff.2 fun t ht => ?_, rfl⟩
      rw [mem_reverse, mem_range] at ht
      exact passPhase_instrs_nil hlen hg ht hbehind

theorem doublingStep_eq (hsum : call.recvcounts.sum ≤ intMax)
    (hlen : call.recvcounts.length ≤ 2 ^ L) (hg : g < call.recvcounts.length) :
    doublingStep call g call.recvcounts.sum (2 ^ i) i =
      some ((stepPhases call L i).flatMap fun a => a.instrs g) := by
  obtain ⟨received, hreceived, hpass⟩ := @pass_eq α call L i g hlen hg
  have hfits : ∀ j, (outOf call i j).fits call.recvcounts.sum = true := fun j => outside_fits
  have htype : ∀ j, treeType call (rootOf i j) (2 ^ i) = outOf call i j := fun j =>
    treeType_eq hsum _ _
  have hexchange := exchangePhase_instrs (i := i) hlen hg
  have hreduce : (reducePhase call i).instrs g =
      if g ^^^ 2 ^ i < call.recvcounts.length ∨ received = true then
        [.compute (ScatterBufs.reduceIndexed call.op (orderedAt call i g)
          (outOf call i (g ^^^ 2 ^ i)))] else [] := by
    have hiff := received_iff (i := i) hg
    rw [← hreceived] at hiff
    rw [reducePhase, calc_instrs]
    by_cases h : g ^^^ 2 ^ i < call.recvcounts.length ∨ received = true
    · rw [if_pos h, if_pos ⟨hg, hiff.1 h⟩]
      rfl
    · rw [if_neg h, if_neg fun h' => h (hiff.2 h'.2)]
      rfl
  rw [stepPhases, flatMap_cons, flatMap_append, flatMap_map, flatMap_singleton,
    hexchange, hreduce]
  unfold doublingStep
  have hbits := @bitsLoop_eq i 0 (2 ^ i + 1) (Nat.add_lt_add_right Nat.lt_two_pow_self 1)
  have hif : ∀ (c : Prop) [Decidable c] (a b : List (ScatterInstr α)),
      (if c then some a else some b) = some (if c then a else b) := fun c _ a b =>
    (apply_ite some c a b).symm
  simp only [shift_eq_rootOf, htype, hfits, Bool.and_self, Bool.or_true, if_true,
    Option.bind_eq_bind, Option.pure_def, hbits, Option.bind_some, Nat.zero_add]
  by_cases h : call.recvcounts.length < rootOf i (g ^^^ 2 ^ i) + 2 ^ i
  · rw [if_pos h] at hpass
    simp only [if_pos h, hpass, Option.bind_some, hif]
    by_cases hdst : g ^^^ 2 ^ i < call.recvcounts.length
    · simp only [if_pos hdst, append_assoc]
      rfl
    · simp only [if_neg hdst, append_assoc]
      rfl
  · rw [if_neg h] at hpass
    simp only [if_neg h, hpass, hif]
    by_cases hdst : g ^^^ 2 ^ i < call.recvcounts.length
    · simp only [if_pos hdst, append_assoc]
      rfl
    · simp only [if_neg hdst, append_assoc]
      rfl

theorem scatterDoubling_eq (hsum : call.recvcounts.sum ≤ intMax)
    (hL : ∀ i, 2 ^ i < call.recvcounts.length ↔ i < L) (hg : g < call.recvcounts.length)
    {d fuel : Nat} (hi : i + d = L) (hf : d < fuel) :
    scatterDoubling call g call.recvcounts.sum fuel (2 ^ i) i =
      some (((List.range' i d).flatMap (stepPhases call L)).flatMap fun a => a.instrs g) := by
  have hlen : call.recvcounts.length ≤ 2 ^ L :=
    Nat.le_of_not_lt fun h => Nat.lt_irrefl L ((hL L).1 h)
  induction d generalizing i fuel with
  | zero =>
    obtain ⟨fuel, rfl⟩ := Nat.exists_eq_succ_of_ne_zero (Nat.ne_of_gt hf)
    obtain rfl : i = L := hi
    rw [scatterDoubling, if_neg (Nat.not_lt_of_le hlen)]
    rfl
  | succ d ih =>
    obtain ⟨fuel, rfl⟩ := Nat.exists_eq_succ_of_ne_zero (Nat.ne_of_gt (Nat.zero_lt_of_lt hf))
    have hlt : 2 ^ i < call.recvcounts.length := (hL i).2 (by omega)
    rw [scatterDoubling, if_pos hlt, doublingStep_eq hsum hlen hg, shiftLeft_pow]
    simp only [Option.bind_eq_bind, Option.bind_some]
    rw [ih (by omega) (Nat.lt_of_succ_lt_succ hf), Option.bind_some, range'_succ,
      flatMap_cons, flatMap_append]
    rfl

theorem ownBlock_eq (hsum : call.recvcounts.sum ≤ intMax) (hg : g < call.recvcounts.length) :
    ownBlock call g call.recvcounts.sum = some ((ownPhase call).instrs g) := by
  have hdisp := getElem?_intDisps hg
  rw [intSum_take hsum] at hdisp
  have hend := partDisp_succ hg
  have hle := @partDisp_le call.recvcounts (g + 1)
  rw [getD_eq_getElem _ _ hg] at hend
  have hin : inBuf call.recvcounts.sum (partDisp call.recvcounts g) call.recvcounts[g] = true := by
    rw [inBuf, decide_eq_true_eq]
    right
    omega
  rw [ownBlock, hdisp, List.getElem?_eq_getElem hg]
  simp only [Option.bind_eq_bind, Option.bind_some, Option.pure_def]
  rw [if_pos hin, ownPhase, calc_instrs, if_pos hg, getD_eq_getElem _ _ hg, Int.toNat_natCast]
  rfl

theorem doubling_eq (hsum : call.recvcounts.sum ≤ intMax)
    (hL : ∀ i, 2 ^ i < call.recvcounts.length ↔ i < L) (hg : g < call.recvcounts.length) :
    reduceScatterIntraRecursiveDoubling call g =
      some (if call.recvcounts.sum = 0 then []
        else (doublingPhases call L).flatMap fun a => a.instrs g) := by
  have htotal : intSum call.recvcounts 0 = call.recvcounts.sum := by
    rw [intSum_eq (Int.le_refl 0) (by omega), Int.zero_add]
  have hLlen : L < call.recvcounts.length + 1 := by
    by_contra hno
    exact Nat.lt_asymm ((hL call.recvcounts.length).2 (by omega)) Nat.lt_two_pow_self
  have hsteps := scatterDoubling_eq (i := 0) hsum hL hg (Nat.zero_add L) hLlen
  rw [Nat.pow_zero, ← range_eq_range'] at hsteps
  unfold reduceScatterIntraRecursiveDoubling
  rw [htotal]
  by_cases h0 : call.recvcounts.sum = 0
  · rw [if_pos (by rw [h0]; rfl), if_pos h0]
  · simp only [if_neg (show ¬ (call.recvcounts.sum : Int) = 0 by omega),
      if_neg (show ¬ (call.recvcounts.sum : Int) < 0 by omega), if_neg h0, hsteps,
      ownBlock_eq hsum hg, Option.bind_eq_bind, Option.bind_some, Option.pure_def]
    rw [doublingPhases, flatMap_cons, flatMap_append, flatMap_singleton, copyPhase,
      calc_instrs, if_pos hg, append_assoc]
    rfl

end programs

/-! ## Messages match -/

section matching

variable {α : Type} {call : ScatterCall α} {L i t g : Nat} {a : Phase Nat (ScatterBufs α) (List α)}

theorem mem_stepPhases (ha : a ∈ stepPhases call L i) : a = exchangePhase call L i ∨
    (∃ t < i, a = passPhase call L i t) ∨ a = reducePhase call i := by
  rcases mem_cons.1 ha with rfl | ha
  · exact .inl rfl
  rcases mem_append.1 ha with ha | ha
  · obtain ⟨t, ht, rfl⟩ := mem_map.1 ha
    exact .inr (.inl ⟨t, mem_range.1 (mem_reverse.1 ht), rfl⟩)
  · exact .inr (.inr (mem_singleton.1 ha))

theorem mem_doublingPhases (ha : a ∈ doublingPhases call L) : a = copyPhase call ∨
    (∃ i < L, a ∈ stepPhases call L i) ∨ a = ownPhase call := by
  rcases mem_cons.1 ha with rfl | ha
  · exact .inl rfl
  rcases mem_append.1 ha with ha | ha
  · obtain ⟨i, hi, ha⟩ := mem_flatMap.1 ha
    exact .inr (.inl ⟨i, mem_range.1 hi, ha⟩)
  · exact .inr (.inr (mem_singleton.1 ha))

theorem doublingPhases_matched (ha : a ∈ doublingPhases call L) : a.Matched := by
  rcases mem_doublingPhases ha with rfl | ⟨i, hi, ha⟩ | rfl
  · exact calc_matched _
  · rcases mem_stepPhases ha with rfl | ⟨t, ht, rfl⟩ | rfl
    · exact cubePhase_matched self_numbering hi
    · exact cubePhase_matched self_numbering (Nat.lt_trans ht hi)
    · exact calc_matched _
  · exact calc_matched _

theorem passes_out {n j : Nat} (h : n ≤ j) : passes n i t j = false := by
  refine Bool.eq_false_iff.2 fun hp => ?_
  have hlt := lt_rootOf_add i j
  rw [passes_eq_true, behind] at hp
  omega

theorem doublingPhases_out (ha : a ∈ doublingPhases call L)
    (hg : g ∉ List.range call.recvcounts.length) : a.instrs g = [] := by
  rw [mem_range] at hg
  have hcalc : ∀ (p : Nat → Prop) [DecidablePred p] (f : Nat → ScatterBufs α → ScatterBufs α),
      ¬ p g → (Phase.calc fun g => if p g then [f g] else [] :
        Phase Nat (ScatterBufs α) (List α)).instrs g = [] := by
    intro p _ f hp
    rw [calc_instrs, if_neg hp]
    rfl
  have hcube : ∀ {k sends msg upd}, sends g = false → sends (g ^^^ 2 ^ k) = false →
      (cubePhase (selfNum L) id k sends msg upd : Phase Nat (ScatterBufs α) (List α)).instrs g =
        [] := by
    intro k sends msg upd hs hr
    cases hnum : selfNum L g with
    | none => exact cubePhase_instrs_none hnum
    | some j =>
      obtain ⟨-, rfl⟩ := self_numbering.of_num g j hnum
      exact cubePhase_instrs_quiet hnum hs hr
  rcases mem_doublingPhases ha with rfl | ⟨i, hi, ha⟩ | rfl
  · exact hcalc _ _ hg
  · rcases mem_stepPhases ha with rfl | ⟨t, ht, rfl⟩ | rfl
    · exact hcube (decide_eq_false fun h => hg h.1)
        (decide_eq_false fun h => hg (by rw [xor_xor] at h; exact h.2))
    · refine hcube (passes_out (Nat.le_of_not_lt hg)) (Bool.eq_false_iff.2 fun hp => ?_)
      have hlt := lt_rootOf_add i g
      rw [passes_eq_true, behind_xor ht, behind] at hp
      omega
    · exact hcalc _ _ fun h => hg h.1
  · exact hcalc _ _ hg

end matching

/-! ## Values -/

section values

variable {α : Type} {call : ScatterCall α} {L i t : Nat} {S : Nat → ScatterBufs α}
  {v : Nat → Nat → α}

/-- The elements that a process has the reduction over its subtree for: those outside the subtree,
and its own block. -/
def Keeps (cnts : List Nat) (i j e : Nat) : Prop :=
  OutTree cnts (rootOf i j) (2 ^ i) e ∨ partDisp cnts j ≤ e ∧ e < partDisp cnts (j + 1)

def ScatterAgree (S : Nat → ScatterBufs α) : Prop := ∀ g, (S g).mismatch = false

def Reduced (call : ScatterCall α) (v : Nat → Nat → α) (i : Nat) (S : Nat → ScatterBufs α) : Prop :=
  ∀ g < call.recvcounts.length, ∀ e, Keeps call.recvcounts i g e → (S g).tmpResults e =
    sub call.op (fun r => v r e) call.recvcounts.length i (rootOf i g)

/-- The processes that have partners, and those that have got the data down to the level `t`, have
the reduction over the subtree of their partners. -/
def Received (call : ScatterCall α) (v : Nat → Nat → α) (i t : Nat) (S : Nat → ScatterBufs α) :
    Prop :=
  ∀ g < call.recvcounts.length, (g ^^^ 2 ^ i < call.recvcounts.length ∨
    g < g ^^^ 2 ^ i ∧ g % 2 ^ t < behind call.recvcounts.length i g) → ∀ e,
      OutTree call.recvcounts (rootOf i (g ^^^ 2 ^ i)) (2 ^ i) e → (S g).tmpRecvbuf e =
        sub call.op (fun r => v r e) call.recvcounts.length i (rootOf i (g ^^^ 2 ^ i))

theorem recvIndexed_agree {s : ScatterBufs α} {type : Indexed} {buf : Nat → α}
    (h : s.mismatch = false) : (s.recvIndexed type (type.pack buf)).mismatch = false := by
  show (s.mismatch || decide ((type.pack buf).length ≠ type.size)) = false
  rw [h, length_pack, Bool.false_or, decide_eq_false_iff_not]
  exact not_not_intro rfl

theorem xor_right_comm (j i t : Nat) : j ^^^ 2 ^ t ^^^ 2 ^ i = j ^^^ 2 ^ i ^^^ 2 ^ t := by
  rw [Nat.xor_assoc, Nat.xor_comm (2 ^ t), ← Nat.xor_assoc]

theorem rootOf_partner (h : t < i) (j : Nat) :
    rootOf i (j ^^^ 2 ^ t ^^^ 2 ^ i) = rootOf i (j ^^^ 2 ^ i) := by
  rw [xor_right_comm, rootOf_xor_of_lt h]

theorem exchange_phase (hlen : call.recvcounts.length ≤ 2 ^ L) (hi : i < L)
    (hagree : ScatterAgree S) (h : Reduced call v i S) :
    ScatterAgree ((exchangePhase call L i).after S) ∧
      Reduced call v i ((exchangePhase call L i).after S) ∧
      Received call v i i ((exchangePhase call L i).after S) := by
  have hresults : ∀ g, ((exchangePhase call L i).after S g).tmpResults = (S g).tmpResults :=
    cubePhase_frame self_numbering hi fun _ _ _ => rfl
  refine ⟨?_, fun g hg e he => ?_, fun g hg hp e he => ?_⟩
  · refine cubePhase_all (P := fun s : ScatterBufs α => s.mismatch = false) self_numbering hi
      (fun j s s' hs => recvIndexed_agree hs) hagree
  · rw [hresults]
    exact h g hg e he
  · have hpeer : g ^^^ 2 ^ i < call.recvcounts.length :=
      hp.elim id fun hp => (partner_lt_iff hp.1).2 hp.2
    have hafter : (exchangePhase call L i).after S g = _ :=
      cubePhase_after self_numbering hi (Nat.lt_of_lt_of_le hg hlen)
        (by rw [xor_xor]; exact decide_eq_true ⟨hpeer, hg⟩)
    rw [hafter]
    refine unpack_pack.trans ?_
    rw [if_pos he]
    exact h _ hpeer e (.inl he)

theorem pass_phase (hlen : call.recvcounts.length ≤ 2 ^ L) (hi : i < L) (ht : t < i)
    (h : ScatterAgree S ∧ Reduced call v i S ∧ Received call v i (t + 1) S) :
    ScatterAgree ((passPhase call L i t).after S) ∧
      Reduced call v i ((passPhase call L i t).after S) ∧
      Received call v i t ((passPhase call L i t).after S) := by
  obtain ⟨hagree, hred, hrecv⟩ := h
  have htL := Nat.lt_trans ht hi
  have hresults : ∀ g, ((passPhase call L i t).after S g).tmpResults = (S g).tmpResults :=
    cubePhase_frame self_numbering htL fun _ _ _ => rfl
  refine ⟨?_, fun g hg e he => ?_, fun g hg hp e he => ?_⟩
  · refine cubePhase_all (P := fun s : ScatterBufs α => s.mismatch = false) self_numbering htL
      (fun j s s' hs => ?_) hagree
    simp only [outOf, rootOf_partner ht]
    exact recvIndexed_agree hs
  · rw [hresults]
    exact hred g hg e he
  · have hnum := selfNum_eq (L := L) hlen hg
    have hbehind := behind_xor (n := call.recvcounts.length) ht g
    have hdst := lt_xor_xor ht g
    by_cases hpass : passes call.recvcounts.length i t (g ^^^ 2 ^ t) = true
    · have hafter : (passPhase call L i t).after S g = _ :=
        cubePhase_after self_numbering htL (Nat.lt_of_lt_of_le hg hlen) hpass
      have hpeer : g ^^^ 2 ^ t < call.recvcounts.length := by
        by_contra hno
        exact Bool.false_ne_true ((passes_out (Nat.le_of_not_lt hno)).symm.trans hpass)
      rw [passes_eq_true] at hpass
      have hhas := hrecv (g ^^^ 2 ^ t) hpeer (.inr ⟨hpass.1, hpass.2.2.1⟩) e
      rw [rootOf_partner ht] at hhas
      rw [hafter]
      simp only [outOf, rootOf_partner ht]
      refine unpack_pack.trans ?_
      rw [if_pos he]
      exact hhas he
    · rw [passPhase, cubePhase_after_quiet hnum (Bool.eq_false_iff.2 hpass)]
      refine hrecv g hg (hp.imp_right fun hp => ⟨hp.1, ?_⟩) e he
      have hself := mod_succ t g
      have hpeer := mod_succ t (g ^^^ 2 ^ t)
      rw [xor_xor, xor_mod] at hpeer
      rw [passes_eq_true, hbehind, hdst, xor_xor, and_iff_right hp.1] at hpass
      have hxor := xor_ne g t
      split at hself
      · rw [hself]
        exact hp.2
      · rw [if_pos (by omega)] at hpeer
        omega

theorem tmpResults_reduceIndexed {s : ScatterBufs α} {op : α → α → α} {ordered : Bool}
    {cnts : List Nat} {root mask e : Nat} (h : OutTree cnts root mask e) :
    (s.reduceIndexed op ordered (outsideOf cnts root mask)).tmpResults e =
      if ordered then op (s.tmpRecvbuf e) (s.tmpResults e)
      else op (s.tmpResults e) (s.tmpRecvbuf e) := by
  cases ordered with
  | true => exact (reduce_outside op).trans (if_pos h)
  | false =>
    refine unpack_pack.trans ((if_pos h).trans ?_)
    exact (reduce_outside op).trans (if_pos h)

theorem keeps_succ {cnts : List Nat} {g e : Nat} (h : Keeps cnts (i + 1) g e) :
    Keeps cnts i g e ∧ OutTree cnts (rootOf i (g ^^^ 2 ^ i)) (2 ^ i) e := by
  have hroot := rootOf_xor i g
  have hnext := rootOf_succ i g
  have hlt := lt_rootOf_add i g
  have hle := rootOf_le i g
  have hpow : 2 ^ (i + 1) = 2 ^ i + 2 ^ i := by omega
  have hbefore : g < g ^^^ 2 ^ i ∨ 2 ^ i ≤ rootOf i g := (Nat.lt_or_ge g (g ^^^ 2 ^ i)).imp_right
    fun hge => le_rootOf (Nat.not_lt_of_le hge)
  rcases h with h | h
  · unfold OutTree at h
    rw [hpow] at h
    have hout : ∀ root, rootOf (i + 1) g ≤ root →
        root + 2 ^ i ≤ rootOf (i + 1) g + (2 ^ i + 2 ^ i) → OutTree cnts root (2 ^ i) e := by
      intro root h₁ h₂
      have hlo := @partDisp_mono cnts _ _ h₁
      have hhi := @partDisp_mono cnts _ _ h₂
      unfold OutTree
      omega
    split at hnext
    · next hg =>
      rw [if_pos hg] at hroot
      exact ⟨.inl (hout _ (by omega) (by omega)), hout _ (by omega) (by omega)⟩
    · next hg =>
      rw [if_neg hg] at hroot
      exact ⟨.inl (hout _ (by omega) (by omega)), hout _ (by omega) (by omega)⟩
  · refine ⟨.inr h, ?_⟩
    split at hroot
    · have := @partDisp_mono cnts _ _ (show g + 1 ≤ rootOf i (g ^^^ 2 ^ i) by omega)
      exact .inl (by omega)
    · have := @partDisp_mono cnts _ _ (show rootOf i (g ^^^ 2 ^ i) + 2 ^ i ≤ g by omega)
      have := @partDisp_le cnts (g + 1)
      exact .inr (by omega)

theorem reduce_phase (ha : ∀ x y z, call.op (call.op x y) z = call.op x (call.op y z))
    (hcomm : call.isCommutative = true → ∀ x y, call.op x y = call.op y x)
    (h : ScatterAgree S ∧ Reduced call v i S ∧ Received call v i 0 S) :
    ScatterAgree ((reducePhase call i).after S) ∧
      Reduced call v (i + 1) ((reducePhase call i).after S) := by
  obtain ⟨hagree, hred, hrecv⟩ := h
  have hafter : ∀ g, (reducePhase call i).after S g =
      if g < call.recvcounts.length ∧ rootOf i (g ^^^ 2 ^ i) < call.recvcounts.length then
        (S g).reduceIndexed call.op (orderedAt call i g) (outOf call i (g ^^^ 2 ^ i))
      else S g := by
    intro g
    rw [reducePhase, calc_after]
    split <;> rfl
  refine ⟨fun g => ?_, fun g hg e he => ?_⟩
  · rw [hafter]
    split
    · have hno : (S g).mismatch = false := hagree g
      unfold ScatterBufs.reduceIndexed
      split <;> exact hno
    · exact hagree g
  · obtain ⟨hkeep, hout⟩ := keeps_succ he
    have hself := hred g hg e hkeep
    have hroot := rootOf_xor i g
    have hnext := rootOf_succ i g
    have hpos := Nat.two_pow_pos i
    rw [hafter]
    by_cases hdst : rootOf i (g ^^^ 2 ^ i) < call.recvcounts.length
    · have hpeer : (S g).tmpRecvbuf e = sub call.op (fun r => v r e) call.recvcounts.length i
          (rootOf i (g ^^^ 2 ^ i)) := by
        refine hrecv g hg ?_ e hout
        have := xor_ne g i
        by_cases hlt : g < g ^^^ 2 ^ i
        · rw [behind_pos_iff hlt] at hdst
          exact .inr ⟨hlt, by rwa [Nat.pow_zero, Nat.mod_one]⟩
        · exact .inl (by omega)
      rw [if_pos ⟨hg, hdst⟩]
      refine (tmpResults_reduceIndexed hout).trans ?_
      rw [hself, hpeer, hnext]
      by_cases hlt : g < g ^^^ 2 ^ i
      · rw [if_pos hlt] at hroot ⊢
        rw [← sub_succ ha (hroot ▸ hdst), hroot]
        split
        · next hord =>
          rw [orderedAt, hroot, Bool.or_eq_true, decide_eq_true_eq] at hord
          rcases hord with hord | hord
          · exact hcomm hord _ _
          · omega
        · rfl
      · have hle := le_rootOf hlt
        rw [if_neg hlt] at hroot ⊢
        have hback : rootOf i g - 2 ^ i + 2 ^ i = rootOf i g := Nat.sub_add_cancel hle
        have hord : orderedAt call i g = true := by
          rw [orderedAt, hroot, decide_eq_true (by omega), Bool.or_true]
        rw [if_pos hord, ← sub_succ ha (by rw [hback]; have := rootOf_le i g; omega), hback, hroot]
    · rw [if_neg fun h => hdst h.2, hself]
      have hlt : g < g ^^^ 2 ^ i := by
        by_contra hno
        have := rootOf_le i (g ^^^ 2 ^ i)
        omega
      rw [if_pos hlt] at hroot hnext
      rw [hnext, sub_alone (by omega)]

theorem step_phases (ha : ∀ x y z, call.op (call.op x y) z = call.op x (call.op y z))
    (hcomm : call.isCommutative = true → ∀ x y, call.op x y = call.op y x)
    (hlen : call.recvcounts.length ≤ 2 ^ L) (hi : i < L) (h : ScatterAgree S ∧ Reduced call v i S) :
    ScatterAgree (afterAll (stepPhases call L i) S) ∧
      Reduced call v (i + 1) (afterAll (stepPhases call L i) S) := by
  rw [stepPhases, afterAll_cons, afterAll_append, afterAll_cons, afterAll_nil]
  refine reduce_phase ha hcomm ?_
  exact afterAll_reverse
    (P := fun t T => ScatterAgree T ∧ Reduced call v i T ∧ Received call v i t T)
    (fun t T ht hT => pass_phase hlen hi ht hT) (Nat.le_refl i) (exchange_phase hlen hi h.1 h.2)

theorem after_doublingPhases (ha : ∀ x y z, call.op (call.op x y) z = call.op x (call.op y z))
    (hcomm : call.isCommutative = true → ∀ x y, call.op x y = call.op y x)
    (hlen : call.recvcounts.length ≤ 2 ^ L) (hagree : ScatterAgree S)
    (hv : ∀ g < call.recvcounts.length, ∀ e < call.recvcounts.sum,
      (S g).sendbuf.getD (S g).recvbuf e = v g e) :
    ScatterAgree (afterAll (doublingPhases call L) S) ∧
      ∀ g < call.recvcounts.length, ∀ e < call.recvcounts.getD g 0,
        (afterAll (doublingPhases call L) S g).recvbuf e =
          seg call.op (fun r => v r (partDisp call.recvcounts g + e)) 0
            (call.recvcounts.length - 1) := by
  have hcalc : ∀ (f : Nat → ScatterBufs α → ScatterBufs α) (T : Nat → ScatterBufs α) (g : Nat),
      (Phase.calc fun g => if g < call.recvcounts.length then [f g] else [] :
        Phase Nat (ScatterBufs α) (List α)).after T g =
        if g < call.recvcounts.length then f g (T g) else T g := by
    intro f T g
    rw [calc_after]
    split <;> rfl
  have hstart : ScatterAgree ((copyPhase call).after S) ∧
      Reduced call v 0 ((copyPhase call).after S) := by
    refine ⟨fun g => ?_, fun g hg e he => ?_⟩
    · rw [copyPhase, hcalc]
      split <;> exact hagree g
    · have hroot : rootOf 0 g = g := by rw [rootOf, Nat.pow_zero, Nat.div_one, Nat.mul_one]
      have hsum : e < call.recvcounts.sum := by
        have h₁ := @partDisp_le call.recvcounts (rootOf 0 g)
        have h₂ := @partDisp_le call.recvcounts (g + 1)
        unfold Keeps OutTree at he
        omega
      have hone : min (2 ^ 0) (call.recvcounts.length - g) - 1 = 0 := by
        rw [Nat.pow_zero]
        omega
      rw [copyPhase, hcalc, if_pos hg, hroot, sub, hone]
      exact (if_pos hsum).trans (hv g hg e hsum)
  have hsteps := afterAll_flatMap (P := fun i T => ScatterAgree T ∧ Reduced call v i T)
    (fun i T hi hT => step_phases ha hcomm hlen hi hT) hstart (Nat.le_refl L)
  rw [doublingPhases, afterAll_cons, afterAll_append, afterAll_cons, afterAll_nil]
  generalize afterAll ((List.range L).flatMap (stepPhases call L)) ((copyPhase call).after S) = T
    at hsteps
  refine ⟨fun g => ?_, fun g hg e he => ?_⟩
  · rw [ownPhase, hcalc]
    split <;> exact hsteps.1 g
  · have hroot : rootOf L g = 0 := by
      rw [rootOf, Nat.div_eq_of_lt (Nat.lt_of_lt_of_le hg hlen), Nat.zero_mul]
    have hend := partDisp_succ hg
    rw [ownPhase, hcalc, if_pos hg]
    refine (if_pos he).trans ?_
    rw [hsteps.2 g hg _ (.inr ⟨Nat.le_add_right _ e, by omega⟩), hroot, sub, Nat.sub_zero,
      Nat.min_eq_right hlen]

end values

end PsMpi.Coll
