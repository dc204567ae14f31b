import PsMpi.Coll.ReduceScatterGather
import PsMpi.Coll.AllreduceGroupOk
import PsMpi.Lib.Cube

/-!
# The root gets the reduction of all vectors
-/

open List Option

namespace PsMpi.Coll

open PsMpi.Lib PsMpi.Lib.Network PsMpi.Lib.Hypercube

variable {α : Type} {call : ReduceCall α} {L rem n : Nat}

/-! ## Parts -/

section cnts

variable {count m : Nat}

@[simp] theorem length_spreadCnts : (spreadCnts count m).length = m := by
  rw [spreadCnts, length_map, length_range]

theorem sum_spreadCnts (hm : 0 < m) : (spreadCnts count m).sum = count := by
  have hsum : ∀ k, ((List.range k).map fun i => count / m + if i < count % m then 1 else 0).sum =
      k * (count / m) + min k (count % m) := by
    intro k
    induction k with
    | zero => simp
    | succ k ih =>
      rw [range_succ, map_append, sum_append, ih, map_singleton,
        sum_singleton, Nat.succ_mul]
      split <;> omega
  have hlt := Nat.mod_lt count hm
  rw [spreadCnts, hsum, Nat.min_eq_right (Nat.le_of_lt hlt)]
  exact Nat.div_add_mod count m

end cnts

/-! ## Numbers -/

section numbers

variable {g j : Nat}

theorem reduceRank_reduceNewrank (h : reduceNewrank g rem = some j) : reduceRank rem j = g := by
  unfold reduceNewrank at h
  unfold reduceRank
  split at h
  · split at h
    · cases h
    · cases h
      rw [if_pos (by omega)]
      omega
  · cases h
    rw [if_neg (by omega)]
    omega

theorem reduceNewrank_reduceRank (j : Nat) : reduceNewrank (reduceRank rem j) rem = some j := by
  unfold reduceNewrank reduceRank
  split
  · rw [if_pos (by omega), if_neg (by omega)]
    congr 1
    omega
  · rw [if_neg (by omega)]
    congr 1
    omega

def scatterNum (n rem g : Nat) : Option Nat := if g < n then reduceNewrank g rem else none

theorem scatter_numbering (hrem : rem < 2 ^ L) :
    Numbering L (scatterNum (2 ^ L + rem) rem) (reduceRank rem) := by
  refine ⟨fun j hj => ?_, fun g j h => ?_⟩
  · rw [scatterNum, if_pos, reduceNewrank_reduceRank]
    unfold reduceRank
    split <;> omega
  · obtain ⟨hg, hnew⟩ := ite_none_right_eq_some.1 h
    have hrank := reduceRank_reduceNewrank hnew
    refine ⟨?_, hrank⟩
    unfold reduceRank at hrank
    split at hrank <;> omega

variable (call) in
def gatherNum (n rem g : Nat) : Option Nat :=
  if rootExcluded call rem then
    if g = call.root then some 0 else if g = 0 then none else scatterNum n rem g
  else scatterNum n rem g

variable (call) in
def gatherRank (rem j : Nat) : Nat :=
  if j = 0 ∧ rootExcluded call rem = true then call.root else reduceRank rem j

theorem gather_numbering (hrem : rem < 2 ^ L) :
    Numbering L (gatherNum call (2 ^ L + rem) rem) (gatherRank call rem) := by
  have hs := scatter_numbering hrem
  by_cases hex : rootExcluded call rem = true
  · have hroot := of_decide_eq_true hex
    refine ⟨fun j hj => ?_, fun g j h => ?_⟩
    · by_cases h0 : j = 0
      · have hr : gatherRank call rem j = call.root := by rw [gatherRank, if_pos ⟨h0, hex⟩]
        rw [hr, gatherNum, if_pos hex, if_pos rfl, h0]
      · have hr : gatherRank call rem j = reduceRank rem j := by
          rw [gatherRank, if_neg fun h => h0 h.1]
        have hne : reduceRank rem j ≠ call.root ∧ reduceRank rem j ≠ 0 := by
          unfold reduceRank
          split <;> omega
        rw [hr, gatherNum, if_pos hex, if_neg hne.1, if_neg hne.2, hs.num_rank j hj]
    · rw [gatherNum, if_pos hex] at h
      split at h
      · next hg =>
        cases h
        exact ⟨Nat.two_pow_pos L, by rw [gatherRank, if_pos ⟨rfl, hex⟩, hg]⟩
      · split at h
        · cases h
        · next h0 =>
          obtain ⟨hj, hrank⟩ := hs.of_num g j h
          refine ⟨hj, ?_⟩
          have hne : j ≠ 0 := by
            rintro rfl
            unfold reduceRank at hrank
            split at hrank <;> omega
          rw [gatherRank, if_neg fun h => hne h.1, hrank]
  · have hnum : gatherNum call (2 ^ L + rem) rem = scatterNum (2 ^ L + rem) rem := by
      funext g
      rw [gatherNum, if_neg hex]
    have hrank : gatherRank call rem = reduceRank rem := by
      funext j
      rw [gatherRank, if_neg fun h => hex h.2]
    rwa [hnum, hrank]

end numbers

/-! ## Phases -/

section phases

variable (call L rem)

def partCnts : List Nat := spreadCnts call.count (2 ^ L)

def wholeMsg (s : Work α) : List α := slice s.recvbuf 0 call.count

def wholeUpd (s : Work α) (msg : List α) : Work α :=
  (s.recvTmp 0 call.count msg).reduceTmp call.op 0 call.count

variable {call L} in
theorem length_partCnts : (partCnts call L).length = 2 ^ L := length_spreadCnts

variable {call L} in
theorem sum_partCnts : (partCnts call L).sum = call.count := sum_spreadCnts (Nat.two_pow_pos L)

def foldPhase : Phase Nat (Work α) (List α) :=
  .single (fun g => if g < 2 * rem ∧ g % 2 ≠ 0 then some (g - 1, wholeMsg call) else none)
    fun g => if g < 2 * rem ∧ g % 2 = 0 then some (g + 1, wholeUpd call) else none

def partUpd (p : Piece) (s : Work α) (msg : List α) : Work α :=
  (s.recvTmp p.recvDisp p.recvCnt msg).reduceTmp call.op p.recvDisp p.recvCnt

def scatterPhase (i : Nat) : Phase Nat (Work α) (List α) :=
  cubePhase (scatterNum (2 ^ L + rem) rem) (reduceRank rem) i (fun _ => true)
    (fun j s => slice s.recvbuf (scatterKept (partCnts call L) L i j).sendDisp
      (scatterKept (partCnts call L) L i j).sendCnt)
    fun j => partUpd call (scatterKept (partCnts call L) L i j)

def handPhase : Phase Nat (Work α) (List α) :=
  .single (fun g => if g = 0 then
      some (call.root, fun s => slice s.recvbuf 0 ((partCnts call L).getD 0 0)) else none)
    fun g => if g = call.root then
      some (0, fun s msg => s.recvRecv 0 ((partCnts call L).getD 0 0) msg) else none

/-- The numbers that send parts in the dimension `i`: their partners are nearer to the root. -/
def gathers (i j : Nat) : Bool := decide ((j ^^^ 2 ^ i) / 2 ^ i = newroot call rem / 2 ^ i)

def gatherPhase (i : Nat) : Phase Nat (Work α) (List α) :=
  cubePhase (gatherNum call (2 ^ L + rem) rem) (gatherRank call rem) i (gathers call rem i)
    (fun j s => slice s.recvbuf (gatherKept (partCnts call L) L i j).sendDisp
      (gatherKept (partCnts call L) L i j).sendCnt)
    fun j s msg => s.recvRecv (gatherKept (partCnts call L) L i j).recvDisp
      (gatherKept (partCnts call L) L i j).recvCnt msg

/-- The phase in which the number 0 gives its part to the root, if there is one. -/
def handPhases : List (Phase Nat (Work α) (List α)) :=
  if rootExcluded call rem then [handPhase call L] else []

def reducePhases : List (Phase Nat (Work α) (List α)) :=
  foldPhase call rem :: ((List.range L).map (scatterPhase call L rem) ++ handPhases call L rem ++
    (List.range L).reverse.map (gatherPhase call L rem))

end phases

/-! ## Programs -/

section programs

variable {g i j : Nat}

theorem foldPhase_instrs (g : Nat) : (foldPhase call rem).instrs g = reducePre call g rem := by
  unfold reducePre
  by_cases hlt : g < 2 * rem
  · by_cases hodd : g % 2 = 0
    · rw [if_pos hlt, if_neg (not_not_intro hodd)]
      exact single_instrs_recv (if_neg fun h => h.2 hodd) (if_pos ⟨hlt, hodd⟩)
    · rw [if_pos hlt, if_pos hodd]
      exact single_instrs_send (if_pos ⟨hlt, hodd⟩) (if_neg fun h => hodd h.2)
  · rw [if_neg hlt]
    exact single_instrs_none (if_neg fun h => hlt h.1) (if_neg fun h => hlt h.1)

theorem reduceScatterLoop_eq (hg : scatterNum (2 ^ L + rem) rem g = some j) {d fuel : Nat}
    (hi : i + d = L) (hf : d < fuel) :
    reduceScatterLoop call (partCnts call L) j (2 ^ L) rem fuel (2 ^ i) (cursorAt L i j) =
      some ((List.range' i d).flatMap fun i => (scatterPhase call L rem i).instrs g,
        cursorAt L L j) := by
  induction d generalizing i fuel with
  | zero =>
    obtain ⟨fuel, rfl⟩ := Nat.exists_eq_succ_of_ne_zero (Nat.ne_of_gt hf)
    obtain rfl : i = L := hi
    rw [reduceScatterLoop, if_neg (Nat.lt_irrefl _)]
    rfl
  | succ d ih =>
    obtain ⟨fuel, rfl⟩ := Nat.exists_eq_succ_of_ne_zero (Nat.ne_of_gt (Nat.zero_lt_of_lt hf))
    have hlt : i < L := by omega
    rw [reduceScatterLoop, if_pos (Nat.pow_lt_pow_right (Nat.le_refl 2) hlt)]
    simp only [Option.bind_eq_bind, scatterPiece_kept (@length_partCnts _ call L) hlt,
      Option.bind_some, shiftLeft_pow]
    rw [ih (by omega) (Nat.lt_of_succ_lt_succ hf), Option.bind_some, range'_succ,
      List.flatMap_cons, scatterPhase, cubePhase_instrs hg rfl rfl]
    rfl

theorem maskLoop_eq {d fuel : Nat} (hi : i + d = L) (hf : d < fuel) :
    maskLoop (2 ^ L) fuel (2 ^ i) i = some (2 ^ L, L) := by
  induction d generalizing i fuel with
  | zero =>
    obtain ⟨fuel, rfl⟩ := Nat.exists_eq_succ_of_ne_zero (Nat.ne_of_gt hf)
    obtain rfl : i = L := hi
    rw [maskLoop, if_neg (Nat.lt_irrefl _)]
  | succ d ih =>
    obtain ⟨fuel, rfl⟩ := Nat.exists_eq_succ_of_ne_zero (Nat.ne_of_gt (Nat.zero_lt_of_lt hf))
    rw [maskLoop, if_pos (Nat.pow_lt_pow_right (Nat.le_refl 2) (by omega)), shiftLeft_pow,
      ih (by omega) (Nat.lt_of_succ_lt_succ hf)]

theorem shift_eq_iff (a b i : Nat) : a >>> i <<< i = b >>> i <<< i ↔ a / 2 ^ i = b / 2 ^ i := by
  rw [Nat.shiftRight_eq_div_pow, Nat.shiftRight_eq_div_pow, Nat.shiftLeft_eq, Nat.shiftLeft_eq]
  exact Nat.mul_left_inj (Nat.ne_of_gt (Nat.two_pow_pos i))

theorem div_pow_of_le {a b i k : Nat} (hik : i ≤ k) (h : a / 2 ^ i = b / 2 ^ i) :
    a / 2 ^ k = b / 2 ^ k := by
  have hk : 2 ^ k = 2 ^ i * 2 ^ (k - i) := by rw [← Nat.pow_add, Nat.add_sub_cancel' hik]
  rw [hk, ← Nat.div_div_eq_div_mul, ← Nat.div_div_eq_div_mul, h]

theorem xor_div_succ (j i : Nat) : (j ^^^ 2 ^ i) / 2 ^ (i + 1) = j / 2 ^ (i + 1) := by
  rw [Nat.pow_succ, ← Nat.div_div_eq_div_mul, ← Nat.div_div_eq_div_mul, xor_div, xor_one]
  generalize j / 2 ^ i = b
  split <;> omega

theorem partner_block {r : Nat} (h : j / 2 ^ (i + 1) = r / 2 ^ (i + 1)) :
    (j ^^^ 2 ^ i) / 2 ^ i = r / 2 ^ i ↔ j / 2 ^ i ≠ r / 2 ^ i := by
  rw [Nat.pow_succ, ← Nat.div_div_eq_div_mul, ← Nat.div_div_eq_div_mul] at h
  rw [xor_div, xor_one]
  generalize j / 2 ^ i = b at h ⊢
  generalize r / 2 ^ i = b' at h ⊢
  split <;> omega

theorem gathers_eq_true : gathers call rem i j = true ↔
    (j ^^^ 2 ^ i) / 2 ^ i = newroot call rem / 2 ^ i := decide_eq_true_iff

theorem gathers_xor : gathers call rem i (j ^^^ 2 ^ i) = true ↔
    j / 2 ^ i = newroot call rem / 2 ^ i := by
  rw [gathers_eq_true, xor_xor]

theorem gatherPhase_instrs_out (hg : gatherNum call (2 ^ L + rem) rem g = some j) {k : Nat}
    (hne : j / 2 ^ k ≠ newroot call rem / 2 ^ k) (hi : i < k) :
    (gatherPhase call L rem i).instrs g = [] := by
  refine cubePhase_instrs_quiet hg ?_ ?_
  · refine Bool.eq_false_iff.2 fun h => hne ?_
    rw [gathers_eq_true] at h
    refine div_pow_of_le hi ?_
    rw [← xor_div_succ]
    exact div_pow_of_le (Nat.le_succ i) h
  · refine Bool.eq_false_iff.2 fun h => hne ?_
    exact div_pow_of_le (Nat.le_of_lt hi) (gathers_xor.1 h)

theorem reduceGatherLoop_eq (hg : gatherNum call (2 ^ L + rem) rem g = some j) {k fuel : Nat}
    (hk : k ≤ L) (hf : k < fuel) (hroot : j / 2 ^ k = newroot call rem / 2 ^ k) (r : Nat) :
    reduceGatherLoop call (partCnts call L) j (2 ^ L) rem fuel (2 ^ k >>> 1) (k - 1)
        ⟨lower L k j, r, (cursorAt L k j).lastIdx⟩ =
      some ((List.range k).reverse.flatMap fun i => (gatherPhase call L rem i).instrs g) := by
  induction k generalizing fuel r with
  | zero =>
    obtain ⟨fuel, rfl⟩ := Nat.exists_eq_succ_of_ne_zero (Nat.ne_of_gt hf)
    rfl
  | succ i ih =>
    obtain ⟨fuel, rfl⟩ := Nat.exists_eq_succ_of_ne_zero (Nat.ne_of_gt (Nat.zero_lt_of_lt hf))
    obtain ⟨r', hpiece⟩ := gatherPiece_kept (j := j) (r := r)
      (@length_partCnts _ call L) hk
    have hpartner := partner_block hroot
    rw [shiftRight_pow, reduceGatherLoop, if_pos (Nat.two_pow_pos i), range_succ,
      reverse_concat, List.flatMap_cons]
    simp only [Option.bind_eq_bind, hpiece, Option.bind_some, Nat.add_sub_cancel, shift_eq_iff]
    by_cases hsend : (j ^^^ 2 ^ i) / 2 ^ i = newroot call rem / 2 ^ i
    · have hrest : ((List.range i).reverse.flatMap fun i => (gatherPhase call L rem i).instrs g) =
          [] := by
        rw [flatMap_eq_nil_iff]
        intro i' hi'
        exact gatherPhase_instrs_out hg (hpartner.1 hsend)
          (mem_range.1 (mem_reverse.1 hi'))
      have hphase : (gatherPhase call L rem i).instrs g = sendTo _ _ :=
        cubePhase_instrs_send hg (gathers_eq_true.2 hsend)
          (Bool.eq_false_iff.2 fun h => hpartner.1 hsend (gathers_xor.1 h))
      rw [if_pos hsend, hrest, append_nil, hphase]
      rfl
    · have hkeep : j / 2 ^ i = newroot call rem / 2 ^ i := by
        by_contra hno
        exact hsend (hpartner.2 hno)
      have hphase : (gatherPhase call L rem i).instrs g = recvFrom _ _ :=
        cubePhase_instrs_recv hg (Bool.eq_false_iff.2 fun h => hsend (gathers_eq_true.1 h))
          (gathers_xor.2 hkeep)
      rw [if_neg hsend]
      have hih := ih (Nat.le_of_succ_le hk) (Nat.lt_of_succ_lt_succ hf) hkeep r'
      simp only [hih, Option.bind_some]
      rw [hphase]
      rfl

theorem lower_zero (i : Nat) : lower L i 0 = 0 := by
  induction i with
  | zero => rfl
  | succ i ih => rw [lower, ih, Nat.zero_div, Nat.zero_mod, if_pos rfl]

theorem handOver_eq (hrem : rem < 2 ^ L) (hg : g < 2 ^ L + rem) {c : Cursor}
    (hc : ∀ j, scatterNum (2 ^ L + rem) rem g = some j → c = cursorAt L L j) :
    ∃ c', handOver call g (partCnts call L) rem (scatterNum (2 ^ L + rem) rem g) c =
      some ((handPhases call L rem).flatMap fun a => a.instrs g,
        gatherNum call (2 ^ L + rem) rem g, c') ∧
      ∀ j, gatherNum call (2 ^ L + rem) rem g = some j →
        ∃ r, c' = ⟨lower L L j, r, (cursorAt L L j).lastIdx⟩ := by
  unfold handOver gatherNum handPhases
  by_cases hex : rootExcluded call rem = true
  · have hroot := of_decide_eq_true hex
    have hcnt : (partCnts call L)[0]? = some ((partCnts call L).getD 0 0) := by
      have hlen : 0 < (partCnts call L).length := by
        rw [partCnts, length_spreadCnts]
        exact Nat.two_pow_pos L
      rw [List.getElem?_eq_getElem hlen, getD_eq_getElem _ _ hlen]
    have hL : L ≠ 0 := by
      rintro rfl
      omega
    simp only [if_pos hex, hcnt, map_some, List.flatMap_cons, flatMap_nil,
      append_nil]
    by_cases hgr : g = call.root
    · have hinstrs : (handPhase call L).instrs g =
          recvFrom 0 fun s msg => s.recvRecv 0 ((partCnts call L).getD 0 0) msg :=
        single_instrs_recv (if_neg (by omega)) (if_pos hgr)
      rw [if_pos hgr, if_pos hgr, hinstrs]
      refine ⟨_, rfl, fun j hj => ⟨c.recvIdx, ?_⟩⟩
      cases hj
      have hlen : L - (L - 1) = 1 := by omega
      simp only [cursorAt, if_neg (Nat.lt_irrefl L), lower_zero, hlen]
      rfl
    · rw [if_neg hgr, if_neg hgr]
      by_cases h0 : g = 0
      · have hnum : scatterNum (2 ^ L + rem) rem g = some 0 := by
          rw [h0, scatterNum, if_pos (by omega), reduceNewrank, if_pos (by omega),
            if_neg (by omega)]
        have hinstrs : (handPhase call L).instrs g =
            sendTo call.root fun s => slice s.recvbuf 0 ((partCnts call L).getD 0 0) :=
          single_instrs_send (if_pos h0) (if_neg hgr)
        rw [hnum, if_pos rfl, if_pos h0, hinstrs]
        exact ⟨_, rfl, fun _ hj => by cases hj⟩
      · have hnum : scatterNum (2 ^ L + rem) rem g ≠ some 0 := by
          intro h
          have := ((scatter_numbering hrem).of_num g 0 h).2
          unfold reduceRank at this
          split at this <;> omega
        have hinstrs : (handPhase call L).instrs g = [] :=
          single_instrs_none (if_neg h0) (if_neg hgr)
        rw [if_neg hnum, if_neg h0, hinstrs]
        exact ⟨c, rfl, fun j hj => ⟨lower L L j, hc j hj⟩⟩
  · simp only [if_neg hex]
    exact ⟨c, rfl, fun j hj => ⟨lower L L j, hc j hj⟩⟩

theorem mplPof2_eq (hrem : rem < 2 ^ L) : mplPof2 (2 ^ L + rem) = 2 ^ L := by
  have hpos := Nat.two_pow_pos L
  have hlog : Nat.log2 (2 ^ L + rem) = L :=
    (Nat.log2_eq_iff (by omega)).2 ⟨Nat.le_add_right _ _, by rw [Nat.pow_succ]; omega⟩
  rw [mplPof2, if_pos (by omega), mplLog2, hlog, Nat.one_shiftLeft]

theorem newroot_lt (hrem : rem < 2 ^ L) (hroot : call.root < 2 ^ L + rem) :
    newroot call rem < 2 ^ L := by
  have hpos := Nat.two_pow_pos L
  unfold newroot
  split
  · split <;> omega
  · omega

theorem reduceScatter_eq (g : Nat) :
    ∃ c, reduceScatter call (partCnts call L) (2 ^ L) rem (scatterNum (2 ^ L + rem) rem g) =
      some (((List.range L).map (scatterPhase call L rem)).flatMap fun a => a.instrs g, c) ∧
      ∀ j, scatterNum (2 ^ L + rem) rem g = some j → c = cursorAt L L j := by
  rw [flatMap_map]
  cases hnum : scatterNum (2 ^ L + rem) rem g with
  | none =>
    have hidle : ((List.range L).flatMap fun i => (scatterPhase call L rem i).instrs g) = [] :=
      flatMap_eq_nil_iff.2 fun i _ => cubePhase_instrs_none hnum
    rw [hidle]
    exact ⟨_, rfl, nofun⟩
  | some j =>
    have hstart : (⟨0, 0, 2 ^ L⟩ : Cursor) = cursorAt L 0 j := by
      unfold cursorAt
      cases L with
      | zero => rfl
      | succ L =>
        rw [if_pos (Nat.succ_pos L), lower, Nat.zero_add]
        rfl
    have hloop := @reduceScatterLoop_eq α call L rem g 0 j hnum L _ (Nat.zero_add L)
      (Nat.lt_succ_of_lt Nat.lt_two_pow_self)
    rw [Nat.pow_zero, ← hstart, ← range_eq_range'] at hloop
    refine ⟨_, hloop, fun j' hj' => ?_⟩
    cases hj'
    rfl

theorem reduceGather_eq {c : Cursor} (hrem : rem < 2 ^ L) (hroot : call.root < 2 ^ L + rem)
    (hc : ∀ j, gatherNum call (2 ^ L + rem) rem g = some j →
      ∃ r, c = ⟨lower L L j, r, (cursorAt L L j).lastIdx⟩) :
    reduceGather call (partCnts call L) (2 ^ L) rem c (gatherNum call (2 ^ L + rem) rem g) =
      some (((List.range L).reverse.map (gatherPhase call L rem)).flatMap fun a => a.instrs g) := by
  rw [flatMap_map]
  cases hnum : gatherNum call (2 ^ L + rem) rem g with
  | none =>
    have hidle :
        ((List.range L).reverse.flatMap fun i => (gatherPhase call L rem i).instrs g) = [] :=
      flatMap_eq_nil_iff.2 fun i _ => cubePhase_instrs_none hnum
    rw [hidle]
    rfl
  | some j =>
    obtain ⟨r, rfl⟩ := hc j hnum
    have hfuel : L < 2 ^ L + 1 := Nat.lt_succ_of_lt Nat.lt_two_pow_self
    have hmask := maskLoop_eq (L := L) (Nat.zero_add L) hfuel
    rw [Nat.pow_zero] at hmask
    have hj := ((gather_numbering hrem).of_num g j hnum).1
    simp only [reduceGather, hmask, Option.bind_eq_bind, Option.bind_some]
    exact reduceGatherLoop_eq hnum (Nat.le_refl L) hfuel
      (by rw [Nat.div_eq_of_lt hj, Nat.div_eq_of_lt (newroot_lt hrem hroot)]) r

theorem reduceIntra_eq (hbuiltin : call.isBuiltin = true) (hcount : 2 ^ L ≤ call.count)
    (hrem : rem < 2 ^ L) (hroot : call.root < 2 ^ L + rem) (hg : g < 2 ^ L + rem) :
    reduceIntraReduceScatterGather call (2 ^ L + rem) g =
      some ((reducePhases call L rem).flatMap fun a => a.instrs g) := by
  obtain ⟨c, hscatter, hc⟩ := @reduceScatter_eq α call L rem g
  obtain ⟨c', hhand, hc'⟩ := @handOver_eq α call L rem g hrem hg c hc
  have hgather := @reduceGather_eq α call L rem g c' hrem hroot hc'
  have hnum : reduceNewrank g rem = scatterNum (2 ^ L + rem) rem g := by
    rw [scatterNum, if_pos hg]
  unfold reduceIntraReduceScatterGather
  rw [partCnts] at hscatter hhand hgather
  simp only [mplPof2_eq hrem, Nat.add_sub_cancel_left, if_pos (And.intro hbuiltin hcount), hnum,
    Option.bind_eq_bind, hscatter, Option.bind_some, hhand, hgather, Option.pure_def]
  rw [reducePhases, List.flatMap_cons, List.flatMap_append, List.flatMap_append, foldPhase_instrs]
  simp only [List.append_assoc]

end programs

/-! ## Messages match -/

section matching

variable {g : Nat} {a : Phase Nat (Work α) (List α)}

theorem foldPhase_matched : (foldPhase call rem).Matched := by
  refine single_ite_matched fun p q => ⟨?_, ?_⟩
  · rintro ⟨hp, rfl⟩
    dsimp only
    omega
  · rintro ⟨hq, rfl⟩
    dsimp only
    omega

theorem handPhase_matched : (handPhase call L).Matched :=
  single_ite_matched fun _ _ =>
    ⟨fun h => ⟨h.2.symm, h.1.symm⟩, fun h => ⟨h.2.symm, h.1.symm⟩⟩

theorem mem_reducePhases (ha : a ∈ reducePhases call L rem) : a = foldPhase call rem ∨
    (∃ i < L, a = scatterPhase call L rem i) ∨
    (rootExcluded call rem = true ∧ a = handPhase call L) ∨
    ∃ i < L, a = gatherPhase call L rem i := by
  rcases mem_cons.1 ha with rfl | ha
  · exact .inl rfl
  rcases mem_append.1 ha with ha | ha
  · rcases mem_append.1 ha with ha | ha
    · obtain ⟨i, hi, rfl⟩ := mem_map.1 ha
      exact .inr (.inl ⟨i, mem_range.1 hi, rfl⟩)
    · unfold handPhases at ha
      split at ha
      · next hex => exact .inr (.inr (.inl ⟨hex, mem_singleton.1 ha⟩))
      · cases ha
  · obtain ⟨i, hi, rfl⟩ := mem_map.1 ha
    exact .inr (.inr (.inr ⟨i, mem_range.1 (mem_reverse.1 hi), rfl⟩))

theorem reducePhases_matched (hrem : rem < 2 ^ L) (ha : a ∈ reducePhases call L rem) :
    a.Matched := by
  rcases mem_reducePhases ha with rfl | ⟨i, hi, rfl⟩ | ⟨-, rfl⟩ | ⟨i, hi, rfl⟩
  · exact foldPhase_matched
  · exact cubePhase_matched (scatter_numbering hrem) hi
  · exact handPhase_matched
  · exact cubePhase_matched (gather_numbering hrem) hi

theorem reducePhases_out (hrem : rem < 2 ^ L) (hroot : call.root < 2 ^ L + rem)
    (ha : a ∈ reducePhases call L rem) (hg : g ∉ List.range (2 ^ L + rem)) : a.instrs g = [] := by
  rw [mem_range] at hg
  have hpos := Nat.two_pow_pos L
  have hnum : scatterNum (2 ^ L + rem) rem g = none := if_neg hg
  rcases mem_reducePhases ha with rfl | ⟨i, hi, rfl⟩ | ⟨-, rfl⟩ | ⟨i, hi, rfl⟩
  · exact single_instrs_none (if_neg (by omega)) (if_neg (by omega))
  · exact cubePhase_instrs_none hnum
  · exact single_instrs_none (if_neg (by omega)) (if_neg (by omega))
  · refine cubePhase_instrs_none ?_
    unfold gatherNum
    rw [if_neg (show ¬ g = call.root by omega), if_neg (show ¬ g = 0 by omega), hnum, ite_self]

end matching

/-! ## Values -/

section values

variable {S : Nat → Work α} {v : Nat → Nat → α} {i j e : Nat}

theorem Work.recvbuf_reduceTmp {s : Work α} {src : Nat → α} {disp cnt : Nat} (op : α → α → α)
    (h : disp ≤ e ∧ e < disp + cnt) :
    ((s.recvTmp disp cnt (slice src disp cnt)).reduceTmp op disp cnt).recvbuf e =
      op (src e) (s.recvbuf e) := by
  show (if disp ≤ e ∧ e < disp + cnt then
    op (writeAt s.tmpBuf disp cnt (slice src disp cnt) e) (s.recvbuf e) else s.recvbuf e) = _
  rw [if_pos h, writeAt_slice, if_pos h]

def Agree (S : Nat → Work α) : Prop := ∀ g, (S g).mismatch = false

theorem not_mismatch {s : Work α} {src : Nat → α} {cnt disp : Nat} (h : s.mismatch = false) :
    (s.mismatch || decide ((slice src disp cnt).length ≠ cnt)) = false := by
  rw [h, length_slice, Bool.false_or, decide_eq_false_iff_not]
  exact not_not_intro rfl

theorem foldPhase_after (g : Nat) : (foldPhase call rem).after S g =
    if g < 2 * rem ∧ g % 2 = 0 then wholeUpd call (S g) (wholeMsg call (S (g + 1))) else S g := by
  by_cases h : g < 2 * rem ∧ g % 2 = 0
  · rw [if_pos h]
    refine single_after (q := g + 1) (if_pos h) ?_
    rw [if_pos (by omega)]
    rfl
  · rw [if_neg h]
    exact single_after_none (if_neg h)

variable (call L rem v) in
def HasParts (i : Nat) (S : Nat → Work α) : Prop :=
  ∀ j < 2 ^ L, ∀ e, InKept (partCnts call L) L i j e → (S (reduceRank rem j)).recvbuf e =
    block call.op (pairs call.op rem fun g => v g e) i (j / 2 ^ i)

theorem fold_phase (hcomm : ∀ x y, call.op x y = call.op y x) (h : Agree S) :
    Agree ((foldPhase call rem).after S) ∧
      HasParts call L rem (fun g e => (S g).recvbuf e) 0 ((foldPhase call rem).after S) := by
  refine ⟨fun g => ?_, fun j hj e he => ?_⟩
  · rw [foldPhase_after]
    split
    · exact not_mismatch (h g)
    · exact h g
  · rw [inKept_zero length_partCnts, sum_partCnts] at he
    rw [block_zero, Nat.pow_zero, Nat.div_one, foldPhase_after]
    unfold pairs reduceRank
    by_cases hlt : j < rem
    · rw [if_pos hlt, if_pos hlt, if_pos (by omega), wholeUpd, wholeMsg,
        Work.recvbuf_reduceTmp call.op ⟨Nat.zero_le e, by omega⟩, hcomm, Nat.mul_comm]
    · rw [if_neg hlt, if_neg hlt, if_neg (by omega)]

theorem scatter_phase (ha : ∀ x y z, call.op (call.op x y) z = call.op x (call.op y z))
    (hcomm : ∀ x y, call.op x y = call.op y x) (hrem : rem < 2 ^ L) (hi : i < L)
    (h : Agree S ∧ HasParts call L rem v i S) :
    Agree ((scatterPhase call L rem i).after S) ∧
      HasParts call L rem v (i + 1) ((scatterPhase call L rem i).after S) := by
  have hnum := scatter_numbering hrem
  refine ⟨?_, fun j hj e he => ?_⟩
  · refine cubePhase_all (P := fun s : Work α => s.mismatch = false) hnum hi
      (fun j s s' hs => ?_) h.1
    simp only [partUpd, scatterKept, xor_xor]
    exact not_mismatch hs
  · have hin := inKept_of_succ hi he
    have hself := h.2 j hj e hin
    have hpeer := h.2 (j ^^^ 2 ^ i) (xor_lt hj hi) e (inKept_xor.2 hin)
    rw [scatterPhase, cubePhase_after hnum hi hj rfl]
    simp only [partUpd, scatterKept, xor_xor]
    rw [Work.recvbuf_reduceTmp call.op he, ← block_exchange ha i j, ← hself, ← hpeer]
    split
    · exact hcomm _ _
    · rfl

theorem hand_phases {res : Nat → α} (h : Agree S)
    (hres : ∀ j < 2 ^ L, ∀ e, InKept (partCnts call L) L L j e →
      (S (reduceRank rem j)).recvbuf e = res e) :
    Agree (afterAll (handPhases call L rem) S) ∧
      ∀ j < 2 ^ L, ∀ e, InKept (partCnts call L) L L j e →
        (afterAll (handPhases call L rem) S (gatherRank call rem j)).recvbuf e = res e := by
  unfold handPhases
  by_cases hex : rootExcluded call rem = true
  · have hroot := of_decide_eq_true hex
    rw [if_pos hex, afterAll_cons, afterAll_nil]
    have hself : (handPhase call L).after S call.root =
        (S call.root).recvRecv 0 ((partCnts call L).getD 0 0)
          (slice (S 0).recvbuf 0 ((partCnts call L).getD 0 0)) :=
      @single_after _ _ _ _ _ _ S call.root 0 (fun s => slice s.recvbuf 0 _)
        (fun s msg => s.recvRecv 0 _ msg) (if_pos rfl) (if_pos rfl)
    have hother : ∀ g, g ≠ call.root → (handPhase call L).after S g = S g := fun g hg =>
      single_after_none (if_neg hg)
    refine ⟨fun g => ?_, fun j hj e he => ?_⟩
    · by_cases hg : g = call.root
      · rw [hg, hself]
        exact not_mismatch (h call.root)
      · rw [hother g hg]
        exact h g
    · by_cases h0 : j = 0
      · subst h0
        have hrank : reduceRank rem 0 = 0 := by
          unfold reduceRank
          rw [if_pos (by omega), Nat.zero_mul]
        have hcur := hres 0 hj e he
        rw [hrank] at hcur
        rw [gatherRank, if_pos ⟨rfl, hex⟩, hself]
        have hlen : 0 < (partCnts call L).length := length_partCnts ▸ Nat.two_pow_pos L
        have hin : 0 ≤ e ∧ e < 0 + (partCnts call L).getD 0 0 := by
          rw [inKept_iff, lower_zero, Nat.sub_self, Nat.pow_zero, Nat.zero_add] at he
          refine ⟨Nat.zero_le e, ?_⟩
          rw [Nat.zero_add, getD_eq_getElem _ _ hlen]
          have htake : partDisp (partCnts call L) 1 = (partCnts call L)[0] := by
            rw [partDisp, take_succ_eq_append_getElem hlen]
            simp
          rw [← htake]
          exact he.2
        show writeAt _ _ _ (slice _ _ _) e = _
        rw [writeAt_slice, if_pos hin]
        exact hcur
      · have hrank : gatherRank call rem j = reduceRank rem j := by
          rw [gatherRank, if_neg fun h => h0 h.1]
        have hne : reduceRank rem j ≠ call.root := by
          unfold reduceRank
          split <;> omega
        rw [hrank, hother _ hne]
        exact hres j hj e he
  · have hrank : gatherRank call rem = reduceRank rem := by
      funext j
      rw [gatherRank, if_neg fun h => hex h.2]
    rw [if_neg hex, afterAll_nil, hrank]
    exact ⟨h, hres⟩

variable (call L rem) in
/-- The numbers that agree with that of the root in the dimensions from `i` on have the parts of the
result that they kept after the dimensions below `i`. -/
def Gathered (res : Nat → α) (i : Nat) (S : Nat → Work α) : Prop :=
  ∀ j < 2 ^ L, j / 2 ^ i = newroot call rem / 2 ^ i → ∀ e, InKept (partCnts call L) L i j e →
    (S (gatherRank call rem j)).recvbuf e = res e

theorem gather_phase {res : Nat → α} (hrem : rem < 2 ^ L) (hi : i < L)
    (h : Agree S ∧ Gathered call L rem res (i + 1) S) :
    Agree ((gatherPhase call L rem i).after S) ∧
      Gathered call L rem res i ((gatherPhase call L rem i).after S) := by
  have hnum := @gather_numbering α call L rem hrem
  refine ⟨?_, fun j hj hblock e he => ?_⟩
  · refine cubePhase_all (P := fun s : Work α => s.mismatch = false) hnum hi
      (fun j s s' hs => ?_) h.1
    simp only [gatherKept, xor_xor]
    exact not_mismatch hs
  · have hpeer := xor_lt hj hi
    have hself' := h.2 j hj (div_pow_of_le (Nat.le_succ i) hblock)
    have hpeer' := h.2 (j ^^^ 2 ^ i) hpeer
      (by rw [xor_div_succ]; exact div_pow_of_le (Nat.le_succ i) hblock)
    rw [gatherPhase, cubePhase_after hnum hi hj (gathers_xor.2 hblock)]
    simp only [gatherKept, xor_xor]
    show writeAt _ _ _ (slice _ _ _) e = res e
    rw [writeAt_slice]
    split
    · next hin => exact hpeer' e hin
    · next hout =>
      rcases inKept_split hi he with hin | hin
      · exact hself' e hin
      · exact absurd hin hout

theorem after_reducePhases (ha : ∀ x y z, call.op (call.op x y) z = call.op x (call.op y z))
    (hcomm : ∀ x y, call.op x y = call.op y x) (hrem : rem < 2 ^ L)
    (hroot : call.root < 2 ^ L + rem) (h : Agree S) :
    Agree (afterAll (reducePhases call L rem) S) ∧ ∀ e < call.count,
      (afterAll (reducePhases call L rem) S call.root).recvbuf e =
        seg call.op (fun g => (S g).recvbuf e) 0 (2 ^ L + rem - 1) := by
  have hpos := Nat.two_pow_pos L
  let res : Nat → α := fun e => seg call.op (fun g => (S g).recvbuf e) 0 (2 ^ L + rem - 1)
  rw [reducePhases, afterAll_cons, afterAll_append, afterAll_append]
  have hscatter := afterAll_range (L := L) (f := scatterPhase call L rem)
    (P := fun i T => Agree T ∧ HasParts call L rem (fun g e => (S g).recvbuf e) i T)
    (fun i T hi hP => scatter_phase ha hcomm hrem hi hP) (fold_phase hcomm h)
    (Nat.le_refl L)
  generalize afterAll ((List.range L).map (scatterPhase call L rem))
    ((foldPhase call rem).after S) = T at hscatter
  have hres : ∀ j < 2 ^ L, ∀ e, InKept (partCnts call L) L L j e →
      (T (reduceRank rem j)).recvbuf e = res e := by
    intro j hj e he
    rw [hscatter.2 j hj e he, Nat.div_eq_of_lt hj, block, Nat.zero_mul, seg_pairs ha,
      if_neg (by omega)]
    show _ = seg call.op _ 0 (2 ^ L + rem - 1)
    congr 1
    omega
  have hhand := hand_phases hscatter.1 hres
  have hgather := afterAll_reverse (L := L) (f := gatherPhase call L rem)
    (P := fun i T => Agree T ∧ Gathered call L rem res i T)
    (fun i T hi hP => gather_phase hrem hi hP) (Nat.le_refl L)
    ⟨hhand.1, fun j hj _ e he => hhand.2 j hj e he⟩
  refine ⟨hgather.1, fun e he => ?_⟩
  have hlt := newroot_lt hrem hroot
  have hrank : gatherRank call rem (newroot call rem) = call.root := by
    unfold gatherRank rootExcluded newroot reduceRank
    by_cases h₁ : call.root < 2 * rem
    · by_cases h₂ : call.root % 2 = 0
      · have hno : ¬ (call.root < 2 * rem ∧ call.root % 2 ≠ 0) := fun h => h.2 h₂
        rw [if_pos h₁, if_neg (not_not_intro h₂), if_neg fun h => hno (of_decide_eq_true h.2),
          if_pos (by omega)]
        omega
      · rw [if_pos h₁, if_pos h₂, if_pos ⟨rfl, decide_eq_true ⟨h₁, h₂⟩⟩]
    · have hno : ¬ (call.root < 2 * rem ∧ call.root % 2 ≠ 0) := fun h => h₁ h.1
      rw [if_neg h₁, if_neg fun h => hno (of_decide_eq_true h.2), if_neg (by omega)]
      omega
  have := hgather.2 (newroot call rem) hlt rfl e
    ((inKept_zero length_partCnts).2 (by rwa [sum_partCnts]))
  rwa [hrank] at this

end values

/-! ## All processes -/

section main

theorem exists_size (hn : 0 < n) : ∃ L rem, n = 2 ^ L + rem ∧ rem < 2 ^ L := by
  have hle := Nat.log2_self_le (Nat.ne_of_gt hn)
  have hlt := @Nat.lt_log2_self n
  rw [Nat.pow_succ] at hlt
  exact ⟨Nat.log2 n, n - 2 ^ Nat.log2 n, by omega, by omega⟩

/-- All processes of a communicator call the function with the same arguments, with any send
buffers, receive buffers and temporary buffers; a process without a send buffer reduces in place.
The operation is predefined, associative and commutative, and there are at least as many elements as
processes that go on. Then no assertion fails, and the cursors stay within the arrays. Whatever the
pace of the processes, every message is received, its length is that of its receive, and at the end
the root has the reduction of all vectors. -/
theorem reduce_scatter_gather {call : ReduceCall α} (hroot : call.root < n)
    (hbuiltin : call.isBuiltin = true) (hcount : mplPof2 n ≤ call.count)
    (ha : ∀ x y z, call.op (call.op x y) z = call.op x (call.op y z))
    (hcomm : ∀ x y, call.op x y = call.op y x) (sendbuf : Nat → Option (Nat → α))
    (recvbuf tmpBuf : Nat → Nat → α) :
    (∀ r < n, reduceIntraReduceScatterGather call n r = some (reduceProg call n r)) ∧
    Computes (reduceProg call n)
      (fun r => initWork call.count (sendbuf r) (recvbuf r) (tmpBuf r)) fun S =>
        (∀ r, (S r).mismatch = false) ∧ ∀ e < call.count, (S call.root).recvbuf e =
          seg call.op (fun r => (sendbuf r).getD (recvbuf r) e) 0 (n - 1) := by
  obtain ⟨L, rem, rfl, hrem⟩ := exists_size (Nat.zero_lt_of_lt hroot)
  rw [mplPof2_eq hrem] at hcount
  have hprog : ∀ r < 2 ^ L + rem, reduceIntraReduceScatterGather call (2 ^ L + rem) r =
      some ((reducePhases call L rem).flatMap fun a => a.instrs r) := fun r hr =>
    reduceIntra_eq hbuiltin hcount hrem hroot hr
  have hout : ∀ a ∈ reducePhases call L rem, ∀ r, r ∉ List.range (2 ^ L + rem) → a.instrs r = [] :=
    fun a ha r hr => reducePhases_out hrem hroot ha hr
  refine ⟨fun r hr => ?_, (computes_iff (fun a ha => reducePhases_matched hrem ha)
    nodup_range hout fun r => ?_).2 ?_⟩
  · rw [reduceProg, if_pos hr, hprog r hr]
    rfl
  · rw [reduceProg]
    split
    · next hr =>
      rw [hprog r hr]
      rfl
    · next hr =>
      exact (flatMap_eq_nil_iff.2 fun a ha => hout a ha r (by rwa [mem_range])).symm
  · obtain ⟨hagree, hres⟩ := after_reducePhases ha hcomm hrem hroot
      (S := fun r => initWork call.count (sendbuf r) (recvbuf r) (tmpBuf r)) fun _ => rfl
    refine ⟨hagree, fun e he => (hres e he).trans (seg_congr fun r _ _ => ?_)⟩
    unfold initWork
    cases sendbuf r with
    | none => rfl
    | some src => exact if_pos he

/-- The sum of two elements at three processes, where the root gives its vector away at first. -/
theorem reduce_scatter_gather_three :
    Computes (reduceProg ⟨2, (· + ·), true, 1⟩ 3)
      (fun r => initWork 2 (some fun e => 10 * r + e) (fun _ => 0) fun _ => 0) fun S =>
        (∀ r, (S r).mismatch = false) ∧ (S 1).recvbuf 0 = 30 ∧ (S 1).recvbuf 1 = 33 :=
  (@reduce_scatter_gather Nat 3 ⟨2, (· + ·), true, 1⟩ (by decide) rfl (by decide) Nat.add_assoc
    Nat.add_comm (fun r => some fun e => 10 * r + e) (fun _ _ => 0) fun _ _ => 0).2.mono
    fun _ h => ⟨h.1, h.2 0 (by decide), h.2 1 (by decide)⟩

/-- A user-defined operation fails an assertion, even if it is associative and commutative. -/
theorem reduce_scatter_gather_user :
    @reduceIntraReduceScatterGather Nat ⟨2, (· + ·), false, 0⟩ 2 0 = none := rfl

end main

end PsMpi.Coll
