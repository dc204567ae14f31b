import PsMpi.Lib.CInt
import PsMpi.Lib.Network
import Mathlib.Data.Int.ModEq

/-!
# Barriers

See `mpich2/src/mpi/coll/barrier/barrier_intra_k_dissemination.c`.
-/

open List Option

namespace PsMpi.Coll

open PsMpi.Lib PsMpi.Lib.Network

/-- The messages are empty. `MPIR_Barrier_intra_dissemination` (:25). -/
def disseminationLoop (size rank : Nat) : Nat → Nat → Option (List (Instr Nat Unit Unit))
  | 0, _ => none
  | fuel + 1, mask =>
    if mask < size then do
      let dst := (rank + mask) % size
      let src := (rank + size - mask) % size
      let next ← mulInt mask 2
      let rest ← disseminationLoop size rank fuel next
      return sendRecv dst (fun _ => ()) src (fun _ _ => ()) ++ rest
    else some []

/-- `MPIR_Barrier_intra_dissemination` (:18). -/
def barrierIntraDissemination (size rank : Nat) : Option (List (Instr Nat Unit Unit)) :=
  disseminationLoop size rank (size + 1) 1

def barrierProg (size r : Nat) : List (Instr Nat Unit Unit) :=
  if r < size then (barrierIntraDissemination size r).getD [] else []

section barrier

variable {size L p q : Nat}

theorem shift_back {a m : Nat} (hm : m ≤ size) (ha : a < size) :
    ((a + m) % size + size - m) % size = a := by
  rw [Nat.add_sub_assoc hm, Nat.mod_add_mod, Nat.add_assoc, Nat.add_sub_cancel' hm,
    Nat.add_mod_right, Nat.mod_eq_of_lt ha]

theorem back_shift {b m : Nat} (hm : m ≤ size) (hb : b < size) :
    ((b + size - m) % size + m) % size = b := by
  rw [Nat.mod_add_mod, Nat.sub_add_cancel (hm.trans (Nat.le_add_left _ _)), Nat.add_mod_right,
    Nat.mod_eq_of_lt hb]

def disseminationPhase (size i : Nat) : Phase Nat Unit Unit :=
  .single (fun r => if r < size then some ((r + 2 ^ i) % size, fun _ => ()) else none)
    fun r => if r < size then some ((r + size - 2 ^ i) % size, fun _ _ => ()) else none

theorem disseminationPhase_matched {i : Nat} (hi : 2 ^ i < size) :
    (disseminationPhase size i).Matched := by
  refine single_ite_matched fun p q => ⟨?_, ?_⟩
  · rintro ⟨hp, rfl⟩
    exact ⟨Nat.mod_lt _ (by omega), shift_back hi.le hp⟩
  · rintro ⟨hq, rfl⟩
    exact ⟨Nat.mod_lt _ (by omega), back_shift hi.le hq⟩

theorem disseminationPhase_instrs (hp : p < size) (i : Nat) : (disseminationPhase size i).instrs p =
    sendRecv ((p + 2 ^ i) % size) (fun _ => ()) ((p + size - 2 ^ i) % size) fun _ _ => () :=
  single_instrs (if_pos hp) (if_pos hp)

def disseminationRounds (size L p : Nat) : List (Instr Nat Unit Unit) :=
  (range L).flatMap fun i => (disseminationPhase size i).instrs p

theorem disseminationLoop_eq (hn : size ≤ 2 ^ 30) (hL : size ≤ 2 ^ L)
    (hmin : ∀ t < L, 2 ^ t < size) (hp : p < size) {i d fuel : Nat} (hd : i + d = L)
    (hf : d < fuel) : disseminationLoop size p fuel (2 ^ i) =
      some ((range' i d).flatMap fun t => (disseminationPhase size t).instrs p) := by
  induction d generalizing i fuel with
  | zero =>
    obtain rfl : i = L := hd
    obtain ⟨fuel, rfl⟩ := Nat.exists_eq_add_of_lt hf
    rw [Nat.zero_add, disseminationLoop, if_neg (Nat.not_lt.2 hL)]
    rfl
  | succ d ih =>
    obtain ⟨fuel, rfl⟩ := Nat.exists_eq_add_of_lt hf
    have hlt := hmin i (by omega)
    have hnext : mulInt (2 ^ i) 2 = some (2 ^ (i + 1)) := by
      rw [mulInt_of_le (by rw [intMax]; omega), Nat.pow_succ]
    rw [disseminationLoop, if_pos hlt, hnext, bind_eq_bind, bind_some, ih (by omega) (by omega),
      range'_succ, flatMap_cons, disseminationPhase_instrs hp]
    rfl

/-- The message of a round is the only one between its processes. -/
theorem post_dissemination (hmin : ∀ t < L, 2 ^ t < size) (hq : q < size) {i k : Nat} (hi : i < L)
    {msg : Unit → Unit}
    (h : .post ((q + 2 ^ i) % size) msg ∈ (disseminationRounds size L q).take k) :
    0 < k ∧ disseminationRounds size i q <+: (disseminationRounds size L q).take k := by
  have hnot : .post ((q + 2 ^ i) % size) msg ∉ disseminationRounds size i q := fun hmem => by
    obtain ⟨t, ht, hmem⟩ := mem_flatMap.1 hmem
    rw [mem_range] at ht
    rw [disseminationPhase_instrs hq] at hmem
    have hdst : (q + 2 ^ i) % size = (q + 2 ^ t) % size := by simpa [sendRecv] using hmem
    have hpow := Nat.ModEq.add_left_cancel' q hdst
    rw [Nat.ModEq, Nat.mod_eq_of_lt (hmin i hi), Nat.mod_eq_of_lt (hmin t (ht.trans hi))] at hpow
    exact ht.ne' (Nat.pow_right_injective le_rfl hpow)
  have hpre : disseminationRounds size i q <+: disseminationRounds size L q := by
    rw [← Nat.add_sub_cancel' hi.le, disseminationRounds, disseminationRounds, range_add,
      flatMap_append]
    exact prefix_append _ _
  obtain ⟨rest, hrest⟩ := hpre
  rw [← hrest, take_append] at h ⊢
  rcases mem_append.1 h with hmem | hmem
  · exact absurd (mem_of_mem_take hmem) hnot
  · have hlt : (disseminationRounds size i q).length < k := by
      by_contra hle
      rw [Nat.sub_eq_zero_of_le (Nat.le_of_not_lt hle), take_zero] at hmem
      cases hmem
    rw [take_of_length_le hlt.le]
    exact ⟨Nat.zero_lt_of_lt hlt, prefix_append _ _⟩

/-- When a process has finished `i` rounds, the `2 ^ i - 1` processes before it have started. -/
theorem started_before {prog : Nat → List (Instr Nat Unit Unit)} {eager : Nat → Nat → Bool}
    {as : List Nat} {n : Net Nat Unit Unit} (hmin : ∀ t < L, 2 ^ t < size)
    (hprog : ∀ r < size, prog r = disseminationRounds size L r)
    (h : (sys eager prog fun _ => ()).exec (start prog fun _ => ()) as = some n) (hq : q < size)
    {i d : Nat} (hi : i ≤ L) (hd : d < 2 ^ i) (hp : p < size) (hqp : (q + d) % size = p)
    (hrounds : disseminationRounds size i p <+: (prog p).take (as.count p)) : q = p ∨ q ∈ as := by
  induction i generalizing p d with
  | zero =>
    obtain rfl : d = 0 := by omega
    exact .inl (by rw [← hqp, Nat.add_zero, Nat.mod_eq_of_lt hq])
  | succ i ih =>
    have hpow := hmin i hi
    rw [disseminationRounds, range_succ, flatMap_append, flatMap_singleton,
      disseminationPhase_instrs hp] at hrounds
    by_cases hlt : d < 2 ^ i
    · exact ih (Nat.le_of_succ_le hi) hlt hp hqp ((prefix_append _ _).trans hrounds)
    · obtain ⟨src, hsrc⟩ : ∃ src, (p + size - 2 ^ i) % size = src := ⟨_, rfl⟩
      have hsrc_lt : src < size := hsrc ▸ Nat.mod_lt _ (by omega)
      have hdst : (src + 2 ^ i) % size = p := hsrc ▸ back_shift hpow.le hp
      have htake : .take src (fun _ _ => ()) ∈ (prog p).take (as.count p) :=
        hrounds.mem (by simp [sendRecv, hsrc])
      obtain ⟨msg, hpost⟩ := exists_post h rfl htake
      change _ ∈ (prog src).take _ at hpost
      rw [hprog src hsrc_lt, ← hdst] at hpost
      obtain ⟨hpos, hpre⟩ := post_dissemination hmin hsrc_lt hi hpost
      have hqsrc : (q + (d - 2 ^ i)) % size = src := by
        rw [← hsrc, ← hqp, ← shift_back (a := (q + (d - 2 ^ i)) % size) hpow.le
          (Nat.mod_lt _ (by omega)), Nat.mod_add_mod, Nat.add_assoc,
          Nat.sub_add_cancel (Nat.le_of_not_lt hlt)]
      rw [Nat.pow_succ] at hd
      rcases ih (Nat.le_of_succ_le hi) (by omega) hsrc_lt hqsrc (by rwa [hprog src hsrc_lt])
        with rfl | hmem
      · exact .inr (count_pos_iff.1 hpos)
      · exact .inr hmem

/-- Whenever a process has left the barrier, all others have entered it. -/
def Synchronizes (size : Nat) : Prop := ∀ eager as n,
  (sys eager (barrierProg size) fun _ => ()).exec
    (start (barrierProg size) fun _ => ()) as = some n →
  ∀ p < size, n.prog p = [] → ∀ q < size, p ≠ q → q ∈ as

/-- No run of the barrier is without end or gets stuck, and it synchronizes the processes. -/
theorem barrier_synchronizes (hn : size ≤ 2 ^ 30) :
    (∀ r < size, (barrierIntraDissemination size r).isSome) ∧
    Computes (barrierProg size) (fun _ => ()) (fun _ => True) ∧ Synchronizes size := by
  obtain ⟨L, hL, hmin, hfuel⟩ : ∃ L, size ≤ 2 ^ L ∧ (∀ t < L, 2 ^ t < size) ∧ L < size + 1 :=
    ⟨Nat.clog 2 size, Nat.le_pow_clog Nat.one_lt_two _, fun t ht => Nat.pow_lt_of_lt_clog ht,
      Nat.lt_succ_of_le (Nat.clog_le_of_le_pow Nat.lt_two_pow_self.le)⟩
  have hcode : ∀ r < size, barrierIntraDissemination size r = some (disseminationRounds size L r) :=
    fun r hr => by
      rw [disseminationRounds, range_eq_range']
      exact disseminationLoop_eq (i := 0) hn hL hmin hr (Nat.zero_add L) hfuel
  have hprog : ∀ r < size, barrierProg size r = disseminationRounds size L r := fun r hr => by
    rw [barrierProg, if_pos hr, hcode r hr, getD_some]
  have hmatched : ∀ a ∈ (range L).map (disseminationPhase size), a.Matched := by
    intro a ha
    obtain ⟨i, hi, rfl⟩ := mem_map.1 ha
    exact disseminationPhase_matched (hmin i (mem_range.1 hi))
  have hout : ∀ a ∈ (range L).map (disseminationPhase size), ∀ p, p ∉ range size →
      a.instrs p = [] := by
    intro a ha p hp
    obtain ⟨i, -, rfl⟩ := mem_map.1 ha
    rw [mem_range] at hp
    exact single_instrs_none (if_neg hp) (if_neg hp)
  refine ⟨fun r hr => isSome_of_eq_some (hcode r hr), ?_,
    fun eager as n h p hp hdone q hq hpq => ?_⟩
  · refine (computes_iff hmatched nodup_range hout fun p => ?_).2 trivial
    by_cases hp : p < size
    · rw [hprog p hp, disseminationRounds, flatMap_map]
    · rw [barrierProg, if_neg hp, flatMap_eq_nil_iff.2 fun a ha => hout a ha p (by rwa [mem_range])]
  · have hend : as.count p + (n.prog p).length = (barrierProg size p).length := exec_count h p
    have hqp : (q + (p + size - q) % size) % size = p := by
      rw [Nat.add_mod_mod, Nat.add_sub_cancel' (by omega), Nat.add_mod_right, Nat.mod_eq_of_lt hp]
    refine (started_before hmin hprog h hq le_rfl ((Nat.mod_lt _ (by omega)).trans_le hL) hp hqp
      ?_).resolve_left hpq.symm
    rw [hdone] at hend
    exact ⟨[], by rw [append_nil, take_of_length_le (i := as.count p) hend.ge, hprog p hp]⟩

theorem barrier_synchronizes_five : Synchronizes 5 := (@barrier_synchronizes 5 (by decide)).2.2

end barrier

end PsMpi.Coll
