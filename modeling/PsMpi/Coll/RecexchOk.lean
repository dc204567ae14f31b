import PsMpi.Lib.MapM
import PsMpi.Coll.Recexch
import Mathlib.Data.Nat.Digits.Lemmas

/-!
# The recursive exchange schedules of all ranks fit together
-/

open List Option

namespace PsMpi.Coll.Recexch

open PsMpi.Lib

variable {k n r s x : Nat} {q : Params}

/-! ## Ranks and new ranks -/

section ranks

structure Params.Ok (k n : Nat) (q : Params) : Prop where
  two_le : 2 ≤ k
  pow : q.pOfK = k ^ q.logPOfK
  le : q.pOfK ≤ n
  lt : n < q.pOfK * k
  rem : q.rem = n - q.pOfK
  T : q.T = q.rem * k / (k - 1)

def Params.groups (q : Params) (k : Nat) : Nat := q.rem / (k - 1)

def Participates (k n : Nat) (q : Params) (r : Nat) : Prop :=
  r < n ∧ (r < q.T → r % k = k - 1)

instance (k n : Nat) (q : Params) (r : Nat) : Decidable (Participates k n q r) :=
  inferInstanceAs (Decidable (_ ∧ (_ → _)))

def Params.orig (q : Params) (k x : Nat) : Nat :=
  if x < q.groups k then x * k + (k - 1) else x + q.rem

def Params.new (q : Params) (k r : Nat) : Nat := origrankToStep2rank r q.rem q.T k

variable (hq : Params.Ok k n q)

theorem Params.Ok.rem_eq : q.rem = q.groups k * (k - 1) + q.rem % (k - 1) := by
  rw [Params.groups, Nat.mul_comm]
  exact (Nat.div_add_mod _ _).symm

include hq

theorem Params.Ok.mod_lt : q.rem % (k - 1) < k - 1 :=
  Nat.mod_lt _ (by have := hq.two_le; omega)

theorem Params.Ok.T_eq_add : q.T = q.rem + q.groups k := by
  have h2 := hq.two_le
  have hmul : q.rem * k = q.rem + (k - 1) * q.rem := by
    obtain ⟨d, rfl⟩ := Nat.exists_eq_add_of_le h2
    rw [show 2 + d - 1 = d + 1 by omega]
    ring
  rw [hq.T, hmul, Nat.add_mul_div_left _ _ (by omega), Nat.add_comm]
  rfl

theorem Params.Ok.T_eq : q.T = q.groups k * k + q.rem % (k - 1) := by
  have h2 := hq.two_le
  have hrem := Params.Ok.rem_eq (k := k) (q := q)
  have hmul : q.groups k * k = q.groups k * (k - 1) + q.groups k := by
    obtain ⟨d, rfl⟩ := Nat.exists_eq_add_of_le h2
    rw [show 2 + d - 1 = d + 1 by omega]
    ring
  rw [hq.T_eq_add, hmul]
  omega

theorem Params.Ok.groups_lt : q.groups k < q.pOfK := by
  have h2 := hq.two_le
  have hlt := hq.lt
  have hle := hq.le
  have hmul : q.pOfK * k = q.pOfK + (k - 1) * q.pOfK := by
    obtain ⟨d, rfl⟩ := Nat.exists_eq_add_of_le h2
    rw [show 2 + d - 1 = d + 1 by omega]
    ring
  refine Nat.div_lt_of_lt_mul ?_
  rw [hq.rem]
  omega

theorem Params.Ok.add_rem : q.pOfK + q.rem = n := by
  rw [hq.rem]
  exact Nat.add_sub_cancel' hq.le

theorem Params.Ok.T_lt : q.T < n := by
  have := hq.groups_lt
  have := hq.add_rem
  rw [hq.T_eq_add]
  omega

theorem Params.Ok.lt_T_iff :
    r < q.T ↔ r / k < q.groups k ∨ r / k = q.groups k ∧ r % k < q.rem % (k - 1) := by
  have h2 := hq.two_le
  have hmod := hq.mod_lt
  have hr := Nat.div_add_mod' r k
  have hrk := Nat.mod_lt r (show k > 0 by omega)
  rw [hq.T_eq]
  rcases Nat.lt_trichotomy (r / k) (q.groups k) with h | h | h
  · have := Nat.mul_le_mul_right k h
    rw [Nat.succ_mul] at this
    exact iff_of_true (by omega) (.inl h)
  · rw [h] at hr
    omega
  · have := Nat.mul_le_mul_right k h
    rw [Nat.succ_mul] at this
    exact iff_of_false (by omega) (by omega)

theorem Params.Ok.orig_spec (hx : x < q.pOfK) :
    Participates k n q (q.orig k x) ∧ q.new k (q.orig k x) = x := by
  have h2 := hq.two_le
  have hT := hq.T_eq_add
  have hadd := hq.add_rem
  unfold Params.orig Params.new origrankToStep2rank
  split
  · next hlt =>
    have hdiv : (x * k + (k - 1)) / k = x := by
      rw [Nat.mul_comm, Nat.mul_add_div (by omega), Nat.div_eq_of_lt (by omega), Nat.add_zero]
    have hmod : (x * k + (k - 1)) % k = k - 1 := by
      rw [Nat.mul_comm, Nat.mul_add_mod, Nat.mod_eq_of_lt (by omega)]
    have hltT : x * k + (k - 1) < q.T := hq.lt_T_iff.2 (.inl (by rw [hdiv]; exact hlt))
    exact ⟨⟨hltT.trans hq.T_lt, fun _ => hmod⟩, by rw [if_pos hltT, hdiv]⟩
  · next hge =>
    have hge' : ¬ x + q.rem < q.T := by omega
    exact ⟨⟨by omega, fun hno => absurd hno hge'⟩, by rw [if_neg hge']; omega⟩

theorem Params.Ok.new_spec (hr : Participates k n q r) :
    q.new k r < q.pOfK ∧ q.orig k (q.new k r) = r := by
  have h2 := hq.two_le
  have hT := hq.T_eq_add
  have hadd := hq.add_rem
  have hmod := hq.mod_lt
  unfold Params.orig Params.new origrankToStep2rank
  split
  · next hlt =>
    have hlast := hr.2 hlt
    have hdiv : r / k < q.groups k := by
      rcases hq.lt_T_iff.1 hlt with h | h
      · exact h
      · omega
    rw [if_pos hdiv]
    refine ⟨hdiv.trans hq.groups_lt, ?_⟩
    have := Nat.div_add_mod' r k
    omega
  · next hge =>
    have := hr.1
    rw [if_neg (by omega)]
    omega

theorem Params.Ok.card : ((Finset.range n).filter (Participates k n q)).card = q.pOfK := by
  rw [← Finset.card_range q.pOfK]
  refine Finset.card_nbij' (q.new k) (q.orig k) (fun r hr => ?_) (fun x hx => ?_) (fun r hr => ?_)
    fun x hx => ?_
  · exact Finset.mem_coe.2 (Finset.mem_range.2 (hq.new_spec (Finset.mem_filter.1 hr).2).1)
  · have hx := hq.orig_spec (Finset.mem_range.1 hx)
    exact Finset.mem_coe.2 (Finset.mem_filter.2 ⟨Finset.mem_range.2 hx.1.1, hx.1⟩)
  · exact (hq.new_spec (Finset.mem_filter.1 hr).2).2
  · exact (hq.orig_spec (Finset.mem_range.1 hx)).2

end ranks

/-! ## Step 1 -/

section step1

variable (hq : Params.Ok k n q)

include hq

theorem step1_sendto (hr : r < n) : (step1 r k q).sendto =
    if Participates k n q r then none else some (q.orig k (q.new k r)) := by
  have h2 := hq.two_le
  have hmod := hq.mod_lt
  unfold step1
  split
  · next hlt =>
    split
    · next hne =>
      rw [if_neg fun hp => hne (hp.2 hlt)]
      have hnew : q.new k r = r / k := if_pos hlt
      have hr := Nat.div_add_mod' r k
      have hrk := Nat.mod_lt r (show k > 0 by omega)
      have hT := hq.T_eq
      show some (if _ then _ else _) = _
      rw [hnew, Params.orig]
      rcases hq.lt_T_iff.1 hlt with hin | ⟨hlast, hb⟩
      · have hmul := Nat.mul_le_mul_right k hin
        rw [Nat.succ_mul] at hmul
        rw [if_neg (by omega), if_pos hin]
        congr 1
        omega
      · rw [hlast] at hr
        rw [if_pos (by omega), hlast, if_neg (Nat.lt_irrefl _), hq.T_eq_add, Nat.add_comm]
    · next heq => exact (if_pos ⟨hr, fun _ => not_not.1 heq⟩).symm
  · next hge => exact (if_pos ⟨hr, fun hno => absurd hno hge⟩).symm

theorem Params.Ok.pred_T_mod (hT : q.T ≥ 1) :
    (q.T - 1) % k = if q.rem % (k - 1) = 0 then k - 1 else q.rem % (k - 1) - 1 := by
  have h2 := hq.two_le
  have hmod := hq.mod_lt
  have hTe := hq.T_eq
  split
  · next hb =>
    rw [hb, Nat.add_zero] at hTe
    obtain ⟨c, hc⟩ : ∃ c, q.groups k = c + 1 :=
      Nat.exists_eq_succ_of_ne_zero fun h0 => by rw [h0, Nat.zero_mul] at hTe; omega
    rw [hc, Nat.succ_mul] at hTe
    rw [hTe, show c * k + k - 1 = k * c + (k - 1) by rw [Nat.mul_comm]; omega, Nat.mul_add_mod,
      Nat.mod_eq_of_lt (by omega)]
  · next hb =>
    rw [hTe, show q.groups k * k + q.rem % (k - 1) - 1 = k * q.groups k + (q.rem % (k - 1) - 1) by
      rw [Nat.mul_comm]; omega, Nat.mul_add_mod, Nat.mod_eq_of_lt (by omega)]

theorem mem_step1_recvfrom (hs : Participates k n q s) : r ∈ (step1 s k q).recvfrom ↔
    r < n ∧ ¬ Participates k n q r ∧ q.new k r = q.new k s := by
  have h2 := hq.two_le
  have hmod := hq.mod_lt
  have hTn := hq.T_lt
  -- those that do not take part are below `T`, and not the last ones of their groups
  have hnot : (r < n ∧ ¬ Participates k n q r ∧ q.new k r = q.new k s) ↔
      r < q.T ∧ r % k ≠ k - 1 ∧ r / k = q.new k s := by
    constructor
    · rintro ⟨hr, hp, hnew⟩
      have hlt : r < q.T := by
        by_contra hge
        exact hp ⟨hr, fun hno => absurd hno hge⟩
      refine ⟨hlt, fun hlast => hp ⟨hr, fun _ => hlast⟩, ?_⟩
      rwa [Params.new, origrankToStep2rank, if_pos hlt] at hnew
    · rintro ⟨hlt, hne, hnew⟩
      refine ⟨hlt.trans hTn, fun hp => hne (hp.2 hlt), ?_⟩
      rwa [Params.new, origrankToStep2rank, if_pos hlt]
  have hr := Nat.div_add_mod' r k
  have hrk := Nat.mod_lt r (show k > 0 by omega)
  rw [hnot]
  clear hnot
  unfold step1 Params.new origrankToStep2rank
  split
  · next hlt =>
    have hlast := hs.2 hlt
    have hsk := Nat.div_add_mod' s k
    rw [if_neg (not_not.2 hlast)]
    simp only [List.mem_map, List.mem_range]
    constructor
    · rintro ⟨i, hi, rfl⟩
      have hval : s - i - 1 = k * (s / k) + (k - 2 - i) := by
        rw [Nat.mul_comm]
        omega
      have hdiv : (s - i - 1) / k = s / k := by
        rw [hval, Nat.mul_add_div (by omega), Nat.div_eq_of_lt (show k - 2 - i < k by omega),
          Nat.add_zero]
      have hmod' : (s - i - 1) % k = k - 2 - i := by
        rw [hval, Nat.mul_add_mod, Nat.mod_eq_of_lt (by omega)]
      exact ⟨by omega, by omega, hdiv⟩
    · rintro ⟨hrT, hne, heq⟩
      rw [heq] at hr
      exact ⟨k - 2 - r % k, by omega, by omega⟩
  · next hge =>
    have hTe := hq.T_eq
    have hTa := hq.T_eq_add
    rw [hq.lt_T_iff]
    by_cases hT : s = q.T ∧ (q.T - 1) % k ≠ k - 1 ∧ q.T ≥ 1
    · simp only [if_pos hT]
      obtain ⟨hsT, hne, hT1⟩ := hT
      have hpred := hq.pred_T_mod hT1
      have hb : q.rem % (k - 1) ≠ 0 := fun hb => hne (by rw [hpred, if_pos hb])
      rw [if_neg hb] at hpred
      have hnew : s - q.rem = q.groups k := by omega
      simp only [hpred, hnew, List.mem_map, List.mem_reverse, List.mem_range]
      constructor
      · rintro ⟨j, hj, rfl⟩
        have hval : q.T - (q.rem % (k - 1) - 1 + 1) + j = k * q.groups k + j := by
          rw [Nat.mul_comm]
          omega
        have hdiv : (k * q.groups k + j) / k = q.groups k := by
          rw [Nat.mul_add_div (by omega), Nat.div_eq_of_lt (by omega), Nat.add_zero]
        have hmod' : (k * q.groups k + j) % k = j := by
          rw [Nat.mul_add_mod, Nat.mod_eq_of_lt (by omega)]
        rw [hval, hdiv, hmod']
        exact ⟨.inr ⟨rfl, by omega⟩, by omega, rfl⟩
      · rintro ⟨hor, -, hdiv⟩
        rw [hdiv] at hr hor
        exact ⟨r % k, by omega, by omega⟩
    · simp only [if_neg hT, List.not_mem_nil, false_iff]
      rintro ⟨hor, hne, hdiv⟩
      refine hT ⟨by omega, ?_, by omega⟩
      rw [hq.pred_T_mod (by omega), if_neg (by omega)]
      omega

omit hq in
theorem step1_newrank (hr : r < n) : (step1 r k q).newrank =
    if Participates k n q r then some (q.new k r) else none := by
  unfold step1 Params.new origrankToStep2rank
  split
  · next hlt =>
    split
    · next hne => exact (if_neg fun hp => hne (hp.2 hlt)).symm
    · next heq => exact (if_pos ⟨hr, fun _ => not_not.1 heq⟩).symm
  · next hge => exact (if_pos ⟨hr, fun hno => absurd hno hge⟩).symm

end step1

/-! ## Step 2 -/

section step2

theorem digitsLoop_spec (hk : 1 < k) {m t : Nat} (ht : t < k ^ m) (pre : List Nat) :
    digitsLoop k (m + 1) t (pre ++ List.replicate m 0) pre.length =
      some (pre ++ Nat.digitsAppend k m t) := by
  induction m generalizing t pre with
  | zero =>
    obtain rfl : t = 0 := by simpa using ht
    rw [digitsLoop, if_pos rfl, Nat.digitsAppend, Nat.digits_zero]
    rfl
  | succ m ih =>
    rw [digitsLoop]
    split
    · next h0 =>
      rw [h0, Nat.digitsAppend, Nat.digits_zero]
      rfl
    · next h0 =>
      have hroom : pre.length < (pre ++ List.replicate (m + 1) 0).length := by simp
      have hset : (pre ++ List.replicate (m + 1) 0).set pre.length (t % k) =
          pre ++ [t % k] ++ List.replicate m 0 := by
        rw [set_append_right _ _ (Nat.le_refl _), Nat.sub_self, replicate_succ,
          set_cons_zero, append_assoc]
        rfl
      have hlen : pre.length + 1 = (pre ++ [t % k]).length := by simp
      have hdiv : t / k < k ^ m := Nat.div_lt_of_lt_mul (by rwa [pow_succ'] at ht)
      have hdigits : Nat.digits k t = t % k :: Nat.digits k (t / k) :=
        Nat.digits_def' hk (Nat.pos_of_ne_zero h0)
      rw [if_pos hroom, hset, hlen, ih hdiv, Nat.digitsAppend, Nat.digitsAppend, hdigits,
        append_assoc, length_cons, Nat.add_sub_add_right]
      rfl

theorem valueLoop_spec {l : List Nat} {power : Nat} (hk : 1 < k) (hl : ∀ d ∈ l, d < k)
    (hmax : power * k ^ l.length ≤ intMax) (nbr : Nat) :
    valueLoop k l nbr power = some (nbr + power * Nat.ofDigits k l) := by
  induction l generalizing nbr power with
  | nil => simp [valueLoop]
  | cons d l ih =>
    rw [length_cons, pow_succ', ← Nat.mul_assoc] at hmax
    have hpos : 1 ≤ k ^ l.length := Nat.one_le_pow _ _ (by omega)
    have hpk : power * k ≤ intMax := (Nat.le_mul_of_pos_right _ hpos).trans hmax
    have hd : d * power ≤ intMax := by
      rw [Nat.mul_comm]
      exact (Nat.mul_le_mul_left power (hl d mem_cons_self).le).trans hpk
    rw [valueLoop, mulInt_of_le hd, mulInt_of_le hpk]
    simp only [bind_eq_bind, bind_some]
    rw [ih (fun e he => hl e (mem_cons_of_mem _ he)) hmax, Nat.ofDigits_cons, Nat.mul_add,
      Nat.mul_assoc, Nat.mul_comm d, Nat.add_assoc]

variable (hq : Params.Ok k n q)

def Params.digits (q : Params) (k r : Nat) : List Nat := Nat.digitsAppend k q.logPOfK (q.new k r)

def Params.row (q : Params) (k : Nat) (digit : List Nat) (phase : Nat) : List Nat :=
  ((List.range k).filter fun i => i ≠ digit.getD phase 0).map fun i =>
    q.orig k (Nat.ofDigits k (digit.set phase i))

include hq

theorem Params.Ok.new_lt (hr : r < n) : q.new k r < q.pOfK := by
  have hT := hq.T_eq_add
  have hadd := hq.add_rem
  have hlt := hq.groups_lt
  unfold Params.new origrankToStep2rank
  split
  · next h =>
    rcases hq.lt_T_iff.1 h with h | h
    · omega
    · omega
  · omega

theorem Params.Ok.digits_spec (hr : r < n) :
    Recexch.digits k q.logPOfK (q.new k r) = some (q.digits k r) ∧
      (q.digits k r).length = q.logPOfK ∧ (∀ d ∈ q.digits k r, d < k) ∧
      Nat.ofDigits k (q.digits k r) = q.new k r := by
  have hk : 1 < k := hq.two_le
  have hlt : q.new k r < k ^ q.logPOfK := hq.pow ▸ hq.new_lt hr
  refine ⟨digitsLoop_spec hk hlt [], Nat.length_digitsAppend hk _ hlt,
    fun d hd => Nat.lt_of_mem_digitsAppend hk _ _ hd, ?_⟩
  exact (Nat.setInvOn_digitsAppend_ofDigits hk q.logPOfK).2 hlt

theorem Params.Ok.step2rankToOrigrank (hn : n ≤ intMax) (hx : x < q.pOfK) :
    step2rankToOrigrank x q.rem k = some (q.orig k x) := by
  have hlt := (hq.orig_spec hx).1.1
  unfold Recexch.step2rankToOrigrank
  unfold Params.orig at hlt ⊢
  unfold Params.groups at hlt ⊢
  split
  · next h =>
    rw [if_pos h] at hlt
    rw [mulInt_of_le (by omega)]
    rfl
  · rfl

theorem Params.Ok.ofDigits {l : List Nat} (hlen : l.length = q.logPOfK) (hl : ∀ d ∈ l, d < k) :
    Nat.ofDigits k l < q.pOfK ∧ Nat.digitsAppend k q.logPOfK (Nat.ofDigits k l) = l := by
  have hk : 1 < k := hq.two_le
  refine ⟨?_, (Nat.setInvOn_digitsAppend_ofDigits hk q.logPOfK).1 ⟨hlen, hl⟩⟩
  rw [hq.pow, ← hlen]
  exact Nat.ofDigits_lt_base_pow_length hk hl

omit hq in
theorem forall_mem_set {l : List Nat} {i d : Nat} (hl : ∀ d ∈ l, d < k) (hd : d < k) :
    ∀ e ∈ l.set i d, e < k := by
  intro e he
  rcases mem_or_eq_of_mem_set he with he | rfl
  · exact hl e he
  · exact hd

theorem Params.Ok.phaseNbrs (hn : q.pOfK * k ≤ intMax) {digit : List Nat} {phase : Nat}
    (hlen : digit.length = q.logPOfK) (hl : ∀ d ∈ digit, d < k) :
    phaseNbrs k q.rem digit phase (digit.getD phase 0) = some (q.row k digit phase) := by
  have hk : 1 < k := hq.two_le
  have hmax : n ≤ intMax := hq.lt.le.trans hn
  refine mapM_eq_some fun i hi => ?_
  have hik : i < k := List.mem_range.1 (List.mem_filter.1 hi).1
  have hset := forall_mem_set (i := phase) hl hik
  have hlen' : (digit.set phase i).length = q.logPOfK := List.length_set.trans hlen
  have hpow : 1 * k ^ (digit.set phase i).length ≤ intMax := by
    rw [hlen', ← hq.pow, Nat.one_mul]
    exact hq.le.trans hmax
  rw [valueLoop_spec hk hset hpow 0, Nat.zero_add, Nat.one_mul]
  exact hq.step2rankToOrigrank hmax (hq.ofDigits hlen' hset).1

theorem Params.Ok.step2Loop (hn : q.pOfK * k ≤ intMax) {digit : List Nat}
    (hlen : digit.length = q.logPOfK) (hl : ∀ d ∈ digit, d < k) {m e f : Nat}
    (hm : e + m = q.logPOfK) (hfuel : m < f) :
    step2Loop k q.pOfK q.rem digit f (k ^ e) e =
      some ((List.range' e m).map (q.row k digit)) := by
  have hk : 1 < k := hq.two_le
  induction m generalizing e f with
  | zero =>
    obtain ⟨f, rfl⟩ := Nat.exists_eq_succ_of_ne_zero (Nat.ne_of_gt hfuel)
    rw [Recexch.step2Loop, if_neg]
    · rfl
    · rw [hq.pow, ← hm]
      exact Nat.lt_irrefl _
  | succ m ih =>
    obtain ⟨f, rfl⟩ := Nat.exists_eq_succ_of_ne_zero (Nat.ne_of_gt (Nat.lt_of_le_of_lt
      (Nat.zero_le _) hfuel))
    have hphase : e < q.logPOfK := by omega
    have hmask : k ^ e * k ≤ q.pOfK := by
      rw [hq.pow, ← pow_succ]
      exact Nat.pow_le_pow_right (by omega) hphase
    have hget : digit[e]? = some (digit.getD e 0) := by
      rw [List.getD_eq_getElem?_getD, List.getElem?_eq_getElem (hlen ▸ hphase)]
      rfl
    have hlt : k ^ e < q.pOfK := by
      rw [hq.pow]
      exact Nat.pow_lt_pow_right hk hphase
    rw [Recexch.step2Loop, if_pos hlt, hget]
    simp only [bind_eq_bind, bind_some]
    rw [hq.phaseNbrs hn hlen hl, mulInt_of_le (hmask.trans (hq.le.trans (hq.lt.le.trans hn))),
      ← pow_succ]
    simp only [bind_some]
    rw [ih (by omega) (by omega)]
    rfl

theorem Params.Ok.mem_row (hr : r < n) {phase : Nat} (hphase : phase < q.logPOfK) :
    s ∈ q.row k (q.digits k r) phase ↔ Participates k n q s ∧
      (q.digits k r)[phase]? ≠ (q.digits k s)[phase]? ∧
      ∀ j ≠ phase, (q.digits k r)[j]? = (q.digits k s)[j]? := by
  obtain ⟨-, hlen, hl, -⟩ := hq.digits_spec hr
  have hget : (q.digits k r)[phase]? = some ((q.digits k r).getD phase 0) := by
    rw [List.getD_eq_getElem?_getD, List.getElem?_eq_getElem (hlen ▸ hphase)]
    rfl
  simp only [Params.row, List.mem_map, List.mem_filter, List.mem_range, decide_eq_true_eq]
  constructor
  · rintro ⟨i, ⟨hi, hne⟩, rfl⟩
    have hset := forall_mem_set (i := phase) hl hi
    obtain ⟨hlt, hdig⟩ := hq.ofDigits (List.length_set.trans hlen) hset
    obtain ⟨hp, hnew⟩ := hq.orig_spec hlt
    refine ⟨hp, ?_⟩
    rw [show q.digits k (q.orig k _) = (q.digits k r).set phase i by rw [Params.digits, hnew, hdig]]
    refine ⟨?_, fun j hj => (List.getElem?_set_ne (Ne.symm hj)).symm⟩
    rw [hget, List.getElem?_set_self (hlen ▸ hphase)]
    exact fun heq => hne (Option.some.inj heq).symm
  · rintro ⟨hp, hne, hsame⟩
    obtain ⟨-, hlen', hl', hval⟩ := hq.digits_spec hp.1
    have hget' : (q.digits k s)[phase]? = some ((q.digits k s).getD phase 0) := by
      rw [List.getD_eq_getElem?_getD, List.getElem?_eq_getElem (hlen' ▸ hphase)]
      rfl
    have heq : (q.digits k r).set phase ((q.digits k s).getD phase 0) = q.digits k s := by
      refine List.ext_getElem? fun j => ?_
      by_cases hj : j = phase
      · rw [hj, List.getElem?_set_self (hlen ▸ hphase), hget']
      · rw [List.getElem?_set_ne (Ne.symm hj), hsame j hj]
    refine ⟨(q.digits k s).getD phase 0, ⟨hl' _ (List.mem_of_getElem? hget'), fun hno => ?_⟩, ?_⟩
    · exact hne (by rw [hget, hget', hno])
    · rw [heq, hval, (hq.new_spec hp).2]

end step2

/-! ## Ranges of ranks -/

section ranges

variable (hq : Params.Ok k n q)

def Params.first (q : Params) (k : Nat) : Nat → Nat
  | 0 => 0
  | x + 1 => q.orig k x + 1

include hq

theorem Params.Ok.orig_strictMono : StrictMono (q.orig k) := by
  have h2 := hq.two_le
  have hT := hq.T_eq
  have hTa := hq.T_eq_add
  refine strictMono_nat_of_lt_succ fun x => ?_
  unfold Params.orig
  rw [Nat.succ_mul]
  rcases Nat.lt_trichotomy (x + 1) (q.groups k) with h | h | h
  · rw [if_pos (by omega), if_pos h]
    omega
  · rw [← h, Nat.succ_mul] at hT
    rw [if_pos (by omega), if_neg (by omega)]
    omega
  · rw [if_neg (by omega), if_neg (by omega)]
    omega

theorem Params.Ok.first_strictMono : StrictMono (q.first k) := by
  refine strictMono_nat_of_lt_succ fun x => ?_
  cases x with
  | zero => exact Nat.succ_pos _
  | succ x => exact Nat.succ_lt_succ (hq.orig_strictMono (Nat.lt_succ_self x))

theorem Params.Ok.first_pOfK : q.first k q.pOfK = n := by
  have hlt := hq.groups_lt
  have hadd := hq.add_rem
  obtain ⟨p, hp⟩ := Nat.exists_eq_succ_of_ne_zero (Nat.ne_of_gt (Nat.lt_of_le_of_lt
    (Nat.zero_le _) hlt))
  rw [hp, Params.first, Params.orig, if_neg (by omega)]
  omega

theorem Params.Ok.first_le (r : Nat) :
    q.first k (q.new k r) ≤ r ∧ r < q.first k (q.new k r + 1) := by
  have h2 := hq.two_le
  have hT := hq.T_eq
  have hTa := hq.T_eq_add
  have hr := Nat.div_add_mod' r k
  have hrk := Nat.mod_lt r (show k > 0 by omega)
  have hmod := hq.mod_lt
  rw [Params.first]
  unfold Params.new origrankToStep2rank
  split
  · next hlt =>
    have hle : r / k ≤ q.groups k := by
      rcases hq.lt_T_iff.1 hlt with h | h <;> omega
    constructor
    · cases hx : r / k with
      | zero => exact Nat.zero_le _
      | succ x =>
        rw [hx, Nat.succ_mul] at hr
        rw [Params.first, Params.orig, if_pos (by omega)]
        omega
    · unfold Params.orig
      split
      · omega
      · omega
  · next hge =>
    constructor
    · cases hx : r - q.rem with
      | zero => exact Nat.zero_le _
      | succ x =>
        rw [Params.first, Params.orig]
        split
        · next hxa =>
          have hxe : x + 1 = q.groups k := by omega
          rw [← hxe, Nat.succ_mul] at hT
          omega
        · omega
    · rw [Params.orig, if_neg (by omega)]
      omega

omit hq in
theorem powerLoop_spec {phase w : Nat} (hk : 1 < k) (hmax : w * k ^ phase ≤ intMax) :
    powerLoop k phase w = some (w * k ^ phase) := by
  induction phase generalizing w with
  | zero => simp [powerLoop]
  | succ phase ih =>
    rw [pow_succ', ← Nat.mul_assoc] at hmax ⊢
    have hpos : 1 ≤ k ^ phase := Nat.one_le_pow _ _ (by omega)
    rw [powerLoop, mulInt_of_le ((Nat.le_mul_of_pos_right _ hpos).trans hmax)]
    exact ih hmax

theorem Params.Ok.block_le {phase : Nat} (hphase : phase ≤ q.logPOfK) (hx : x < q.pOfK) :
    (x / k ^ phase + 1) * k ^ phase ≤ q.pOfK := by
  have hpow : q.pOfK = k ^ (q.logPOfK - phase) * k ^ phase := by
    rw [hq.pow, ← pow_add, Nat.sub_add_cancel hphase]
  rw [hpow] at hx ⊢
  exact Nat.mul_le_mul_right _ (Nat.div_lt_of_lt_mul (by rwa [Nat.mul_comm] at hx))

theorem Params.Ok.getCountAndOffset (hpar : params k n = some q) (hn : n ≤ intMax) {phase : Nat}
    (hphase : phase ≤ q.logPOfK) (hr : r < n) : getCountAndOffset r phase k n =
      some ((q.first k ((q.new k r / k ^ phase + 1) * k ^ phase) : Int) -
        q.first k (q.new k r / k ^ phase * k ^ phase),
        (q.first k (q.new k r / k ^ phase * k ^ phase) : Int)) := by
  have hk : 1 < k := hq.two_le
  have hlt := hq.new_lt hr
  have hend := hq.block_le hphase hlt
  have hpos : 1 ≤ k ^ phase := Nat.one_le_pow _ _ (by omega)
  have hpow : k ^ phase ≤ q.pOfK := by
    rw [hq.pow]
    exact Nat.pow_le_pow_right (by omega) hphase
  have hle : q.new k r / k ^ phase * k ^ phase ≤ q.new k r := Nat.div_mul_le_self _ _
  rw [Nat.succ_mul] at hend ⊢
  unfold Recexch.getCountAndOffset
  have hpl : powerLoop k phase 1 = some (k ^ phase) := by
    rw [powerLoop_spec hk (by rw [Nat.one_mul]; exact hpow.trans (hq.le.trans hn)), Nat.one_mul]
  have hnew : origrankToStep2rank r q.rem q.T k = q.new k r := rfl
  have hmul : mulInt (q.new k r / k ^ phase) (k ^ phase) =
      some (q.new k r / k ^ phase * k ^ phase) :=
    mulInt_of_le (hle.trans (hlt.le.trans (hq.le.trans hn)))
  simp only [bind_eq_bind, hpar, bind_some, hpl, hnew, hmul]
  generalize q.new k r / k ^ phase * k ^ phase = b at hend hle ⊢
  -- the last of the block, and the one before the block if there is one
  obtain ⟨e, he⟩ := Nat.exists_eq_add_of_le hpos
  have hmax : ((b : Int) - 1 + ((k ^ phase : Nat) : Int)).toNat = b + e := by omega
  have hlast : q.first k (b + k ^ phase) = q.orig k (b + e) + 1 := by
    rw [he, Nat.add_left_comm, Nat.add_comm 1]
    rfl
  rw [hmax, hq.step2rankToOrigrank (x := b + e) hn (by omega), hlast]
  cases b with
  | zero =>
    rw [if_neg (by decide)]
    show some _ = some _
    simp only [Option.some.injEq, Prod.mk.injEq, Params.first]
    omega
  | succ b =>
    have hmin : ((b + 1 : Nat) : Int) - 1 = b := by omega
    rw [hmin, if_pos (Int.natCast_nonneg b), Int.toNat_natCast,
      hq.step2rankToOrigrank (x := b) hn (by omega)]
    simp only [map_some, bind_some]
    show some _ = some _
    simp only [Option.some.injEq, Prod.mk.injEq, Params.first, Int.ofNat_eq_natCast]
    omega

theorem Params.Ok.reverseDigitsStep2 (hpar : params k n = some q) (hn : n ≤ intMax) (hr : r < n) :
    ∃ s, reverseDigitsStep2 r n k = some s ∧ Participates k n q s ∧
      q.digits k s = (q.digits k r).reverse := by
  have hk : 1 < k := hq.two_le
  obtain ⟨hdig, hlen, hl, hval⟩ := hq.digits_spec hr
  have hlen' : (q.digits k r).reverse.length = q.logPOfK := length_reverse.trans hlen
  have hl' : ∀ d ∈ (q.digits k r).reverse, d < k := fun d hd => hl d (List.mem_reverse.1 hd)
  obtain ⟨hlt, hinv⟩ := hq.ofDigits hlen' hl'
  obtain ⟨hp, hnew⟩ := hq.orig_spec hlt
  have hpow : 1 * k ^ (q.digits k r).reverse.length ≤ intMax := by
    rw [hlen', ← hq.pow, Nat.one_mul]
    exact hq.le.trans hn
  have hdig' : Recexch.digits k q.logPOfK (origrankToStep2rank r q.rem q.T k) =
    some (q.digits k r) := hdig
  refine ⟨q.orig k (Nat.ofDigits k (q.digits k r).reverse), ?_, hp, ?_⟩
  · unfold Recexch.reverseDigitsStep2
    simp only [bind_eq_bind, hpar, bind_some, hdig']
    rw [valueLoop_spec hk hl' hpow 0, Nat.zero_add, Nat.one_mul]
    exact hq.step2rankToOrigrank hn hlt
  · rw [Params.digits, hnew, hinv]

end ranges

/-! ## Overflow -/

section overflow

/-- The products fit into an `int`: that of the reduced `k` and its greatest power that is not above
the number of ranks, and that of `k` and the number of ranks above that power. -/
def NoOverflow (nranks k : Nat) : Prop :=
  let k := reduceK nranks k
  k ^ Nat.log k nranks * k ≤ intMax ∧ (nranks - k ^ Nat.log k nranks) * k ≤ intMax

theorem two_le_reduceK (hk : 2 ≤ k) : 2 ≤ reduceK n k := by
  unfold reduceK
  split
  · split <;> omega
  · exact hk

variable (hk : 2 ≤ k) (hn : 1 ≤ n)

include hk hn

theorem pOfKLoop_spec (hmax : k ^ Nat.log k n * k ≤ intMax) {m i f : Nat}
    (hi : i + m = Nat.log k n + 1) (hfuel : m < f) :
    pOfKLoop k n f (k ^ i) i = some (k ^ Nat.log k n, Nat.log k n) := by
  induction m generalizing i f with
  | zero =>
    obtain ⟨f, rfl⟩ := Nat.exists_eq_succ_of_ne_zero (Nat.ne_of_gt hfuel)
    obtain rfl : i = Nat.log k n + 1 := hi
    have hlt : n < k ^ (Nat.log k n + 1) := Nat.lt_pow_succ_log_self hk n
    rw [pOfKLoop, if_neg (Nat.not_le.2 hlt), pow_succ, Nat.mul_div_cancel _ (by omega)]
    rfl
  | succ m ih =>
    obtain ⟨f, rfl⟩ := Nat.exists_eq_succ_of_ne_zero (Nat.ne_of_gt (Nat.lt_of_le_of_lt
      (Nat.zero_le _) hfuel))
    have hle : k ^ i ≤ n := Nat.pow_le_of_le_log (by omega) (by omega)
    have hmul : k ^ i * k ≤ intMax := by
      refine Nat.le_trans (Nat.mul_le_mul_right k ?_) hmax
      exact Nat.pow_le_pow_right (by omega) (by omega)
    rw [pOfKLoop, if_pos hle, mulInt_of_le hmul, ← pow_succ]
    exact ih (by omega) (by omega)

omit hk in
theorem le_of_pOfKLoop {i fuel : Nat} {res : Nat × Nat} (hi : i ≤ Nat.log k n)
    (h : pOfKLoop k n fuel (k ^ i) i = some res) : k ^ Nat.log k n * k ≤ intMax := by
  induction fuel generalizing i with
  | zero => cases h
  | succ fuel ih =>
    have hle : k ^ i ≤ n := Nat.pow_le_of_le_log (by omega) hi
    rw [pOfKLoop, if_pos hle] at h
    obtain ⟨p, hp, hrest⟩ := bind_eq_some_iff.1 h
    obtain ⟨hmax, rfl⟩ := mulInt_eq_some.1 hp
    rcases Nat.lt_or_eq_of_le hi with hlt | rfl
    · rw [← pow_succ] at hrest
      exact ih hlt hrest
    · exact hmax

theorem params_spec (hmax : k ^ Nat.log k n * k ≤ intMax)
    (hrem : (n - k ^ Nat.log k n) * k ≤ intMax) : ∃ q, params k n = some q ∧ Params.Ok k n q := by
  have hlog : Nat.log k n + 1 < 31 := lt_of_pow_le_intMax hk (by rwa [pow_succ])
  have hloop := pOfKLoop_spec hk hn hmax (i := 0) (f := 32) (Nat.zero_add _) (by omega)
  rw [pow_zero] at hloop
  refine ⟨⟨k ^ Nat.log k n, Nat.log k n, n - k ^ Nat.log k n,
    (n - k ^ Nat.log k n) * k / (k - 1)⟩, ?_, hk, rfl, ?_, ?_, rfl, rfl⟩
  · unfold params
    simp only [bind_eq_bind, hloop, bind_some, mulInt_of_le hrem]
    rfl
  · exact Nat.pow_log_le_self k (by omega)
  · rw [← pow_succ]
    exact Nat.lt_pow_succ_log_self hk n

theorem le_of_params (h : params k n = some q) :
    k ^ Nat.log k n * k ≤ intMax ∧ (n - k ^ Nat.log k n) * k ≤ intMax := by
  unfold params at h
  obtain ⟨res, hloop, h₁⟩ := bind_eq_some_iff.1 h
  rw [← pow_zero k] at hloop
  have hmax := le_of_pOfKLoop hn (Nat.zero_le _) hloop
  have hlog : Nat.log k n + 1 < 31 := lt_of_pow_le_intMax hk (by rwa [pow_succ])
  have hspec := pOfKLoop_spec hk hn hmax (i := 0) (f := 32) (Nat.zero_add _) (by omega)
  obtain rfl := Option.some.inj (hloop.symm.trans hspec)
  obtain ⟨t, ht, -⟩ := bind_eq_some_iff.1 h₁
  exact ⟨hmax, (mulInt_eq_some.1 ht).1⟩

end overflow

/-! ## All ranks -/

section all

def Neighbors.Nbr (t : Neighbors) (phase s : Nat) : Prop :=
  ∃ l, t.step2Nbrs[phase]? = some l ∧ s ∈ l

/-- What the ranks compute is one schedule: they agree on the base `k'`, on its power `p`, and on
`T`; `nb` has the neighbours of each rank. -/
structure Consistent (nranks k k' p log T : Nat) (nb : Nat → Neighbors) : Prop where
  defined : ∀ r < nranks, getNeighbors r nranks k = some (nb r)
  agree : ∀ r < nranks, (nb r).k = k' ∧ (nb r).pOfK = p ∧ (nb r).step2Nphases = log ∧ (nb r).T = T
  power : p = k' ^ log ∧ p ≤ nranks ∧ nranks < p * k'
  card : ((Finset.range nranks).filter fun r => (nb r).step1Sendto = none).card = p
  step1 : ∀ r < nranks, ∀ s < nranks,
    (nb r).step1Sendto = some s ↔ r ∈ (nb s).step1Recvfrom
  target : ∀ r < nranks, ∀ s, (nb r).step1Sendto = some s →
    s < nranks ∧ (nb s).step1Sendto = none
  source : ∀ r < nranks, ∀ s ∈ (nb r).step1Recvfrom, s < nranks
  phases : ∀ r < nranks, (nb r).step2Nbrs.length = if (nb r).step1Sendto = none then log else 0
  symm : ∀ phase, ∀ r < nranks, ∀ s < nranks, (nb r).Nbr phase s ↔ (nb s).Nbr phase r
  inside : ∀ phase, ∀ r < nranks, ∀ s, (nb r).Nbr phase s → s < nranks
  orig : ∀ x < p, ∃ r < nranks, step2rankToOrigrank x (nranks - p) k' = some r ∧
    (nb r).step1Sendto = none ∧ origrankToStep2rank r (nranks - p) T k' = x
  new : ∀ r < nranks, (nb r).step1Sendto = none → origrankToStep2rank r (nranks - p) T k' < p ∧
    step2rankToOrigrank (origrankToStep2rank r (nranks - p) T k') (nranks - p) k' = some r
  tiles : ∀ phase ≤ log, ∃ count offset : Nat → Nat,
    (∀ r < nranks, getCountAndOffset r phase k' nranks = some (↑(count r), ↑(offset r)) ∧
      offset r + count r ≤ nranks) ∧
    (∀ r < nranks, ∀ s < nranks, count r = count s ∧ offset r = offset s ∨
      offset r + count r ≤ offset s ∨ offset s + count s ≤ offset r) ∧
    ∀ x < nranks, ∃ r < nranks, (nb r).step1Sendto = none ∧ offset r ≤ x ∧ x < offset r + count r
  reverse : ∀ r < nranks, (nb r).step1Sendto = none → ∃ s < nranks,
    (nb s).step1Sendto = none ∧ reverseDigitsStep2 r nranks k' = some s ∧
      reverseDigitsStep2 s nranks k' = some r

def table (k n : Nat) (q : Params) (r : Nat) : Neighbors where
  k := k
  step1Sendto := (Recexch.step1 r k q).sendto
  step1Recvfrom := (Recexch.step1 r k q).recvfrom
  step2Nbrs := if Participates k n q r then
    (List.range q.logPOfK).map (q.row k (q.digits k r)) else []
  step2Nphases := q.logPOfK
  pOfK := q.pOfK
  T := q.T

variable (hq : Params.Ok k n q)

include hq

theorem table_sendto (hr : r < n) : (table k n q r).step1Sendto =
    if Participates k n q r then none else some (q.orig k (q.new k r)) :=
  step1_sendto hq hr

theorem table_sendto_none (hr : r < n) :
    (table k n q r).step1Sendto = none ↔ Participates k n q r := by
  rw [table_sendto hq hr]
  split <;> simp [*]

theorem table_recvfrom (hr : r < n) : s ∈ (table k n q r).step1Recvfrom ↔
    Participates k n q r ∧ s < n ∧ ¬ Participates k n q s ∧ q.new k s = q.new k r := by
  by_cases hp : Participates k n q r
  · rw [and_iff_right hp]
    exact mem_step1_recvfrom hq hp
  · refine iff_of_false (fun hmem => ?_) fun hno => hp hno.1
    have hlt : r < q.T := by
      by_contra hge
      exact hp ⟨hr, fun hno => absurd hno hge⟩
    have hne : r % k ≠ k - 1 := fun hlast => hp ⟨hr, fun _ => hlast⟩
    have hmem : s ∈ (Recexch.step1 r k q).recvfrom := hmem
    rw [Recexch.step1, if_pos hlt, if_pos hne] at hmem
    cases hmem

theorem table_nbr (hr : r < n) {phase : Nat} : (table k n q r).Nbr phase s ↔
    phase < q.logPOfK ∧ Participates k n q r ∧ Participates k n q s ∧
      (q.digits k r)[phase]? ≠ (q.digits k s)[phase]? ∧
      ∀ j ≠ phase, (q.digits k r)[j]? = (q.digits k s)[j]? := by
  unfold Neighbors.Nbr table
  simp only
  split
  · next hp =>
    simp only [List.getElem?_map, map_eq_some_iff, hp, true_and]
    constructor
    · rintro ⟨l, ⟨ph, hph, rfl⟩, hmem⟩
      obtain ⟨hlt, hph⟩ := List.getElem?_eq_some_iff.1 hph
      rw [length_range] at hlt
      rw [getElem_range] at hph
      subst hph
      exact ⟨hlt, (hq.mem_row hr hlt).1 hmem⟩
    · rintro ⟨hlt, hrest⟩
      exact ⟨_, ⟨phase, List.getElem?_range hlt, rfl⟩, (hq.mem_row hr hlt).2 hrest⟩
  · next hp => simp [hp]

theorem getNeighbors_spec {k₀ : Nat} (hk : k = reduceK n k₀) (hpar : params k n = some q)
    (hmax : q.pOfK * k ≤ intMax) (hr : r < n) :
    getNeighbors r n k₀ = some (table k n q r) := by
  have hlog : q.logPOfK + 1 < 31 := by
    refine lt_of_pow_le_intMax hq.two_le ?_
    rwa [pow_succ, ← hq.pow]
  unfold getNeighbors
  simp only [bind_eq_bind, ← hk, hpar, bind_some, step1_newrank hr]
  unfold table
  split
  · obtain ⟨hdig, hlen, hl, -⟩ := hq.digits_spec hr
    have hloop := hq.step2Loop hmax hlen hl (e := 0) (f := 32) (Nat.zero_add _) (by omega)
    rw [pow_zero, ← range_eq_range'] at hloop
    simp only [step2, bind_eq_bind, hdig, bind_some, hloop]
    rfl
  · rfl

theorem table_tiles (hpar : params k n = some q) (hn : n ≤ intMax) {phase : Nat}
    (hphase : phase ≤ q.logPOfK) : ∃ count offset : Nat → Nat,
    (∀ r < n, getCountAndOffset r phase k n = some (↑(count r), ↑(offset r)) ∧
      offset r + count r ≤ n) ∧
    (∀ r < n, ∀ s < n, count r = count s ∧ offset r = offset s ∨
      offset r + count r ≤ offset s ∨ offset s + count s ≤ offset r) ∧
    ∀ x < n, ∃ r < n, (table k n q r).step1Sendto = none ∧
      offset r ≤ x ∧ x < offset r + count r := by
  have hpos : 0 < k ^ phase := Nat.pow_pos (by have := hq.two_le; omega)
  have hmono := hq.first_strictMono.monotone
  -- a block of new ranks has the ranks from `lo` to `hi`
  let lo := fun b => q.first k (b * k ^ phase)
  let hi := fun b => q.first k ((b + 1) * k ^ phase)
  have hlohi : ∀ b, lo b ≤ hi b := fun b => hmono (Nat.mul_le_mul_right _ (Nat.le_succ b))
  have hnext : ∀ b c, b < c → hi b ≤ lo c := fun b c hbc => hmono (Nat.mul_le_mul_right _ hbc)
  let block := fun r => q.new k r / k ^ phase
  refine ⟨fun r => hi (block r) - lo (block r), fun r => lo (block r), fun r hr => ⟨?_, ?_⟩,
    fun r hr s hs => ?_, fun x hx => ?_⟩
  · rw [hq.getCountAndOffset hpar hn hphase hr, Int.natCast_sub (hlohi _)]
  · have hend := hmono (hq.block_le hphase (hq.new_lt hr))
    rw [hq.first_pOfK] at hend
    have := hlohi (block r)
    have hend : hi (block r) ≤ n := hend
    show lo (block r) + (hi (block r) - lo (block r)) ≤ n
    omega
  · have hr' := hlohi (block r)
    have hs' := hlohi (block s)
    rcases Nat.lt_trichotomy (block r) (block s) with h | h | h
    · have := hnext _ _ h
      exact .inr (.inl (by simp only; omega))
    · exact .inl (by simp only [h, and_self])
    · have := hnext _ _ h
      exact .inr (.inr (by simp only; omega))
  · obtain ⟨hp, hnew⟩ := hq.orig_spec (hq.new_lt hx)
    refine ⟨q.orig k (q.new k x), hp.1, (table_sendto_none hq hp.1).2 hp, ?_⟩
    have hb : block (q.orig k (q.new k x)) = block x := by
      simp only [block, hnew]
    obtain ⟨hfirst, hlast⟩ := hq.first_le x
    have h₁ : lo (block x) ≤ q.first k (q.new k x) := hmono (Nat.div_mul_le_self _ _)
    have h₂ : q.first k (q.new k x + 1) ≤ hi (block x) :=
      hmono (Nat.lt_mul_of_div_lt (Nat.lt_succ_self _) hpos)
    have := hlohi (block x)
    simp only [hb]
    omega

theorem table_reverse (hpar : params k n = some q) (hn : n ≤ intMax)
    (hr : Participates k n q r) : ∃ s < n, Participates k n q s ∧
      reverseDigitsStep2 r n k = some s ∧ reverseDigitsStep2 s n k = some r := by
  obtain ⟨s, hs, hsp, hsd⟩ := hq.reverseDigitsStep2 hpar hn hr.1
  obtain ⟨r', hr', hrp, hrd⟩ := hq.reverseDigitsStep2 hpar hn hsp.1
  have hdig : q.digits k r' = q.digits k r := by rw [hrd, hsd, reverse_reverse]
  have hnew : q.new k r' = q.new k r := by
    rw [← (hq.digits_spec hrp.1).2.2.2, ← (hq.digits_spec hr.1).2.2.2, hdig]
  have heq : r' = r := by rw [← (hq.new_spec hrp).2, hnew, (hq.new_spec hr).2]
  exact ⟨s, hsp.1, hsp, hs, heq ▸ hr'⟩

theorem consistent_table {k₀ : Nat} (hk : k = reduceK n k₀) (hpar : params k n = some q)
    (hmax : q.pOfK * k ≤ intMax) :
    Consistent n k₀ k q.pOfK q.logPOfK q.T (table k n q) := by
  have hn : n ≤ intMax := hq.lt.le.trans hmax
  refine ⟨fun r hr => getNeighbors_spec hq hk hpar hmax hr, fun r _ => ⟨rfl, rfl, rfl, rfl⟩,
    ⟨hq.pow, hq.le, hq.lt⟩, ?_, fun r hr s hs => ?_, fun r hr s hs => ?_, fun r hr s hs => ?_,
    fun r hr => ?_, fun phase r hr s hs => ?_, fun phase r hr s hs => ?_, fun x hx => ?_,
    fun r hr hp => ?_, fun phase hphase => table_tiles hq hpar hn hphase, fun r hr hp => ?_⟩
  · rw [← hq.card]
    congr 1
    exact Finset.filter_congr fun r hr => table_sendto_none hq (Finset.mem_range.1 hr)
  · rw [table_sendto hq hr, table_recvfrom hq hs]
    constructor
    · intro h
      split at h
      · cases h
      · next hp =>
        cases h
        obtain ⟨hp', hnew⟩ := hq.orig_spec (hq.new_lt hr)
        exact ⟨hp', hr, hp, hnew.symm⟩
    · rintro ⟨hp', -, hp, hnew⟩
      rw [if_neg hp, hnew, (hq.new_spec hp').2]
  · rw [table_sendto hq hr] at hs
    split at hs
    · cases hs
    · cases hs
      have hp := (hq.orig_spec (hq.new_lt hr)).1
      exact ⟨hp.1, (table_sendto_none hq hp.1).2 hp⟩
  · exact ((table_recvfrom hq hr).1 hs).2.1
  · simp only [table_sendto_none hq hr]
    unfold table
    split
    · rw [length_map, length_range]
    · rfl
  · rw [table_nbr hq hr, table_nbr hq hs]
    refine and_congr_right fun _ => ?_
    constructor
    · rintro ⟨h₁, h₂, h₃, h₄⟩
      exact ⟨h₂, h₁, h₃.symm, fun j hj => (h₄ j hj).symm⟩
    · rintro ⟨h₁, h₂, h₃, h₄⟩
      exact ⟨h₂, h₁, h₃.symm, fun j hj => (h₄ j hj).symm⟩
  · exact ((table_nbr hq hr).1 hs).2.2.1.1
  · obtain ⟨hp, hnew⟩ := hq.orig_spec hx
    rw [← hq.rem]
    exact ⟨_, hp.1, hq.step2rankToOrigrank hn hx, (table_sendto_none hq hp.1).2 hp, hnew⟩
  · obtain ⟨hlt, horig⟩ := hq.new_spec ((table_sendto_none hq hr).1 hp)
    rw [← hq.rem]
    exact ⟨hlt, (hq.step2rankToOrigrank hn hlt).trans (congrArg some horig)⟩
  · obtain ⟨s, hs, hsp, hrev⟩ := table_reverse hq hpar hn ((table_sendto_none hq hr).1 hp)
    exact ⟨s, hs, (table_sendto_none hq hs).2 hsp, hrev⟩

end all

/-- What the ranks compute is one schedule for all of them, exactly if no product overflows. -/
theorem recexch_consistent {nranks k : Nat} (hn : 1 ≤ nranks) (hk : 2 ≤ k) :
    (∃ k' p log T nb, Consistent nranks k k' p log T nb) ↔ NoOverflow nranks k := by
  have hk' : 2 ≤ reduceK nranks k := two_le_reduceK hk
  constructor
  · rintro ⟨k', p, log, T, nb, hc⟩
    obtain ⟨q, hpar, -⟩ := bind_eq_some_iff.1 (hc.defined 0 hn)
    exact le_of_params hk' hn hpar
  · rintro ⟨hmax, hrem⟩
    obtain ⟨q, hpar, hq⟩ := params_spec hk' hn hmax hrem
    have hp : q.pOfK * reduceK nranks k ≤ intMax := by
      have hlog : q.logPOfK = Nat.log (reduceK nranks k) nranks := by
        refine (Nat.log_eq_of_pow_le_of_lt_pow ?_ ?_).symm
        · rw [← hq.pow]
          exact hq.le
        · rw [pow_succ, ← hq.pow]
          exact hq.lt
      rwa [hq.pow, hlog]
    exact ⟨_, _, _, _, _, consistent_table hq rfl hpar hp⟩

/-- Eleven ranks and base 3: nine of them take part, and ranks 0 and 1 send to rank 2. -/
theorem recexch_consistent_eleven : NoOverflow 11 3 ∧
    ∃ k' p log T nb, Consistent 11 3 k' p log T nb := by
  have hlog : Nat.log 3 11 = 2 := Nat.log_eq_of_pow_le_of_lt_pow (by decide) (by decide)
  have hfit : NoOverflow 11 3 := by
    show 3 ^ Nat.log 3 11 * 3 ≤ intMax ∧ (11 - 3 ^ Nat.log 3 11) * 3 ≤ intMax
    rw [hlog]
    decide
  exact ⟨hfit, (recexch_consistent (by decide) (by decide)).2 hfit⟩

/-- Base 50000 with 60000 ranks: the loop for the power of `k` computes the square of the base, which
does not fit into an `int`. -/
theorem recexch_overflow : ¬ ∃ k' p log T nb, Consistent 60000 50000 k' p log T nb := by
  rintro ⟨k', p, log, T, nb, hc⟩
  have hnone : getNeighbors 0 60000 50000 = none := by decide
  have hsome := hc.defined 0 (by decide)
  rw [hnone] at hsome
  cases hsome

end PsMpi.Coll.Recexch
