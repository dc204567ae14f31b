import Mathlib.Tactic.Linarith
import Mathlib.Tactic.Ring

/-!
# Partitioned requests and the ranges of their sub-messages
-/

namespace PsMpi.Part

/-- `MPID_DEV_Request_partitioned` (`mpidpre.h:534`). -/
structure PartReq where
  partitions : Nat
  count : Nat
  requests : Nat
  partPerReq : Nat

namespace PartReq

/-- `MPID_PSP_part_init_common` (`mpid_part.c:770`),
`MPID_part_distribute_partitions_to_requests` (:609). -/
def init (partitions count : Nat) : PartReq :=
  ⟨partitions, count, partitions, partitions / partitions⟩

/-- `MPID_part_check_num_requests` (:428). -/
def checkNumRequests (req : PartReq) (numPeerRequests : Nat) : PartReq :=
  if req.requests ≠ numPeerRequests then
    let minRequests := min req.requests numPeerRequests
    let perReq := req.partitions / minRequests
    { req with
      requests := minRequests
      partPerReq := if req.partitions % minRequests > 0 then perReq + 1 else perReq }
  else
    req

structure Range where
  offset : Int
  elements : Int
  deriving DecidableEq

def Range.Has (r : Range) (e : Int) : Prop := r.offset ≤ e ∧ e < r.offset + r.elements

/-- The elements of sub-message `i` at the receiver: the offset is computed before the last
sub-message takes the rest. `MPID_part_issue_data_recv` (:124-142). -/
def recvRange (req : PartReq) (i : Nat) : Range :=
  let elements : Int := req.count * req.partPerReq
  let offset := i * elements
  if (i : Int) = req.requests - 1 then
    ⟨offset, req.count * req.partitions - i * elements⟩
  else
    ⟨offset, elements⟩

/-- The elements of sub-message `reqIdx` at the sender: the last sub-message takes the rest, and
its offset is computed from that. `MPID_part_issue_data_send`
(:239-250). -/
def sendRange (req : PartReq) (reqIdx : Nat) : Range :=
  let elements : Int := req.count * req.partPerReq
  let elements :=
    if (reqIdx : Int) = req.requests - 1 then req.count * req.partitions - reqIdx * elements
    else elements
  ⟨reqIdx * elements, elements⟩

end PartReq

/-- The requests of the two sides after the handshake: the receiver adapts to the SEND_INIT
message and the sender to the CTS message. `MPID_do_recv_part_send_init`
(:467), `MPID_do_recv_part_cts` (:541). -/
def handshake (sreq rreq : PartReq) : PartReq × PartReq :=
  let rreq := rreq.checkNumRequests sreq.requests
  (sreq.checkNumRequests rreq.requests, rreq)

/-- The sub-messages of the two sides cover the same ranges, no range is negative, no two overlap,
and together they cover the elements `0` to `total - 1`. -/
structure SubMessagesAgree (sreq rreq : PartReq) (total : Int) : Prop where
  requests : sreq.requests = rreq.requests
  same : ∀ i < rreq.requests, sreq.sendRange i = rreq.recvRange i
  nonneg : ∀ i < rreq.requests, 0 ≤ (rreq.recvRange i).elements
  disjoint : ∀ i < rreq.requests, ∀ j < rreq.requests, ∀ e,
    (rreq.recvRange i).Has e → (rreq.recvRange j).Has e → i = j
  cover : ∀ e, (0 ≤ e ∧ e < total) ↔ ∃ i < rreq.requests, (rreq.recvRange i).Has e

namespace PartReq

variable {p c q : Nat}

theorem checkNumRequests_init_of_le (hp : 0 < p) (h : p ≤ q) :
    (init p c).checkNumRequests q = ⟨p, c, p, 1⟩ := by
  unfold checkNumRequests init
  split
  · simp [min_eq_left h, Nat.div_self hp]
  · simp [Nat.div_self hp]

theorem checkNumRequests_init_of_lt (h : q < p) :
    (init p c).checkNumRequests q =
      ⟨p, c, q, if p % q > 0 then p / q + 1 else p / q⟩ := by
  unfold checkNumRequests init
  rw [if_pos (show p ≠ q by omega)]
  simp [min_eq_right h.le]

theorem mul_ceil_eq_iff (hq : 0 < q) :
    q * (if p % q > 0 then p / q + 1 else p / q) = p ↔ q ∣ p := by
  have hdm := Nat.div_add_mod p q
  have hlt := Nat.mod_lt p hq
  rw [Nat.dvd_iff_mod_eq_zero]
  split
  · rw [Nat.mul_add]; omega
  · omega

variable {k m i j : Nat}

theorem last_elements (hp : k * m = p) (hi : (i : Int) = (k : Int) - 1) :
    (c : Int) * p - i * (c * m) = c * m := by
  rw [hi, ← hp]
  push_cast
  ring

theorem recvRange_of_dvd (hp : k * m = p) :
    (⟨p, c, k, m⟩ : PartReq).recvRange i = ⟨i * (c * m), c * m⟩ := by
  simp only [recvRange]
  split
  · rw [last_elements hp (by assumption)]
  · rfl

theorem sendRange_of_dvd (hp : k * m = p) :
    (⟨p, c, k, m⟩ : PartReq).sendRange i = ⟨i * (c * m), c * m⟩ := by
  simp only [sendRange]
  split
  · rw [last_elements hp (by assumption)]
  · rfl

end PartReq

section
variable {i j k : Nat} {l e : Int}

theorem block_unique (hi : i * l ≤ e ∧ e < i * l + l) (hj : j * l ≤ e ∧ e < j * l + l) :
    i = j := by
  have hl : 0 < l := by omega
  have key : ∀ a b : Nat, a * l ≤ e → e < b * l + l → a ≤ b := by
    intro a b ha hb
    by_contra hlt
    have hab : (b : Int) + 1 ≤ a := by omega
    have := mul_le_mul_of_nonneg_right hab hl.le
    rw [add_mul, one_mul] at this
    omega
  exact le_antisymm (key i j hi.1 hj.2) (key j i hj.1 hi.2)

theorem block_cover (hl : 0 < l) :
    (0 ≤ e ∧ e < k * l) ↔ ∃ i < k, (i : Int) * l ≤ e ∧ e < i * l + l := by
  constructor
  · rintro ⟨h0, hk⟩
    have hdiv := Int.mul_ediv_add_emod e l
    have hmod := Int.emod_lt_of_pos e hl
    have hmod0 := Int.emod_nonneg e hl.ne'
    have hq : 0 ≤ e / l := Int.ediv_nonneg h0 hl.le
    have hqk : e / l < k := Int.ediv_lt_of_lt_mul hl hk
    refine ⟨(e / l).toNat, by omega, ?_⟩
    rw [Int.toNat_of_nonneg hq, mul_comm]
    omega
  · rintro ⟨i, hi, h1, h2⟩
    have h0 : 0 ≤ (i : Int) * l := mul_nonneg (by omega) hl.le
    have hik : ((i : Int) + 1) * l ≤ k * l :=
      mul_le_mul_of_nonneg_right (by omega) hl.le
    rw [add_mul, one_mul] at hik
    omega

end

theorem subMessagesAgree_of_dvd {ps cs pr cr k ms mr : Nat} (hk : 0 < k) (hs : k * ms = ps)
    (hr : k * mr = pr) (ht : ps * cs = pr * cr) (hpos : 0 < ps * cs) :
    SubMessagesAgree ⟨ps, cs, k, ms⟩ ⟨pr, cr, k, mr⟩ (ps * cs) := by
  have hl : cs * ms = cr * mr := by
    have : k * (cs * ms) = k * (cr * mr) := by
      calc k * (cs * ms) = k * ms * cs := by ring
        _ = k * mr * cr := by rw [hs, hr, ht]
        _ = k * (cr * mr) := by ring
    exact Nat.eq_of_mul_eq_mul_left hk this
  have htot : (ps : Int) * cs = k * (cr * mr) := by
    rw [← hs]; push_cast
    have : (cs : Int) * ms = cr * mr := by exact_mod_cast hl
    rw [← this]; ring
  have hlpos : (0 : Int) < cr * mr := by
    have h0 : (0 : Int) < k * (cr * mr) := by rw [← htot]; exact_mod_cast hpos
    exact (mul_pos_iff_of_pos_left (by exact_mod_cast hk)).1 h0
  have hli : (cs : Int) * ms = cr * mr := by exact_mod_cast hl
  refine ⟨rfl, fun i _ => ?_, fun i _ => ?_, fun i _ j _ e hi hj => ?_, fun e => ?_⟩
  · rw [PartReq.sendRange_of_dvd hs, PartReq.recvRange_of_dvd hr, hli]
  · rw [PartReq.recvRange_of_dvd hr]; exact hlpos.le
  · rw [PartReq.recvRange_of_dvd hr] at hi hj
    exact block_unique hi hj
  · rw [htot, block_cover hlpos]
    simp only [PartReq.recvRange_of_dvd hr, PartReq.Range.Has]

theorem SubMessagesAgree.first {ps cs pr cr k ms mr : Nat} {t : Int} (hk : 1 < k)
    (h : SubMessagesAgree ⟨ps, cs, k, ms⟩ ⟨pr, cr, k, mr⟩ t) : cs * ms = cr * mr := by
  have h0 := h.same 0 (by simp only; omega)
  have hne : ¬ ((0 : Nat) : Int) = (k : Int) - 1 := by omega
  simp only [PartReq.sendRange, PartReq.recvRange, if_neg hne, PartReq.Range.mk.injEq] at h0
  exact_mod_cast h0.2

/-- The sub-messages of the two sides cover the same ranges and tile the buffer exactly if the
number of partitions of one side divides that of the other. -/
theorem subMessages_agree_iff (ps cs pr cr : Nat) (ht : ps * cs = pr * cr) (hpos : 0 < ps * cs) :
    SubMessagesAgree (handshake (.init ps cs) (.init pr cr)).1
        (handshake (.init ps cs) (.init pr cr)).2 (ps * cs) ↔
      ps ∣ pr ∨ pr ∣ ps := by
  have hps : 0 < ps := Nat.pos_of_mul_pos_right hpos
  have hcs : 0 < cs := Nat.pos_of_mul_pos_left hpos
  have hpr : 0 < pr := Nat.pos_of_mul_pos_right (ht ▸ hpos)
  have hcr : 0 < cr := Nat.pos_of_mul_pos_left (ht ▸ hpos)
  have hreq : (PartReq.init ps cs).requests = ps := rfl
  simp only [handshake, hreq]
  rcases lt_or_ge ps pr with hlt | hle
  · -- the receiver puts several of its partitions into one sub-message
    rw [PartReq.checkNumRequests_init_of_lt hlt,
      PartReq.checkNumRequests_init_of_le hps le_rfl]
    constructor
    · intro h
      rcases Nat.eq_or_lt_of_le (Nat.one_le_of_lt hps) with h1 | h1
      · exact .inl (h1 ▸ one_dvd pr)
      · refine .inl ((PartReq.mul_ceil_eq_iff hps).1 ?_)
        have hf := h.first h1
        rw [mul_one] at hf
        rw [hf, mul_comm cr, ← mul_assoc] at ht
        exact Nat.eq_of_mul_eq_mul_right hcr ht
    · intro h
      have hd : ps ∣ pr := h.elim id fun hd => absurd (Nat.le_of_dvd hps hd) (by omega)
      exact subMessagesAgree_of_dvd hps (mul_one ps) ((PartReq.mul_ceil_eq_iff hps).2 hd) ht hpos
  · rw [PartReq.checkNumRequests_init_of_le hpr hle]
    rcases Nat.eq_or_lt_of_le hle with heq | hlt
    · subst heq
      rw [PartReq.checkNumRequests_init_of_le hpr le_rfl]
      exact iff_of_true
        (subMessagesAgree_of_dvd hpr (mul_one _) (mul_one _) ht hpos) (.inl dvd_rfl)
    -- the sender puts several of its partitions into one sub-message
    rw [PartReq.checkNumRequests_init_of_lt hlt]
    constructor
    · intro h
      rcases Nat.eq_or_lt_of_le (Nat.one_le_of_lt hpr) with h1 | h1
      · exact .inr (h1 ▸ one_dvd ps)
      · refine .inr ((PartReq.mul_ceil_eq_iff hpr).1 ?_)
        have hf := h.first h1
        rw [mul_one] at hf
        rw [← hf, mul_comm cs, ← mul_assoc] at ht
        exact (Nat.eq_of_mul_eq_mul_right hcs ht).symm
    · intro h
      have hd : pr ∣ ps := h.elim (fun hd => absurd (Nat.le_of_dvd hpr hd) (by omega)) id
      exact subMessagesAgree_of_dvd hpr ((PartReq.mul_ceil_eq_iff hpr).2 hd) (mul_one pr) ht hpos

theorem subMessages_agree_four_two :
    SubMessagesAgree (handshake (.init 4 3) (.init 2 6)).1 (handshake (.init 4 3) (.init 2 6)).2
      ((4 : Nat) * (3 : Nat)) :=
  (subMessages_agree_iff 4 3 2 6 (by decide) (by decide)).2 (.inr ⟨2, rfl⟩)

/-- Three partitions of two elements meet two partitions of three: the sender puts four elements
into the first sub-message and the receiver expects three. -/
theorem subMessages_three_two_disagree :
    ¬ ∀ ps cs pr cr : Nat, ps * cs = pr * cr → 0 < ps * cs →
      SubMessagesAgree (handshake (.init ps cs) (.init pr cr)).1
        (handshake (.init ps cs) (.init pr cr)).2 (ps * cs) := by
  intro hall
  have h := (hall 3 2 2 3 (by decide) (by decide)).same 0 (by decide)
  exact absurd h (by decide)

end PsMpi.Part
