import PsMpi.Rma.Account
import Mathlib.Algebra.Order.BigOperators.Group.List

/-!
# The account of one origin at one target
-/

open List

namespace PsMpi.Rma

def CtrlPhase.handled : CtrlPhase → Int
  | .handling rmaOpCounter => rmaOpCounter
  | _ => 0

def CtrlPhase.pending : CtrlPhase → Bool
  | .requested _ | .handling _ | .answered => true
  | .idle | .flushed => false

namespace Pair

def applied (p : Pair) : Int := p.issued - p.flight.length

def announced (p : Pair) : Int := (p.completes.map (·.rmaOpCounter)).sum

structure Ok (p : Pair) (owed src : Int) (access exposure : Nat) (w : Option Complete) : Prop where
  lt : ∀ k ∈ p.flight, k < p.issued
  nodup : p.flight.Nodup
  source : src = p.accounted + p.ctrl.handled - p.applied
  balance : p.issued = p.accounted + p.announced + owed
  owed_nonneg : 0 ≤ owed
  handling : ∀ m, p.ctrl = .handling m → m = owed ∧ p.announced = 0
  tokens : p.posts + access + p.completes.length = exposure
  exposure_le : exposure ≤ 1
  sent : ∀ c ∈ p.completes, 0 ≤ c.rmaOpCounter ∧ c.mark ≤ p.accounted + c.rmaOpCounter ∧
    (0 < c.rmaOpCounter → owed = 0)
  waits : ∀ c ∈ w, exposure = 0 ∧ 0 ≤ c.rmaOpCounter ∧ c.mark ≤ p.accounted ∧
    (0 < c.rmaOpCounter → owed = 0)
  settled : (∀ c ∈ w, c.rmaOpCounter = 0) → ∀ k ∈ p.flight, p.accounted ≤ k

variable {p : Pair} {owed src : Int} {access exposure : Nat} {w : Option Complete}

theorem Ok.init : Ok ⟨0, [], 0, .idle, 0, []⟩ 0 0 0 0 none := by
  constructor <;> simp [applied, announced, CtrlPhase.handled]

theorem Ok.announced_nonneg (h : p.Ok owed src access exposure w) : 0 ≤ p.announced :=
  sum_nonneg fun x hx => by
    obtain ⟨c, hc, rfl⟩ := mem_map.1 hx
    exact (h.sent c hc).1

theorem Ok.completes_eq_nil (h : p.Ok owed src access 0 w) : p.completes = [] := by
  have := h.tokens
  exact length_eq_zero_iff.1 (by omega)

theorem Ok.waits_eq_none (h : p.Ok owed src access exposure w) (he : exposure ≠ 0) : w = none := by
  cases w with
  | none => rfl
  | some c => exact absurd (h.waits c rfl).1 he

theorem Ok.source_eq (h : p.Ok owed src access exposure w) :
    src = p.flight.length - p.announced - owed + p.ctrl.handled := by
  have h1 := h.source
  have h2 := h.balance
  unfold applied at h1
  omega

/-! ## Operations -/

theorem Ok.issue (h : p.Ok owed src access exposure w) (hctrl : p.ctrl = .idle)
    (hs : ∀ c ∈ p.completes, c.rmaOpCounter = 0) (hw : ∀ c ∈ w, c.rmaOpCounter = 0) :
    Ok { p with issued := p.issued + 1, flight := p.flight ++ [p.issued] } (owed + 1) src access
      exposure w where
  lt k hk := by
    rcases mem_append.1 hk with hk | hk
    · exact Nat.lt_succ_of_lt (h.lt k hk)
    · rw [mem_singleton.1 hk]; exact Nat.lt_succ_self _
  nodup := by
    refine nodup_append.2 ⟨h.nodup, nodup_singleton _, fun a ha b hb hab => ?_⟩
    rw [mem_singleton.1 hb] at hab
    exact Nat.lt_irrefl _ (hab ▸ h.lt a ha)
  source := by
    have := h.source
    simp only [applied, length_append, length_singleton] at this ⊢
    omega
  balance := by
    have := h.balance
    simp only [announced] at this ⊢
    omega
  owed_nonneg := by
    have := h.owed_nonneg
    omega
  handling m hm := by simp [hctrl] at hm
  tokens := h.tokens
  exposure_le := h.exposure_le
  sent c hc := by
    obtain ⟨h1, h2, -⟩ := h.sent c hc
    exact ⟨h1, h2, fun hpos => by rw [hs c hc] at hpos; exact absurd hpos (by decide)⟩
  waits c hc := by
    obtain ⟨h1, h2, h3, -⟩ := h.waits c hc
    exact ⟨h1, h2, h3, fun hpos => by rw [hw c hc] at hpos; exact absurd hpos (by decide)⟩
  settled hc k hk := by
    rcases mem_append.1 hk with hk | hk
    · exact h.settled hc k hk
    · rw [mem_singleton.1 hk]
      have h1 := h.balance
      have h2 := h.owed_nonneg
      have h3 := h.announced_nonneg
      show p.accounted ≤ (p.issued : Int)
      omega

theorem Ok.arrive (h : p.Ok owed src access exposure w) {k : Nat} (hk : k ∈ p.flight) :
    Ok { p with flight := p.flight.erase k } owed (src - 1) access exposure w where
  lt j hj := h.lt j (mem_of_mem_erase hj)
  nodup := h.nodup.erase k
  source := by
    have h1 := h.source
    have h2 := length_erase_of_mem hk
    have h3 := length_pos_of_mem hk
    simp only [applied] at h1 ⊢
    omega
  balance := h.balance
  owed_nonneg := h.owed_nonneg
  handling := h.handling
  tokens := h.tokens
  exposure_le := h.exposure_le
  sent := h.sent
  waits := h.waits
  settled hc j hj := h.settled hc j (mem_of_mem_erase hj)

/-! ## Requests -/

theorem Ok.setCtrl (h : p.Ok owed src access exposure w) {c : CtrlPhase}
    (hp : p.ctrl.handled = 0) (hc : ∀ m, c ≠ .handling m) :
    Ok { p with ctrl := c } owed src access exposure w where
  lt := h.lt
  nodup := h.nodup
  source := by
    have h1 := h.source
    have h2 : c.handled = 0 := by cases c <;> first | rfl | exact absurd rfl (hc _)
    rw [hp] at h1
    rw [h2]
    exact h1
  balance := h.balance
  owed_nonneg := h.owed_nonneg
  handling m hm := absurd hm (hc m)
  tokens := h.tokens
  exposure_le := h.exposure_le
  sent := h.sent
  waits := h.waits
  settled := h.settled

theorem Ok.ctrlBegin (h : p.Ok owed src access exposure w) (hctrl : p.ctrl = .requested owed)
    (hs : ∀ c ∈ p.completes, c.rmaOpCounter = 0) :
    Ok { p with ctrl := .handling owed } owed (src + owed) access exposure w where
  lt := h.lt
  nodup := h.nodup
  source := by
    have h1 := h.source
    simp only [hctrl, CtrlPhase.handled, applied] at h1 ⊢
    omega
  balance := h.balance
  owed_nonneg := h.owed_nonneg
  handling m hm := by
    cases hm
    exact ⟨rfl, sum_eq_zero (by simpa using hs)⟩
  tokens := h.tokens
  exposure_le := h.exposure_le
  sent := h.sent
  waits := h.waits
  settled := h.settled

theorem Ok.flight_eq_nil (h : p.Ok owed 0 access exposure w) {m : Int} (hctrl : p.ctrl = .handling m) :
    p.flight = [] := by
  obtain ⟨rfl, ha⟩ := h.handling m hctrl
  have h1 := h.source_eq
  simp only [hctrl, CtrlPhase.handled, ha] at h1
  exact length_eq_zero_iff.1 (by omega)

theorem Ok.ctrlEnd (h : p.Ok owed 0 access exposure w) {m : Int} (hctrl : p.ctrl = .handling m) :
    Ok { p with ctrl := .answered, accounted := p.accounted + m } 0 0 access exposure w := by
  have hf := h.flight_eq_nil hctrl
  obtain ⟨rfl, ha⟩ := h.handling m hctrl
  have hb := h.balance
  have hn := h.owed_nonneg
  refine ⟨h.lt, h.nodup, ?_, ?_, Int.le_refl 0, nofun, h.tokens, h.exposure_le, ?_, ?_, ?_⟩
  · have h1 := h.source
    simp only [hctrl, CtrlPhase.handled, applied] at h1 ⊢
    omega
  · simp only [announced] at hb ⊢
    omega
  · intro c hc
    obtain ⟨h1, h2, -⟩ := h.sent c hc
    exact ⟨h1, by show (c.mark : Int) ≤ p.accounted + m + c.rmaOpCounter; omega, fun _ => rfl⟩
  · intro c hc
    obtain ⟨h1, h2, h3, -⟩ := h.waits c hc
    exact ⟨h1, h2, by show (c.mark : Int) ≤ p.accounted + m; omega, fun _ => rfl⟩
  · intro _ k hk
    rw [show p.flight = [] from hf] at hk
    exact absurd hk not_mem_nil

/-! ## Exposure and access epochs -/

theorem Ok.post (h : p.Ok owed src access 0 none) :
    Ok { p with posts := p.posts + 1 } owed src access 1 none where
  lt := h.lt
  nodup := h.nodup
  source := h.source
  balance := h.balance
  owed_nonneg := h.owed_nonneg
  handling := h.handling
  tokens := by
    have h1 := h.tokens
    show p.posts + 1 + access + p.completes.length = 1
    omega
  exposure_le := Nat.le_refl 1
  sent := h.sent
  waits := nofun
  settled := h.settled

theorem Ok.start (h : p.Ok owed src 0 exposure w) (hp : 0 < p.posts) :
    Ok { p with posts := p.posts - 1 } owed src 1 exposure w where
  lt := h.lt
  nodup := h.nodup
  source := h.source
  balance := h.balance
  owed_nonneg := h.owed_nonneg
  handling := h.handling
  tokens := by
    have h1 := h.tokens
    show p.posts - 1 + 1 + p.completes.length = exposure
    omega
  exposure_le := h.exposure_le
  sent := h.sent
  waits := h.waits
  settled := h.settled

theorem Ok.of_access (h : p.Ok owed src access exposure w) (ha : 0 < access) :
    access = 1 ∧ exposure = 1 ∧ p.completes = [] ∧ w = none := by
  have h1 := h.tokens
  have h2 := h.exposure_le
  have h3 : exposure = 1 := by omega
  exact ⟨by omega, h3, length_eq_zero_iff.1 (by omega), h.waits_eq_none (by omega)⟩

theorem Ok.complete (h : p.Ok owed src access exposure w) (ha : 0 < access)
    (hctrl : p.ctrl = .idle) :
    Ok { p with completes := p.completes ++ [⟨owed, p.issued⟩] } 0 src 0 exposure w := by
  obtain ⟨rfl, rfl, hc, rfl⟩ := h.of_access ha
  have hb := h.balance
  rw [show p.announced = 0 by simp [announced, hc]] at hb
  refine ⟨h.lt, h.nodup, h.source, ?_, Int.le_refl 0, ?_, ?_, Nat.le_refl 1, ?_, nofun, h.settled⟩
  · simp only [announced, hc, nil_append, map_cons, map_nil, sum_cons,
      sum_nil]
    omega
  · intro m hm
    simp [hctrl] at hm
  · have h1 := h.tokens
    simp only [hc, nil_append, length_singleton, length_nil] at h1 ⊢
    omega
  · intro c hmem
    simp only [hc, nil_append, mem_singleton] at hmem
    subst hmem
    exact ⟨h.owed_nonneg, Int.le_of_eq (by simpa using hb), fun _ => rfl⟩

theorem Ok.recvComplete (h : p.Ok owed src access exposure w) {c : Complete} {cs : List Complete}
    (hc : p.completes = c :: cs) :
    Ok { p with completes := cs, accounted := p.accounted + c.rmaOpCounter } owed
      (src + c.rmaOpCounter) access (exposure - 1) (some c) := by
  have ht := h.tokens
  have he := h.exposure_le
  rw [hc, length_cons] at ht
  obtain rfl : cs = [] := length_eq_zero_iff.1 (by omega)
  obtain rfl : exposure = 1 := by simp only [length_nil] at ht; omega
  obtain rfl := h.waits_eq_none (by decide)
  obtain ⟨hn, hm, ho⟩ := h.sent c (by simp [hc])
  have hb := h.balance
  simp only [announced, hc, map_cons, map_nil, sum_cons, sum_nil] at hb
  refine ⟨h.lt, h.nodup, ?_, ?_, h.owed_nonneg, ?_, ?_, by decide, nofun, ?_, ?_⟩
  · have h1 := h.source
    simp only [applied] at h1 ⊢
    omega
  · simp only [announced, map_nil, sum_nil]
    omega
  · intro m hm
    exact ⟨(h.handling m hm).1, rfl⟩
  · simp only [length_nil] at ht ⊢
    omega
  · rintro _ ⟨⟩
    exact ⟨rfl, hn, hm, ho⟩
  · intro h0 k hk
    have h1 := h.settled nofun k hk
    have h2 := h0 c rfl
    show p.accounted + c.rmaOpCounter ≤ k
    omega

theorem Ok.waitNext (h : p.Ok owed 0 access exposure w) {c : Complete} (hw : w = some c) :
    Ok p owed 0 access exposure none ∧ ∀ k ∈ p.flight, c.mark ≤ k := by
  subst hw
  obtain ⟨rfl, hn, hm, ho⟩ := h.waits c rfl
  -- the accounted operations have arrived: all of them did if the message announces any
  have hacc : ∀ k ∈ p.flight, p.accounted ≤ k := by
    intro k hk
    by_cases h0 : c.rmaOpCounter = 0
    · exact h.settled (by rintro _ ⟨⟩; exact h0) k hk
    · have hz : owed = 0 := ho (by omega)
      have ha : p.announced = 0 := by simp [announced, h.completes_eq_nil]
      have hh : p.ctrl.handled = 0 := by
        cases hc : p.ctrl <;> try rfl
        exact (h.handling _ hc).1.trans hz
      have h1 := h.source_eq
      have h2 := length_pos_of_mem hk
      omega
  refine ⟨⟨h.lt, h.nodup, h.source, h.balance, h.owed_nonneg, h.handling, h.tokens, h.exposure_le,
    h.sent, nofun, fun _ => hacc⟩, fun k hk => ?_⟩
  have := hacc k hk
  omega

/-! ## Fences -/

theorem Ok.fenceReset (h : p.Ok owed src access 0 none) (hctrl : p.ctrl = .idle)
    (hf : p.flight = []) :
    Ok { p with accounted := p.accounted + owed } 0 0 access 0 none := by
  have hb := h.balance
  have hc := h.completes_eq_nil
  have ha : p.announced = 0 := by simp [announced, hc]
  refine ⟨h.lt, h.nodup, ?_, ?_, Int.le_refl 0, ?_, h.tokens, h.exposure_le, ?_, nofun, ?_⟩
  · simp only [hctrl, CtrlPhase.handled, applied, hf, length_nil]
    omega
  · simp only [announced] at ha hb ⊢
    omega
  · intro m hm
    simp [hctrl] at hm
  · intro c hmem
    simp [hc] at hmem
  · intro _ k hk
    simp [hf] at hk

end Pair

end PsMpi.Rma
