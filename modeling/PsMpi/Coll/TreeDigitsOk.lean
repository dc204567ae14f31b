import PsMpi.Coll.TreeKaryOk
import Mathlib.Data.Nat.Find
import Mathlib.Data.Nat.Size

/-!
# K-nomial trees of the second kind are spanning trees
-/

open PsMpi.Lib List Option

namespace PsMpi.Coll

/-! ## Powers -/

section powers

variable {k e f b r v : Nat}

def PowFits (k e : Nat) : Prop := k ^ 2 ^ Nat.size e ≤ intMax

theorem powFits_of_lt {s : Nat} (hk : 1 ≤ k) (he : e < 2 ^ s) (h : k ^ 2 ^ s ≤ intMax) :
    PowFits k e :=
  Nat.le_trans (Nat.pow_le_pow_right hk
    (Nat.pow_le_pow_right (by decide) (Nat.size_le.2 he))) h

theorem size_half (he : e ≠ 0) : Nat.size e = Nat.size (e / 2) + 1 := by
  have h := Nat.size_bit (b := e.bodd) (n := e.div2) (by rwa [Nat.bit_bodd_div2])
  rwa [Nat.bit_bodd_div2, Nat.div2_val] at h

theorem square_pow (b s : Nat) : b ^ 2 ^ (s + 1) = (b * b) ^ 2 ^ s := by
  rw [Nat.pow_succ, Nat.mul_comm, Nat.pow_mul, Nat.pow_two]

theorem ipowLoop_of_fits (hb : 1 ≤ b) (hr : r ≤ b) (hfit : PowFits b e) (hf : e ≤ f) :
    ipowLoop f b e r = some (r * b ^ e) := by
  induction f generalizing b e r with
  | zero =>
    obtain rfl : e = 0 := by omega
    simp [ipowLoop]
  | succ f ih =>
    unfold ipowLoop
    by_cases he : e = 0
    · simp [he]
    rw [if_neg he]
    have hsq : PowFits (b * b) (e / 2) := by
      unfold PowFits at hfit ⊢
      rwa [size_half he, square_pow] at hfit
    have hbb : b * b ≤ intMax :=
      Nat.le_trans (Nat.le_self_pow (Nat.two_pow_pos _).ne' _) hsq
    have hone : 1 ≤ b * b := Nat.mul_pos hb hb
    have hhalf : e / 2 ≤ f := by omega
    have hpow : (b * b) ^ (e / 2) * b ^ (e % 2) = b ^ e := by
      rw [← Nat.pow_two, ← Nat.pow_mul, ← Nat.pow_add, Nat.div_add_mod]
    dsimp only
    rw [mulInt_of_le hbb]
    by_cases hodd : e % 2 = 1
    · have hrb : r * b ≤ b * b := Nat.mul_le_mul_right b hr
      rw [if_pos hodd, mulInt_of_le (Nat.le_trans hrb hbb)]
      refine (ih hone hrb hsq hhalf).trans ?_
      rw [← hpow, hodd, Nat.pow_one, Nat.mul_assoc, Nat.mul_comm b]
    · have hrb : r ≤ b * b := Nat.le_trans hr (Nat.le_mul_of_pos_left b hb)
      rw [if_neg hodd]
      refine (ih hone hrb hsq hhalf).trans ?_
      rw [← hpow, show e % 2 = 0 by omega, Nat.pow_zero, Nat.mul_one]

theorem powFits_of_ipowLoop (h : ipowLoop f b e r = some v) : e = 0 ∨ PowFits b e := by
  induction f generalizing b e r with
  | zero =>
    unfold ipowLoop at h
    split at h
    · exact .inl ‹_›
    · cases h
  | succ f ih =>
    unfold ipowLoop at h
    by_cases he : e = 0
    · exact .inl he
    rw [if_neg he] at h
    obtain ⟨r', -, h⟩ := bind_eq_some_iff.1 h
    obtain ⟨b', hb', h⟩ := bind_eq_some_iff.1 h
    obtain ⟨hle, rfl⟩ := mulInt_eq_some.1 hb'
    refine .inr ?_
    unfold PowFits
    rw [size_half he, square_pow]
    rcases ih h with h0 | hfit
    · rw [h0, Nat.size_zero, Nat.pow_zero, Nat.pow_one]
      exact hle
    · exact hfit

theorem ipow_of_fits (hk : 1 ≤ k) (h : PowFits k e) : ipow k e = some (k ^ e) := by
  rw [ipow, ipowLoop_of_fits hk hk h (Nat.le_refl e), Nat.one_mul]

theorem powFits_of_ipow (hk : k ≤ intMax) (h : ipow k e = some v) : PowFits k e := by
  rcases powFits_of_ipowLoop h with rfl | hfit
  · unfold PowFits
    rwa [Nat.size_zero, Nat.pow_zero, Nat.pow_one]
  · exact hfit

theorem PowFits.mono (hk : 1 ≤ k) (h : PowFits k e) (hf : f ≤ e) : PowFits k f :=
  Nat.le_trans (Nat.pow_le_pow_right hk (Nat.pow_le_pow_right (by decide) (Nat.size_le_size hf))) h

theorem PowFits.pow_le (hk : 1 ≤ k) (h : PowFits k e) : k ^ (e + 1) ≤ intMax :=
  Nat.le_trans (Nat.pow_le_pow_right hk (Nat.lt_size_self e)) h

end powers

/-! ## Lists of children -/

section push

variable {n root c : Nat} {l l' : List Nat}

def pushAll (n root : Nat) (l : List Nat) : Option (List Nat) :=
  (l.filter (· < n)).mapM (globalRank n root)

theorem childIf_eq : childIf n root c = pushAll n root [c] := by
  unfold childIf pushAll
  by_cases hc : c < n
  · rw [if_pos hc, filter_cons_of_pos (by simpa using hc), filter_nil, mapM_cons,
      mapM_nil]
    cases globalRank n root c <;> rfl
  · rw [if_neg hc, filter_cons_of_neg (by simpa using hc), filter_nil]
    rfl

theorem pushAll_append : pushAll n root (l ++ l') =
    (pushAll n root l).bind fun a => (pushAll n root l').bind fun b => some (a ++ b) := by
  rw [pushAll, filter_append, mapM_append]
  rfl

theorem pushAll_cons : pushAll n root (c :: l) =
    (childIf n root c).bind fun a => (pushAll n root l).bind fun b => some (a ++ b) := by
  rw [childIf_eq, ← pushAll_append]
  rfl

end push

/-! ## Digits -/

section digits

variable {n root k x j i d todo : Nat}

theorem getdigit_eq (hk : 1 ≤ k) (h : PowFits k j) : getdigit k x j = some (x / k ^ j % k) := by
  rw [getdigit, ipow_of_fits hk h, map_some]

theorem digit_mul_le : x / k ^ j % k * k ^ j ≤ x :=
  Nat.le_trans (Nat.mul_le_mul_right _ (Nat.mod_le _ _)) (Nat.div_mul_le_self _ _)

theorem setdigit_zero (hk : 1 ≤ k) (h : PowFits k j) (hx : x ≤ intMax) :
    setdigit k x j 0 = some (x - x / k ^ j % k * k ^ j) := by
  have hle := digit_mul_le (k := k) (x := x) (j := j)
  unfold setdigit
  rw [ipow_of_fits hk h, getdigit_eq hk h]
  simp only [bind, Option.bind, mulInt_of_le (Nat.le_trans hle hx),
    mulInt_of_le (show 0 * k ^ j ≤ intMax by omega)]
  rw [Nat.zero_mul, addInt_of_le (by omega)]
  rfl

theorem setdigit_of_zero (hk : 1 ≤ k) (h : PowFits k j) (hx : x / k ^ j % k = 0)
    (hi : x + i * k ^ j ≤ intMax) : setdigit k x j i = some (x + i * k ^ j) := by
  unfold setdigit
  rw [ipow_of_fits hk h, getdigit_eq hk h, hx]
  simp only [bind, Option.bind, mulInt_of_le (show 0 * k ^ j ≤ intMax by omega),
    mulInt_of_le (show i * k ^ j ≤ intMax by omega)]
  rw [Nat.zero_mul, Nat.sub_zero, addInt_of_le hi]

theorem digits_zero : (∀ l < j, x / k ^ l % k = 0) ↔ x % k ^ j = 0 := by
  induction j with
  | zero => simp [Nat.mod_one]
  | succ j ih =>
    rw [Nat.mod_pow_succ]
    constructor
    · intro h
      rw [ih.1 fun l hl => h l (by omega), h j (Nat.lt_succ_self j), Nat.mul_zero]
    · intro h l hl
      have hzero : x % k ^ j = 0 := (Nat.add_eq_zero_iff.1 h).1
      rcases Nat.lt_succ_iff_lt_or_eq.1 hl with hl | rfl
      · exact ih.2 hzero l hl
      · rcases Nat.eq_zero_or_pos (k ^ l) with hp | hp
        · rcases Nat.eq_zero_or_pos k with rfl | hk
          · rw [hp, Nat.div_zero, Nat.zero_mod]
          · exact absurd hp (Nat.ne_of_gt (Nat.pow_pos hk))
        · rw [hzero, Nat.zero_add] at h
          exact (Nat.mul_eq_zero.1 h).resolve_left (Nat.ne_of_gt hp)

theorem digit_zero_of_mod (h : x % k ^ (j + 1) = 0) : x / k ^ j % k = 0 :=
  digits_zero.2 h j (Nat.lt_succ_self j)

theorem add_digit_lt (hk : 1 ≤ k) (hx : x < k ^ d) (hj : j < d) (hmod : x % k ^ (j + 1) = 0)
    (hi : i < k) : x + i * k ^ j < k ^ d := by
  obtain ⟨z, rfl⟩ := Nat.dvd_of_mod_eq_zero hmod
  have hpow : k ^ d = k ^ (j + 1) * k ^ (d - (j + 1)) := by
    rw [← Nat.pow_add, show j + 1 + (d - (j + 1)) = d by omega]
  rw [hpow] at hx ⊢
  have hz : z + 1 ≤ k ^ (d - (j + 1)) := Nat.lt_of_mul_lt_mul_left hx
  have hlt : i * k ^ j < k ^ (j + 1) := by
    rw [Nat.pow_succ, Nat.mul_comm (k ^ j)]
    exact Nat.mul_lt_mul_of_pos_right hi (Nat.pow_pos hk)
  calc k ^ (j + 1) * z + i * k ^ j < k ^ (j + 1) * z + k ^ (j + 1) := by omega
    _ = k ^ (j + 1) * (z + 1) := (Nat.mul_succ _ _).symm
    _ ≤ _ := Nat.mul_le_mul_left _ hz

/-! ## The parent -/

def cleared (k x : Nat) : Nat → Nat → Option Nat
  | 0, _ => none
  | todo + 1, i =>
    if x / k ^ i % k ≠ 0 then some (x - x / k ^ i % k * k ^ i) else cleared k x todo (i + 1)

theorem clearDigit_eq (hk : 1 ≤ k) (hx : x ≤ intMax) (h : ∀ j < i + todo, PowFits k j) :
    clearDigit n root k x todo i = parentIf n root (cleared k x todo i) := by
  induction todo generalizing i with
  | zero => rfl
  | succ todo ih =>
    have hfit := h i (by omega)
    unfold clearDigit cleared
    rw [getdigit_eq hk hfit]
    simp only [bind, Option.bind]
    by_cases hd : x / k ^ i % k ≠ 0
    · rw [if_pos hd, if_pos hd, setdigit_zero hk hfit hx]
    · rw [if_neg hd, if_neg hd]
      exact ih fun j hj => h j (by omega)

theorem cleared_eq_some {y : Nat} : cleared k x todo i = some y ↔
    ∃ j, i ≤ j ∧ j < i + todo ∧ (∀ l, i ≤ l → l < j → x / k ^ l % k = 0) ∧ x / k ^ j % k ≠ 0 ∧
      x - x / k ^ j % k * k ^ j = y := by
  induction todo generalizing i with
  | zero => exact iff_of_false nofun fun ⟨j, h₁, h₂, _⟩ => by omega
  | succ todo ih =>
    unfold cleared
    by_cases hd : x / k ^ i % k ≠ 0
    · rw [if_pos hd, Option.some.injEq]
      constructor
      · rintro rfl
        exact ⟨i, Nat.le_refl i, by omega, fun l h₁ h₂ => by omega, hd, rfl⟩
      · rintro ⟨j, hij, -, hzero, -, rfl⟩
        rcases Nat.eq_or_lt_of_le hij with rfl | hlt
        · rfl
        · exact absurd (hzero i (Nat.le_refl i) hlt) hd
    · rw [if_neg hd, ih]
      have hd := Decidable.not_not.1 hd
      constructor
      · rintro ⟨j, hij, hj, hzero, hne, rfl⟩
        refine ⟨j, by omega, by omega, fun l h₁ h₂ => ?_, hne, rfl⟩
        rcases Nat.eq_or_lt_of_le h₁ with rfl | hlt
        · exact hd
        · exact hzero l hlt h₂
      · rintro ⟨j, hij, hj, hzero, hne, rfl⟩
        rcases Nat.eq_or_lt_of_le hij with rfl | hlt
        · exact absurd hd hne
        · exact ⟨j, hlt, by omega, fun l h₁ h₂ => hzero l (by omega) h₂, hne, rfl⟩

def digitParent (k d x : Nat) : Option Nat := cleared k x d 0

theorem digitParent_eq_some (hk : 1 ≤ k) {y : Nat} : digitParent k d x = some y ↔
    ∃ j < d, y % k ^ (j + 1) = 0 ∧ ∃ i, 1 ≤ i ∧ i < k ∧ x = y + i * k ^ j := by
  rw [digitParent, cleared_eq_some]
  constructor
  · rintro ⟨j, -, hj, hzero, hne, rfl⟩
    have hmod : x % k ^ j = 0 := digits_zero.1 fun l hl => hzero l (Nat.zero_le l) hl
    have hle := digit_mul_le (k := k) (x := x) (j := j)
    refine ⟨j, by omega, ?_, x / k ^ j % k, by omega, Nat.mod_lt _ hk, by omega⟩
    have hsucc : x % k ^ (j + 1) = x / k ^ j % k * k ^ j := by
      rw [Nat.mod_pow_succ, hmod, Nat.zero_add, Nat.mul_comm]
    rw [← hsucc, Nat.sub_mod_eq_zero_of_mod_eq (Nat.mod_mod _ _).symm]
  · rintro ⟨j, hj, hmod, i, hi, hik, rfl⟩
    have hpos : 0 < k ^ j := Nat.pow_pos hk
    obtain ⟨z, rfl⟩ := Nat.dvd_of_mod_eq_zero hmod
    have hform : k ^ (j + 1) * z + i * k ^ j = (k * z + i) * k ^ j := by
      rw [Nat.pow_succ, Nat.add_mul, Nat.mul_assoc, Nat.mul_comm (k ^ j)]
    have hdigit : (k ^ (j + 1) * z + i * k ^ j) / k ^ j % k = i := by
      rw [hform, Nat.mul_div_cancel _ hpos, Nat.mul_add_mod, Nat.mod_eq_of_lt hik]
    refine ⟨j, Nat.zero_le j, by omega, fun l _ hl => ?_, ?_, ?_⟩
    · refine digits_zero.2 ?_ l hl
      rw [hform, Nat.mul_mod_left]
    · rw [hdigit]
      omega
    · rw [hdigit]
      omega

/-! ## The children -/

theorem flipBits_eq (hk : 1 ≤ k) (h : ∀ m < j + todo, PowFits k m) :
    ∃ l, flipBits k x todo j = some l ∧
      ∀ i, l[i]? = some true ↔ i < todo ∧ ∀ m, j ≤ m → m ≤ j + i → x / k ^ m % k = 0 := by
  induction todo generalizing j with
  | zero => exact ⟨[], rfl, fun i => iff_of_false nofun fun h => nomatch h.1⟩
  | succ todo ih =>
    unfold flipBits
    rw [getdigit_eq hk (h j (by omega))]
    simp only [bind, Option.bind]
    by_cases hd : x / k ^ j % k ≠ 0
    · rw [if_pos hd]
      refine ⟨_, rfl, fun i => iff_of_false (fun hi => ?_) fun hi => ?_⟩
      · exact absurd (eq_of_mem_replicate (mem_of_getElem? hi)) (by decide)
      · exact hd (hi.2 j (Nat.le_refl j) (by omega))
    · obtain ⟨l, hl, hbits⟩ := ih (j := j + 1) fun m hm => h m (by omega)
      rw [if_neg hd, hl]
      have hd := Decidable.not_not.1 hd
      refine ⟨true :: l, rfl, fun i => ?_⟩
      cases i with
      | zero =>
        refine iff_of_true rfl ⟨by omega, fun m h₁ h₂ => ?_⟩
        obtain rfl : m = j := by omega
        exact hd
      | succ i =>
        rw [List.getElem?_cons_succ, hbits]
        constructor
        · rintro ⟨hi, hall⟩
          refine ⟨by omega, fun m h₁ h₂ => ?_⟩
          rcases Nat.eq_or_lt_of_le h₁ with rfl | hlt
          · exact hd
          · exact hall m hlt (by omega)
        · rintro ⟨hi, hall⟩
          exact ⟨by omega, fun m h₁ h₂ => hall m (by omega) (by omega)⟩

def digitCandidates (k x j : Nat) : Nat → List Nat
  | 0 => []
  | i + 1 => (x + (i + 1) * k ^ j) :: digitCandidates k x j i

/-- The numbers with another digit in one of some places behind which there are only digits 0. -/
def candidates (k x : Nat) : Nat → List Nat
  | 0 => []
  | j + 1 =>
    (if x % k ^ (j + 1) = 0 then digitCandidates k x j (k - 1) else []) ++ candidates k x j

theorem digitChildren_eq (hk : 1 ≤ k) (h : PowFits k j) (hx : x / k ^ j % k = 0)
    (hle : x + i * k ^ j ≤ intMax) :
    digitChildren n root k x j i = pushAll n root (digitCandidates k x j i) := by
  induction i with
  | zero => rfl
  | succ i ih =>
    have hprev : x + i * k ^ j ≤ intMax :=
      Nat.le_trans (Nat.add_le_add_left (Nat.mul_le_mul_right _ (by omega)) x) hle
    unfold digitChildren digitCandidates
    rw [setdigit_of_zero hk h hx hle, ih hprev, pushAll_cons]
    rfl

theorem digitsChildren_eq (hk : 1 ≤ k) (h : ∀ j < d, PowFits k j) (hx : x < k ^ d)
    (hd : k ^ d ≤ intMax) {flip : List Bool} (hjd : j ≤ d)
    (hflip : ∀ i < d, flip[i]? = some true ↔ x % k ^ (i + 1) = 0) :
    digitsChildren n root k x flip j = pushAll n root (candidates k x j) := by
  induction j with
  | zero => rfl
  | succ j ih =>
    unfold digitsChildren candidates
    rw [pushAll_append, ih (by omega)]
    by_cases hmod : x % k ^ (j + 1) = 0
    · have hlt := add_digit_lt hk hx hjd hmod (show k - 1 < k by omega)
      rw [if_pos ((hflip j hjd).2 hmod), if_pos hmod,
        digitChildren_eq hk (h j hjd) (digit_zero_of_mod hmod) (by omega)]
      rfl
    · rw [if_neg fun hb => hmod ((hflip j hjd).1 hb), if_neg hmod]
      rfl

theorem mem_digitCandidates {c m : Nat} : c ∈ digitCandidates k x j m ↔
    ∃ i, 1 ≤ i ∧ i ≤ m ∧ c = x + i * k ^ j := by
  induction m with
  | zero => exact iff_of_false nofun fun ⟨i, h₁, h₂, _⟩ => by omega
  | succ m ih =>
    rw [digitCandidates, mem_cons, ih]
    constructor
    · rintro (rfl | ⟨i, h₁, h₂, rfl⟩)
      · exact ⟨m + 1, by omega, Nat.le_refl _, rfl⟩
      · exact ⟨i, h₁, by omega, rfl⟩
    · rintro ⟨i, h₁, h₂, rfl⟩
      rcases Nat.eq_or_lt_of_le h₂ with rfl | hlt
      · exact .inl rfl
      · exact .inr ⟨i, h₁, by omega, rfl⟩

theorem mem_candidates {c : Nat} : c ∈ candidates k x d ↔
    ∃ j < d, x % k ^ (j + 1) = 0 ∧ ∃ i, 1 ≤ i ∧ i < k ∧ c = x + i * k ^ j := by
  induction d with
  | zero => exact iff_of_false nofun fun ⟨j, h, _⟩ => nomatch h
  | succ d ih =>
    rw [candidates, mem_append, ih]
    constructor
    · rintro (h | ⟨j, hj, h⟩)
      · split at h
        · obtain ⟨i, h₁, h₂, rfl⟩ := mem_digitCandidates.1 h
          exact ⟨d, Nat.lt_succ_self d, ‹_›, i, h₁, by omega, rfl⟩
        · cases h
      · exact ⟨j, by omega, h⟩
    · rintro ⟨j, hj, hmod, i, h₁, h₂, rfl⟩
      rcases Nat.lt_succ_iff_lt_or_eq.1 hj with hlt | rfl
      · exact .inr ⟨j, hlt, hmod, i, h₁, h₂, rfl⟩
      · rw [if_pos hmod]
        exact .inl (mem_digitCandidates.2 ⟨i, h₁, by omega, rfl⟩)

theorem nodup_digitCandidates (hk : 1 ≤ k) {m : Nat} : (digitCandidates k x j m).Nodup := by
  induction m with
  | zero => exact nodup_nil
  | succ m ih =>
    refine nodup_cons.2 ⟨fun h => ?_, ih⟩
    obtain ⟨i, -, hi, heq⟩ := mem_digitCandidates.1 h
    have := Nat.eq_of_mul_eq_mul_right (Nat.pow_pos hk) (Nat.add_left_cancel heq)
    omega

theorem nodup_candidates (hk : 1 ≤ k) : (candidates k x d).Nodup := by
  induction d with
  | zero => exact nodup_nil
  | succ d ih =>
    rw [candidates]
    split
    · refine nodup_append.2 ⟨nodup_digitCandidates hk, ih, fun a ha b hb hab => ?_⟩
      obtain ⟨i, hi, -, rfl⟩ := mem_digitCandidates.1 ha
      obtain ⟨j, hj, -, i', -, hi', rfl⟩ := mem_candidates.1 hb
      have heq := Nat.add_left_cancel hab
      -- the digit in the later place counts more than the one in the earlier place
      have h₁ : k ^ d ≤ i * k ^ d := Nat.le_mul_of_pos_left _ hi
      have h₂ : i' * k ^ j < k * k ^ j := Nat.mul_lt_mul_of_pos_right hi' (Nat.pow_pos hk)
      have h₃ : k * k ^ j ≤ k ^ d := by
        rw [Nat.mul_comm, ← Nat.pow_succ]
        exact Nat.pow_le_pow_right hk hj
      omega
    · exact ih

def digitKids (n k d x : Nat) : List Nat := (candidates k x d).filter (· < n)

theorem digit_ordered (hk : 1 ≤ k) (hn : n ≤ k ^ d) :
    Ordered n (digitParent k d) (digitKids n k d) := by
  have hlt : ∀ {x y}, digitParent k d x = some y → y < x := by
    intro x y h
    obtain ⟨j, -, -, i, hi, -, rfl⟩ := (digitParent_eq_some hk).1 h
    have : 0 < i * k ^ j := Nat.mul_pos hi (Nat.pow_pos hk)
    omega
  refine ⟨?_, fun x hx hxn => ?_, fun x _ => (nodup_candidates hk).filter _, fun x _ c => ?_⟩
  · cases h : digitParent k d 0 with
    | none => rfl
    | some y => exact absurd (hlt h) (Nat.not_lt_zero y)
  · cases h : digitParent k d x with
    | some y => exact ⟨y, hlt h, rfl⟩
    | none =>
      -- a number without a digit is 0
      have hzero : x % k ^ d = 0 := by
        refine digits_zero.1 fun l hl => by_contra fun hne => ?_
        have hex : ∃ l, l < d ∧ x / k ^ l % k ≠ 0 := ⟨l, hl, hne⟩
        obtain ⟨j, ⟨hj, hnej⟩, hmin⟩ : ∃ j, (j < d ∧ x / k ^ j % k ≠ 0) ∧
            ∀ m < j, ¬ (m < d ∧ x / k ^ m % k ≠ 0) :=
          ⟨Nat.find hex, Nat.find_spec hex, fun m hm => Nat.find_min hex hm⟩
        have hsome : cleared k x d 0 = some (x - x / k ^ j % k * k ^ j) :=
          cleared_eq_some.2 ⟨j, Nat.zero_le _, by omega,
            fun m _ hm => by_contra fun hne => hmin m hm ⟨by omega, hne⟩, hnej, rfl⟩
        rw [digitParent, hsome] at h
        cases h
      rw [Nat.mod_eq_of_lt (by omega)] at hzero
      omega
  · rw [digitKids, mem_filter, mem_candidates, digitParent_eq_some hk, decide_eq_true_iff,
      and_comm]

end digits

/-! ## The number of digits -/

section ilog

variable {n k e f d root : Nat}

/-- The number of digits that are looked at, less one: the least exponent of a power of which `k - 1`
times is not less than the number of ranks. -/
def topDigit (k n : Nat) : Nat := Nat.clog k ((n + k - 2) / (k - 1))

theorem topDigit_le_iff (hk : 2 ≤ k) (hn : 1 ≤ n) : topDigit k n ≤ e ↔ n ≤ (k - 1) * k ^ e := by
  rw [topDigit, Nat.clog_le_iff_le_pow hk, ← Nat.lt_succ_iff, Nat.div_lt_iff_lt_mul (by omega),
    Nat.succ_mul, Nat.mul_comm (k ^ e)]
  omega

theorem le_pow_topDigit (hk : 2 ≤ k) (hn : 1 ≤ n) : n ≤ k ^ (topDigit k n + 1) := by
  have h := (topDigit_le_iff hk hn).1 (Nat.le_refl (topDigit k n))
  refine Nat.le_trans h ?_
  rw [Nat.pow_succ, Nat.mul_comm]
  exact Nat.mul_le_mul_left _ (by omega)

theorem ilogLoop_of_fits (hk : 2 ≤ k) (hn : 1 ≤ n) (hfit : PowFits k (topDigit k n))
    (he : e ≤ topDigit k n) (hf : topDigit k n ≤ e + f) :
    ilogLoop k (n - 1) f (e + 1) ((k - 1) * k ^ e) = some (topDigit k n + 1) := by
  have hpos : ∀ e, 0 < (k - 1) * k ^ e := fun e =>
    Nat.mul_pos (by omega) (Nat.pow_pos (by omega))
  have hstop : ∀ e, n - 1 ≤ (k - 1) * k ^ e - 1 ↔ topDigit k n ≤ e := by
    intro e
    rw [topDigit_le_iff hk hn]
    have := hpos e
    omega
  induction f generalizing e with
  | zero =>
    obtain rfl : e = topDigit k n := by omega
    rw [ilogLoop, if_pos ((hstop _).2 (Nat.le_refl _))]
  | succ f ih =>
    unfold ilogLoop
    rcases Nat.eq_or_lt_of_le he with heq | hlt
    · rw [if_pos ((hstop e).2 (by omega)), ← heq]
    · rw [if_neg fun h => absurd ((hstop e).1 h) (by omega)]
      have hle : (k - 1) * k ^ e * k ≤ intMax := by
        have h₁ : k ^ (e + 2) ≤ k ^ (topDigit k n + 1) :=
          Nat.pow_le_pow_right (by omega) (by omega)
        have h₂ : (k - 1) * k ^ e * k ≤ k ^ (e + 2) := by
          rw [Nat.mul_assoc, ← Nat.pow_succ, Nat.pow_succ k (e + 1), Nat.mul_comm]
          exact Nat.mul_le_mul_left _ (by omega)
        exact Nat.le_trans (Nat.le_trans h₂ h₁) (hfit.pow_le (by omega))
      simp only [bind, Option.bind, mulInt_of_le hle]
      rw [Nat.mul_assoc, ← Nat.pow_succ]
      exact ih (by omega) (by omega)

theorem eq_of_ilogLoop (hk : 2 ≤ k) (hn : 1 ≤ n) (he : e ≤ topDigit k n)
    (h : ilogLoop k (n - 1) f (e + 1) ((k - 1) * k ^ e) = some d) : d = topDigit k n + 1 := by
  have hstop : ∀ e, n - 1 ≤ (k - 1) * k ^ e - 1 ↔ topDigit k n ≤ e := by
    intro e
    rw [topDigit_le_iff hk hn]
    have : 0 < (k - 1) * k ^ e := Nat.mul_pos (by omega) (Nat.pow_pos (by omega))
    omega
  induction f generalizing e with
  | zero =>
    unfold ilogLoop at h
    split at h
    · have := (hstop e).1 ‹_›
      have := Option.some.inj h
      omega
    · cases h
  | succ f ih =>
    unfold ilogLoop at h
    by_cases hle : topDigit k n ≤ e
    · rw [if_pos ((hstop e).2 hle)] at h
      have := Option.some.inj h
      omega
    · rw [if_neg fun h => hle ((hstop e).1 h)] at h
      obtain ⟨p, hp, h⟩ := bind_eq_some_iff.1 h
      obtain ⟨-, rfl⟩ := mulInt_eq_some.1 hp
      rw [Nat.mul_assoc, ← Nat.pow_succ] at h
      exact ih (by omega) h

theorem treeIlog_of_fits (hk : 2 ≤ k) (hn : 1 ≤ n) (hfit : PowFits k (topDigit k n)) :
    treeIlog k (n - 1) = some (topDigit k n + 1) := by
  have hle : topDigit k n ≤ n := by
    rw [topDigit_le_iff hk hn]
    refine Nat.le_trans (Nat.le_of_lt (Nat.lt_pow_self hk)) ?_
    exact Nat.le_mul_of_pos_left _ (by omega)
  have h := ilogLoop_of_fits (f := n - 1 + 1) hk hn hfit (Nat.zero_le _) (by omega)
  rwa [Nat.pow_zero, Nat.mul_one] at h

theorem eq_of_treeIlog (hk : 2 ≤ k) (hn : 1 ≤ n) (h : treeIlog k (n - 1) = some d) :
    d = topDigit k n + 1 := by
  refine eq_of_ilogLoop (e := 0) (f := n - 1 + 1) hk hn (Nat.zero_le _) ?_
  rwa [Nat.pow_zero, Nat.mul_one]

/-! ## The tree -/

theorem knomial2Init_eq (hk : 2 ≤ k) (hfit : PowFits k (topDigit k n)) {r : Nat} (hr : r < n) :
    knomial2Init r n k root = computed n root (digitParent k (topDigit k n + 1))
      (digitKids n k (topDigit k n + 1)) r := by
  have hn : n ≤ k ^ (topDigit k n + 1) := le_pow_topDigit hk (by omega)
  have hfits : ∀ j < topDigit k n + 1, PowFits k j := fun j hj => hfit.mono (by omega) (by omega)
  have hmax : k ^ (topDigit k n + 1) ≤ intMax := hfit.pow_le (by omega)
  unfold knomial2Init computed
  rw [if_neg (by omega)]
  refine bind_congr fun x hx => ?_
  obtain ⟨-, rfl⟩ := localRank_eq_some.1 hx
  obtain ⟨x, hx⟩ : ∃ x, unshift n root r = x := ⟨_, rfl⟩
  have hlt : x < n := hx ▸ unshift_lt hr
  obtain ⟨flip, hflip, hbits⟩ := @flipBits_eq k x 0 (topDigit k n + 1) (by omega)
    fun m hm => hfits m (by omega)
  rw [hx, if_neg (by omega), treeIlog_of_fits hk (by omega) hfit]
  simp only [bind, bind_some, hflip]
  rw [digitsChildren_eq (by omega) hfits (by omega) hmax (Nat.le_refl _) fun i hi => ?_]
  · have hparent : (if x = 0 then some none else
        clearDigit n root k x (topDigit k n + 1) 0) =
        parentIf n root (digitParent k (topDigit k n + 1) x) := by
      by_cases h0 : x = 0
      · rw [if_pos h0, h0, (digit_ordered (by omega) hn).zero]
        rfl
      · rw [if_neg h0, clearDigit_eq (by omega) (by omega) fun j hj => hfits j (by omega)]
        rfl
    rw [hparent]
    rfl
  · rw [hbits, ← digits_zero]
    constructor
    · rintro ⟨-, h⟩ l hl
      exact h l (Nat.zero_le l) (by omega)
    · exact fun h => ⟨hi, fun m _ hm => h m (by omega)⟩

theorem ipow_of_flipBits {todo j : Nat} {l : List Bool} (h : flipBits k 0 todo j = some l) :
    ∀ m, j ≤ m → m < j + todo → ∃ p, ipow k m = some p := by
  induction todo generalizing j l with
  | zero => exact fun m h₁ h₂ => by omega
  | succ todo ih =>
    unfold flipBits at h
    obtain ⟨digit, hdigit, h⟩ := bind_eq_some_iff.1 h
    obtain ⟨p, hp, rfl⟩ := map_eq_some_iff.1 hdigit
    rw [Nat.zero_div, Nat.zero_mod, if_neg (by decide)] at h
    obtain ⟨l', hl', -⟩ := map_eq_some_iff.1 h
    intro m h₁ h₂
    rcases Nat.eq_or_lt_of_le h₁ with rfl | hlt
    · exact ⟨p, hp⟩
    · exact ih hl' m hlt (by omega)

theorem knomial2_spans_iff (hroot : root < n) (hk : 2 ≤ k) (hki : k ≤ intMax) :
    Spans n root (fun r => knomial2Init r n k root) ↔
      PowFits k (topDigit k n) ∧ SumsFit n root := by
  refine spans_iff (digit_ordered (by omega) (le_pow_topDigit hk (by omega))) hroot
    (fun h r hr => knomial2Init_eq hk h hr) fun h => ?_
  obtain ⟨t, ht⟩ := h root hroot
  unfold knomial2Init at ht
  rw [if_neg (by omega)] at ht
  obtain ⟨x, hx, ht⟩ := bind_eq_some_iff.1 ht
  obtain ⟨-, rfl⟩ := localRank_eq_some.1 hx
  rw [if_neg (by omega)] at ht
  obtain ⟨d, hd, ht⟩ := bind_eq_some_iff.1 ht
  obtain ⟨p, -, ht⟩ := bind_eq_some_iff.1 ht
  obtain ⟨flip, hflip, -⟩ := bind_eq_some_iff.1 ht
  rw [unshift_root hroot] at hflip
  obtain rfl := eq_of_treeIlog hk (by omega) hd
  obtain ⟨v, hv⟩ := ipow_of_flipBits hflip (topDigit k n) (Nat.zero_le _) (by omega)
  exact powFits_of_ipow hki hv

end ilog

end PsMpi.Coll
