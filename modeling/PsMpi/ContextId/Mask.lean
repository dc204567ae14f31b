import Mathlib.Data.BitVec
import Mathlib.Data.Fintype.BigOperators

/-!
# The context id mask
-/

namespace PsMpi.ContextId

/-- `context_mask` (`contextid.c:36`) with `MPIR_MAX_CONTEXT_MASK` words
(`mpir_contextid.h:103`). -/
abbrev Mask : Type := Fin 64 → BitVec 32

def Mask.bit (m : Mask) (k : Nat) : Bool :=
  if h : k / 32 < 64 then (m ⟨k / 32, h⟩).getLsbD (k % 32) else false

/-- One step of the search for the highest set bit: the upper halves of the blocks of `2 * w` bits
are tried first. `locate_context_bit` (`contextid.c:190-213`). -/
def halve (upper : BitVec 32) (w : Nat) (x : Nat × BitVec 32) : Nat × BitVec 32 :=
  if x.2 &&& upper ≠ 0 then (x.1 + w, x.2 &&& upper) else x

/-- `locate_context_bit` (:188-213). -/
def highBit (val : BitVec 32) : Nat :=
  (halve 0xAAAAAAAA#32 1 (halve 0xCCCCCCCC#32 2 (halve 0xF0F0F0F0#32 4
    (halve 0xFF00FF00#32 8 (halve 0xFFFF0000#32 16 (0, val)))))).1

/-- `MPIR_CONTEXT_PREFIX_SHIFT` (`mpir_contextid.h:91`). -/
def ofPrefix (k : Nat) : Nat := k <<< 4

/-- `locate_context_bit` (`contextid.c:176`). -/
def locateContextBit (localMask : Mask) : Nat :=
  match (List.finRange 64).find? fun i => localMask i ≠ 0 with
  | some i => ofPrefix (32 * i + highBit (localMask i))
  | none => 0

/-- `MPIR_CONTEXT_READ_FIELD` (`mpir_contextid.h:41`). -/
def readField (width shift id : Nat) : Nat := (id &&& ((1 <<< width - 1) <<< shift)) >>> shift

/-- `MPIR_CONTEXT_PREFIX_WIDTH`, `MPIR_CONTEXT_PREFIX_SHIFT` (:91). -/
def readPrefix (id : Nat) : Nat := readField 11 4 id

theorem readField_eq (width shift id : Nat) :
    readField width shift id = (id >>> shift) % 2 ^ width := by
  unfold readField
  rw [Nat.shiftRight_and_distrib, Nat.shiftLeft_shiftRight, Nat.one_shiftLeft,
    Nat.and_two_pow_sub_one_eq_mod]

theorem readPrefix_lt (id : Nat) : readPrefix id < 2048 := by
  rw [readPrefix, readField_eq]
  exact Nat.mod_lt _ (by decide)

theorem readPrefix_ofPrefix {k : Nat} (hk : k < 2048) : readPrefix (ofPrefix k) = k := by
  rw [readPrefix, readField_eq, ofPrefix, Nat.shiftLeft_shiftRight]
  exact Nat.mod_eq_of_lt hk

def wordOf (id : Nat) : Fin 64 := ⟨readPrefix id / 32, by have := readPrefix_lt id; omega⟩

theorem wordOf_ofPrefix {k : Nat} (hk : k < 2048) :
    wordOf (ofPrefix k) = ⟨k / 32, by omega⟩ :=
  Fin.ext (congrArg (· / 32) (readPrefix_ofPrefix hk))

/-- `1U << bitpos` (`contextid.c:236`). -/
def bitOf (id : Nat) : BitVec 32 := 1#32 <<< (readPrefix id % 32)

/-- `allocate_context_bit` (:226). -/
def allocateContextBit (mask : Mask) (id : Nat) : Option Mask :=
  if mask (wordOf id) &&& bitOf id ≠ 0 then
    some (Function.update mask (wordOf id) (mask (wordOf id) &&& ~~~ bitOf id))
  else none

/-- `MPIR_Free_contextid` (:1080). -/
def freeContextid (mask : Mask) (id : Nat) : Option Mask :=
  if readField 1 15 id ≠ 0 then some mask
  else if readField 1 3 id ≠ 0 then some mask
  else if readField 2 1 id ≠ 0 then some mask
  else if mask (wordOf id) &&& bitOf id ≠ 0 then none
  else some (Function.update mask (wordOf id) (mask (wordOf id) ||| bitOf id))

/-- `context_mask_stats` (:113). -/
def contextMaskStats (mask : Mask) : Nat :=
  ((List.finRange 64).map fun i =>
    ((List.range 32).map fun j => if (mask i).getLsbD j then 1 else 0).sum).sum

/-- `MPIR_context_id_init` (:150). -/
def initMask : Mask := fun i => if i = 0 then 0xFFFFFFF4#32 else 0xFFFFFFFF#32

/-! ## The highest set bit -/

/-- The search is in the block of `w` bits at `x.1`: all bits that are left are in it, and they are
bits of the word. -/
structure InBlock (w : Nat) (v : BitVec 32) (x : Nat × BitVec 32) : Prop where
  dvd : w ∣ x.1
  ne : x.2 ≠ 0
  bits : ∀ k, x.2.getLsbD k = true → v.getLsbD k = true ∧ x.1 ≤ k ∧ k < x.1 + w

theorem exists_bit {v : BitVec 32} (h : v ≠ 0) : ∃ k, v.getLsbD k = true := by
  by_contra hc
  refine h (BitVec.eq_of_getLsbD_eq fun i _ => ?_)
  simpa using fun hi => hc ⟨i, hi⟩

theorem InBlock.halve {w : Nat} {u v : BitVec 32} {x : Nat × BitVec 32}
    (h : InBlock (2 * w) v x)
    (hu : ∀ k < 32, u.getLsbD k = decide (k / w % 2 = 1)) :
    InBlock w v (halve u w x) := by
  obtain ⟨c, hc⟩ := h.dvd
  have hx : x.1 = w * (2 * c) := by rw [hc, Nat.mul_comm 2 w, Nat.mul_assoc]
  -- the bits of the upper half of the block are the ones that the word `u` has
  have hhalf : ∀ k, x.2.getLsbD k = true → (u.getLsbD k = true ↔ x.1 + w ≤ k) := by
    intro k hk
    obtain ⟨-, h1, h2⟩ := h.bits k hk
    rw [hu k (BitVec.lt_of_getLsbD hk), decide_eq_true_eq]
    rcases Nat.lt_or_ge k (x.1 + w) with hlt | hge
    · have hq : k / w = 2 * c := Nat.div_eq_of_lt_le (by rw [Nat.mul_comm]; omega)
        (by rw [Nat.succ_mul, Nat.mul_comm]; omega)
      rw [hq]
      constructor <;> intro hh <;> omega
    · have hq : k / w = 2 * c + 1 := by
        refine Nat.div_eq_of_lt_le ?_ ?_
        · rw [Nat.succ_mul, Nat.mul_comm]; omega
        · rw [Nat.succ_mul, Nat.succ_mul, Nat.mul_comm]; omega
      rw [hq]
      constructor <;> intro hh <;> omega
  unfold PsMpi.ContextId.halve
  split
  · next hne =>
    refine ⟨⟨2 * c + 1, ?_⟩, hne, fun k hk => ?_⟩
    · show x.1 + w = w * (2 * c + 1)
      rw [hx, Nat.mul_succ]
    rw [BitVec.getLsbD_and, Bool.and_eq_true] at hk
    obtain ⟨h1, h2, h3⟩ := h.bits k hk.1
    have h4 := (hhalf k hk.1).1 hk.2
    exact ⟨h1, h4, by show k < x.1 + w + w; omega⟩
  · next hz =>
    refine ⟨⟨2 * c, hx⟩, h.ne, fun k hk => ?_⟩
    obtain ⟨h1, h2, h3⟩ := h.bits k hk
    refine ⟨h1, h2, ?_⟩
    by_contra hge
    have h4 := (hhalf k hk).2 (by omega)
    have h5 : (x.2 &&& u).getLsbD k = true := by rw [BitVec.getLsbD_and, hk, h4]; rfl
    rw [not_not.1 hz] at h5
    simp at h5

theorem highBit_spec {v : BitVec 32} (h : v ≠ 0) :
    highBit v < 32 ∧ v.getLsbD (highBit v) = true := by
  have h0 : InBlock (2 * 16) v (0, v) := by
    refine ⟨⟨0, rfl⟩, h, fun k hk => ⟨hk, Nat.zero_le k, ?_⟩⟩
    simpa using BitVec.lt_of_getLsbD hk
  have h1 := InBlock.halve (w := 16) (u := 0xFFFF0000#32) h0 (by decide)
  have h2 := InBlock.halve (w := 8) (u := 0xFF00FF00#32) h1 (by decide)
  have h3 := InBlock.halve (w := 4) (u := 0xF0F0F0F0#32) h2 (by decide)
  have h4 := InBlock.halve (w := 2) (u := 0xCCCCCCCC#32) h3 (by decide)
  have h5 := InBlock.halve (w := 1) (u := 0xAAAAAAAA#32) h4 (by decide)
  obtain ⟨k, hk⟩ := exists_bit h5.ne
  obtain ⟨h6, h7, h8⟩ := h5.bits k hk
  have hk' : highBit v = k := by
    unfold highBit
    omega
  rw [hk']
  exact ⟨BitVec.lt_of_getLsbD h6, h6⟩

theorem locateContextBit_spec {m : Mask} (h : locateContextBit m ≠ 0) :
    ∃ k < 2048, locateContextBit m = ofPrefix k ∧ m.bit k = true := by
  unfold locateContextBit at h ⊢
  split at h
  · next i hi =>
    have hne : m i ≠ 0 := by simpa using List.find?_some hi
    obtain ⟨h1, h2⟩ := highBit_spec hne
    have hlt := i.isLt
    refine ⟨32 * i + highBit (m i), by omega, rfl, ?_⟩
    have hq : (32 * i + highBit (m i)) / 32 = i := by omega
    have hr : (32 * (i : Nat) + highBit (m i)) % 32 = highBit (m i) := by omega
    have hlt' : (32 * (i : Nat) + highBit (m i)) / 32 < 64 := by omega
    unfold Mask.bit
    rw [dif_pos hlt', hr]
    have hword : (⟨(32 * (i : Nat) + highBit (m i)) / 32, hlt'⟩ : Fin 64) = i := Fin.ext hq
    rw [hword]
    exact h2
  · exact absurd rfl h

/-! ## Single bits -/

theorem ofPrefix_inj {j k : Nat} (h : ofPrefix j = ofPrefix k) : j = k := by
  unfold ofPrefix at h
  rw [Nat.shiftLeft_eq, Nat.shiftLeft_eq] at h
  omega

theorem and_bitOf_ne {k : Nat} (hk : k < 2048) (m : Mask) :
    m (wordOf (ofPrefix k)) &&& bitOf (ofPrefix k) ≠ 0 ↔ m.bit k = true := by
  have hlt : k / 32 < 64 := by omega
  have hword : wordOf (ofPrefix k) = ⟨k / 32, hlt⟩ := wordOf_ofPrefix hk
  have hb : k % 32 < 32 := Nat.mod_lt _ (by decide)
  unfold Mask.bit
  rw [dif_pos hlt, hword, bitOf, readPrefix_ofPrefix hk, ← BitVec.twoPow_eq,
    BitVec.and_twoPow]
  by_cases hbit : (m ⟨k / 32, hlt⟩).getLsbD (k % 32) = true
  · rw [hbit]
    simp only [if_true, iff_true]
    intro hc
    have := congrArg (fun v => v.getLsbD (k % 32)) hc
    simp [hb] at this
  · rw [Bool.not_eq_true] at hbit
    simp [hbit]

theorem bit_update {k j : Nat} (hk : k < 2048) {m : Mask} {v : BitVec 32} {b : Bool}
    (hv : ∀ i < 32, v.getLsbD i =
      if i = k % 32 then b else (m (wordOf (ofPrefix k))).getLsbD i) :
    Mask.bit (Function.update m (wordOf (ofPrefix k)) v) j = if j = k then b else m.bit j := by
  have hlt : k / 32 < 64 := by omega
  have hword : wordOf (ofPrefix k) = ⟨k / 32, hlt⟩ := wordOf_ofPrefix hk
  rw [hword] at hv ⊢
  unfold Mask.bit
  by_cases hj : j / 32 < 64
  · rw [dif_pos hj, dif_pos hj]
    by_cases hq : j / 32 = k / 32
    · have hw : (⟨j / 32, hj⟩ : Fin 64) = ⟨k / 32, hlt⟩ := Fin.ext hq
      rw [hw, Function.update_self, hv _ (Nat.mod_lt _ (by decide))]
      have hiff : j % 32 = k % 32 ↔ j = k := by omega
      simp only [hiff]
    · have hw : (⟨j / 32, hj⟩ : Fin 64) ≠ ⟨k / 32, hlt⟩ := fun hc => hq (Fin.mk.inj hc)
      rw [Function.update_of_ne hw, if_neg (by rintro rfl; exact hq rfl)]
  · rw [dif_neg hj, dif_neg hj, if_neg (by rintro rfl; exact hj hlt)]

theorem allocateContextBit_ofPrefix {k : Nat} (hk : k < 2048) {m : Mask} (hb : m.bit k = true) :
    ∃ m', allocateContextBit m (ofPrefix k) = some m' ∧
      ∀ j, m'.bit j = if j = k then false else m.bit j := by
  refine ⟨_, if_pos ((and_bitOf_ne hk m).2 hb), fun j => bit_update hk fun i hi => ?_⟩
  rw [BitVec.getLsbD_and, BitVec.getLsbD_not, bitOf, readPrefix_ofPrefix hk, ← BitVec.twoPow_eq,
    BitVec.getLsbD_twoPow]
  by_cases h : i = k % 32
  · subst h; simp [hi]
  · simp [hi, h, Ne.symm h]

theorem freeContextid_ofPrefix {k : Nat} (hk : k < 2048) {m : Mask} (hb : m.bit k = false) :
    ∃ m', freeContextid m (ofPrefix k) = some m' ∧
      ∀ j, m'.bit j = if j = k then true else m.bit j := by
  have hfield : ∀ width shift, readField width shift (ofPrefix k) =
      (k * 16) >>> shift % 2 ^ width := by
    intro width shift
    rw [readField_eq, ofPrefix, Nat.shiftLeft_eq]
  have h1 : readField 1 15 (ofPrefix k) = 0 := by
    rw [hfield, Nat.shiftRight_eq_div_pow]; omega
  have h2 : readField 1 3 (ofPrefix k) = 0 := by
    rw [hfield, Nat.shiftRight_eq_div_pow]; omega
  have h3 : readField 2 1 (ofPrefix k) = 0 := by
    rw [hfield, Nat.shiftRight_eq_div_pow]; omega
  have h4 : ¬ (m (wordOf (ofPrefix k)) &&& bitOf (ofPrefix k) ≠ 0) := by
    rw [and_bitOf_ne hk, hb]
    decide
  refine ⟨Function.update m (wordOf (ofPrefix k))
    (m (wordOf (ofPrefix k)) ||| bitOf (ofPrefix k)), ?_, fun j => bit_update hk fun i hi => ?_⟩
  · unfold freeContextid
    rw [if_neg (by simp [h1]), if_neg (by simp [h2]), if_neg (by simp [h3]), if_neg h4]
  · rw [BitVec.getLsbD_or, bitOf, readPrefix_ofPrefix hk, ← BitVec.twoPow_eq,
      BitVec.getLsbD_twoPow]
    by_cases h : i = k % 32
    · subst h; simp [hi]
    · simp [hi, h, Ne.symm h]

end PsMpi.ContextId
