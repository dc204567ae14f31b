import Mathlib.Tactic.IntervalCases
import PsMpi.Lib.Text

/-!
# Numbers in a text

`strtol` of the C library with base 0: the beginning of a number says which base it has.
-/

open List

namespace PsMpi.Lib

def digitVal (c : Char) : Nat :=
  if c.isDigit then c.toNat - '0'.toNat else c.toLower.toNat - 'a'.toNat + 10

def isDigitIn (base : Nat) (c : Char) : Bool := c.isAlphanum && decide (digitVal c < base)

def ofDigitsIn (base : Nat) (s : Text) : Nat := s.foldl (fun n c => n * base + digitVal c) 0

def hexPrefix : Text → Bool
  | '0' :: x :: c :: _ => (x == 'x' || x == 'X') && isDigitIn 16 c
  | _ => false

def numberBase (s : Text) : Nat :=
  if s.head? = some '0' then if hexPrefix s then 16 else 8 else 10

/-- Read a number without a sign: its value and what follows, if there are digits. -/
def readNumber (s : Text) : Option (Nat × Text) :=
  let base := numberBase s
  let s := if base = 16 then s.drop 2 else s
  if s.takeWhile (isDigitIn base) = [] then none
  else some (ofDigitsIn base (s.takeWhile (isDigitIn base)), s.dropWhile (isDigitIn base))

def readSign : Text → Bool × Text
  | '-' :: s => (true, s)
  | '+' :: s => (false, s)
  | s => (false, s)

def clampLong (n : Int) : Int := max (-2 ^ 63) (min n (2 ^ 63 - 1))

/-- Read a number: its value and what follows. Without a number the value is 0 and nothing is read.
`strtol` with base 0. -/
def strtol (s : Text) : Int × Text :=
  let t := readSign (s.dropWhile isspace)
  match readNumber t.2 with
  | none => (0, s)
  | some (n, rest) => (clampLong (if t.1 then -n else n), rest)

def wrapInt (n : Int) : Int := (n + 2 ^ 31) % 2 ^ 32 - 2 ^ 31

section numerals

variable {w rest : Text}

theorem isDigit_cases {c : Char} (h : c.isDigit = true) :
    c.isAlphanum = true ∧ isspace c = false ∧ c ≠ '-' ∧ c ≠ '+' ∧ c ≠ 'x' ∧ c ≠ 'X' := by
  have hbounds : 48 ≤ c.toNat ∧ c.toNat ≤ 57 := by
    simpa [Char.isDigit, UInt32.le_iff_toNat_le] using h
  have hne : ∀ d : Char, d.toNat < 48 ∨ 57 < d.toNat → c ≠ d := by
    rintro d hd rfl
    omega
  refine ⟨by simp [Char.isAlphanum, h], ?_, hne _ (by decide), hne _ (by decide),
    hne _ (by decide), hne _ (by decide)⟩
  simp only [isspace, Bool.or_eq_false_iff, beq_eq_false_iff_ne]
  exact ⟨⟨⟨⟨⟨hne _ (by decide), hne _ (by decide)⟩, hne _ (by decide)⟩, hne _ (by decide)⟩,
    hne _ (by decide)⟩, hne _ (by decide)⟩

theorem hexPrefix_append (hw : ∀ c ∈ w, c.isDigit = true) (hne : w ≠ [])
    (hrest : ∀ c ∈ rest.head?, c.isAlphanum = false) : hexPrefix (w ++ rest) = false := by
  obtain ⟨a, w, rfl⟩ := exists_cons_of_ne_nil hne
  -- the second character is a digit or the one behind the numeral
  have hsecond : ∀ c ∈ (w ++ rest).head?, c ≠ 'x' ∧ c ≠ 'X' := by
    intro c hc
    cases w with
    | nil =>
      have := hrest c hc
      constructor <;> rintro rfl <;> exact absurd this (by decide)
    | cons d w =>
      obtain rfl := Option.some.inj hc
      exact ⟨(isDigit_cases (hw d (by simp))).2.2.2.2.1, (isDigit_cases (hw d (by simp))).2.2.2.2.2⟩
  rw [cons_append]
  unfold hexPrefix
  split
  · next x c s heq =>
    obtain ⟨-, htail⟩ := List.cons.inj heq
    obtain ⟨hx, hX⟩ := hsecond x (by rw [htail]; rfl)
    simp [hx, hX]
  · rfl

theorem numberBase_append (hw : ∀ c ∈ w, c.isDigit = true) (hne : w ≠ [])
    (hrest : ∀ c ∈ rest.head?, c.isAlphanum = false) :
    numberBase (w ++ rest) = numberBase w ∧ numberBase w ≠ 16 := by
  have hhex := hexPrefix_append hw hne hrest
  have hhex' : hexPrefix w = false := by
    have := hexPrefix_append hw hne (fun c (hc : c ∈ ([] : Text).head?) => nomatch hc)
    rwa [append_nil] at this
  have hhead : (w ++ rest).head? = w.head? := by
    obtain ⟨a, w, rfl⟩ := exists_cons_of_ne_nil hne
    rfl
  unfold numberBase
  rw [hhead, hhex, hhex']
  refine ⟨rfl, ?_⟩
  split <;> decide

theorem readNumber_append {n : Nat} (hw : ∀ c ∈ w, c.isDigit = true) (hne : w ≠ [])
    (hrest : ∀ c ∈ rest.head?, c.isAlphanum = false) (h : readNumber w = some (n, [])) :
    readNumber (w ++ rest) = some (n, rest) := by
  obtain ⟨hbase, hbase16⟩ := numberBase_append hw hne hrest
  unfold readNumber at h ⊢
  dsimp only at h ⊢
  rw [hbase, if_neg hbase16]
  rw [if_neg hbase16] at h
  split at h
  · cases h
  · next hdigits =>
    obtain ⟨hn, hdrop⟩ := Prod.mk.inj (Option.some.inj h)
    have hall : ∀ c ∈ w, isDigitIn (numberBase w) c = true := by
      rw [dropWhile_eq_nil_iff] at hdrop
      exact hdrop
    have hstop : ∀ c ∈ rest.head?, isDigitIn (numberBase w) c = false := by
      intro c hc
      rw [isDigitIn, hrest c hc, Bool.false_and]
    have hself : w.takeWhile (isDigitIn (numberBase w)) = w := by
      rw [takeWhile_eq_self_iff]
      exact hall
    rw [hself] at hn
    rw [takeWhile_append_word hall hstop, dropWhile_append_word hall hstop, if_neg hne, hn]

theorem strtol_of_isDigit (hw : ∀ c ∈ w, c.isDigit = true) (hne : w ≠ []) :
    strtol (w ++ rest) =
      match readNumber (w ++ rest) with
      | none => (0, w ++ rest)
      | some (n, rest) => (clampLong n, rest) := by
  obtain ⟨a, w, rfl⟩ := exists_cons_of_ne_nil hne
  obtain ⟨-, hspace, hminus, hplus, -, -⟩ := isDigit_cases (hw a mem_cons_self)
  have hsign : readSign (a :: (w ++ rest)) = (false, a :: (w ++ rest)) := by
    unfold readSign
    split
    · next hcons => exact absurd (List.cons.inj hcons).1 hminus
    · next hcons => exact absurd (List.cons.inj hcons).1 hplus
    · rfl
  unfold strtol
  rw [cons_append, dropWhile_cons_of_neg (by rw [hspace]; decide)]
  simp only [hsign, Bool.false_eq_true, if_false]

theorem strtol_append {v : Int} (hw : ∀ c ∈ w, c.isDigit = true) (hne : w ≠ [])
    (hrest : ∀ c ∈ rest.head?, c.isAlphanum = false) (h : strtol w = (v, [])) :
    strtol (w ++ rest) = (v, rest) := by
  have hself : strtol (w ++ []) = _ := strtol_of_isDigit hw hne
  rw [append_nil, h] at hself
  rw [strtol_of_isDigit hw hne]
  cases hnum : readNumber w with
  | none =>
    rw [hnum] at hself
    exact absurd (Prod.mk.inj hself).2.symm hne
  | some p =>
    obtain ⟨n, r⟩ := p
    rw [hnum] at hself
    obtain ⟨hv, rfl⟩ := Prod.mk.inj hself
    rw [readNumber_append hw hne hrest hnum, hv]

end numerals

/-! ## Decimal numerals without a leading 0 -/

section decimal

theorem digitVal_of_isDigit {c : Char} (h : c.isDigit = true) :
    digitVal c = c.toNat - '0'.toNat ∧ isDigitIn 10 c = true := by
  have hval : digitVal c = c.toNat - '0'.toNat := by rw [digitVal, if_pos h]
  have hbounds : 48 ≤ c.toNat ∧ c.toNat ≤ 57 := by
    simpa [Char.isDigit, UInt32.le_iff_toNat_le] using h
  have hlt : digitVal c < 10 := by
    rw [hval]
    show c.toNat - 48 < 10
    omega
  refine ⟨hval, ?_⟩
  rw [isDigitIn, (isDigit_cases h).1, Bool.true_and]
  exact decide_eq_true hlt

theorem ofDigitsIn_eq {w : Text} (hw : ∀ c ∈ w, c.isDigit = true) :
    ofDigitsIn 10 w = Nat.ofDigitChars 10 w 0 := by
  have hfold : ∀ init, w.foldl (fun n c => n * 10 + digitVal c) init =
      Nat.ofDigitChars 10 w init := by
    induction w with
    | nil => exact fun _ => rfl
    | cons c w ih =>
      intro init
      obtain ⟨hc, hw'⟩ := forall_mem_cons.1 hw
      rw [foldl_cons, ih hw', Nat.ofDigitChars_cons, (digitVal_of_isDigit hc).1, Nat.mul_comm]
  exact hfold 0

theorem isDigit_toDigits (n : Nat) : ∀ c ∈ Nat.toDigits 10 n, c.isDigit = true :=
  fun _ hc => Nat.isDigit_of_mem_toDigits (by decide) (by decide) hc

theorem ofDigitsIn_toDigits (n : Nat) : ofDigitsIn 10 (Nat.toDigits 10 n) = n := by
  rw [ofDigitsIn_eq (isDigit_toDigits n), Nat.ofDigitChars_toDigits (by decide) (by decide)]

theorem head_toDigits {n : Nat} (hn : 0 < n) : (Nat.toDigits 10 n).head? ≠ some '0' := by
  induction n using Nat.strongRecOn with
  | ind n ih =>
    by_cases h : n < 10
    · rw [Nat.toDigits_of_lt_base h]
      interval_cases n <;> decide
    · have hlt : n / 10 < n := Nat.div_lt_self hn (by decide)
      rw [Nat.toDigits_of_base_le (by decide) (by omega)]
      obtain ⟨c, w, hw⟩ := exists_cons_of_ne_nil (Nat.toDigits_ne_nil (n := n / 10) (b := 10))
      have := ih (n / 10) hlt (by omega)
      rw [hw] at this ⊢
      exact this

theorem strtol_toDigits {n : Nat} (hn : n < 2 ^ 63) :
    strtol (Nat.toDigits 10 n) = ((n : Int), []) := by
  have hdigit := isDigit_toDigits n
  have hread : readNumber (Nat.toDigits 10 n) = some (n, []) := by
    rcases Nat.eq_zero_or_pos n with rfl | hpos
    · rfl
    · have hbase : numberBase (Nat.toDigits 10 n) = 10 := by
        rw [numberBase, if_neg (head_toDigits hpos)]
      have hall : ∀ c ∈ Nat.toDigits 10 n, isDigitIn 10 c = true :=
        fun c hc => (digitVal_of_isDigit (hdigit c hc)).2
      unfold readNumber
      dsimp only
      have hdrop : (if 10 = 16 then (Nat.toDigits 10 n).drop 2 else Nat.toDigits 10 n) =
          Nat.toDigits 10 n := if_neg (by decide)
      rw [hbase, hdrop, takeWhile_eq_self_iff.2 hall,
        dropWhile_eq_nil_iff.2 hall, if_neg Nat.toDigits_ne_nil, ofDigitsIn_toDigits]
  have hstart : strtol (Nat.toDigits 10 n ++ []) = _ :=
    strtol_of_isDigit hdigit Nat.toDigits_ne_nil
  rw [append_nil, hread] at hstart
  rw [hstart]
  simp only [clampLong]
  congr 1
  omega

theorem wrapInt_of_lt {n : Int} (h0 : 0 ≤ n) (h : n < 2 ^ 31) : wrapInt n = n := by
  unfold wrapInt
  rw [Int.emod_eq_of_lt (by omega) (by omega)]
  omega

end decimal

end PsMpi.Lib
