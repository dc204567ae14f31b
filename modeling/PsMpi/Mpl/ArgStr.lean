import PsMpi.Lib.Text
import Mathlib.Data.List.Basic

/-!
# Argument strings

See `mpich2/src/mpl/src/str/mpl_argstr.c`.
-/

open List PsMpi.Lib

namespace PsMpi.Mpl

/-- What a call does: the characters that it writes, each with its distance from the place at which
the call begins, the place and the length afterwards, and whether it succeeds. -/
structure Added where
  writes : List (Int × Char)
  pos : Int
  maxlen : Int
  success : Bool

def writesAt (pos : Int) : Text → List (Int × Char)
  | [] => []
  | c :: s => (pos, c) :: writesAt (pos + 1) s

/-- `quoted_printf` (`mpl_argstr.c:345`). -/
def quotedLoop : Nat → Text → Text
  | 0, _ => []
  | _ + 1, [] => ['"']
  | n + 1, c :: val =>
    if c = '"' then '\\' :: (if n = 0 then [] else c :: quotedLoop (n - 1) val)
    else c :: quotedLoop n val

/-- `quoted_printf` (:335). -/
def quotedPrintf (pos maxlen : Int) (val : Text) : Text × List (Int × Char) :=
  let s := if maxlen < 1 then [] else '"' :: quotedLoop (maxlen.toNat - 1) val
  (s, writesAt pos (if 0 < maxlen ∧ (s.length : Int) < maxlen then s ++ ['\x00'] else s))

/-- What is written for a text by `snprintf`, whose size is unsigned. -/
def snprintf (pos maxlen : Int) (s : Text) : List (Int × Char) :=
  if maxlen = 0 then []
  else writesAt pos ((if 0 < maxlen then s.take (maxlen.toNat - 1) else s) ++ ['\x00'])

/-- `MPL_str_add_string_arg` (:558). -/
def plainText (val : Text) : Text := if val = [] then ['"', '"'] else val

/-! ## Adding a string -/

/-- `MPL_str_add_string` (:405). -/
def stringQuoted (val : Text) : Bool := val.any fun c => c == '$' || c == '"' || c == '#'

/-- Line 396. -/
def addString (maxlen : Int) (val : Text) : Added :=
  if stringQuoted val then
    let (s, ws) := quotedPrintf 0 maxlen val
    let n : Int := s.length
    if n = maxlen then ⟨ws ++ [(0, '\x00')], 0, maxlen, false⟩
    else if n < maxlen - 1 then
      ⟨ws ++ [(n, '$'), (n + 1, '\x00')], n + 1, maxlen - (n + 1), true⟩
    else ⟨ws ++ [(n, '\x00')], n, maxlen - n, true⟩
  else
    let s := if val = [] then ['"', '"'] else val ++ ['$']
    let n : Int := s.length
    if n = maxlen then ⟨snprintf 0 maxlen s ++ [(0, '\x00')], 0, maxlen, false⟩
    else ⟨snprintf 0 maxlen s, n, maxlen - n, true⟩

/-! ## Adding a key and a value -/

/-- `MPL_str_add_string_arg` (:536). -/
def argQuoted (s : Text) : Bool := s.any (fun c => c == '$' || c == '#') || s.head? == some '"'

/-- Line 536. -/
def printArg (pos maxlen : Int) (s plain : Text) : Int × List (Int × Char) :=
  if argQuoted s then ((quotedPrintf pos maxlen s).1.length, (quotedPrintf pos maxlen s).2)
  else (plain.length, snprintf pos maxlen plain)

/-- Line 522. -/
def addStringArg (maxlen : Int) (flag val : Text) : Added :=
  if maxlen < 1 then ⟨[], 0, maxlen, false⟩
  else
    let (n, ws) := printArg 0 maxlen flag flag
    if maxlen - n < 1 then ⟨ws ++ [(0, '\x00')], 0, maxlen - n, false⟩
    else
      let (n', ws') := printArg (n + 1) (maxlen - n - 1) val (plainText val)
      let pos := n + 1 + n'
      let left := maxlen - n - 1 - n'
      let ws := ws ++ (n, '#') :: ws'
      if left < 2 then ⟨ws ++ [(pos, '\x00')], pos, left, false⟩
      else ⟨ws ++ [(pos, '$'), (pos + 1, '\x00')], pos + 1, left - 1, true⟩

/-! ## What the calls promise -/

/-- Nothing is written outside of the buffer, and after an error the string ends where it has ended
and goes on from there. -/
structure Safe (maxlen : Int) (r : Added) : Prop where
  bounds : ∀ w ∈ r.writes, 0 ≤ w.1 ∧ w.1 < maxlen
  kept : r.success = false → r.pos = 0 ∧ r.maxlen = maxlen ∧
    ∀ w ∈ (r.writes.filter fun w => w.1 = 0).getLast?, w.2 = '\x00'

/-- The characters of a text in quotes. -/
def quoted (val : Text) : Text :=
  '"' :: val.flatMap (fun c => if c = '"' then ['\\', c] else [c]) ++ ['"']

/-- The text of a flag or a value. -/
def argText (s plain : Text) : Text := if argQuoted s then quoted s else plain

section

variable {pos maxlen : Int} {s val flag : Text} {r : Added} {w : Int × Char} {n : Nat}

theorem mem_writesAt (h : w ∈ writesAt pos s) : pos ≤ w.1 ∧ w.1 < pos + s.length := by
  induction s generalizing pos with
  | nil => cases h
  | cons c s ih =>
    rw [length_cons]
    rcases mem_cons.1 h with rfl | h
    · exact ⟨Int.le_refl _, by push_cast; omega⟩
    · have := ih h
      push_cast
      omega

theorem length_quotedLoop : (quotedLoop n val).length = min n ((quoted val).length - 1) := by
  simp only [quoted, length_append, length_cons, length_nil, Nat.add_sub_cancel]
  induction val generalizing n with
  | nil => cases n <;> simp [quotedLoop]
  | cons c val ih =>
    cases n with
    | zero => simp [quotedLoop]
    | succ n =>
      simp only [quotedLoop, flatMap_cons, length_append]
      split
      · split
        · simp_all
        · simp only [length_cons, ih, length_nil]
          omega
      · simp only [length_cons, ih, length_nil]
        omega

theorem length_quotedPrintf (h : 0 ≤ maxlen) :
    ((quotedPrintf pos maxlen val).1.length : Int) = min maxlen (quoted val).length := by
  have hlen : 0 < (quoted val).length := by
    rw [quoted, cons_append, length_cons]
    exact Nat.succ_pos _
  unfold quotedPrintf
  split
  · simp only [length_nil]
    omega
  · simp only [length_cons, length_quotedLoop]
    omega

theorem mem_quotedPrintf (h : w ∈ (quotedPrintf pos maxlen val).2) :
    pos ≤ w.1 ∧ w.1 < pos + maxlen := by
  by_cases hmax : maxlen < 1
  · have hw := mem_writesAt h
    rw [if_neg fun h => by omega, if_pos hmax, length_nil] at hw
    omega
  · have hlen := @length_quotedPrintf pos maxlen val (by omega)
    have hw := mem_writesAt h
    change _ ∧ _ < pos + ((if 0 < maxlen ∧ ((quotedPrintf pos maxlen val).1.length : Int) < maxlen
      then (quotedPrintf pos maxlen val).1 ++ ['\x00']
      else (quotedPrintf pos maxlen val).1).length : Int) at hw
    split at hw
    · rw [length_append, length_singleton] at hw
      omega
    · omega

theorem mem_snprintf (hmax : 0 ≤ maxlen) (h : w ∈ snprintf pos maxlen s) :
    pos ≤ w.1 ∧ w.1 < pos + maxlen := by
  unfold snprintf at h
  split at h
  · cases h
  · have hw := mem_writesAt h
    rw [if_pos (by omega), length_append, length_take, length_singleton] at hw
    omega

theorem mem_printArg {plain : Text} (hmax : 0 ≤ maxlen) (h : w ∈ (printArg pos maxlen s plain).2) :
    pos ≤ w.1 ∧ w.1 < pos + maxlen := by
  unfold printArg at h
  split at h
  · exact mem_quotedPrintf h
  · exact mem_snprintf hmax h

/-- How many characters are counted, up to the room. -/
theorem printArg_fst {plain : Text} (hmax : 0 ≤ maxlen) :
    (printArg pos maxlen s plain).1 = (argText s plain).length ∨
      maxlen ≤ (printArg pos maxlen s plain).1 ∧ maxlen ≤ (argText s plain).length := by
  unfold printArg argText
  split
  · have := @length_quotedPrintf pos maxlen s hmax
    simp only
    omega
  · exact .inl rfl

theorem Safe.room {c : Char} (h : Safe maxlen r) (hr : (0, c) ∈ r.writes) : 0 < maxlen :=
  (h.bounds _ hr).2

/-- An error at the beginning with an end there leaves the string as it has been. -/
theorem safe_fail {ws : List (Int × Char)} (h : ∀ w ∈ ws, 0 ≤ w.1 ∧ w.1 < maxlen)
    (hmax : 0 < maxlen) : Safe maxlen ⟨ws ++ [(0, '\x00')], 0, maxlen, false⟩ := by
  constructor
  · intro w hw
    rcases mem_append.1 hw with hw | hw
    · exact h w hw
    · rw [mem_singleton.1 hw]
      exact ⟨Int.le_refl _, hmax⟩
  · refine fun _ => ⟨rfl, rfl, fun w hw => ?_⟩
    rw [filter_append, filter_singleton, getLast?_append] at hw
    cases hw
    rfl

theorem safe_addString : Safe maxlen (addString maxlen val) ↔
    0 < maxlen ∨ maxlen = 0 ∧ stringQuoted val = false := by
  unfold addString
  split
  · rename_i hquoted
    have hw := fun w => @mem_quotedPrintf 0 maxlen val w
    have hlen := @length_quotedPrintf 0 maxlen val
    have hneg : maxlen < 1 → (quotedPrintf 0 maxlen val).1 = [] := fun hmax => if_pos hmax
    generalize quotedPrintf 0 maxlen val = r at hw hlen hneg ⊢
    obtain ⟨s, ws⟩ := r
    simp only [hquoted, reduceCtorEq, and_false, or_false, Int.zero_add] at hw hlen hneg ⊢
    constructor
    · intro h
      by_contra hmax
      rw [hneg (by omega)] at h
      split at h
      · exact hmax (h.room (mem_append_right _ mem_cons_self))
      · rw [if_neg (by rw [length_nil]; omega)] at h
        exact hmax (h.room (mem_append_right _ mem_cons_self))
    · intro hmax
      split
      · exact safe_fail hw hmax
      · split
        · refine ⟨fun w h => ?_, nofun⟩
          simp only [mem_append, mem_cons, not_mem_nil, or_false] at h
          rcases h with h | rfl | rfl
          · exact hw w h
          all_goals
            simp only
            omega
        · refine ⟨fun w h => ?_, nofun⟩
          rcases mem_append.1 h with h | h
          · exact hw w h
          · rw [mem_singleton.1 h]
            simp only
            omega
  · rename_i hquoted
    have hs : (if val = [] then ['"', '"'] else val ++ ['$']) ≠ [] := by
      split
      · exact cons_ne_nil _ _
      · exact append_ne_nil_of_right_ne_nil _ (cons_ne_nil _ _)
    generalize (if val = [] then ['"', '"'] else val ++ ['$']) = s at hs ⊢
    obtain ⟨c, s, rfl⟩ := exists_cons_of_ne_nil hs
    simp only [length_cons, hquoted, and_true]
    constructor
    · intro h
      by_contra hmax
      rw [if_neg (by omega), snprintf, if_neg (by omega), if_neg (by omega)] at h
      exact hmax (.inl (h.room mem_cons_self))
    · intro hmax
      have hw : ∀ w ∈ snprintf 0 maxlen (c :: s), 0 ≤ w.1 ∧ w.1 < maxlen := fun w hw => by
        have := mem_snprintf (by omega) hw
        omega
      split
      · exact safe_fail hw (by omega)
      · exact ⟨hw, nofun⟩

theorem safe_addStringArg : Safe maxlen (addStringArg maxlen flag val) ↔ maxlen < 1 ∨
    ((argText flag flag).length : Int) + (argText val (plainText val)).length + 3 ≤ maxlen := by
  unfold addStringArg
  split
  · rename_i hmax
    exact iff_of_true ⟨nofun, fun _ => ⟨rfl, rfl, nofun⟩⟩ (.inl hmax)
  · rename_i hmax
    have hn := @printArg_fst 0 maxlen flag flag (by omega)
    have hw := fun w => @mem_printArg 0 maxlen flag w flag (by omega)
    generalize printArg 0 maxlen flag flag = r at hn hw ⊢
    obtain ⟨n, ws⟩ := r
    simp only at hn hw ⊢
    split
    · rename_i hroom
      refine iff_of_false (fun h => ?_) (by omega)
      have := (h.kept rfl).2.1
      simp only at this
      omega
    · rename_i hroom
      have hn' := @printArg_fst (n + 1) (maxlen - n - 1) val (plainText val) (by omega)
      have hw' := fun w => @mem_printArg (n + 1) (maxlen - n - 1) val w (plainText val) (by omega)
      generalize printArg (n + 1) (maxlen - n - 1) val (plainText val) = r at hn' hw' ⊢
      obtain ⟨n', ws'⟩ := r
      simp only at hn' hw' ⊢
      split
      · rename_i hleft
        refine iff_of_false (fun h => ?_) (by omega)
        have := (h.kept rfl).1
        simp only at this
        omega
      · rename_i hleft
        refine iff_of_true ⟨fun w h => ?_, nofun⟩ (by omega)
        simp only [append_assoc, mem_append, mem_cons, not_mem_nil, or_false, cons_append] at h
        rcases h with h | rfl | h | rfl | rfl
        · have := hw w h
          omega
        · simp only
          omega
        · have := hw' w h
          omega
        all_goals
          simp only
          omega

/-- Adding a string is safe exactly if there is room, or there is none and the string needs no
quotes; adding a key with a value exactly if there is no room at all, or enough for both with the
separators and the end. -/
theorem add_safe_iff : (Safe maxlen (addString maxlen val) ↔
      0 < maxlen ∨ maxlen = 0 ∧ stringQuoted val = false) ∧
    (Safe maxlen (addStringArg maxlen flag val) ↔ maxlen < 1 ∨
      ((argText flag flag).length : Int) + (argText val (plainText val)).length + 3 ≤ maxlen) :=
  ⟨safe_addString, safe_addStringArg⟩

end

/-- With room for four characters, the end is written at the eighth. -/
theorem not_forall_add_safe : ¬ ∀ (maxlen : Int) (flag val : Text),
    Safe maxlen (addString maxlen val) ∧ Safe maxlen (addStringArg maxlen flag val) := fun h =>
  absurd ((h 4 "k".toList "value".toList).2.bounds (7, '\x00') (by decide)) (by decide)

end PsMpi.Mpl
