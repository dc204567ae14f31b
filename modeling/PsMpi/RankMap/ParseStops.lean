import PsMpi.RankMap.Parse

/-!
# The parser stops
-/

open List Option PsMpi.Lib

namespace PsMpi.RankMap

inductive Reached (mapping : Text) (sz : Nat) : Parser → Prop
  | start {s : Text} (h : ((expectAndSkip '(' (skipSpace mapping)).bind fun s =>
      expectWord "vector".toList (skipSpace s)) = some s) :
      Reached mapping sz ⟨skipSpace s, none, none, -1, true, []⟩
  | round {p q : Parser} (hp : Reached mapping sz p) (h : parseRound sz p = .more q) :
      Reached mapping sz q

/-- A state is at no block without ranks and at no negative number of repetitions, and the ids of
the block are `int`s. -/
def InOrder (p : Parser) : Prop :=
  (∀ s n1 n2 n3 rest, p.expectComma = false → skipSpace p.s = '(' :: s →
    getTriplet s = some (n1, n2, n3, rest) → 0 < n2 ∧ 0 < n3 ∧ n1 + n2 - 1 ≤ intMax) ∧
  ∀ s, p.expectComma = true → p.numRepeat = -1 → skipSpace p.s = ']' :: 'x' :: s → 0 ≤ (getInt s).1

section

variable {sz L : Nat} {p q : Parser} {s t mapping : Text}

/-- What every state keeps: the places are in the text, and a number of repetitions has been read
unless the counter is fresh. -/
structure Parser.Ok (L sz : Nat) (p : Parser) : Prop where
  s : p.s.length ≤ L
  start : ∀ t, p.repeatStart = some t → t.length ≤ L
  cont : ∀ t, p.repeatCont = some t → t.length ≤ L
  counter : -1 ≤ p.numRepeat
  read : p.numRepeat ≠ -1 → p.repeatCont ≠ none
  out : p.out.length ≤ sz

def Parser.ahead (L : Nat) (p : Parser) : Nat :=
  if p.expectComma then L + 1 + (if p.numRepeat = 0 then 0 else 1) else p.s.length

def Parser.todo (L sz : Nat) (p : Parser) : Nat := (sz - p.out.length) * (L + 3) + p.ahead L

def Advances (L sz : Nat) (p : Parser) : Round → Prop
  | .done res => res ≠ .undefined ∧ ∀ out, res = .success out → out.length ≤ sz
  | .more q => q.Ok L sz ∧ q.todo L sz < p.todo L sz

theorem Parser.Ok.ahead_le (h : p.Ok L sz) : p.ahead L ≤ L + 2 := by
  have := h.s
  unfold Parser.ahead
  split
  · split <;> omega
  · omega

theorem todo_lt_of_out (hq : q.Ok L sz) (h : p.out.length < q.out.length) :
    q.todo L sz < p.todo L sz := by
  have hahead := hq.ahead_le
  have hle := hq.out
  have hmul : (sz - q.out.length + 1) * (L + 3) ≤ (sz - p.out.length) * (L + 3) :=
    Nat.mul_le_mul_right _ (by omega)
  rw [Nat.succ_mul] at hmul
  unfold Parser.todo
  omega

/-! ## Reading goes forward -/

theorem length_skipSpace (s : Text) : (skipSpace s).length ≤ s.length :=
  (dropWhile_suffix isspace).length_le

theorem Parser.Ok.skip (h : p.Ok L sz) : Parser.Ok L sz { p with s := skipSpace p.s } :=
  { h with s := (length_skipSpace p.s).trans h.s }

theorem Parser.Ok.mark (h : p.Ok L sz) (id : Int) (hs : s.length ≤ L) :
    (markZero p id s).Ok L sz := by
  unfold markZero
  split
  · exact { h with start := fun t ht => by cases ht; exact hs }
  · exact h

theorem markZero_out (p : Parser) (id : Int) (s : Text) : (markZero p id s).out = p.out := by
  unfold markZero
  split <;> rfl

theorem Parser.Ok.write (h : q.Ok L sz) (hout : q.out = p.out) {ids : List Int}
    (hids : 0 < ids.length) (hlen : (q.out ++ ids).length ≤ sz) :
    Advances L sz p (.more { q with out := q.out ++ ids, expectComma := true }) := by
  have hok : Parser.Ok L sz { q with out := q.out ++ ids, expectComma := true } :=
    { h with out := hlen }
  refine ⟨hok, todo_lt_of_out hok ?_⟩
  rw [← hout, length_append]
  omega

theorem endRepeat_out (h : endRepeat p t s = .more q) : q.out = p.out := by
  unfold endRepeat at h
  simp only at h
  generalize hc : ite (p.numRepeat = -1) _ p = c at h
  have hout : c.out = p.out := by
    rw [← hc]
    split <;> rfl
  split at h
  · cases h
  · split at h
    · split at h <;> cases h
      exact hout
    · cases h
      exact hout

theorem parseComma_out (h : parseComma p = .more q) : q.out = p.out := by
  unfold parseComma at h
  split at h
  · split at h
    · split at h
      · exact endRepeat_out h
      · cases h
    · cases h
  · split at h <;> cases h
    rfl
  · split at h <;> cases h
    rfl

theorem parseItem_out (h : parseItem sz p = .more q) (hlt : p.out.length < sz) :
    q.out.length ≤ sz := by
  unfold parseItem at h
  split at h
  · cases h
    exact hlt.le
  · split at h
    · unfold writeBlock at h
      simp only [markZero_out] at h
      split at h
      · split at h
        · cases h
        · cases h
          show (p.out ++ _).length ≤ sz
          rw [length_append, length_take]
          omega
      · cases h
    · cases h
  · cases h
    show (_ ++ [_]).length ≤ sz
    rw [markZero_out, length_append]
    exact hlt

theorem Reached.out (h : Reached mapping sz p) : p.out.length ≤ sz := by
  induction h with
  | start => exact Nat.zero_le _
  | @round p q _ h ih =>
    unfold parseRound at h
    split at h
    · rename_i hgo
      simp only at h
      split at h
      · rw [parseComma_out h]
        exact ih
      · exact parseItem_out h hgo.2
    · cases h

end

end PsMpi.RankMap
