import PsMpi.Lib.CInt
import PsMpi.Lib.Strtol

/-!
# Reading a node map

See `mpich2/src/mpl/src/mpl_rankmap.c`.
-/

open PsMpi.Lib

namespace PsMpi.RankMap

/-- The variables of the parser. A place in the text is what follows it, and `out` are the ranks that
are written. -/
structure Parser where
  s : Text
  repeatStart : Option Text
  repeatCont : Option Text
  numRepeat : Int
  expectComma : Bool
  out : List Int

inductive Outcome where
  | success (out : List Int)
  | fail
  | undefined
deriving DecidableEq

inductive Round where
  | done (res : Outcome)
  | more (p : Parser)

/-- `RANKMAP_SKIP_SPACE` (:39). -/
def skipSpace (s : Text) : Text := s.dropWhile isspace

/-- `RANKMAP_ISIDENT` (:41). -/
def isIdent (c : Char) : Bool := c.isAlphanum || c == '-' || c == '_'

/-- `RANKMAP_EXPECT_AND_SKIP_C` (:45). -/
def expectAndSkip (e : Char) : Text → Option Text
  | [] => none
  | c :: s => if c = e then some s else none

/-- `RANKMAP_EXPECT_S` (:47). -/
def expectWord (e : Text) (s : Text) : Option Text :=
  if e <+: s ∧ (s.drop e.length).head?.all (fun c => !isIdent c) then some (s.drop e.length)
  else none

/-- `RANKMAP_GET_INT` (:49). -/
def getInt (s : Text) : Int × Text := (wrapInt (strtol s).1, (strtol s).2)

/-- `RANKMAP_GET_TRIPLET` (:56). -/
def getTriplet (s : Text) : Option (Int × Int × Int × Text) := do
  let (n1, s) := getInt (skipSpace s)
  let s ← expectAndSkip ',' (skipSpace s)
  let (n2, s) := getInt (skipSpace s)
  let s ← expectAndSkip ',' (skipSpace s)
  let (n3, s) := getInt (skipSpace s)
  let s ← expectAndSkip ')' (skipSpace s)
  return (n1, n2, n3, s)

/-- The nodes of a block with a start id, a number of nodes and a number of processes on each
node. -/
def blockIds (n1 n2 n3 : Int) : List Int :=
  (List.range n2.toNat).flatMap fun (i : Nat) => List.replicate n3.toNat (n1 + i)

/-- Write the ranks of a block, as long as there is room. `MPL_rankmap_str_to_array` (:145).
-/
def writeBlock (sz : Nat) (p : Parser) (ids : List Int) : Round :=
  let ids := ids.take (sz - p.out.length)
  let out := p.out ++ ids
  if ids.all (fun id => decide (id ≤ intMax)) then
    if out.length = sz then .done (.success out) else .more { p with out := out, expectComma := true }
  else .done .undefined

/-- Line 142. -/
def markZero (p : Parser) (id : Int) (s : Text) : Parser :=
  if p.repeatStart = none ∧ id = 0 then { p with repeatStart := some s } else p

/-- Line 102. -/
def endRepeat (p : Parser) (start : Text) (s : Text) : Round :=
  let p := if p.numRepeat = -1 then
      { p with numRepeat := (getInt s).1, repeatCont := some (getInt s).2 }
    else p
  if p.numRepeat = -2 ^ 31 then .done .undefined
  else
    let p := { p with numRepeat := p.numRepeat - 1 }
    if p.numRepeat = 0 then
      match p.repeatCont with
      | some cont => .more { p with s := cont }
      | none => .done .undefined
    else .more { p with s := start, expectComma := false }

/-- Line 101. -/
def parseComma (p : Parser) : Round :=
  match p.s with
  | ']' :: 'x' :: s =>
    match p.repeatStart with
    | some start =>
      if s.head?.any Char.isDigit then endRepeat p start s else .done .fail
    | none => .done .fail
  | ')' :: _ =>
    match p.repeatStart with
    | some start => .more { p with s := start, expectComma := false }
    | none => .done (.success p.out)
  | s =>
    match expectAndSkip ',' s with
    | some s => .more { p with s := s, expectComma := false }
    | none => .done .fail

/-- Line 131. -/
def parseItem (sz : Nat) (p : Parser) : Round :=
  match p.s with
  | '[' :: s => .more { p with s := s, repeatStart := some s }
  | '(' :: s =>
    match getTriplet s with
    | some (n1, n2, n3, rest) =>
      writeBlock sz (markZero { p with s := rest } n1 p.s) (blockIds n1 n2 n3)
    | none => .done .fail
  | s =>
    let (id, rest) := getInt s
    let p := markZero { p with s := rest } id s
    .more { p with out := p.out ++ [id], expectComma := true }

/-- Line 99. -/
def parseRound (sz : Nat) (p : Parser) : Round :=
  if p.s ≠ [] ∧ p.out.length < sz then
    let p := { p with s := skipSpace p.s }
    if p.expectComma then parseComma p else parseItem sz p
  else .done (.success p.out)

/-- Line 99. -/
def parseLoop : Nat → Nat → Parser → Option Outcome
  | 0, _, _ => none
  | todo + 1, sz, p =>
    match parseRound sz p with
    | .done res => some res
    | .more p => parseLoop todo sz p

/-- Line 73. -/
def strToArray (todo : Nat) (mapping : Text) (sz : Nat) : Option Outcome :=
  if mapping = [] then some .fail
  else
    match (expectAndSkip '(' (skipSpace mapping)).bind fun s =>
        expectWord "vector".toList (skipSpace s) with
    | some s => parseLoop todo sz ⟨skipSpace s, none, none, -1, true, []⟩
    | none => some .fail

end PsMpi.RankMap
