import PsMpi.RankMap.Parse

/-!
# Node maps

See `mpich2/src/mpl/src/mpl_rankmap.c:14`.
-/

open PsMpi.Lib List

namespace PsMpi.RankMap

structure Numeral where
  digits : Text
  ne_nil : digits ≠ []
  isDigit : ∀ c ∈ digits, c.isDigit = true

def Numeral.value (n : Numeral) : Nat := ofDigitsIn 10 n.digits

def Numeral.ofNat (n : Nat) : Numeral :=
  ⟨Nat.toDigits 10 n, Nat.toDigits_ne_nil, isDigit_toDigits n⟩

/-- A block: one node, or a start id, a number of nodes, and a number of processes on each of them. -/
inductive Block where
  | num (n : Numeral)
  | triple (x y z : Numeral)

inductive Item where
  | block (b : Block)
  | repeats (b : Block) (bs : List Block) (n : Numeral)

/-! ## Texts -/

def Block.text : Block → Text
  | .num n => n.digits
  | .triple x y z => '(' :: (x.digits ++ ',' :: (y.digits ++ ',' :: (z.digits ++ [')'])))

def blocksText (bs : List Block) : Text := bs.flatMap fun b => ',' :: b.text

def Item.text : Item → Text
  | .block b => b.text
  | .repeats b bs n => '[' :: (b.text ++ (blocksText bs ++ ']' :: 'x' :: n.digits))

def itemsText (items : List Item) : Text := items.flatMap fun i => ',' :: i.text

def mappingText (items : List Item) : Text := "(vector".toList ++ (itemsText items ++ [')'])

/-! ## Ranks -/

def Block.ids : Block → List Int
  | .num n => [(n.value : Int)]
  | .triple x y z =>
    (List.range y.value).flatMap fun (i : Nat) => List.replicate z.value ((x.value : Int) + i)

def repeated (n : Nat) (ids : List Int) : List Int := (List.replicate n ids).flatten

def Item.ids : Item → List Int
  | .block b => b.ids
  | .repeats b bs n => repeated n.value ((b :: bs).flatMap Block.ids)

def expand (items : List Item) : List Int := items.flatMap Item.ids

/-- The ranks of a node map, where each list after the first is repeated once more than its number. -/
def expandMore : Bool → List Item → List Int
  | _, [] => []
  | seen, .block b :: items => b.ids ++ expandMore seen items
  | seen, .repeats b bs n :: items =>
    repeated (if seen then n.value + 1 else n.value) ((b :: bs).flatMap Block.ids) ++
      expandMore true items

theorem repeated_succ (n : Nat) (ids : List Int) : repeated (n + 1) ids = ids ++ repeated n ids := rfl

theorem repeated_succ' (n : Nat) (ids : List Int) :
    repeated (n + 1) ids = repeated n ids ++ ids := by
  rw [repeated, replicate_succ', flatten_append, flatten_singleton, repeated]

theorem expandMore_length (seen : Bool) (items : List Item) :
    (expand items).length ≤ (expandMore seen items).length := by
  induction items generalizing seen with
  | nil => exact Nat.le_refl _
  | cons i items ih =>
    unfold expand at ih ⊢
    rw [flatMap_cons]
    cases i with
    | block b =>
      rw [expandMore, length_append, length_append]
      exact Nat.add_le_add_left (ih seen) _
    | repeats b bs n =>
      rw [expandMore, length_append, length_append]
      refine Nat.add_le_add ?_ (ih true)
      rw [Item.ids]
      cases seen with
      | false => exact Nat.le_refl _
      | true =>
        rw [if_pos rfl, repeated_succ, length_append]
        exact Nat.le_add_left _ _

def hasList (items : List Item) : Bool := items.any fun
  | .block _ => false
  | .repeats .. => true

theorem expandMore_append (seen : Bool) (A B : List Item) :
    expandMore seen (A ++ B) = expandMore seen A ++ expandMore (seen || hasList A) B := by
  induction A generalizing seen with
  | nil => rw [nil_append, hasList, any_nil, Bool.or_false]; rfl
  | cons i A ih =>
    cases i with
    | block b =>
      rw [cons_append, expandMore, ih, expandMore, append_assoc]
      rfl
    | repeats b bs n =>
      rw [cons_append, expandMore, ih, expandMore, append_assoc, Bool.true_or, hasList,
        any_cons, Bool.true_or, Bool.or_true]

theorem expandMore_blocks (seen : Bool) (bs : List Block) :
    expandMore seen (bs.map Item.block) = bs.flatMap Block.ids := by
  induction bs with
  | nil => rfl
  | cons b bs ih => rw [map_cons, expandMore, ih, flatMap_cons]

theorem hasList_append (A B : List Item) : hasList (A ++ B) = (hasList A || hasList B) :=
  any_append

theorem hasList_blocks (bs : List Block) : hasList (bs.map Item.block) = false := by
  rw [hasList, any_map, any_eq_false]
  exact fun _ _ => Bool.false_ne_true

theorem expand_append (A B : List Item) : expand (A ++ B) = expand A ++ expand B :=
  flatMap_append

theorem expand_blocks (bs : List Block) : expand (bs.map Item.block) = bs.flatMap Block.ids := by
  rw [expand, flatMap_map]
  rfl

/-! ## What the parser reads as it is meant -/

/-- The parser reads a numeral as the number that it denotes: a leading 0 would make it octal, and the
number is an `int`. -/
def Numeral.Plain (n : Numeral) : Prop := getInt n.digits = ((n.value : Int), [])

/-- The numerals of a block are read as they are meant, and its ids are `int`s. -/
def Block.Plain : Block → Prop
  | .num n => n.Plain
  | .triple x y z => x.Plain ∧ y.Plain ∧ z.Plain ∧
    ∀ id ∈ (Block.triple x y z).ids, id ≤ (intMax : Int)

/-- The numerals are read as they are meant, and a list is repeated at least once. -/
def Item.Plain : Item → Prop
  | .block b => b.Plain
  | .repeats b bs n => (∀ a ∈ b :: bs, a.Plain) ∧ n.Plain ∧ 1 ≤ n.value

theorem Numeral.value_ofNat (n : Nat) : (Numeral.ofNat n).value = n := ofDigitsIn_toDigits n

theorem Numeral.plain_ofNat {n : Nat} (h : n ≤ intMax) : (Numeral.ofNat n).Plain := by
  unfold intMax at h
  rw [Numeral.Plain, Numeral.value_ofNat, getInt]
  show (wrapInt (strtol (Nat.toDigits 10 n)).1, (strtol (Nat.toDigits 10 n)).2) = _
  rw [strtol_toDigits (by omega), wrapInt_of_lt (by omega) (by omega)]

end PsMpi.RankMap
