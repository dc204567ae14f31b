import PsMpi.Lib.MapM
import PsMpi.Topo.Cart
import PsMpi.Comm.SplitOk

/-!
# Sub-grids of a Cartesian communicator
-/

open PsMpi.Comm PsMpi.Lib PsMpi.Lib.MixedRadix List Option

namespace PsMpi.Topo

structure Grid where
  dims : List Nat
  periodic : List Bool
  pos : ∀ d ∈ dims, 0 < d
  fits : dims.prod ≤ intMax

def Grid.position (g : Grid) (r : Nat) : List Nat := digits g.dims.prod r g.dims

def Grid.topology (g : Grid) (r : Nat) : CartTopology :=
  ⟨g.dims.prod, g.dims.length, g.dims, g.periodic, g.position r⟩

def Grid.gathered (g : Grid) (remainDims : List Int) : Option (List Splittype) :=
  (List.range g.dims.prod).mapM fun q => subEntry (g.topology q) remainDims

def Grid.Agree (g : Grid) (bs : List Bool) (q r : Nat) : Prop :=
  keep (bs.map not) (g.position q) = keep (bs.map not) (g.position r)

/-- A process gets a communicator of the processes that agree with it in the dropped coordinates, and
its remaining coordinates as its position. -/
def SubGrid (g : Grid) (remainDims : List Int) (r : Nat) (res : Option CartResult) : Prop :=
  ∃ c t, res = some (.comm c t) ∧ (c.members r).Nodup ∧
    (∀ x, x ∈ c.members r ↔ ∃ q < g.dims.prod, x = (q : Int) ∧ g.Agree (remains remainDims) q r) ∧
    t.position = keep (remains remainDims) (g.position r)

/-! ## Positions, keys and colors -/

section positions

variable {g : Grid} {bs : List Bool} {ds ps : List Nat} {q r : Nat}

theorem newsize_eq {acc : Nat} (hds : ∀ d ∈ ds, 0 < d) (h : acc * ds.prod ≤ intMax) :
    ds.foldlM mulInt acc = some (acc * ds.prod) := by
  induction ds generalizing acc with
  | nil => exact congrArg some (Nat.mul_one acc).symm
  | cons d ds ih =>
    have hds' : ∀ e ∈ ds, 0 < e := fun e he => hds e (mem_cons_of_mem _ he)
    have hpos : 0 < ds.prod := prod_pos hds'
    rw [prod_cons, ← Nat.mul_assoc] at h ⊢
    have hle : acc * d ≤ intMax := Nat.le_trans (Nat.le_mul_of_pos_right _ hpos) h
    rw [foldlM_cons, mulInt_of_le hle]
    exact ih hds' h

theorem cartPosition_eq (hds : ∀ d ∈ ds, 0 < d) :
    cartPosition ds.prod r ds = some (digits ds.prod r ds) := by
  induction ds generalizing r with
  | nil => rfl
  | cons d ds ih =>
    have hds' : ∀ e ∈ ds, 0 < e := fun e he => hds e (mem_cons_of_mem _ he)
    have hd : 0 < d := hds d mem_cons_self
    have hpos : 0 < ds.prod := prod_pos hds'
    rw [cartPosition, digits, prod_cons, Nat.mul_div_cancel_left _ hd, if_neg (by omega),
      ih hds']
    rfl

theorem nnodesInSubcomm_eq {acc : Nat} (hds : ∀ d ∈ ds, 0 < d)
    (h : acc * (keep bs ds).prod ≤ intMax) :
    nnodesInSubcomm bs ds acc = some (acc * (keep bs ds).prod) := by
  induction bs generalizing ds acc with
  | nil => simp [nnodesInSubcomm, keep]
  | cons b bs ih =>
    cases ds with
    | nil => cases b <;> simp [nnodesInSubcomm, keep]
    | cons d ds =>
      have hds' : ∀ e ∈ ds, 0 < e := fun e he => hds e (mem_cons_of_mem _ he)
      cases b with
      | false => exact ih hds' h
      | true =>
        have hpos : 0 < (keep bs ds).prod := prod_pos fun e he => hds' e (mem_keep he)
        rw [keep, prod_cons, ← Nat.mul_assoc] at h ⊢
        have hle : acc * d ≤ intMax := Nat.le_trans (Nat.le_mul_of_pos_right _ hpos) h
        rw [nnodesInSubcomm, if_pos rfl, mulInt_of_le hle]
        exact ih hds' h

theorem addDigit_eq {n a d p m : Nat} (ha : a < n) (hp : p < d) (hm : 0 < m)
    (h : n * (d * m) ≤ intMax) : addDigit a d p = some (a * d + p) ∧ a * d + p < n * d := by
  have hlt : a * d + p < n * d := by
    calc a * d + p < a * d + d := Nat.add_lt_add_left hp _
      _ = (a + 1) * d := (Nat.succ_mul a d).symm
      _ ≤ n * d := Nat.mul_le_mul_right d ha
  have hle : n * d ≤ intMax := by
    refine Nat.le_trans ?_ h
    rw [← Nat.mul_assoc]
    exact Nat.le_mul_of_pos_right _ hm
  unfold addDigit
  rw [mulInt_of_le (by omega)]
  exact ⟨addInt_of_le (by omega), hlt⟩

theorem keyAndColor_eq {key color m n : Nat} (hps : List.Forall₂ (fun d p => p < d) ds ps)
    (hkey : key < m) (hcolor : color < n) (hm : m * (keep bs ds).prod ≤ intMax)
    (hn : n * (keep (bs.map not) ds).prod ≤ intMax) :
    keyAndColor bs ds ps (key, color) = some (value key (keep bs ds) (keep bs ps),
      value color (keep (bs.map not) ds) (keep (bs.map not) ps)) := by
  induction hps generalizing bs key color m n with
  | nil =>
    cases bs with
    | nil => rfl
    | cons b bs => cases b <;> rfl
  | @cons d p ds ps hp hps ih =>
    cases bs with
    | nil => rfl
    | cons b bs =>
      cases b with
      | true =>
        rw [map_cons, Bool.not_true, keep] at hn
        rw [keep, prod_cons] at hm
        obtain ⟨hadd, hlt⟩ := addDigit_eq hkey hp (prod_pos_of_digits (forall₂_keep hps)) hm
        rw [← Nat.mul_assoc] at hm
        rw [keyAndColor, if_pos rfl, hadd]
        exact ih hlt hcolor hm hn
      | false =>
        rw [map_cons, Bool.not_false, keep, prod_cons] at hn
        rw [keep] at hm
        obtain ⟨hadd, hlt⟩ := addDigit_eq hcolor hp (prod_pos_of_digits (forall₂_keep hps)) hn
        rw [← Nat.mul_assoc] at hn
        rw [keyAndColor, if_neg (by decide), hadd]
        exact ih hkey hlt hm hn

theorem Grid.position_lt (hr : r < g.dims.prod) :
    List.Forall₂ (fun d p => p < d) g.dims (g.position r) := digits_lt g.pos hr

theorem Grid.position_inj (hq : q < g.dims.prod) (hr : r < g.dims.prod) :
    g.position q = g.position r ↔ q = r := digits_inj g.pos hq hr

variable (g bs) in
def Grid.number (r : Nat) : Nat := value 0 (keep bs g.dims) (keep bs (g.position r))

theorem Grid.number_lt (hr : r < g.dims.prod) : g.number bs r < (keep bs g.dims).prod :=
  value_lt (forall₂_keep (g.position_lt hr))

theorem Grid.digits_number (hr : r < g.dims.prod) :
    digits (keep bs g.dims).prod (g.number bs r) (keep bs g.dims) = keep bs (g.position r) :=
  digits_value (forall₂_keep (g.position_lt hr))

theorem Grid.agree_iff (hq : q < g.dims.prod) (hr : r < g.dims.prod) :
    g.number (bs.map not) q = g.number (bs.map not) r ↔ g.Agree bs q r := by
  refine ⟨fun h => ?_, congrArg (value 0 _)⟩
  rw [Grid.Agree, ← g.digits_number hq, h, g.digits_number hr]

theorem Grid.keep_le (hlen : bs.length = g.dims.length) :
    (keep bs g.dims).prod ≤ intMax ∧ (keep (bs.map not) g.dims).prod ≤ intMax := by
  have hmul := prod_keep_mul hlen
  have hfits := g.fits
  have h₁ : 0 < (keep bs g.dims).prod := prod_pos fun d hd => g.pos d (mem_keep hd)
  have h₂ : 0 < (keep (bs.map not) g.dims).prod := prod_pos fun d hd => g.pos d (mem_keep hd)
  rw [← hmul] at hfits
  exact ⟨Nat.le_trans (Nat.le_mul_of_pos_right _ h₂) hfits,
    Nat.le_trans (Nat.le_mul_of_pos_left _ h₁) hfits⟩

theorem Grid.subEntry_eq {remainDims : List Int} (hlen : remainDims.length = g.dims.length)
    (hr : r < g.dims.prod) : subEntry (g.topology r) remainDims =
      some ⟨g.number ((remains remainDims).map not) r, g.number (remains remainDims) r⟩ := by
  have hlen' : (remains remainDims).length = g.dims.length := by rw [remains, length_map, hlen]
  obtain ⟨h₁, h₂⟩ := g.keep_le hlen'
  have h : keyAndColor (remains remainDims) g.dims (g.position r) (0, 0) =
      some (g.number (remains remainDims) r, g.number ((remains remainDims).map not) r) :=
    keyAndColor_eq (g.position_lt hr) Nat.zero_lt_one Nat.zero_lt_one (by rwa [Nat.one_mul])
      (by rwa [Nat.one_mul])
  unfold subEntry
  rw [show (g.topology r).dims = g.dims from rfl, show (g.topology r).position = g.position r from rfl,
    h]
  rfl

end positions

/-! ## The processes of a color -/

section color

variable (g : Grid) {bs : List Bool} {q r : Nat}

def Grid.rankOf (bs : List Bool) (r j : Nat) : Nat :=
  value 0 g.dims (merge bs (digits (keep bs g.dims).prod j (keep bs g.dims))
    (keep (bs.map not) (g.position r)))

def Grid.ranks (bs : List Bool) (r : Nat) : List Nat :=
  (List.range (keep bs g.dims).prod).map (g.rankOf bs r)

variable {g}

theorem Grid.rankOf_spec (hlen : bs.length = g.dims.length) (hr : r < g.dims.prod) {j : Nat}
    (hj : j < (keep bs g.dims).prod) :
    g.rankOf bs r j < g.dims.prod ∧ g.number bs (g.rankOf bs r j) = j ∧
      g.Agree bs (g.rankOf bs r j) r := by
  have hkept := digits_lt (fun d hd => g.pos d (mem_keep hd)) hj
  obtain ⟨hdigits, hkeep, hdrop⟩ := forall₂_merge hlen hkept
    (forall₂_keep (g.position_lt hr))
  have hpos : g.position (g.rankOf bs r j) = merge bs (digits (keep bs g.dims).prod j (keep bs g.dims))
      (keep (bs.map not) (g.position r)) := digits_value hdigits
  refine ⟨value_lt hdigits, ?_, ?_⟩
  · rw [Grid.number, hpos, hkeep]
    exact value_digits (fun d hd => g.pos d (mem_keep hd)) hj
  · rw [Grid.Agree, hpos, hdrop]

theorem Grid.rankOf_number (hlen : bs.length = g.dims.length) (hq : q < g.dims.prod)
    (h : g.Agree bs q r) : g.rankOf bs r (g.number bs q) = q := by
  have hlen' : bs.length = (g.position q).length := by
    rw [hlen, Grid.position, length_digits]
  rw [Grid.rankOf, g.digits_number hq, ← (show keep (bs.map not) (g.position q) = _ from h),
    merge_keep hlen']
  exact value_digits g.pos hq

theorem Grid.mem_ranks (hlen : bs.length = g.dims.length) (hr : r < g.dims.prod) :
    q ∈ g.ranks bs r ↔ q < g.dims.prod ∧ g.Agree bs q r := by
  constructor
  · intro h
    obtain ⟨j, hj, rfl⟩ := List.mem_map.1 h
    obtain ⟨hlt, -, hagree⟩ := g.rankOf_spec hlen hr (mem_range.1 hj)
    exact ⟨hlt, hagree⟩
  · rintro ⟨hq, h⟩
    exact List.mem_map.2 ⟨g.number bs q, mem_range.2 (g.number_lt hq), g.rankOf_number hlen hq h⟩

theorem Grid.pairwise_ranks (hlen : bs.length = g.dims.length) (hr : r < g.dims.prod) :
    (g.ranks bs r).Pairwise fun p q => g.number bs p < g.number bs q := by
  refine pairwise_map.2 (pairwise_lt_range.imp_of_mem fun hi hj hlt => ?_)
  rw [(g.rankOf_spec hlen hr (mem_range.1 hi)).2.1,
    (g.rankOf_spec hlen hr (mem_range.1 hj)).2.1]
  exact hlt

theorem Grid.nodup_ranks (hlen : bs.length = g.dims.length) (hr : r < g.dims.prod) :
    (g.ranks bs r).Nodup :=
  (g.pairwise_ranks hlen hr).imp fun hlt heq => Nat.ne_of_lt hlt (congrArg (g.number bs) heq)

theorem Grid.idxOf_ranks (hlen : bs.length = g.dims.length) (hr : r < g.dims.prod) :
    (g.ranks bs r).idxOf r = g.number bs r := by
  have hlt : g.number bs r < (g.ranks bs r).length := by
    rw [Grid.ranks, length_map, length_range]
    exact g.number_lt hr
  have hget : (g.ranks bs r)[g.number bs r] = r := by
    simp only [Grid.ranks, getElem_map, getElem_range]
    exact g.rankOf_number hlen hr rfl
  have hidx := (g.nodup_ranks hlen hr).idxOf_getElem _ hlt
  rwa [hget] at hidx

end color

/-! ## The communicator of a grid -/

theorem keyOrder_nil {color : Int} : KeyOrder [] color [] := ⟨.refl _, .nil⟩

section create

variable {g : Grid} {n : Nat} {comm : CommPtr} {table : List Splittype}

theorem split_reorder {size : Nat} (hn : size ≤ n) (hkind : comm.commKind = .intracomm)
    (hr : comm.rank < n)
    (htable : table = (List.range n).map fun q =>
      (⟨if cartMap q size = undefined then undefined else 1, cartMap q size⟩ : Splittype))
    (qsort : Option Qsort) (getContextid : Bool → Nat) :
    ∃ newcomm freed, splitImpl qsort comm table []
        (if cartMap comm.rank size = undefined then undefined else 1) getContextid 0 =
          some (newcomm, freed) ∧
      (comm.rank < size → ∃ c, newcomm = some c ∧
        ∀ x, x ∈ c.l2l ↔ ∃ q < size, x = (q : Int)) := by
  have hmap : ∀ q, cartMap q size = undefined ↔ ¬ q < size := by
    intro q
    unfold cartMap undefined
    split <;> omega
  obtain ⟨ranks, hranks⟩ :=
    exists_keyOrder table (if cartMap comm.rank size = undefined then undefined else 1)
  have hown : table[comm.rank]?.map Splittype.color =
      some (if cartMap comm.rank size = undefined then undefined else 1) := by
    rw [htable, List.getElem?_map, List.getElem?_range hr]
    rfl
  obtain ⟨freed, hsplit⟩ := splitImpl_spec hranks keyOrder_nil qsort
    comm getContextid 0 hown
  refine ⟨_, freed, hsplit, fun hlt => ?_⟩
  have hcolor : (if cartMap comm.rank size = undefined then undefined else 1) = (1 : Int) :=
    if_neg fun h => (hmap _).1 h hlt
  rw [hcolor] at hranks ⊢
  unfold obtained
  simp only [hkind, if_pos (show (1 : Int) ≠ undefined by decide)]
  refine ⟨_, rfl, fun x => ?_⟩
  rw [List.mem_map]
  have hmem : ∀ q, q ∈ ranks ↔ q < size := by
    intro q
    rw [hranks.perm.mem_iff, mem_colorRanks, htable, List.getElem?_map]
    by_cases hq : q < n
    · rw [List.getElem?_range hq, Option.map_some, Option.map_some, Option.some.injEq]
      show (if cartMap q size = undefined then undefined else 1) = (1 : Int) ↔ q < size
      rw [← not_iff_not, ← hmap]
      split <;> simp_all [undefined]
    · rw [List.getElem?_eq_none (by simpa using hq)]
      exact iff_of_false nofun (by omega)
  constructor
  · rintro ⟨q, hq, rfl⟩
    exact ⟨q, (hmem q).1 hq, rfl⟩
  · rintro ⟨q, hq, rfl⟩
    exact ⟨q, (hmem q).2 hq, rfl⟩

theorem cartCreate_grid (hdims : g.dims ≠ []) (hn : g.dims.prod ≤ n)
    (hkind : comm.commKind = .intracomm) (hr : comm.rank < n)
    (htable : table = (List.range n).map fun q =>
      (⟨if cartMap q g.dims.prod = undefined then undefined else 1, cartMap q g.dims.prod⟩ :
        Splittype))
    (qsort : Option Qsort) (reorder : Bool) (getContextid : Bool → Nat) :
    if comm.rank < g.dims.prod then
      ∃ c, cartCreate qsort comm n g.dims g.periodic reorder table getContextid =
          some (.comm c (g.topology comm.rank)) ∧
        ∀ x, x ∈ c.members comm.rank ↔ ∃ q < g.dims.prod, x = (q : Int)
    else cartCreate qsort comm n g.dims g.periodic reorder table getContextid = some .null := by
  have hsize : newsize g.dims = some g.dims.prod := by
    rw [newsize, newsize_eq g.pos (by rw [Nat.one_mul]; exact g.fits), Nat.one_mul]
  have hposition : cartPosition g.dims.prod comm.rank g.dims = some (g.position comm.rank) :=
    cartPosition_eq g.pos
  obtain ⟨newcomm, freed, hsplit, hmem⟩ := split_reorder hn hkind hr htable qsort getContextid
  unfold cartCreate
  simp only [hsize, bind, bind_some, if_neg (Nat.not_lt.2 hn), if_neg hdims]
  by_cases hlt : comm.rank < g.dims.prod
  · rw [if_pos hlt]
    have hrank : ¬ ((comm.rank : Int) ≥ g.dims.prod ∨ (comm.rank : Int) = undefined) := by
      unfold undefined
      omega
    cases reorder with
    | false =>
      refine ⟨.copy g.dims.prod, ?_, fun x => ?_⟩
      · simp only [cartComm, Bool.false_eq_true, if_false, if_pos hlt, bind_some, if_neg hrank,
          Int.toNat_natCast, hposition]
        rfl
      · rw [Newcart.members, List.mem_map]
        constructor
        · rintro ⟨q, hq, rfl⟩
          exact ⟨q, mem_range.1 hq, rfl⟩
        · rintro ⟨q, hq, rfl⟩
          exact ⟨q, mem_range.2 hq, rfl⟩
    | true =>
      obtain ⟨c, rfl, hmembers⟩ := hmem hlt
      have hmap : cartMap comm.rank g.dims.prod = comm.rank := if_pos hlt
      refine ⟨.split c, ?_, hmembers⟩
      simp only [cartComm, if_true, bind, hsplit, bind_some, Option.map_some, pure]
      rw [hmap, if_neg hrank, Int.toNat_natCast, hposition]
      rfl
  · rw [if_neg hlt]
    cases reorder with
    | false =>
      have hrank : (comm.rank : Int) ≥ g.dims.prod ∨ (comm.rank : Int) = undefined := by omega
      simp only [cartComm, Bool.false_eq_true, if_false, bind_some, if_pos hrank]
      rfl
    | true =>
      have hmap : cartMap comm.rank g.dims.prod = undefined := if_neg hlt
      simp only [cartComm, if_true, bind, hsplit, bind_some, pure]
      rw [hmap, if_pos (.inr rfl)]

end create

/-! ## The sub-grids -/

section sub

variable {g : Grid} {remainDims : List Int} {table : List Splittype} {q r : Nat}

theorem Grid.gathered_eq (hlen : remainDims.length = g.dims.length) :
    g.gathered remainDims = some ((List.range g.dims.prod).map fun q =>
      ⟨g.number ((remains remainDims).map not) q, g.number (remains remainDims) q⟩) := by
  refine mapM_eq_some fun q hq => ?_
  exact g.subEntry_eq hlen (mem_range.1 hq)

theorem Grid.keyOrder (hlen : remainDims.length = g.dims.length) (hr : r < g.dims.prod)
    (htable : g.gathered remainDims = some table) :
    KeyOrder table (g.number ((remains remainDims).map not) r) (g.ranks (remains remainDims) r) := by
  have hlen' : (remains remainDims).length = g.dims.length := by rw [remains, length_map, hlen]
  obtain rfl := Option.some.inj (htable.symm.trans (g.gathered_eq hlen))
  refine ⟨(perm_ext_iff_of_nodup (g.nodup_ranks hlen' hr) (nodup_range.filter _)).2
    fun q => ?_, ?_⟩
  · change _ ↔ q ∈ colorRanks _ _
    rw [g.mem_ranks hlen' hr, mem_colorRanks, List.getElem?_map]
    constructor
    · rintro ⟨hq, h⟩
      rw [List.getElem?_range hq]
      exact congrArg (fun c : Nat => some (c : Int)) ((g.agree_iff hq hr).2 h)
    · intro h
      by_cases hq : q < g.dims.prod
      · rw [List.getElem?_range hq] at h
        exact ⟨hq, (g.agree_iff hq hr).1 (Int.ofNat.inj (Option.some.inj h))⟩
      · rw [List.getElem?_eq_none (by simpa using hq)] at h
        cases h
  · refine (g.pairwise_ranks hlen' hr).imp_of_mem fun {p q} hp hq hlt => .inl ?_
    have hkey : ∀ p ∈ g.ranks (remains remainDims) r,
        keyAt ((List.range g.dims.prod).map fun q =>
          (⟨g.number ((remains remainDims).map not) q, g.number (remains remainDims) q⟩ :
            Splittype)) p = g.number (remains remainDims) p := by
      intro p hp
      have hplt := ((g.mem_ranks hlen' hr).1 hp).1
      simp [keyAt, hplt]
    rw [hkey p hp, hkey q hq]
    exact Int.ofNat_lt.2 hlt

theorem Grid.cartSub_eq (hlen : remainDims.length = g.dims.length)
    (htable : g.gathered remainDims = some table) (hall : allFalse remainDims = false)
    (qsort : Option Qsort) (comm : CommPtr) (hkind : comm.commKind = .intracomm)
    (hr : comm.rank < g.dims.prod) (getContextid : Bool → Nat) :
    ∃ newcomm, newcomm.l2l = (g.ranks (remains remainDims) comm.rank).map Int.ofNat ∧
      cartSub qsort comm g.dims.prod (some (.cart (g.topology comm.rank))) remainDims table
        getContextid = some (.comm (.split newcomm)
          ⟨(keep (remains remainDims) g.dims).prod, (keep (remains remainDims) g.dims).length,
            keep (remains remainDims) g.dims, keep (remains remainDims) g.periodic,
            keep (remains remainDims) (g.position comm.rank)⟩) := by
  have hlen' : (remains remainDims).length = g.dims.length := by rw [remains, length_map, hlen]
  have hentry := g.subEntry_eq hlen hr
  have hown : table[comm.rank]?.map Splittype.color =
      some (g.number ((remains remainDims).map not) comm.rank : Int) := by
    rw [Option.some.inj (htable.symm.trans (g.gathered_eq hlen)), List.getElem?_map,
      List.getElem?_range hr]
    rfl
  obtain ⟨freed, hsplit⟩ := splitImpl_spec (g.keyOrder hlen hr htable)
    keyOrder_nil qsort comm getContextid 0 hown
  have hcolor : (g.number ((remains remainDims).map not) comm.rank : Int) ≠ undefined := by
    unfold undefined
    omega
  obtain ⟨hfits, -⟩ := g.keep_le hlen'
  have hpos : ∀ d ∈ keep (remains remainDims) g.dims, 0 < d := fun d hd => g.pos d (mem_keep hd)
  have hnnodes : nnodesInSubcomm (remains remainDims) g.dims 1 =
      some (keep (remains remainDims) g.dims).prod := by
    rw [nnodesInSubcomm_eq g.pos (by rwa [Nat.one_mul]), Nat.one_mul]
  have hposition : cartPosition (keep (remains remainDims) g.dims).prod
      ((g.ranks (remains remainDims) comm.rank).idxOf comm.rank) (keep (remains remainDims) g.dims) =
      some (keep (remains remainDims) (g.position comm.rank)) := by
    rw [cartPosition_eq hpos, g.idxOf_ranks hlen' hr, g.digits_number hr]
  unfold obtained at hsplit
  simp only [hkind, if_pos hcolor] at hsplit
  let ranks := g.ranks (remains remainDims) comm.rank
  refine ⟨⟨getContextid false, getContextid false, ranks.length, ranks.length, .intracomm,
    some (ranks.idxOf comm.rank), ranks.map Int.ofNat, [], none⟩, rfl, ?_⟩
  unfold cartSub
  simp only [hall, show (g.topology comm.rank).dims = g.dims from rfl,
    show (g.topology comm.rank).periodic = g.periodic from rfl, hnnodes, hentry, bind,
    bind_some, hsplit, hposition]
  rfl

theorem cartSub_allFalse (hall : allFalse remainDims = true) (qsort : Option Qsort) (comm : CommPtr)
    {n : Nat} (hn : 0 < n) (t : CartTopology) (getContextid : Bool → Nat) :
    cartSub qsort comm n (some (.cart t)) remainDims table getContextid =
      some (if comm.rank = 0 then .comm .self ⟨1, 0, [], [], []⟩ else .null) := by
  unfold cartSub cartCreate
  simp only [hall, if_true, newsize, foldlM_nil, pure, bind, bind_some,
    if_neg (Nat.not_lt.2 hn)]
  split <;> rfl

theorem keep_not_of_allFalse {α : Type} {xs : List α} (hall : allFalse remainDims = true)
    (hlen : remainDims.length = xs.length) : keep ((remains remainDims).map not) xs = xs ∧
      keep (remains remainDims) xs = [] := by
  induction remainDims generalizing xs with
  | nil =>
    obtain rfl := length_eq_zero_iff.1 hlen.symm
    exact ⟨rfl, rfl⟩
  | cons d ds ih =>
    obtain ⟨x, xs, rfl⟩ := exists_cons_of_length_eq_add_one hlen.symm
    have hd : d = 0 := by
      by_contra hd
      simp [allFalse, remains, hd] at hall
    have htail : allFalse ds = true := by simpa [allFalse, remains, hd] using hall
    obtain ⟨h₁, h₂⟩ := ih htail (Nat.succ.inj hlen)
    subst hd
    exact ⟨congrArg (x :: ·) h₁, h₂⟩

/-- In a Cartesian communicator every process gets the communicator of the processes that agree with it
in the dropped coordinates, and its remaining coordinates as its position; except that, if no
dimension remains, only the first process gets a communicator. -/
theorem cart_sub_grids (g : Grid) (remainDims : List Int)
    (hlen : remainDims.length = g.dims.length) :
    ∃ table, g.gathered remainDims = some table ∧
      ∀ (qsort : Option Qsort) (comm : CommPtr) (getContextid : Bool → Nat),
        comm.commKind = .intracomm → comm.rank < g.dims.prod →
        if allFalse remainDims = true ∧ comm.rank ≠ 0 then
          cartSub qsort comm g.dims.prod (some (.cart (g.topology comm.rank))) remainDims table
            getContextid = some .null
        else SubGrid g remainDims comm.rank
          (cartSub qsort comm g.dims.prod (some (.cart (g.topology comm.rank))) remainDims table
            getContextid) := by
  refine ⟨_, g.gathered_eq hlen, fun qsort comm getContextid hkind hr => ?_⟩
  have hlen' : (remains remainDims).length = g.dims.length := by rw [remains, length_map, hlen]
  cases hall : allFalse remainDims with
  | false =>
    obtain ⟨newcomm, hl2l, hsub⟩ :=
      g.cartSub_eq hlen (g.gathered_eq hlen) hall qsort comm hkind hr getContextid
    rw [if_neg (by simp), hsub]
    refine ⟨.split newcomm, _, rfl, ?_, fun x => ?_, rfl⟩
    · rw [Newcart.members, hl2l]
      exact (g.nodup_ranks hlen' hr).map fun _ _ => Int.ofNat.inj
    · rw [Newcart.members, hl2l, List.mem_map]
      constructor
      · rintro ⟨q, hq, rfl⟩
        obtain ⟨hqn, hagree⟩ := (g.mem_ranks hlen' hr).1 hq
        exact ⟨q, hqn, rfl, hagree⟩
      · rintro ⟨q, hqn, rfl, hagree⟩
        exact ⟨q, (g.mem_ranks hlen' hr).2 ⟨hqn, hagree⟩, rfl⟩
  | true =>
    rw [cartSub_allFalse hall qsort comm (Nat.zero_lt_of_lt hr)]
    by_cases hzero : comm.rank = 0
    · rw [if_neg fun h => h.2 hzero, if_pos hzero]
      have hpos : ∀ q, remainDims.length = (g.position q).length := by
        intro q
        rw [hlen, Grid.position, length_digits]
      refine ⟨.self, _, rfl, nodup_singleton _, fun x => ?_, ?_⟩
      · rw [Newcart.members, mem_singleton]
        constructor
        · rintro rfl
          exact ⟨comm.rank, hr, rfl, rfl⟩
        · rintro ⟨q, hq, rfl, hagree⟩
          rw [Grid.Agree, (keep_not_of_allFalse hall (hpos q)).1,
            (keep_not_of_allFalse hall (hpos _)).1, g.position_inj hq hr] at hagree
          rw [hagree]
      · exact (keep_not_of_allFalse hall (hpos _)).2.symm
    · rw [if_pos ⟨rfl, hzero⟩, if_neg hzero]

/-- The rows of a grid of two rows of three processes: the last process is at the end of the second
row, and has the third position in it. -/
theorem cart_sub_grids_rows : ∃ newcomm t,
    cartSub none ⟨.intracomm, 5, false⟩ 6 (some (.cart ⟨6, 2, [2, 3], [false, false], [1, 2]⟩)) [0, 1]
      [⟨0, 0⟩, ⟨0, 1⟩, ⟨0, 2⟩, ⟨1, 0⟩, ⟨1, 1⟩, ⟨1, 2⟩] (fun _ => 4) = some (.comm newcomm t) ∧
    (3 : Int) ∈ newcomm.members 5 ∧ t.position = [2] := by
  obtain ⟨table, htable, hsub⟩ := cart_sub_grids ⟨[2, 3], [false, false], by decide, by decide⟩
    [0, 1] rfl
  obtain rfl : table = [⟨0, 0⟩, ⟨0, 1⟩, ⟨0, 2⟩, ⟨1, 0⟩, ⟨1, 1⟩, ⟨1, 2⟩] :=
    Option.some.inj (htable.symm.trans (by decide))
  obtain ⟨c, t, heq, -, hmem, hpos⟩ :=
    hsub none ⟨.intracomm, 5, false⟩ (fun _ => 4) rfl (by decide)
  exact ⟨c, t, heq, (hmem 3).2 ⟨3, by decide, rfl, rfl⟩, hpos⟩

/-- A grid of two processes, and no dimension remains: the second process gets no communicator. -/
theorem cart_sub_none : ¬ ∀ (g : Grid) (remainDims : List Int),
    remainDims.length = g.dims.length →
    ∃ table, g.gathered remainDims = some table ∧ ∀ r < g.dims.prod, SubGrid g remainDims r
      (cartSub none ⟨.intracomm, r, false⟩ g.dims.prod (some (.cart (g.topology r))) remainDims table
        fun _ => 4) := by
  intro h
  obtain ⟨table, -, hsub⟩ := h ⟨[2], [false], by decide, by decide⟩ [0] rfl
  obtain ⟨c, t, heq, -⟩ := hsub 1 (by decide)
  rw [cartSub_allFalse rfl _ _ (by decide)] at heq
  cases heq

end sub

end PsMpi.Topo
