import PsMpi.Topo.CartOk
import PsMpi.Group.Translate
import Mathlib.Data.List.GetD

/-!
# Coordinates and shifts in a Cartesian communicator
-/

open List PsMpi.Comm PsMpi.Groups PsMpi.Lib PsMpi.Lib.MixedRadix

namespace PsMpi.Topo

/-- `MAX_CART_DIM` (`mpir_topo.h:78`). -/
def maxCartDim : Nat := 16

/-- `MPIR_Cart_coords_impl` (`topo_impl.c:8`). -/
def cartCoords (t : CartTopology) (rank : Nat) : Option (List Nat) :=
  cartPosition t.nnodes rank t.dims

/-- `MPIR_Cart_rank_impl` (:227). -/
def reduceCoord (d : Nat) (periodic : Bool) (coord : Int) : Int :=
  if periodic then
    if coord ≥ d then coord.tmod d
    else if coord < 0 then
      if coord.tmod d ≠ 0 then d + coord.tmod d else coord.tmod d
    else coord
  else coord

/-- Line 225. -/
def cartRankLoop : List Nat → List Bool → List Int → Option (Int × Nat)
  | d :: dims, p :: periodic, coord :: coords => do
    let (rank, multiplier) ← cartRankLoop dims periodic coords
    let summand ← fitInt (multiplier * reduceCoord d p coord)
    return (← fitInt (rank + summand), ← mulInt multiplier d)
  | _, _, _ => some (0, 1)

/-- Line 212. -/
def cartRank (t : CartTopology) (coords : List Int) : Option Int :=
  (cartRankLoop t.dims t.periodic coords).map (·.1)

/-- The process at a position that differs in one direction from the own one. Reference:
`MPIR_Cart_shift_impl` (:276). -/
def shiftTo (t : CartTopology) (direction : Nat) (pos : Int) : Option Int :=
  if t.periodic.getD direction false = false ∧ (pos ≥ t.dims.getD direction 0 ∨ pos < 0) then
    some procNull
  else cartRank t ((t.position.map Int.ofNat).set direction pos)

/-- Line 246. -/
def cartShift (topo : Option Topology) (rank direction : Nat) (disp : Int) :
    Option (Except String (Int × Int)) :=
  match topo with
  | some (.cart t) =>
    if t.ndims = 0 then some (.error "**dimszero")
    else if direction ≥ t.ndims then some (.error "**dimsmany")
    else if disp = 0 then some (.ok (rank, rank))
    else if t.ndims > maxCartDim then none  -- the position does not fit into `pos`
    else do
      let position := t.position.getD direction 0
      let dest ← shiftTo t direction (← fitInt (position + disp))
      let source ← shiftTo t direction (← fitInt (position - disp))
      return .ok (source, dest)
  | _ => some (.error "**notcarttopo")

/-! ## What the operations are for -/

def Stands (d : Nat) (periodic : Bool) (coord : Int) (x : Nat) : Prop :=
  x < d ∧ ((x : Int) = coord ∨ periodic = true ∧ (x : Int) = coord % d)

def StandFor : List Nat → List Bool → List Int → List Nat → Prop
  | [], [], [], [] => True
  | d :: dims, p :: periodic, coord :: coords, x :: xs =>
    Stands d p coord x ∧ StandFor dims periodic coords xs
  | _, _, _, _ => False

/-- Ranks and coordinates determine each other, and every process is the source of its destination
and the other way round. -/
def CartOps (g : Grid) (direction : Nat) (disp : Int) : Prop :=
  (∀ q, ∀ r < g.dims.prod, ∃ xs, cartCoords (g.topology q) r = some xs ∧
    cartRank (g.topology q) (xs.map Int.ofNat) = some (r : Int)) ∧
  (∀ q coords xs, StandFor g.dims g.periodic coords xs → ∃ r < g.dims.prod,
    cartRank (g.topology q) coords = some (r : Int) ∧ cartCoords (g.topology q) r = some xs) ∧
  ∀ r < g.dims.prod, ∀ s < g.dims.prod, ∃ source dest source' dest' : Int,
    cartShift (some (.cart (g.topology r))) r direction disp = some (.ok (source, dest)) ∧
    cartShift (some (.cart (g.topology s))) s direction disp = some (.ok (source', dest')) ∧
    (dest = s ↔ source' = r)

/-! ## Ranks -/

section ranks

variable {g : Grid} {ds xs : List Nat} {ps : List Bool} {cs : List Int} {d x q r s : Nat} {p : Bool}
  {c : Int}

theorem reduceCoord_eq (h : Stands d p c x) : reduceCoord d p c = x := by
  obtain ⟨hx, h | ⟨rfl, h⟩⟩ := h
  · unfold reduceCoord
    rw [if_neg (by omega : ¬ c ≥ d), if_neg (by omega : ¬ c < 0), h, ite_self]
  · have hd : (d : Int) ≠ 0 := by omega
    unfold reduceCoord
    rw [if_pos rfl, h]
    split
    · exact Int.tmod_eq_emod_of_nonneg (by omega)
    · split
      · rename_i hneg
        have htmod : c.tmod d = -((-c) % d) := by
          rw [← Int.tmod_eq_emod_of_nonneg (by omega), Int.neg_tmod, Int.neg_neg]
        rw [htmod]
        have hneg' : (-c) % d = if (d : Int) ∣ c then 0 else d - c % d := by
          rw [Int.neg_emod]
          simp
        by_cases hdvd : (d : Int) ∣ c
        · rw [if_pos hdvd] at hneg'
          rw [hneg', Int.emod_eq_zero_of_dvd hdvd]
          rfl
        · rw [if_neg hdvd] at hneg'
          have hlt := Int.emod_lt_of_pos c (by omega : (0 : Int) < d)
          rw [hneg', if_pos (by omega)]
          omega
      · exact (Int.emod_eq_of_lt (by omega) (by omega)).symm

theorem StandFor.digits_lt (h : StandFor ds ps cs xs) : Forall₂ (fun d x => x < d) ds xs := by
  induction ds generalizing ps cs xs with
  | nil =>
    cases ps <;> cases cs <;> cases xs <;> first | exact .nil | cases h
  | cons d ds ih =>
    rcases ps with _ | ⟨p, ps⟩ <;> rcases cs with _ | ⟨c, cs⟩ <;> rcases xs with _ | ⟨x, xs⟩ <;>
      first | cases h; done | exact .cons h.1.1 (ih h.2)

theorem isInt_of_le {n : Nat} (h : n ≤ intMax) : IsInt n := by
  unfold intMax at h
  exact ⟨by omega, by omega⟩

theorem cartRankLoop_eq (h : StandFor ds ps cs xs) (hfits : ds.prod ≤ intMax) :
    cartRankLoop ds ps cs = some (((value 0 ds xs : Nat) : Int), ds.prod) := by
  induction ds generalizing ps cs xs with
  | nil => cases ps <;> cases cs <;> cases xs <;> rfl
  | cons d ds ih =>
    rcases ps with _ | ⟨p, ps⟩ <;> rcases cs with _ | ⟨c, cs⟩ <;> rcases xs with _ | ⟨x, xs⟩ <;>
      try cases h; done
    obtain ⟨hc, h⟩ := h
    have hlt := value_lt (Forall₂.cons hc.1 h.digits_lt)
    have hv : value 0 (d :: ds) (x :: xs) = x * ds.prod + value 0 ds xs := by
      rw [value, value_eq h.digits_lt, Nat.zero_mul, Nat.zero_add]
    have hmul : ds.prod * d ≤ intMax := by rwa [Nat.mul_comm, ← prod_cons]
    have hle : ds.prod ≤ intMax := (Nat.le_mul_of_pos_right _ (Nat.zero_lt_of_lt hc.1)).trans hmul
    have hle' : x * ds.prod + value 0 ds xs ≤ intMax := by
      rw [← hv]
      exact Nat.le_of_lt (hlt.trans_le hfits)
    have hcomm : (ds.prod : Int) * x = (x * ds.prod : Nat) := by
      push_cast
      ring
    have h₁ : fitInt (x * ds.prod : Nat) = some ((x * ds.prod : Nat) : Int) :=
      if_pos (isInt_of_le ((Nat.le_add_right _ _).trans hle'))
    have h₂ : fitInt (x * ds.prod + value 0 ds xs : Nat) =
        some ((x * ds.prod + value 0 ds xs : Nat) : Int) := if_pos (isInt_of_le hle')
    calc cartRankLoop (d :: ds) (p :: ps) (c :: cs)
      _ = (cartRankLoop ds ps cs).bind fun a => (fitInt (a.2 * reduceCoord d p c)).bind fun b =>
          (fitInt (a.1 + b)).bind fun rank => (mulInt a.2 d).bind fun n => some (rank, n) := rfl
      _ = some (((value 0 (d :: ds) (x :: xs) : Nat) : Int), (d :: ds).prod) := by
        rw [ih h hle, Option.bind_some, reduceCoord_eq hc, hcomm, h₁, Option.bind_some,
          ← Int.natCast_add, Nat.add_comm, h₂, Option.bind_some, mulInt_of_le hmul,
          Option.bind_some, hv, prod_cons, Nat.mul_comm d]

theorem cartRank_eq (h : StandFor g.dims g.periodic cs xs) :
    cartRank (g.topology q) cs = some ((value 0 g.dims xs : Nat) : Int) := by
  rw [cartRank, Grid.topology, cartRankLoop_eq h g.fits]
  rfl

theorem standFor_ofNat (hlen : ps.length = ds.length) (h : Forall₂ (fun d x => x < d) ds xs) :
    StandFor ds ps (xs.map Int.ofNat) xs := by
  induction h generalizing ps with
  | nil =>
    obtain rfl := length_eq_zero_iff.1 hlen
    trivial
  | cons hx h ih =>
    obtain ⟨p, ps, rfl⟩ := exists_cons_of_length_eq_add_one hlen
    exact ⟨⟨hx, .inl rfl⟩, ih (Nat.succ.inj hlen)⟩

theorem standFor_set {i : Nat} (h : StandFor ds ps cs xs)
    (hc : Stands (ds.getD i 0) (ps.getD i false) c x) :
    StandFor ds ps (cs.set i c) (xs.set i x) := by
  induction ds generalizing ps cs xs i with
  | nil => cases hc.1
  | cons d ds ih =>
    rcases ps with _ | ⟨p, ps⟩ <;> rcases cs with _ | ⟨c', cs⟩ <;> rcases xs with _ | ⟨x', xs⟩ <;>
      try cases h; done
    cases i with
    | zero => exact ⟨hc, h.2⟩
    | succ i => exact ⟨h.1, ih h.2 hc⟩

end ranks

/-! ## Shifts -/

section shifts

variable {g : Grid} {i r s : Nat} {disp : Int}

def Grid.Away (g : Grid) (i : Nat) (disp : Int) (r s : Nat) : Prop :=
  ∃ x, Stands (g.dims.getD i 0) (g.periodic.getD i false) ((g.position r).getD i 0 + disp) x ∧
    g.position s = (g.position r).set i x

theorem Grid.position_getD_lt (hr : r < g.dims.prod) (hi : i < g.dims.length) :
    (g.position r).getD i 0 < g.dims.getD i 0 := by
  have h := g.position_lt hr
  have hi' : i < (g.position r).length := h.length_eq ▸ hi
  rw [getD_eq_getElem _ _ hi', getD_eq_getElem _ _ hi]
  exact h.get hi hi'

theorem Grid.Away.symm (hr : r < g.dims.prod) (hi : i < g.dims.length) (h : g.Away i disp r s) :
    g.Away i (-disp) s r := by
  obtain ⟨x, ⟨hx, hstands⟩, hs⟩ := h
  have hp := g.position_getD_lt hr hi
  have hi' : i < (g.position r).length := by rwa [Grid.position, length_digits]
  have hget : (g.position s).getD i 0 = x := by
    rw [hs, getD_eq_getElem _ _ (by rwa [length_set]), getElem_set_self]
  refine ⟨(g.position r).getD i 0, ⟨hp, ?_⟩, ?_⟩
  · rw [hget]
    rcases hstands with h | ⟨hperiodic, h⟩
    · exact .inl (by omega)
    · refine .inr ⟨hperiodic, ?_⟩
      rw [h, ← Int.sub_eq_add_neg, Int.emod_sub_emod, Int.add_sub_cancel]
      exact (Int.emod_eq_of_lt (by omega) (by omega)).symm
  · rw [hs, set_set, getD_eq_getElem _ _ hi', set_getElem_self]

theorem shiftTo_spec (disp : Int) (hlen : g.periodic.length = g.dims.length) (hr : r < g.dims.prod)
    (hs : s < g.dims.prod) (hi : i < g.dims.length) :
    ∃ v, shiftTo (g.topology r) i ((g.position r).getD i 0 + disp) = some v ∧
      (v = s ↔ g.Away i disp r s) := by
  unfold shiftTo Grid.topology
  simp only
  split
  · rename_i hedge
    refine ⟨procNull, rfl, iff_of_false (by unfold procNull; omega) ?_⟩
    rintro ⟨x, ⟨hx, h⟩, -⟩
    rw [hedge.1] at h
    simp only [Bool.false_eq_true, false_and, or_false] at h
    omega
  · rename_i hedge
    have hd := Nat.zero_lt_of_lt (g.position_getD_lt hr hi)
    have hstands : ∃ x, Stands (g.dims.getD i 0) (g.periodic.getD i false)
        ((g.position r).getD i 0 + disp) x := by
      cases hp : g.periodic.getD i false with
      | true =>
        have h₁ := Int.emod_nonneg ((g.position r).getD i 0 + disp)
          (by omega : (g.dims.getD i 0 : Int) ≠ 0)
        have h₂ := Int.emod_lt_of_pos ((g.position r).getD i 0 + disp)
          (by omega : (0 : Int) < g.dims.getD i 0)
        exact ⟨_, by omega, .inr ⟨rfl, Int.toNat_of_nonneg h₁⟩⟩
      | false =>
        have h := not_and.1 hedge hp
        exact ⟨((g.position r).getD i 0 + disp).toNat, by omega, .inl (by omega)⟩
    obtain ⟨x, hx⟩ := hstands
    have hstand := standFor_set (standFor_ofNat hlen (g.position_lt hr)) hx
    refine ⟨_, cartRank_eq (q := r) hstand, ?_⟩
    have hdigits := digits_value hstand.digits_lt
    have hv : (value 0 g.dims ((g.position r).set i x) : Nat) = s ↔
        g.position s = (g.position r).set i x := by
      constructor
      · rintro rfl
        exact hdigits
      · intro h
        rw [← h, Grid.position, value_digits g.pos hs]
    rw [Int.ofNat_inj, hv]
    refine ⟨fun h => ⟨x, hx, h⟩, ?_⟩
    rintro ⟨y, hy, h⟩
    rwa [Int.ofNat_inj.1 ((reduceCoord_eq hy).symm.trans (reduceCoord_eq hx))] at h

theorem cartShift_of_ne (hi : i < g.dims.length) (hdisp : disp ≠ 0) :
    cartShift (some (.cart (g.topology r))) r i disp = if g.dims.length > maxCartDim then none else
      (fitInt ((g.position r).getD i 0 + disp)).bind fun pos =>
        (shiftTo (g.topology r) i pos).bind fun dest =>
          (fitInt ((g.position r).getD i 0 - disp)).bind fun pos =>
            (shiftTo (g.topology r) i pos).bind fun source => some (.ok (source, dest)) := by
  unfold cartShift
  simp only [show (g.topology r).ndims = g.dims.length from rfl, if_neg (Nat.ne_zero_of_lt hi),
    if_neg (Nat.not_le.2 hi), if_neg hdisp]
  rfl

theorem cartShift_eq (hlen : g.periodic.length = g.dims.length) (hi : i < g.dims.length)
    (hdims : g.dims.length ≤ maxCartDim) (hdisp : disp ≠ 0) (hint : IsInt disp)
    (hfits : (g.dims.getD i 0 : Int) - 1 + disp.natAbs ≤ intMax) (hr : r < g.dims.prod)
    (hs : s < g.dims.prod) :
    ∃ source dest, cartShift (some (.cart (g.topology r))) r i disp = some (.ok (source, dest)) ∧
      (source = s ↔ g.Away i (-disp) r s) ∧ (dest = s ↔ g.Away i disp r s) := by
  have hp := g.position_getD_lt hr hi
  have hmax : (intMax : Int) = 2 ^ 31 - 1 := rfl
  have hplus : IsInt ((g.position r).getD i 0 + disp) := by
    obtain ⟨h₁, h₂⟩ := hint
    constructor <;> omega
  have hminus : IsInt ((g.position r).getD i 0 - disp) := by
    obtain ⟨h₁, h₂⟩ := hint
    constructor <;> omega
  obtain ⟨dest, hdest, hdest'⟩ := shiftTo_spec disp hlen hr hs hi
  obtain ⟨source, hsource, hsource'⟩ := shiftTo_spec (-disp) hlen hr hs hi
  refine ⟨source, dest, ?_, hsource', hdest'⟩
  rw [← Int.sub_eq_add_neg] at hsource
  rw [cartShift_of_ne hi hdisp, if_neg (Nat.not_lt.2 hdims), fitInt, if_pos hplus,
    Option.bind_some, hdest, Option.bind_some, fitInt, if_pos hminus, Option.bind_some, hsource]
  rfl

theorem exists_greatest (g : Grid) {i : Nat} (hi : i < g.dims.length) :
    ∃ r < g.dims.prod, ((g.position r).getD i 0 : Int) = g.dims.getD i 0 - 1 := by
  have h : Forall₂ (fun d x => x < d) g.dims (g.dims.map (· - 1)) := by
    rw [forall₂_map_right_iff, forall₂_same]
    exact fun d hd => Nat.sub_lt (g.pos d hd) Nat.one_pos
  refine ⟨value 0 g.dims (g.dims.map (· - 1)), value_lt h, ?_⟩
  have hd := g.pos _ (getElem_mem hi)
  rw [Grid.position, digits_value h, getD_eq_getElem _ _ (by rwa [length_map]),
    getD_eq_getElem _ _ hi, getElem_map]
  omega

/-- The operations are as they should be if and only if the displacement is zero, or the coordinates
fit into the array and no sum overflows. -/
theorem cart_ops_iff (g : Grid) (hlen : g.periodic.length = g.dims.length) {direction : Nat}
    (hdir : direction < g.dims.length) {disp : Int} (hint : IsInt disp) :
    CartOps g direction disp ↔ disp = 0 ∨
      g.dims.length ≤ maxCartDim ∧ (g.dims.getD direction 0 : Int) - 1 + disp.natAbs ≤ intMax := by
  constructor
  · rintro ⟨-, -, h⟩
    by_contra hcond
    obtain ⟨hdisp, hcond⟩ := not_or.1 hcond
    obtain ⟨r, hr, hmax⟩ := exists_greatest g hdir
    obtain ⟨source, dest, -, -, hshift, -⟩ := h r hr r hr
    rw [cartShift_of_ne hdir hdisp] at hshift
    split at hshift
    · cases hshift
    · rename_i hdims
      obtain ⟨a, ha, hshift⟩ := Option.bind_eq_some_iff.1 hshift
      obtain ⟨_, _, hshift⟩ := Option.bind_eq_some_iff.1 hshift
      obtain ⟨b, hb, -⟩ := Option.bind_eq_some_iff.1 hshift
      obtain ⟨⟨-, ha⟩, -⟩ := Option.ite_none_right_eq_some.1 ha
      obtain ⟨⟨-, hb⟩, -⟩ := Option.ite_none_right_eq_some.1 hb
      have hintMax : (intMax : Int) = 2 ^ 31 - 1 := rfl
      exact hcond ⟨Nat.le_of_not_lt hdims, by omega⟩
  · intro hcond
    refine ⟨fun q r hr => ⟨_, cartPosition_eq g.pos, ?_⟩, fun q cs xs h => ?_, fun r hr s hs => ?_⟩
    · exact (cartRank_eq (standFor_ofNat hlen (g.position_lt hr))).trans
        (congrArg (fun r : Nat => some (r : Int)) (value_digits g.pos hr))
    · refine ⟨_, value_lt h.digits_lt, cartRank_eq h, ?_⟩
      exact (cartPosition_eq g.pos).trans (congrArg some (digits_value h.digits_lt))
    · by_cases hdisp : disp = 0
      · have hzero : ∀ q, cartShift (some (.cart (g.topology q))) q direction 0 =
            some (.ok (q, q)) := by
          intro q
          unfold cartShift
          simp only [show (g.topology q).ndims = g.dims.length from rfl,
            if_neg (Nat.ne_zero_of_lt hdir), if_neg (Nat.not_le.2 hdir), if_true]
        subst hdisp
        exact ⟨r, r, s, s, hzero r, hzero s, eq_comm⟩
      · obtain ⟨hdims, hfits⟩ := hcond.resolve_left hdisp
        obtain ⟨source, dest, h, -, hdest⟩ := cartShift_eq hlen hdir hdims hdisp hint hfits hr hs
        obtain ⟨source', dest', h', hsource, -⟩ :=
          cartShift_eq hlen hdir hdims hdisp hint hfits hs hr
        refine ⟨source, dest, source', dest', h, h', hdest.trans (Iff.trans ?_ hsource.symm)⟩
        refine ⟨fun h => h.symm hr hdir, fun h => ?_⟩
        rw [← Int.neg_neg disp]
        exact h.symm hs hdir

theorem cart_ops_iff_ring : CartOps ⟨[3], [true], by decide, by decide⟩ 0 4 :=
  (cart_ops_iff ⟨[3], [true], by decide, by decide⟩ rfl (by decide) (by decide)).2
    (.inr (by decide))

/-- The process at the position one of a ring of two processes and a shift by the greatest `int`:
the sum is negative. -/
theorem cart_shift_overflows :
    ¬ ∀ (g : Grid) (direction : Nat) (disp : Int), g.periodic.length = g.dims.length →
      direction < g.dims.length → IsInt disp → CartOps g direction disp := by
  intro h
  obtain ⟨-, -, hshift⟩ := h ⟨[2], [true], by decide, by decide⟩ 0 (2 ^ 31 - 1) rfl (by decide)
    (by decide)
  obtain ⟨_, _, _, _, hone, -⟩ := hshift 1 (by decide) 1 (by decide)
  rw [cartShift_of_ne (by decide) (by decide), if_neg (by decide),
    show fitInt _ = none by decide] at hone
  cases hone

end shifts

end PsMpi.Topo
