import PsMpi.Topo.CartOk

/-!
# Making a Cartesian communicator
-/

open List PsMpi.Comm PsMpi.Lib PsMpi.Lib.MixedRadix

namespace PsMpi.Topo

/-- `MPIR_Cart_map_impl` (`topo_impl.c:176`). -/
def cartMapImpl (comm : CommPtr) (remoteSize : Nat) (dims : List Nat) :
    Option (Except String Int) := do
  let nranks ← newsize dims
  return if remoteSize < nranks then .error "**topotoolarge" else .ok (cartMap comm.rank nranks)

def mapTable (n : Nat) (dims : List Nat) : List Splittype :=
  (range n).map fun q => ⟨if cartMap q dims.prod = undefined then undefined else 1,
    cartMap q dims.prod⟩

/-- What the creation gives to a process of a communicator of `n` processes: an error if the grid
does not fit, and else a position for each process of the grid and no communicator for the others.
-/
def Created (n : Nat) (dims : List Nat) (r : Nat) (res : Option CartResult) : Prop :=
  if n < dims.prod then res = some (.error "**cartdim")
  else if r < dims.prod then
    ∃ c t, res = some (.comm c t) ∧ t.dims = dims ∧ t.position = digits dims.prod r dims
  else res = some .null

def Mapped (n : Nat) (dims : List Nat) (r : Nat) (res : Option (Except String Int)) : Prop :=
  res = some (if n < dims.prod then .error "**topotoolarge"
    else .ok (if r < dims.prod then r else undefined))

def CreateSafe (n : Nat) (dims : List Nat) : Prop :=
  ∀ (qsort : Option Qsort) (comm : CommPtr) (periods : List Bool) (reorder : Bool)
    (getContextid : Bool → Nat), comm.commKind = .intracomm → comm.rank < n →
    Created n dims comm.rank
      (cartCreate qsort comm n dims periods reorder (mapTable n dims) getContextid) ∧
    Mapped n dims comm.rank (cartMapImpl comm n dims)

section

variable {n : Nat} {dims : List Nat}

theorem newsize_eq_some (hpos : ∀ d ∈ dims, 0 < d) (h : dims.prod ≤ intMax) :
    newsize dims = some dims.prod := by
  rw [newsize, newsize_eq hpos (by rwa [Nat.one_mul]), Nat.one_mul]

theorem newsize_le {acc m : Nat} (h : dims.foldlM mulInt acc = some m) (hacc : acc ≤ intMax) :
    acc * dims.prod ≤ intMax := by
  induction dims generalizing acc with
  | nil => rwa [prod_nil, Nat.mul_one]
  | cons d dims ih =>
    rw [foldlM_cons] at h
    obtain ⟨b, hb, h⟩ := Option.bind_eq_some_iff.1 h
    obtain ⟨hle, rfl⟩ := mulInt_eq_some.1 hb
    rw [prod_cons, ← Nat.mul_assoc]
    exact ih h hle

theorem cartMapImpl_mapped (hpos : ∀ d ∈ dims, 0 < d) (hle : dims.prod ≤ intMax) (comm : CommPtr) :
    Mapped n dims comm.rank (cartMapImpl comm n dims) := by
  rw [Mapped, cartMapImpl, newsize_eq_some hpos hle]
  rfl

theorem cartCreate_created (hpos : ∀ d ∈ dims, 0 < d) (hle : dims.prod ≤ intMax)
    (qsort : Option Qsort) (comm : CommPtr) (periods : List Bool) (reorder : Bool)
    (getContextid : Bool → Nat) (hkind : comm.commKind = .intracomm) (hr : comm.rank < n) :
    Created n dims comm.rank
      (cartCreate qsort comm n dims periods reorder (mapTable n dims) getContextid) := by
  unfold Created
  have hsize := newsize_eq_some hpos hle
  by_cases hn : n < dims.prod
  · rw [if_pos hn]
    unfold cartCreate
    simp only [hsize, bind, Option.bind_some, if_pos hn]
    rfl
  · rw [if_neg hn]
    by_cases hdims : dims = []
    · subst hdims
      unfold cartCreate
      simp only [hsize, bind, Option.bind_some, if_neg hn, if_true]
      by_cases hzero : comm.rank = 0
      · rw [if_pos hzero, if_pos (by rw [hzero]; decide)]
        exact ⟨.self, _, rfl, rfl, rfl⟩
      · rw [if_neg hzero, if_neg (by rw [prod_nil]; omega)]
        rfl
    · have h := cartCreate_grid (g := ⟨dims, periods, hpos, hle⟩) hdims (Nat.le_of_not_lt hn) hkind
        hr (show mapTable n dims = _ from rfl) qsort reorder getContextid
      simp only at h
      split at h
      · rename_i hlt
        obtain ⟨c, hc, -⟩ := h
        rw [if_pos hlt]
        exact ⟨c, _, hc, rfl, rfl⟩
      · rename_i hlt
        rw [if_neg hlt]
        exact h

/-- Both operations do what the exact product of the dimensions asks for if and only if the product
fits into an `int`. -/
theorem cart_create_iff (hn : 0 < n) (hpos : ∀ d ∈ dims, 0 < d) :
    CreateSafe n dims ↔ dims.prod ≤ intMax := by
  constructor
  · intro h
    obtain ⟨-, hmap⟩ := h none ⟨.intracomm, 0, false⟩ [] false (fun _ => 4) rfl hn
    unfold Mapped cartMapImpl at hmap
    obtain ⟨m, hm, -⟩ := Option.bind_eq_some_iff.1 hmap
    have hle := newsize_le hm (by decide)
    rwa [Nat.one_mul] at hle
  · intro hle qsort comm periods reorder getContextid hkind hr
    exact ⟨cartCreate_created hpos hle qsort comm periods reorder getContextid hkind hr,
      cartMapImpl_mapped hpos hle comm⟩

theorem cart_create_iff_rows : CreateSafe 6 [2, 3] ↔ [2, 3].prod ≤ intMax :=
  cart_create_iff (by decide) (by decide)

/-- The product `3 * 1431655766` is two more than `2 ^ 32`: on four processes the test of the size
passes, and the size of the grid divided by its first dimension is zero. -/
theorem cart_create_wraps : ¬ CreateSafe 4 [3, 1431655766] ∧
    (3 * 1431655766 : BitVec 32).toInt = 2 ∧ cartPosition 2 0 [3, 1431655766] = none := by
  refine ⟨fun h => ?_, by decide, by decide⟩
  obtain ⟨-, hmap⟩ := h none ⟨.intracomm, 0, false⟩ [] false (fun _ => 4) rfl (by decide)
  cases hmap

end

end PsMpi.Topo
