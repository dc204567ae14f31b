import PsMpi.Data.Darray
import PsMpi.Lib.RowMajor

/-!
# Distributed array types partition the array
-/

open PsMpi.Lib List Option Function

namespace PsMpi.Data

/-! ## Owners -/

def DarrayDim.block (d : DarrayDim) : Nat :=
  match d.darg with
  | some a => a.toNat
  | none =>
    match d.distrib with
    | .cyclic => 1
    | .block | .none => (d.gsize + d.psize - 1) / d.psize

def DarrayDim.owner (d : DarrayDim) (i : Nat) : Nat :=
  match d.distrib with
  | .block => i / d.block
  | .cyclic => i / d.block % d.psize
  | .none => 0

/-- What the checks accept: blocks that are not empty and together are the dimension, and one
process in a dimension that is not distributed. -/
structure DarrayDim.Accepted (d : DarrayDim) : Prop where
  psize_pos : 0 < d.psize
  darg_pos : d.distrib ≠ .none → ∀ a, d.darg = some a → 0 < a
  block : d.distrib = .block → ∀ a, d.darg = some a → (d.gsize : Int) ≤ a * d.psize
  none : d.distrib = .none → d.psize = 1

def owners : List DarrayDim → Nat → List Nat
  | [], _ => []
  | d :: ds, e => d.owner (e % d.gsize) :: owners ds (e / d.gsize)

def elements (ds : List DarrayDim) : Nat := (ds.map DarrayDim.gsize).prod

/-- The elements of a process in storage order, given its coordinates from the fastest dimension on.
-/
def assigned (ds : List DarrayDim) (coords : List Nat) : List Nat :=
  (List.range (elements ds)).filter fun e => decide (owners ds e = coords)

section owners

variable {d : DarrayDim} {ds : List DarrayDim} {cs : List Nat} {c e i : Nat}

theorem elements_snoc (ds : List DarrayDim) (d : DarrayDim) :
    elements (ds ++ [d]) = elements ds * d.gsize := by
  simp [elements]

theorem owners_mod (ds : List DarrayDim) (e : Nat) : owners ds (e % elements ds) = owners ds e := by
  induction ds generalizing e with
  | nil => rfl
  | cons d ds ih =>
    have hcons : elements (d :: ds) = d.gsize * elements ds := rfl
    rw [hcons, owners, owners, Nat.mod_mul_right_mod, Nat.mod_mul_right_div_self, ih]

theorem owners_snoc (ds : List DarrayDim) (d : DarrayDim) (e : Nat) :
    owners (ds ++ [d]) e = owners ds e ++ [d.owner (e / elements ds % d.gsize)] := by
  induction ds generalizing e with
  | nil => simp [owners, elements]
  | cons d' ds ih =>
    have hcons : elements (d' :: ds) = d'.gsize * elements ds := rfl
    rw [cons_append, owners, ih, owners, hcons, Nat.div_div_eq_div_mul, cons_append]

theorem assigned_snoc (ds : List DarrayDim) (d : DarrayDim) (cs : List Nat) (c : Nat) :
    assigned (ds ++ [d]) (cs ++ [c]) =
      ((List.range d.gsize).filter fun i => decide (d.owner i = c)).flatMap fun i =>
        (assigned ds cs).map fun x => i * elements ds + x := by
  rw [assigned, assigned, ← filter_range_mul, elements_snoc, Nat.mul_comm]
  refine filter_congr fun e he => ?_
  have he := mem_range.1 he
  have hdiv : e / elements ds % d.gsize = e / elements ds :=
    Nat.mod_eq_of_lt (Nat.div_lt_of_lt_mul (by rwa [Nat.mul_comm]))
  rw [owners_snoc, hdiv, owners_mod, ← Bool.decide_and, decide_eq_decide]
  constructor
  · intro h
    obtain ⟨h1, h2⟩ := append_inj' h rfl
    exact ⟨List.cons.inj h2 |>.1, h1⟩
  · rintro ⟨h1, h2⟩
    rw [h1, h2]

theorem DarrayDim.Accepted.block_mul (h : d.Accepted) (hd : d.distrib = .block) :
    d.gsize ≤ d.block * d.psize ∧ (0 < d.gsize → 0 < d.block) := by
  unfold DarrayDim.block
  have hp := h.psize_pos
  cases ha : d.darg with
  | none =>
    dsimp only
    rw [hd]
    dsimp only
    have hdm := Nat.div_add_mod (d.gsize + d.psize - 1) d.psize
    have hlt := Nat.mod_lt (d.gsize + d.psize - 1) hp
    rw [Nat.mul_comm] at hdm
    refine ⟨by omega, fun hg => Nat.div_pos (by omega) hp⟩
  | some a =>
    have hpos := h.darg_pos (by rw [hd]; exact nofun) a ha
    have hle := h.block hd a ha
    dsimp only
    refine ⟨?_, fun _ => by omega⟩
    have : (a.toNat : Int) = a := Int.toNat_of_nonneg hpos.le
    rw [← this] at hle
    exact_mod_cast hle

theorem DarrayDim.Accepted.owner_lt (h : d.Accepted) (hi : i < d.gsize) : d.owner i < d.psize := by
  unfold DarrayDim.owner
  cases hd : d.distrib with
  | block =>
    have := (h.block_mul hd).1
    exact Nat.div_lt_of_lt_mul (hi.trans_le this)
  | cyclic => exact Nat.mod_lt _ h.psize_pos
  | none => exact h.psize_pos

theorem owners_lt (h : ∀ d ∈ ds, d.Accepted) (he : e < elements ds) :
    List.Forall₂ (fun d p => p < d) (ds.map DarrayDim.psize) (owners ds e) := by
  induction ds generalizing e with
  | nil => exact .nil
  | cons d ds ih =>
    have hcons : elements (d :: ds) = d.gsize * elements ds := rfl
    rw [hcons] at he
    have hg : 0 < d.gsize := by
      rcases Nat.eq_zero_or_pos d.gsize with h0 | h0
      · rw [h0, Nat.zero_mul] at he
        omega
      · exact h0
    exact .cons ((h d mem_cons_self).owner_lt (Nat.mod_lt e hg))
      (ih (fun d' hd' => h d' (mem_cons_of_mem d hd')) (Nat.div_lt_of_lt_mul he))

end owners

/-! ## One dimension -/

section dims

variable {l l' l'' : List Int} {x y : Int}

theorem sums_singleton (x : Int) (l : List Int) : sums [x] l = l.map (x + ·) := by simp [sums]

theorem sums_append (l l' l'' : List Int) : sums (l ++ l') l'' = sums l l'' ++ sums l' l'' :=
  flatMap_append

theorem sums_assoc (l l' l'' : List Int) : sums (sums l l') l'' = sums l (sums l' l'') := by
  simp only [sums, List.flatMap_assoc, List.flatMap_map, List.map_flatMap, List.map_map]
  refine List.flatMap_congr fun a _ => List.flatMap_congr fun b _ => ?_
  exact List.map_congr_left fun c _ => Int.add_assoc a b c

theorem sums_zero (l : List Int) : sums [0] l = l := by
  rw [sums_singleton]
  simp

theorem sums_zero_right (l : List Int) : sums l [0] = l := by simp [sums]

theorem sums_shift (x y : Int) (l l' : List Int) :
    sums [x + y] (sums l l') = sums (sums [x] l) (sums [y] l') := by
  simp only [sums_singleton]
  simp only [sums, List.flatMap_map, List.map_flatMap, List.map_map]
  refine List.flatMap_congr fun a _ => List.map_congr_left fun b _ => ?_
  simp only [comp_apply]
  omega

/-- The type of a dimension of size `g` selects the indices of a list, shifted by an offset. -/
structure DimSpec (old new : Meaning) (offset g : Nat) (indices : List Nat) : Prop where
  lb : new.lb = 0
  ub : new.ub = g * old.extent
  bytes : ∃ l, new.bytes = sums l old.bytes ∧
    sums [(offset : Int) * old.extent] l = indices.map fun i : Nat => (i : Int) * old.extent

theorem foldl_mul (faster : List Nat) (x : Int) :
    faster.foldl (fun (s : Int) (g : Nat) => s * g) x = x * faster.prod := by
  induction faster generalizing x with
  | nil => simp
  | cons g faster ih => rw [foldl_cons, ih, prod_cons, Int.natCast_mul, Int.mul_assoc]

theorem steps_one (s : Int) : steps 1 s = [0] := by simp [steps]

theorem typeBlock_spec {faster : List Nat} {gsize nprocs rank b : Nat} {darg : Option Int}
    {origExtent : Int} {old : Meaning} (hb : blockSize gsize nprocs darg = some b)
    (hpos : 0 < gsize → 0 < b) (hext : old.extent = origExtent * faster.prod) :
    ∃ new offset, typeBlock faster gsize nprocs rank darg origExtent old = some (new, offset) ∧
      DimSpec old new offset gsize
        ((List.range gsize).filter fun i => decide (i / b = rank)) := by
  have hlist : (List.range gsize).filter (fun i => decide (i / b = rank)) =
      (List.range (min b (gsize - b * rank))).map (b * rank + ·) := by
    rcases Nat.eq_zero_or_pos gsize with h0 | h0
    · subst h0
      simp
    · exact filter_block (hpos h0) gsize rank
  rw [typeBlock, hb, map_some, hlist]
  generalize min b (gsize - b * rank) = n
  refine ⟨_, _, rfl, rfl, ?_, steps n old.extent, ?_, ?_⟩
  · exact Int.zero_add _
  · by_cases hf : faster = []
    · simp only [if_pos hf]
      exact copies_bytes _ _
    · simp only [if_neg hf]
      have hstride : faster.foldl (fun (s : Int) (g : Nat) => s * g) origExtent = old.extent := by
        rw [foldl_mul, hext]
      have := copies_bytes old (vectorDispls n 1 old.extent old.extent)
      rw [vectorDispls, steps_one, sums_zero_right] at this
      rw [Meaning.resized, Meaning.hvector, hstride, vectorDispls, steps_one, sums_zero_right]
      exact this
  · rw [sums_singleton]
    rcases Nat.eq_zero_or_pos n with h0 | h0
    · subst h0
      rfl
    · rw [if_neg (Nat.pos_iff_ne_zero.1 h0), steps, List.map_map, List.map_map]
      refine List.map_congr_left fun i _ => ?_
      simp only [comp_apply]
      push_cast
      ring

theorem cyclicLocalSize_eq {g k c b : Nat} (hb : 0 < b) (hc : c < k) :
    cyclicLocalSize g k c b = g / (k * b) * b + min b (g % (k * b) - b * c) := by
  have hk : 0 < k * b := Nat.mul_pos (by omega) hb
  have hcb : c * b + b ≤ k * b := by
    rw [← Nat.succ_mul]
    exact Nat.mul_le_mul_right b hc
  have hdm := Nat.div_add_mod g (k * b)
  have hmod := Nat.mod_lt g hk
  rw [Nat.mul_comm b c, cyclicLocalSize]
  generalize hq : g / (k * b) = q at *
  generalize hr : g % (k * b) = r at *
  generalize hm : k * b = m at *
  generalize hs : c * b = s at *
  by_cases hlt : (g : Int) - 1 < c * b
  · have hlt' : g ≤ s := by
      have : ((c * b : Nat) : Int) = c * b := Int.natCast_mul c b
      rw [← this, hs] at hlt
      omega
    have hq0 : q = 0 := by
      rcases Nat.eq_zero_or_pos q with h0 | h0
      · exact h0
      · have := Nat.le_mul_of_pos_right m h0
        omega
    subst hq0
    rw [if_pos hlt]
    simp only [Nat.mul_zero, Nat.zero_add] at hdm
    simp only [Nat.zero_mul, Nat.zero_add]
    omega
  · have hlt' : s < g := by
      have : ((c * b : Nat) : Int) = c * b := Int.natCast_mul c b
      rw [← this, hs] at hlt
      omega
    rw [if_neg hlt]
    rcases Nat.lt_or_ge r s with hrs | hrs
    · -- the last cycle ends before the block of the process
      obtain ⟨q, rfl⟩ : ∃ t, q = t + 1 := by
        refine ⟨q - 1, ?_⟩
        rcases Nat.eq_zero_or_pos q with h0 | h0
        · subst h0
          simp only [Nat.mul_zero, Nat.zero_add] at hdm
          omega
        · omega
      rw [Nat.mul_succ] at hdm
      have hg : g - s = m * q + (m + r - s) := by omega
      have hdiv : (g - s) / m = q := by
        rw [hg, Nat.mul_add_div hk, Nat.div_eq_of_lt (by omega), Nat.add_zero]
      have hmod' : (g - s) % m = m + r - s := by
        rw [hg, Nat.mul_add_mod, Nat.mod_eq_of_lt (by omega)]
      rw [hdiv, hmod', Nat.succ_mul]
      omega
    · have hg : g - s = m * q + (r - s) := by omega
      have hdiv : (g - s) / m = q := by
        rw [hg, Nat.mul_add_div hk, Nat.div_eq_of_lt (by omega), Nat.add_zero]
      have hmod' : (g - s) % m = r - s := by
        rw [hg, Nat.mul_add_mod, Nat.mod_eq_of_lt (by omega)]
      rw [hdiv, hmod', Nat.min_comm]

def blocksOf (k b c count rem : Nat) : List Nat :=
  ((List.range count).flatMap fun j => (List.range b).map fun x => j * (k * b) + (b * c + x)) ++
    (List.range rem).map fun x => count * (k * b) + (b * c + x)

theorem filter_cyclic_eq {g k c b : Nat} (hb : 0 < b) (hc : c < k) :
    (List.range g).filter (fun i => decide (i / b % k = c)) =
      blocksOf k b c (cyclicLocalSize g k c b / b) (cyclicLocalSize g k c b % b) := by
  rw [filter_cyclic hb hc, cyclicLocalSize_eq hb hc, blocksOf]
  generalize g / (k * b) = q
  have hle : min b (g % (k * b) - b * c) ≤ b := Nat.min_le_left _ _
  generalize min b (g % (k * b) - b * c) = t at hle
  rcases Nat.lt_or_eq_of_le hle with hlt | heq
  · rw [Nat.mul_comm q b, Nat.mul_add_div hb, Nat.mul_add_mod, Nat.div_eq_of_lt hlt,
      Nat.mod_eq_of_lt hlt, Nat.add_zero]
  · subst heq
    rw [← Nat.succ_mul, Nat.mul_div_cancel _ hb, Nat.mul_mod_left, range_succ,
      flatMap_append]
    simp

theorem struct_bytes {m₁ m₂ : Meaning} {n : Nat} {disp : Int} :
    (Meaning.struct [(1, 0, m₁), (n, disp, m₂)]).bytes =
      m₁.bytes ++ sums (blockDispls n disp m₂.extent) m₂.bytes := by
  have h : (Meaning.struct [(1, 0, m₁), (n, disp, m₂)]).bytes =
      bytesAt (placedBlocks [(1, 0, m₁), (n, disp, m₂)]) := rfl
  have hplaced : placedBlocks [(1, 0, m₁), (n, disp, m₂)] =
      Meaning.block 1 0 m₁ ++ Meaning.block n disp m₂ := by simp [placedBlocks]
  rw [h, hplaced, bytesAt_append, bytesAt_block, bytesAt_block, blockDispls, steps_one, sums_zero,
    sums_zero]

theorem blockindexed_bytes (disp : Int) (m : Meaning) :
    (m.blockindexed disp).bytes = sums [disp] m.bytes := by
  rw [Meaning.blockindexed, copies_bytes]
  congr 1
  simp [indexedDispls, blockDispls, steps_one, effDisp, sums_zero_right]

theorem typeCyclic_spec {faster : List Nat} {gsize nprocs rank b : Nat} {darg : Option Int}
    {origExtent : Int} {old : Meaning} (hb : cyclicSize darg = some b) (hpos : 0 < b)
    (hrank : rank < nprocs) (hext : old.extent = origExtent * faster.prod) :
    ∃ new offset, typeCyclic faster gsize nprocs rank darg origExtent old = some (new, offset) ∧
      DimSpec old new offset gsize
        ((List.range gsize).filter fun i => decide (i / b % nprocs = rank)) := by
  rw [typeCyclic, hb, map_some, filter_cyclic_eq hpos hrank]
  dsimp only
  generalize hloc : cyclicLocalSize gsize nprocs rank b = loc
  have hstride : faster.foldl (fun (s : Int) (g : Nat) => s * g) (nprocs * b * origExtent) =
      nprocs * b * old.extent := by
    rw [foldl_mul, hext, Int.mul_assoc]
  rw [hstride]
  -- the blocks without the offset
  generalize hl : vectorDispls (loc / b) b (nprocs * b * old.extent) old.extent ++
    blockDispls (loc % b) ((loc / b : Nat) * (nprocs * b * old.extent)) old.extent = l
  have hbytes : (if loc % b = 0 then old.hvector (loc / b) b (nprocs * b * old.extent) else
      Meaning.struct [(1, 0, old.hvector (loc / b) b (nprocs * b * old.extent)),
        (loc % b, (loc / b : Nat) * (nprocs * b * old.extent), old)]).bytes = sums l old.bytes := by
    rw [← hl, sums_append]
    split
    · next h0 =>
      have hnil : blockDispls 0 ((loc / b : Nat) * (nprocs * b * old.extent)) old.extent = [] := rfl
      rw [h0, hnil, Meaning.hvector, copies_bytes]
      simp [sums]
    · rw [struct_bytes, Meaning.hvector, copies_bytes]
  have hshift : sums [(rank : Int) * b * old.extent] l =
      (blocksOf nprocs b rank (loc / b) (loc % b)).map fun i : Nat => (i : Int) * old.extent := by
    rw [← hl, sums_singleton, blocksOf]
    simp only [vectorDispls, blockDispls, sums, steps, map_append, List.map_flatMap,
      List.flatMap_map, List.map_map, List.flatMap_cons, List.flatMap_nil, List.append_nil]
    congr 1
    · refine List.flatMap_congr fun i _ => List.map_congr_left fun x _ => ?_
      simp only [comp_apply]
      push_cast
      ring
    · refine List.map_congr_left fun x _ => ?_
      simp only [comp_apply]
      push_cast
      ring
  have hnone : loc = 0 → l = [] := fun h0 => by
    subst h0
    rw [← hl, Nat.zero_div, Nat.zero_mod]
    rfl
  by_cases hf : faster = []
  · simp only [if_pos hf]
    have horig : origExtent = old.extent := by rw [hext, hf]; simp
    subst horig
    refine ⟨_, _, rfl, rfl, Int.zero_add _, sums [(rank : Int) * b * old.extent] l, ?_, ?_⟩
    · have := blockindexed_bytes (rank * b * old.extent) (if loc % b = 0 then
        old.hvector (loc / b) b (nprocs * b * old.extent) else
        Meaning.struct [(1, 0, old.hvector (loc / b) b (nprocs * b * old.extent)),
          (loc % b, (loc / b : Nat) * (nprocs * b * old.extent), old)])
      rw [hbytes] at this
      rw [sums_assoc]
      exact this
    · rw [← hshift]
      simp only [ite_self, Nat.cast_zero, Int.zero_mul]
      exact sums_zero _
  · simp only [if_neg hf]
    refine ⟨_, _, rfl, rfl, Int.zero_add _, l, hbytes, ?_⟩
    split
    · next h0 =>
      rw [← hshift, hnone h0]
      rfl
    · rw [← hshift, Int.natCast_mul]

end dims

/-! ## All dimensions -/

section loop

variable {old : Meaning} {order : StorageOrder}

/-- What the loop has of the array of the dimensions so far: with the displacement so far, the type
selects the elements of the process. -/
structure LoopInv (old : Meaning) (ds : List DarrayDim) (cs : List Nat) (m : Meaning) (disp : Nat) :
    Prop where
  extent : m.extent = old.extent * elements ds
  bytes : ∃ l, m.bytes = sums l old.bytes ∧ sums [(disp : Int) * old.extent] l =
    (assigned ds cs).map fun e : Nat => (e : Int) * old.extent

theorem darrayDim_spec {faster : List Nat} {d : DarrayDim} {c : Nat} {m : Meaning}
    (hd : d.Accepted) (hc : c < d.psize) (hext : m.extent = old.extent * faster.prod) :
    ∃ new offset, darrayDim order faster d c old.extent m = some (new, offset) ∧
      DimSpec m new offset d.gsize
        ((List.range d.gsize).filter fun i => decide (d.owner i = c)) := by
  unfold darrayDim
  cases hdist : d.distrib with
  | block =>
    have howner : d.owner = fun i => i / d.block := by
      funext i
      rw [DarrayDim.owner, hdist]
    rw [howner]
    refine typeBlock_spec ?_ (hd.block_mul hdist).2 hext
    unfold blockSize DarrayDim.block
    cases ha : d.darg with
    | none => rw [hdist]
    | some a =>
      have hpos := hd.darg_pos (by rw [hdist]; exact nofun) a ha
      have hle := hd.block hdist a ha
      dsimp only
      rw [if_neg (by omega), if_neg (by omega)]
  | cyclic =>
    have howner : d.owner = fun i => i / d.block % d.psize := by
      funext i
      rw [DarrayDim.owner, hdist]
    rw [howner]
    have hsize : cyclicSize d.darg = some d.block ∧ 0 < d.block := by
      unfold cyclicSize DarrayDim.block
      cases ha : d.darg with
      | none =>
        rw [hdist]
        exact ⟨rfl, Nat.one_pos⟩
      | some a =>
        have hpos := hd.darg_pos (by rw [hdist]; exact nofun) a ha
        dsimp only
        rw [if_neg (by omega)]
        exact ⟨rfl, by omega⟩
    exact typeCyclic_spec hsize.1 hsize.2 hc hext
  | none =>
    have hp := hd.none hdist
    have hc0 : c = 0 := by omega
    subst hc0
    have hlist : (List.range d.gsize).filter (fun i => decide (d.owner i = 0)) =
        (List.range d.gsize).filter fun i => decide (i / d.gsize = 0) :=
      filter_congr fun i hi => by
        rw [DarrayDim.owner, hdist, decide_eq_decide]
        exact iff_of_true rfl (Nat.div_eq_of_lt (mem_range.1 hi))
    rw [hlist, hp]
    have hsize : blockSize d.gsize 1 none = some d.gsize := by simp [blockSize]
    cases order with
    | fortran | c => exact typeBlock_spec hsize id hext

theorem LoopInv.step {ds : List DarrayDim} {cs : List Nat} {m new : Meaning} {disp offset : Nat}
    {d : DarrayDim} {c : Nat} (h : LoopInv old ds cs m disp)
    (hnew : DimSpec m new offset d.gsize
      ((List.range d.gsize).filter fun i => decide (d.owner i = c))) :
    LoopInv old (ds ++ [d]) (cs ++ [c]) new (disp + elements ds * offset) := by
  obtain ⟨l, hl, hsel⟩ := h.bytes
  obtain ⟨l', hl', hsel'⟩ := hnew.bytes
  have hext := h.extent
  constructor
  · rw [Meaning.extent, hnew.lb, hnew.ub, hext, elements_snoc]
    push_cast
    ring
  · refine ⟨sums l' l, by rw [hl', hl, sums_assoc], ?_⟩
    have hdisp : ((disp + elements ds * offset : Nat) : Int) * old.extent =
        offset * m.extent + disp * old.extent := by
      rw [hext]
      push_cast
      ring
    rw [hdisp, sums_shift, hsel, hsel', assigned_snoc, List.map_flatMap, sums, List.flatMap_map]
    refine List.flatMap_congr fun i _ => ?_
    rw [List.map_map, List.map_map]
    refine List.map_congr_left fun x _ => ?_
    simp only [comp_apply]
    rw [hext]
    push_cast
    ring

theorem darrayLoop_spec (dims : List (DarrayDim × Nat)) {ds : List DarrayDim} {cs : List Nat}
    {m : Meaning} {disp : Nat} (hdims : ∀ x ∈ dims, x.1.Accepted ∧ x.2 < x.1.psize)
    (h : LoopInv old ds cs m disp) :
    ∃ new disp', darrayLoop order old.extent dims (ds.map DarrayDim.gsize) m disp =
        some (new, disp') ∧
      LoopInv old (ds ++ dims.map Prod.fst) (cs ++ dims.map Prod.snd) new disp' := by
  induction dims generalizing ds cs m disp with
  | nil => exact ⟨m, disp, rfl, by simpa using h⟩
  | cons x dims ih =>
    obtain ⟨d, c⟩ := x
    have hx := hdims (d, c) mem_cons_self
    obtain ⟨new, offset, hrun, hspec⟩ :=
      @darrayDim_spec old order (ds.map DarrayDim.gsize) d c m hx.1 hx.2 h.extent
    obtain ⟨new', disp', hrun', hinv⟩ :=
      ih (fun y hy => hdims y (mem_cons_of_mem _ hy)) (h.step hspec)
    refine ⟨new', disp', ?_, by simpa using hinv⟩
    rw [darrayLoop, hrun, bind_some]
    rw [map_append] at hrun'
    exact hrun'

theorem fastestFirst_map {α β : Type} (order : StorageOrder) (f : α → β) (l : List α) :
    (fastestFirst order l).map f = fastestFirst order (l.map f) := by
  cases order with
  | fortran => rfl
  | c => exact map_reverse

theorem mem_fastestFirst {α : Type} {order : StorageOrder} {x : α} {l : List α} :
    x ∈ fastestFirst order l ↔ x ∈ l := by
  cases order with
  | fortran => exact Iff.rfl
  | c => exact mem_reverse

theorem fastestFirst_inj {α : Type} {order : StorageOrder} {l l' : List α} :
    fastestFirst order l = fastestFirst order l' ↔ l = l' := by
  cases order with
  | fortran => exact Iff.rfl
  | c => exact reverse_inj

theorem fastestFirst_self {α : Type} (order : StorageOrder) (l : List α) :
    fastestFirst order (fastestFirst order l) = l := by
  cases order with
  | fortran => rfl
  | c => exact reverse_reverse l

theorem elements_fastestFirst (order : StorageOrder) (dims : List DarrayDim) :
    elements (fastestFirst order dims) = elements dims := by
  rw [elements, fastestFirst_map]
  cases order with
  | fortran => rfl
  | c => exact prod_reverse _

theorem foldl_gsize (dims : List DarrayDim) (x : Int) :
    dims.foldl (fun (s : Int) (d : DarrayDim) => s * d.gsize) x = x * elements dims := by
  have := foldl_mul (dims.map DarrayDim.gsize) x
  rwa [foldl_map] at this

end loop

/-! ## Main result -/

def gridSize (dims : List DarrayDim) : Nat := (dims.map DarrayDim.psize).prod

def coordsOf (dims : List DarrayDim) (order : StorageOrder) (rank : Nat) : List Nat :=
  fastestFirst order (MixedRadix.digits (gridSize dims) rank (dims.map DarrayDim.psize))

theorem exists_owner {dims : List DarrayDim} (hdims : ∀ d ∈ dims, d.Accepted) (order : StorageOrder)
    {e : Nat} (he : e < elements dims) :
    ∃ rank < gridSize dims, ∀ rank' < gridSize dims,
      owners (fastestFirst order dims) e = coordsOf dims order rank' ↔ rank' = rank := by
  have hpos : ∀ p ∈ dims.map DarrayDim.psize, 0 < p := fun p hp => by
    obtain ⟨d, hd, rfl⟩ := mem_map.1 hp
    exact (hdims d hd).psize_pos
  have hlt : List.Forall₂ (fun d p => p < d) (dims.map DarrayDim.psize)
      (fastestFirst order (owners (fastestFirst order dims) e)) := by
    have := @owners_lt (fastestFirst order dims) e (fun d hd => hdims d (mem_fastestFirst.1 hd))
      (by rwa [elements_fastestFirst])
    rw [fastestFirst_map] at this
    cases order with
    | fortran => exact this
    | c =>
      refine List.forall₂_reverse_iff.1 ?_
      rwa [fastestFirst, fastestFirst, reverse_reverse]
  refine ⟨_, MixedRadix.value_lt hlt, fun rank' hrank' => ?_⟩
  rw [← MixedRadix.digits_inj hpos hrank' (MixedRadix.value_lt hlt), MixedRadix.digits_value hlt,
    ← @fastestFirst_inj _ order, coordsOf, fastestFirst_self]
  exact eq_comm

theorem digits_zip_lt {dims : List DarrayDim} (hdims : ∀ d ∈ dims, d.Accepted) {rank : Nat}
    (hrank : rank < gridSize dims) (x : DarrayDim × Nat)
    (hx : x ∈ dims.zip (MixedRadix.digits (gridSize dims) rank (dims.map DarrayDim.psize))) :
    x.1.Accepted ∧ x.2 < x.1.psize := by
  have hpos : ∀ p ∈ dims.map DarrayDim.psize, 0 < p := fun p hp => by
    obtain ⟨d, hd, rfl⟩ := mem_map.1 hp
    exact (hdims d hd).psize_pos
  have hdigits := MixedRadix.digits_lt hpos hrank
  rw [List.forall₂_map_left_iff, List.forall₂_iff_zip] at hdigits
  exact ⟨hdims _ (of_mem_zip hx).1, hdigits.2 hx⟩

/-- The type of every process selects the elements that the distribution assigns to its coordinates,
in storage order, and has the extent of the array; and every element of the array is assigned to
exactly one process. -/
theorem darray_partitions (dims : List DarrayDim) (order : StorageOrder) (old : Meaning)
    (hdims : ∀ d ∈ dims, d.Accepted) :
    (∀ rank < gridSize dims, ∃ t, createDarray (gridSize dims) rank dims order old = some t ∧
      t.lb = 0 ∧ t.extent = old.extent * elements dims ∧
      t.bytes = sums ((assigned (fastestFirst order dims) (coordsOf dims order rank)).map
        fun e : Nat => (e : Int) * old.extent) old.bytes) ∧
    ∀ e < elements dims, ∃ rank < gridSize dims, ∀ rank' < gridSize dims,
      e ∈ assigned (fastestFirst order dims) (coordsOf dims order rank') ↔ rank' = rank := by
  constructor
  · intro rank hrank
    have hlen : (MixedRadix.digits (gridSize dims) rank (dims.map DarrayDim.psize)).length =
        dims.length := by rw [MixedRadix.length_digits, length_map]
    have hstart : LoopInv old [] [] old 0 := by
      refine ⟨by simp [elements], [0], (sums_zero _).symm, ?_⟩
      simp [sums, assigned, elements, owners]
    obtain ⟨new, disp, hrun, hinv⟩ := @darrayLoop_spec old order (fastestFirst order (dims.zip
      (MixedRadix.digits (gridSize dims) rank (dims.map DarrayDim.psize)))) [] [] old 0
      (fun x hx => digits_zip_lt hdims hrank x (mem_fastestFirst.1 hx)) hstart
    obtain ⟨l, hl, hsel⟩ := hinv.bytes
    rw [nil_append, nil_append, fastestFirst_map, fastestFirst_map,
      map_fst_zip (by omega), map_snd_zip (by omega)] at hsel
    rw [map_nil] at hrun
    refine ⟨(new.blockindexed (disp * old.extent)).resized 0
      (dims.foldl (fun (s : Int) (d : DarrayDim) => s * d.gsize) old.extent), ?_, rfl, ?_, ?_⟩
    · rw [createDarray]
      dsimp only
      rw [hrun, map_some]
    · rw [foldl_gsize]
      change 0 + old.extent * elements dims - 0 = _
      omega
    · rw [coordsOf, ← hsel, sums_assoc, ← hl]
      exact blockindexed_bytes _ _
  · intro e he
    obtain ⟨rank, hrank, hiff⟩ := exists_owner hdims order he
    refine ⟨rank, hrank, fun rank' hrank' => ?_⟩
    rw [← hiff rank' hrank', assigned, mem_filter, mem_range, elements_fastestFirst,
      decide_eq_true_eq]
    exact and_iff_right he

/-- A block distribution over two processes and a cyclic one over three, in C order. -/
theorem darray_partitions_six :
    ∃ t, createDarray 6 4 [⟨4, .block, none, 2⟩, ⟨7, .cyclic, some 2, 3⟩] .c
        ⟨steps 4 1, 0, 4, 4⟩ = some t ∧ t.lb = 0 ∧ t.extent = 4 * 28 ∧
      t.bytes = sums ([16, 17, 23, 24].map fun e : Nat => (e : Int) * 4) (steps 4 1) := by
  have hdims : ∀ d ∈ [(⟨4, .block, none, 2⟩ : DarrayDim), ⟨7, .cyclic, some 2, 3⟩], d.Accepted := by
    intro d hd
    simp only [mem_cons, not_mem_nil, or_false] at hd
    rcases hd with rfl | rfl
    · exact ⟨by decide, fun _ _ h => (nomatch h), fun _ _ h => (nomatch h), nofun⟩
    · exact ⟨by decide, fun _ a h => by cases h; decide, nofun, nofun⟩
  exact (darray_partitions _ .c ⟨steps 4 1, 0, 4, 4⟩ hdims).1 4 (by decide)

end PsMpi.Data
