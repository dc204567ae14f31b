import PsMpi.Data.DarrayCommit
import PsMpi.Data.DarrayOk

/-!
# When the committed type selects what the type selects
-/

open PsMpi.Lib List Option

namespace PsMpi.Data.Commit

/-- The number of processes, the coordinate and the argument that a dimension which is not cyclic is
distributed with. -/
def gridOf (order : StorageOrder) (d : DarrayDim) (coord : Nat) : Nat × Nat × Option Int :=
  match d.distrib, order with
  | .none, .fortran => (1, 0, none)
  | .none, .c => (d.psize, coord, none)
  | _, _ => (d.psize, coord, d.darg)

def HasAll (order : StorageOrder) (d : DarrayDim) (coord : Nat) : Prop :=
  ∃ b, blockSize d.gsize (gridOf order d coord).1 (gridOf order d coord).2.2 = some b ∧
    min b (d.gsize - b * (gridOf order d coord).2.1) = d.gsize ∧ 0 < d.gsize

def NoneAdjacent (d : DarrayDim) (coord : Nat) : Prop :=
  ∀ b, cyclicSize d.darg = some b → b = 1 ∨ cyclicLocalSize d.gsize d.psize coord b ≤ 1

/-- A type of extent `ext` has the extent of its array after a dimension, if it has before it: a
first dimension that is cyclic is corrected, and one of which a process has all needs no
correction. -/
def Corrected (order : StorageOrder) (ext : Int) (first before : Prop) (d : DarrayDim)
    (coord : Nat) : Prop :=
  (d.distrib = .cyclic ∧ first) ∨ (d.distrib ≠ .cyclic ∧ before ∧ 0 ≤ ext ∧ HasAll order d coord)

/-- In every cyclic dimension a process has no two elements next to each other, or the type of the
faster dimensions has the extent of their array. -/
def Fits (order : StorageOrder) (ext : Int) : Prop → Prop → List (DarrayDim × Nat) → Prop
  | _, _, [] => True
  | first, before, (d, c) :: dims =>
    (d.distrib = .cyclic → NoneAdjacent d c ∨ before) ∧
      Fits order ext False (Corrected order ext first before d c) dims

/-! ## One dimension -/

section dims

variable {order : StorageOrder} {faster : List Nat} {origExtent : Int} {m m' : Meaning}

structure Same (faster : List Nat) (m m' : Meaning) : Prop where
  bytes : m'.bytes = m.bytes
  first : faster = [] → m' = m

def SameResult (r r' : Option (Meaning × Nat)) : Prop :=
  match r, r' with
  | some (new, offset), some (new', offset') => new'.bytes = new.bytes ∧ offset' = offset
  | none, none => True
  | _, _ => False

theorem hvector_one_bytes (n : Nat) (stride : Int) (m : Meaning) :
    (m.hvector n 1 stride).bytes = sums (steps n stride) m.bytes := by
  rw [Meaning.hvector, copies_bytes, vectorDispls, steps_one, sums_zero_right]

theorem typeBlock_same {gsize nprocs rank : Nat} {darg : Option Int} (h : Same faster m m') :
    SameResult (Data.typeBlock faster gsize nprocs rank darg origExtent m)
      (typeBlock faster gsize nprocs rank darg origExtent m') := by
  unfold Data.typeBlock typeBlock
  cases blockSize gsize nprocs darg with
  | none => exact trivial
  | some b =>
    refine ⟨?_, rfl⟩
    by_cases hf : faster = []
    · simp only [if_pos hf]
      rw [h.first hf]
      rfl
    · simp only [if_neg hf]
      rw [hvector_one_bytes, h.bytes]
      exact (hvector_one_bytes _ _ m).symm

theorem cyclic_bytes (count b rem : Nat) (stride : Int) (m : Meaning) :
    (if rem = 0 then m.hvector count b stride else
      Meaning.struct [(1, 0, m.hvector count b stride), (rem, count * stride, m)]).bytes =
      sums (vectorDispls count b stride m.extent ++ blockDispls rem (count * stride) m.extent)
        m.bytes := by
  rw [sums_append]
  split
  · next h0 =>
    have hnil : blockDispls 0 (count * stride) m.extent = [] := rfl
    rw [h0, hnil, Meaning.hvector, copies_bytes]
    simp [sums]
  · rw [struct_bytes, Meaning.hvector, copies_bytes]

theorem cyclicDispls_same {b n : Nat} (hn : b = 1 ∨ n ≤ 1) (stride x y : Int) :
    vectorDispls (n / b) b stride x ++ blockDispls (n % b) ((n / b : Nat) * stride) x =
      vectorDispls (n / b) b stride y ++ blockDispls (n % b) ((n / b : Nat) * stride) y := by
  have hone : ∀ (disp z : Int), blockDispls 1 disp z = [disp] := fun disp z => by
    rw [blockDispls, steps_one, sums_zero_right]
  have hzero : ∀ (disp z : Int), blockDispls 0 disp z = [] := fun _ _ => rfl
  by_cases hb : b = 1
  · subst hb
    rw [Nat.mod_one, hzero, hzero, vectorDispls, vectorDispls, steps_one, steps_one]
  · have hle : n ≤ 1 := hn.resolve_left hb
    rcases Nat.eq_zero_or_pos b with h0 | hpos
    · subst h0
      rcases Nat.le_one_iff_eq_zero_or_eq_one.1 hle with rfl | rfl
      · rfl
      · simp only [Nat.div_zero, Nat.mod_zero, hone]
        rfl
    · have hlt : n < b := by omega
      rw [Nat.div_eq_of_lt hlt, Nat.mod_eq_of_lt hlt]
      rcases Nat.le_one_iff_eq_zero_or_eq_one.1 hle with rfl | rfl
      · rfl
      · simp only [hone]
        rfl

theorem structMarked_bytes (lb disp ub : Int) (m : Meaning) :
    (structMarked lb disp ub m).bytes = sums [disp] m.bytes := by
  have hplaced : placedBlocks [(1, disp, m)] = Meaning.block 1 disp m := by simp [placedBlocks]
  have h : (structMarked lb disp ub m).bytes = bytesAt (placedBlocks [(1, disp, m)]) := rfl
  rw [h, hplaced, bytesAt_block, blockDispls, steps_one, sums_zero_right]

theorem typeCyclic_same {gsize nprocs rank : Nat} {darg : Option Int} (h : Same faster m m')
    (hext : (∀ b, cyclicSize darg = some b → b = 1 ∨ cyclicLocalSize gsize nprocs rank b ≤ 1) ∨
      m'.extent = m.extent) :
    SameResult (Data.typeCyclic faster gsize nprocs rank darg origExtent m)
      (typeCyclic faster gsize nprocs rank darg origExtent m') := by
  unfold Data.typeCyclic typeCyclic
  cases hb : cyclicSize darg with
  | none => exact trivial
  | some b =>
    simp only [map_some]
    generalize faster.foldl (fun (s : Int) (g : Nat) => s * g) (nprocs * b * origExtent) = stride
    generalize hn : cyclicLocalSize gsize nprocs rank b = n
    have hbytes := cyclic_bytes (n / b) b (n % b) stride m
    have hbytes' := cyclic_bytes (n / b) b (n % b) stride m'
    have hsame : vectorDispls (n / b) b stride m'.extent ++
        blockDispls (n % b) ((n / b : Nat) * stride) m'.extent =
        vectorDispls (n / b) b stride m.extent ++
        blockDispls (n % b) ((n / b : Nat) * stride) m.extent := by
      rcases hext with hnone | hext
      · exact cyclicDispls_same (hn ▸ hnone b hb) stride _ _
      · rw [hext]
    rw [hsame, h.bytes, ← hbytes] at hbytes'
    by_cases hf : faster = []
    · simp only [if_pos hf]
      refine ⟨?_, rfl⟩
      rw [structMarked_bytes, hbytes']
      exact (blockindexed_bytes _ _).symm
    · simp only [if_neg hf]
      exact ⟨hbytes', rfl⟩

theorem darrayDim_same {d : DarrayDim} {c : Nat} (h : Same faster m m')
    (hext : d.distrib = .cyclic → NoneAdjacent d c ∨ m'.extent = m.extent) :
    SameResult (Data.darrayDim order faster d c origExtent m)
      (darrayDim order faster d c origExtent m') := by
  unfold Data.darrayDim darrayDim
  cases hd : d.distrib with
  | block => exact typeBlock_same h
  | cyclic => exact typeCyclic_same h (hext hd)
  | none =>
    cases order with
    | fortran | c => exact typeBlock_same h

/-! ### The extent -/

theorem steps_extent {n : Nat} (hn : 0 < n) (h : 0 ≤ m.extent) :
    (m.copies (steps n m.extent)).extent = n * m.extent := by
  have hlb := copies_lb (m := m) (steps_least hn m.extent)
  have hub := copies_ub (m := m) (steps_greatest hn m.extent)
  rw [low, if_pos h] at hlb
  rw [high, if_pos h] at hub
  have hsub : m.extent * ((n : Int) - 1) = n * m.extent - m.extent := by ring
  rw [Meaning.extent, hlb, hub, hsub]
  unfold Meaning.extent
  omega

theorem resized_extent (lb extent : Int) (m : Meaning) : (m.resized lb extent).extent = extent := by
  simp only [Meaning.extent, Meaning.resized]
  omega

theorem dataTypeBlock_extent {gsize nprocs rank offset : Nat} {darg : Option Int} {new : Meaning}
    (h : Data.typeBlock faster gsize nprocs rank darg origExtent m = some (new, offset)) :
    new.extent = gsize * m.extent := by
  unfold Data.typeBlock at h
  obtain ⟨b, -, h⟩ := map_eq_some_iff.1 h
  obtain ⟨rfl, -⟩ := Prod.mk.inj h
  exact resized_extent _ _ _

theorem dataTypeCyclic_extent {gsize nprocs rank offset : Nat} {darg : Option Int} {new : Meaning}
    (h : Data.typeCyclic faster gsize nprocs rank darg origExtent m = some (new, offset)) :
    new.extent = gsize * m.extent := by
  unfold Data.typeCyclic at h
  obtain ⟨b, -, h⟩ := map_eq_some_iff.1 h
  obtain ⟨rfl, -⟩ := Prod.mk.inj h
  exact resized_extent _ _ _

theorem dataDim_extent {d : DarrayDim} {c offset : Nat} {new : Meaning}
    (h : Data.darrayDim order faster d c origExtent m = some (new, offset)) :
    new.extent = d.gsize * m.extent := by
  unfold Data.darrayDim at h
  cases hd : d.distrib <;> simp only [hd] at h
  · exact dataTypeBlock_extent h
  · exact dataTypeCyclic_extent h
  · cases order <;> exact dataTypeBlock_extent h

theorem darrayDim_block {d : DarrayDim} {c : Nat} (hd : d.distrib ≠ .cyclic) :
    darrayDim order faster d c origExtent m = typeBlock faster d.gsize (gridOf order d c).1
      (gridOf order d c).2.1 (gridOf order d c).2.2 origExtent m := by
  unfold darrayDim gridOf
  cases h : d.distrib with
  | block => rfl
  | cyclic => exact absurd h hd
  | none => cases order <;> rfl

theorem darrayDim_extent {first before : Prop} {d : DarrayDim} {c offset : Nat} {new : Meaning}
    (hfirst : first → faster = []) (hext : m.extent = origExtent * faster.prod)
    (hbefore : before → m'.extent = m.extent) (hc : Corrected order origExtent first before d c)
    (h : darrayDim order faster d c origExtent m' = some (new, offset)) :
    new.extent = d.gsize * m.extent := by
  rcases hc with ⟨hd, hf⟩ | ⟨hd, hb, hpos, b, hblk, hall, hg⟩
  · have hf := hfirst hf
    unfold darrayDim typeCyclic at h
    rw [hd] at h
    dsimp only at h
    obtain ⟨b, -, h⟩ := map_eq_some_iff.1 h
    rw [if_pos hf] at h
    obtain ⟨rfl, -⟩ := Prod.mk.inj h
    rw [hext, hf, prod_nil, Nat.cast_one, mul_one, structMarked, resized_extent, sub_zero,
      mul_comm]
  · rw [darrayDim_block hd] at h
    unfold typeBlock at h
    rw [hblk, map_some] at h
    have hnew := (Prod.ext_iff.1 (Option.some.inj h)).1
    simp only [hall] at hnew
    have hm := hbefore hb
    have hnonneg : 0 ≤ m'.extent := by
      rw [hm, hext]
      exact mul_nonneg hpos (Int.natCast_nonneg _)
    have hcopies : new = m'.copies (steps d.gsize m'.extent) := by
      rw [← hnew]
      split
      · rfl
      · rw [Meaning.hvector, vectorDispls, steps_one, sums_zero_right, foldl_mul, ← hext, ← hm]
    rw [hcopies, steps_extent hg hnonneg, hm]

theorem darrayLoop_same (dims : List (DarrayDim × Nat)) {first before : Prop} {disp : Nat}
    (hfirst : first → faster = []) (hext : m.extent = origExtent * faster.prod)
    (hbefore : before → m'.extent = m.extent) (hsame : Same faster m m')
    (hfit : Fits order origExtent first before dims) :
    SameResult (Data.darrayLoop order origExtent dims faster m disp)
      (darrayLoop order origExtent dims faster m' disp) := by
  induction dims generalizing faster m m' disp first before with
  | nil => exact ⟨hsame.bytes, rfl⟩
  | cons x dims ih =>
    obtain ⟨d, c⟩ := x
    obtain ⟨hd, hrest⟩ := hfit
    have hdim := @darrayDim_same order faster origExtent m m' d c hsame
      fun hcyc => (hd hcyc).imp_right hbefore
    rw [Data.darrayLoop, darrayLoop]
    cases hr : Data.darrayDim order faster d c origExtent m with
    | none =>
      cases hr' : darrayDim order faster d c origExtent m' with
      | none => exact trivial
      | some r' => simp only [hr, hr', SameResult] at hdim
    | some r =>
      cases hr' : darrayDim order faster d c origExtent m' with
      | none => simp only [hr, hr', SameResult] at hdim
      | some r' =>
        obtain ⟨new, offset⟩ := r
        obtain ⟨new', offset'⟩ := r'
        simp only [hr, hr', SameResult] at hdim
        obtain ⟨hbytes, rfl⟩ := hdim
        have hnew := dataDim_extent hr
        simp only [bind_some]
        refine ih (fun hf : False => hf.elim) ?_ (fun hc => ?_) ⟨hbytes, ?_⟩ hrest
        · rw [hnew, hext, prod_append, prod_singleton, Nat.cast_mul]
          ring
        · rw [hnew, darrayDim_extent hfirst hext hbefore hc hr']
        · simp

end dims

/-! ## Main result -/

section main

def gridDims (size rank : Nat) (dims : List DarrayDim) (order : StorageOrder) :
    List (DarrayDim × Nat) :=
  fastestFirst order (dims.zip (MixedRadix.digits size rank (dims.map DarrayDim.psize)))

/-- The type that is built at commit time selects the same bytes in the same order, if in every
cyclic dimension in which the process has elements next to each other the type of the faster
dimensions has the extent of their array. -/
theorem convertDarray_same (size rank : Nat) (dims : List DarrayDim) (order : StorageOrder)
    (old : Meaning) (hfit : Fits order old.extent True True (gridDims size rank dims order)) :
    (convertDarray size rank dims order old).map Meaning.bytes =
      (createDarray size rank dims order old).map Meaning.bytes := by
  have h := @darrayLoop_same order [] old.extent old old (gridDims size rank dims order) True True 0
    (fun _ => rfl) (by simp) (fun _ => rfl) ⟨rfl, fun _ => rfl⟩ hfit
  unfold convertDarray createDarray
  change Option.map _ (Option.map _ (darrayLoop order old.extent (gridDims size rank dims order) []
    old 0)) = Option.map _ (Option.map _ (Data.darrayLoop order old.extent
      (gridDims size rank dims order) [] old 0))
  cases hr : Data.darrayLoop order old.extent (gridDims size rank dims order) [] old 0 with
  | none =>
    cases hr' : darrayLoop order old.extent (gridDims size rank dims order) [] old 0 with
    | none => rfl
    | some r' => simp only [hr, hr', SameResult] at h
  | some r =>
    cases hr' : darrayLoop order old.extent (gridDims size rank dims order) [] old 0 with
    | none => simp only [hr, hr', SameResult] at h
    | some r' =>
      simp only [hr, hr', SameResult] at h
      obtain ⟨hbytes, hdisp⟩ := h
      simp only [map_some, structMarked_bytes, hdisp, hbytes]
      exact congrArg some (blockindexed_bytes _ _).symm

theorem convertDarray_same_four :
    (convertDarray 4 3 [⟨4, .block, none, 2⟩, ⟨4, .cyclic, none, 2⟩] .fortran ⟨[0], 0, 1, 1⟩).map
      Meaning.bytes = (createDarray 4 3 [⟨4, .block, none, 2⟩, ⟨4, .cyclic, none, 2⟩] .fortran
        ⟨[0], 0, 1, 1⟩).map Meaning.bytes :=
  convertDarray_same 4 3 _ .fortran _ ⟨fun _ => .inr trivial, fun _ => .inl fun _ h =>
    .inl (Option.some.inj h).symm, trivial⟩

/-- The second column of a cyclic dimension with blocks of two is put behind the part of the column
that the process has. -/
theorem convertDarray_columns :
    ¬ ∀ (size rank : Nat) (dims : List DarrayDim) (order : StorageOrder) (old : Meaning),
      (∀ d ∈ dims, d.Accepted) → (dims.map DarrayDim.psize).prod = size → rank < size →
      (convertDarray size rank dims order old).map Meaning.bytes =
        (createDarray size rank dims order old).map Meaning.bytes := by
  intro h
  have hdims : ∀ d ∈ [(⟨4, .block, none, 2⟩ : DarrayDim), ⟨4, .cyclic, some 2, 2⟩], d.Accepted := by
    intro d hd
    simp only [mem_cons, not_mem_nil, or_false] at hd
    rcases hd with rfl | rfl
    · exact ⟨by decide, fun _ _ h => (nomatch h), fun _ _ h => (nomatch h), nofun⟩
    · exact ⟨by decide, fun _ a h => by cases h; decide, nofun, nofun⟩
  have := h 4 0 [⟨4, .block, none, 2⟩, ⟨4, .cyclic, some 2, 2⟩] .fortran ⟨[0], 0, 1, 1⟩
    hdims rfl (by decide)
  revert this
  decide

end main

end PsMpi.Data.Commit
