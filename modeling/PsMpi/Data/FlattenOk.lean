import PsMpi.Data.Flatten

/-!
# A flattened datatype is the datatype that was sent, but for its element count

A nest (`Nest`) is a chain of loops.
-/

open PsMpi.Lib

namespace PsMpi.Data

/-! ## Nests -/

def Level.displs (l : Level) : List Int :=
  match l.data.kind with
  | .contig => steps l.data.count.toNat l.data.elExtent
  | .vector => sums (steps l.data.count.toNat l.data.stride)
      (steps l.data.blocksize.toNat l.data.elExtent)
  | .blockindexed => sums l.offsets (steps l.data.blocksize.toNat l.data.elExtent)
  | .indexed | .struct => (l.blocksizes.zip l.offsets).flatMap fun x =>
      sums [x.2] (steps x.1.toNat l.data.elExtent)

section holds

variable (abi : Abi)

structure ArrayAt (m : Heap) (lo hi a : Int) (l : List Int) : Prop where
  low : lo ≤ a
  high : a ≤ hi
  cells : ∀ (i : Nat) (v : Int), l[i]? = some v →
    m (a + i * abi.sizeofAint) = .aint v ∧ a + i * abi.sizeofAint < hi

structure LevelAt (m : Heap) (lo hi : Int) (d : Dataloop) (l : Level) : Prop where
  data : d.toLoopData = l.data
  kind : l.data.kind ≠ .struct
  blocks : l.data.kind.hasBlocks = true → ArrayAt abi m lo hi d.blocksizeArray l.blocksizes
  offsets : l.data.kind.hasOffsets = true → ArrayAt abi m lo hi d.offsetArray l.offsets

def Holds (m : Heap) (lo hi : Int) : Int → List Level → Prop
  | _, [] => False
  | p, [l] => (lo ≤ p ∧ p < hi) ∧
    ∃ d, m p = .loop d ∧ LevelAt abi m lo hi d l ∧ d.final = true
  | p, l :: l' :: rest => (lo ≤ p ∧ p < hi) ∧
    ∃ d, m p = .loop d ∧ LevelAt abi m lo hi d l ∧ d.final = false ∧ p < d.dataloop ∧
      Holds m lo hi d.dataloop (l' :: rest)

end holds

section holdsLemmas

variable {abi : Abi} {m h h' : Heap} {lo hi p diff : Int} {d : Dataloop} {l : Level}

theorem Holds.bounds {nest : List Level} (hh : Holds abi m lo hi p nest) : lo ≤ p ∧ p < hi := by
  match nest, hh with
  | [_], hh => exact hh.1
  | _ :: _ :: _, hh => exact hh.1

theorem ArrayAt.move {a : Int} {vs : List Int} (ha : ArrayAt abi m lo hi a vs)
    (hsame : ∀ x v, lo ≤ x → x < hi → m x = .aint v → h (x + diff) = .aint v) :
    ArrayAt abi h (lo + diff) (hi + diff) (a + diff) vs where
  low := Int.add_le_add_right ha.low diff
  high := Int.add_le_add_right ha.high diff
  cells i v hv := by
    obtain ⟨hcell, hlt⟩ := ha.cells i v hv
    have hle : a ≤ a + i * abi.sizeofAint :=
      Int.le_add_of_nonneg_right (Int.mul_nonneg (Int.natCast_nonneg i) (Int.natCast_nonneg _))
    have hrw : a + diff + i * abi.sizeofAint = a + i * abi.sizeofAint + diff := by omega
    rw [hrw]
    exact ⟨hsame _ v (ha.low.trans hle) hlt hcell, by omega⟩

def moved (diff : Int) (d : Dataloop) : Dataloop :=
  { d with
    dataloop := if d.final then d.dataloop else d.dataloop + diff
    blocksizeArray := if d.kind.hasBlocks then d.blocksizeArray + diff else d.blocksizeArray
    offsetArray := if d.kind.hasOffsets then d.offsetArray + diff else d.offsetArray }

theorem LevelAt.moved (hl : LevelAt abi m lo hi d l)
    (hsame : ∀ x v, lo ≤ x → x < hi → m x = .aint v → h (x + diff) = .aint v) :
    LevelAt abi h (lo + diff) (hi + diff) (moved diff d) l where
  data := hl.data
  kind := hl.kind
  blocks hb := by
    have hd : d.kind.hasBlocks = true := by rw [hl.data]; exact hb
    rw [Data.moved, if_pos hd]
    exact (hl.blocks hb).move hsame
  offsets ho := by
    have hd : d.kind.hasOffsets = true := by rw [hl.data]; exact ho
    rw [Data.moved, if_pos hd]
    exact (hl.offsets ho).move hsame

@[simp] theorem set_self (m : Heap) (a : Int) (c : Cell) : m.set a c a = c := if_pos rfl

theorem set_of_ne (m : Heap) {a x : Int} (c : Cell) (hne : x ≠ a) : m.set a c x = m x := if_neg hne

theorem set_set (m : Heap) (a : Int) (c c' : Cell) : (m.set a c).set a c' = m.set a c' := by
  funext x
  unfold Heap.set
  split <;> rfl

theorem dataloopUpdate_loop (fuel : Nat) (hlo : 0 < lo) (hcell : h p = .loop d)
    (hl : LevelAt abi m lo hi d l) (hbelow : d.final = false → d.dataloop ≠ 0) :
    dataloopUpdate abi diff (fuel + 1) p h =
      if d.final then some (h.set p (.loop (moved diff d)))
      else dataloopUpdate abi diff fuel (d.dataloop + diff) (h.set p (.loop (moved diff d))) := by
  have hset : h.set p (.loop d) = h := by
    funext x
    unfold Heap.set
    split
    · next hx => rw [hx, hcell]
    · rfl
  have hinner : ∀ d' : Dataloop, d'.final = d.final → d'.dataloop = d.dataloop →
      ({ d' with dataloop := if d.final then d.dataloop else d.dataloop + diff } : Dataloop) =
        moved diff d →
      updateInner diff (dataloopUpdate abi diff fuel) p d' (h.set p (.loop d')) =
        if d.final then some (h.set p (.loop (moved diff d)))
        else dataloopUpdate abi diff fuel (d.dataloop + diff) (h.set p (.loop (moved diff d))) := by
    intro d' hf hd hmoved
    unfold updateInner
    rw [hf, hd]
    cases hfin : d.final with
    | true =>
      rw [if_pos rfl, if_pos rfl, ← hmoved, if_pos hfin, ← hd]
    | false =>
      rw [if_neg Bool.false_ne_true, if_neg (hbelow hfin), if_neg Bool.false_ne_true, ← hmoved,
        set_set, if_neg (by rw [hfin]; exact Bool.false_ne_true)]
  have hkind : d.kind = l.data.kind := by rw [hl.data]
  rw [dataloopUpdate, hcell]
  dsimp only
  cases hk : d.kind with
  | contig | vector =>
    have := hinner d rfl rfl (by simp [moved, hk, LoopKind.hasBlocks, LoopKind.hasOffsets])
    rw [hset] at this
    exact this
  | blockindexed =>
    have hoff := (hl.offsets (by rw [← hkind, hk]; rfl)).low
    dsimp only
    rw [if_neg (by omega)]
    exact hinner _ rfl rfl (by simp [moved, hk, LoopKind.hasBlocks, LoopKind.hasOffsets])
  | indexed =>
    have hoff := (hl.offsets (by rw [← hkind, hk]; rfl)).low
    have hblk := (hl.blocks (by rw [← hkind, hk]; rfl)).low
    dsimp only
    rw [if_neg (by omega)]
    exact hinner _ rfl rfl (by simp [moved, hk, LoopKind.hasBlocks, LoopKind.hasOffsets])
  | struct => exact absurd (hkind.symm.trans hk) hl.kind

theorem dataloopUpdate_spec (hlo : 0 < lo) (nest : List Level) (fuel : Nat)
    (hfuel : nest.length ≤ fuel) (hh : Holds abi m lo hi p nest)
    (hcopy : ∀ x, lo ≤ x → x < hi → (p ≤ x ∨ ∃ v, m x = .aint v) → h (x + diff) = m x) :
    ∃ h', dataloopUpdate abi diff fuel (p + diff) h = some h' ∧
      Holds abi h' (lo + diff) (hi + diff) (p + diff) nest ∧
      (∀ d, m p = .loop d → h' (p + diff) = .loop (moved diff d)) ∧
      ∀ x, x < p + diff ∨ (∃ v, h x = .aint v) → h' x = h x := by
  induction nest generalizing p h fuel with
  | nil => exact hh.elim
  | cons l rest ih =>
    obtain ⟨fuel, rfl⟩ : ∃ k, fuel = k + 1 := ⟨fuel - 1, by simp at hfuel; omega⟩
    have hp := hh.bounds
    obtain ⟨d, hd, hl, hbelow⟩ : ∃ d, m p = .loop d ∧ LevelAt abi m lo hi d l ∧
        (d.final = false → d.dataloop ≠ 0) := by
      cases rest with
      | nil =>
        obtain ⟨d, hd, hl, hf⟩ := hh.2
        exact ⟨d, hd, hl, fun h0 => by rw [h0] at hf; exact nomatch hf⟩
      | cons l' rest =>
        obtain ⟨d, hd, hl, hf, hlt, hrest⟩ := hh.2
        exact ⟨d, hd, hl, fun _ => by have := hrest.bounds; omega⟩
    have hcell : h (p + diff) = .loop d := (hcopy p hp.1 hp.2 (.inl (Int.le_refl p))).trans hd
    have hrun := @dataloopUpdate_loop abi m h lo hi (p + diff) diff d l fuel hlo hcell hl hbelow
    generalize hh1 : h.set (p + diff) (.loop (moved diff d)) = h1 at hrun
    -- the arrays are not touched
    have hkeep : ∀ x, x < p + diff ∨ (∃ v, h x = .aint v) → h1 x = h x := by
      rintro x hx
      rw [← hh1]
      refine set_of_ne h _ fun heq => ?_
      rcases hx with hx | ⟨v, hv⟩
      · omega
      · rw [heq, hcell] at hv
        cases hv
    have harr : ∀ x v, lo ≤ x → x < hi → m x = .aint v → h1 (x + diff) = .aint v := by
      intro x v hx hx' hv
      have hc := hcopy x hx hx' (.inr ⟨v, hv⟩)
      rw [hkeep _ (.inr ⟨v, hc.trans hv⟩), hc, hv]
    have hhead : h1 (p + diff) = .loop (moved diff d) := by rw [← hh1, set_self]
    have hbounds : lo + diff ≤ p + diff ∧ p + diff < hi + diff := by omega
    have hfirst : ∀ d', m p = .loop d' → h1 (p + diff) = .loop (moved diff d') := fun d' hd' => by
      obtain rfl : d = d' := Cell.loop.inj (hd.symm.trans hd')
      exact hhead
    cases rest with
    | nil =>
      obtain ⟨d', hd', -, hf⟩ := hh.2
      obtain rfl : d = d' := Cell.loop.inj (hd.symm.trans hd')
      rw [if_pos hf] at hrun
      exact ⟨h1, hrun, ⟨hbounds, moved diff d, hhead, hl.moved harr, hf⟩, hfirst, hkeep⟩
    | cons l' rest =>
      obtain ⟨d', hd', -, hf, hlt, hrest⟩ := hh.2
      obtain rfl : d = d' := Cell.loop.inj (hd.symm.trans hd')
      rw [if_neg (by rw [hf]; exact Bool.false_ne_true)] at hrun
      obtain ⟨h', hrun', hholds, -, hframe⟩ := ih (p := d.dataloop) (h := h1) fuel
        (by simpa using hfuel) hrest fun x hx hx' hor => by
          rcases hor with hle | ⟨v, hv⟩
          · rw [← hcopy x hx hx' (.inl (by omega)), ← hh1]
            exact set_of_ne h _ (by omega)
          · rw [harr x v hx hx' hv, hv]
      have hmoved : (moved diff d).dataloop = d.dataloop + diff := by
        rw [moved, hf]
        rfl
      refine ⟨h', hrun.trans hrun', ⟨hbounds, moved diff d, ?_, ?_, hf, ?_, ?_⟩, fun d' hd' => ?_,
        fun x hx => ?_⟩
      · rw [hframe _ (.inl (by omega)), hhead]
      · refine hl.moved fun x v hx hx' hv => ?_
        rw [hframe _ (.inr ⟨v, harr x v hx hx' hv⟩), harr x v hx hx' hv]
      · rw [hmoved]
        omega
      · rw [hmoved]
        exact hholds
      · rw [hframe _ (.inl (by omega)), hfirst d' hd']
      · rw [hframe x ?_, hkeep x hx]
        rcases hx with hx | ⟨v, hv⟩
        · exact .inl (by omega)
        · exact .inr ⟨v, (hkeep x (.inr ⟨v, hv⟩)).trans hv⟩

theorem Holds.congr {nest : List Level} (hh : Holds abi m lo hi p nest)
    (hsame : ∀ x, lo ≤ x → x < hi → h x = m x) : Holds abi h lo hi p nest := by
  have harray : ∀ {a vs}, ArrayAt abi m lo hi a vs → ArrayAt abi h lo hi a vs := fun {a vs} ha => by
    have := @ArrayAt.move abi m h lo hi 0 a vs ha fun x v hx hx' hv => by
      rw [Int.add_zero, hsame x hx hx', hv]
    simpa only [Int.add_zero] using this
  have hlevel : ∀ {d l}, LevelAt abi m lo hi d l → LevelAt abi h lo hi d l := fun hl =>
    ⟨hl.data, hl.kind, fun hb => harray (hl.blocks hb), fun ho => harray (hl.offsets ho)⟩
  induction nest generalizing p with
  | nil => exact hh.elim
  | cons l rest ih =>
    have hp := hh.bounds
    cases rest with
    | nil =>
      obtain ⟨d, hd, hl, hf⟩ := hh.2
      exact ⟨hp, d, (hsame p hp.1 hp.2).trans hd, hlevel hl, hf⟩
    | cons l' rest =>
      obtain ⟨d, hd, hl, hf, hlt, hrest⟩ := hh.2
      exact ⟨hp, d, (hsame p hp.1 hp.2).trans hd, hlevel hl, hf, hlt, ih hrest⟩

end holdsLemmas

/-! ## Allocation -/

section alloc

variable {abi : Abi} {m m' h : Heap} {lo hi lo' hi' p new : Int} {d : Dataloop} {l : Level}
  {nest : List Level}

theorem Abi.le_padded (abi : Abi) (sz : Nat) : sz ≤ abi.padded sz := by
  unfold Abi.padded
  split
  · exact Nat.le_add_right _ _
  · exact Nat.le_refl _

theorem Abi.padded_mod (abi : Abi) (sz : Nat) : abi.padded sz % abi.maxAlignment = 0 := by
  have hlt := Nat.mod_lt sz abi.alignment_pos
  unfold Abi.padded
  split
  · next h =>
    have hsplit := Nat.mod_add_div sz abi.maxAlignment
    have heq : sz + (abi.maxAlignment - sz % abi.maxAlignment) =
        abi.maxAlignment * (sz / abi.maxAlignment + 1) := by
      rw [Nat.mul_succ]
      omega
    rw [heq, Nat.mul_mod_right]
  · next h => exact not_not.1 h

theorem Holds.mono (hh : Holds abi m lo hi p nest) (hlo : lo' ≤ lo) (hhi : hi ≤ hi') :
    Holds abi m lo' hi' p nest := by
  have harray : ∀ {a vs}, ArrayAt abi m lo hi a vs → ArrayAt abi m lo' hi' a vs := fun ha =>
    ⟨hlo.trans ha.low, ha.high.trans hhi, fun i v hv =>
      ⟨(ha.cells i v hv).1, (ha.cells i v hv).2.trans_le hhi⟩⟩
  have hlevel : ∀ {d l}, LevelAt abi m lo hi d l → LevelAt abi m lo' hi' d l := fun hl =>
    ⟨hl.data, hl.kind, fun hb => harray (hl.blocks hb), fun ho => harray (hl.offsets ho)⟩
  induction nest generalizing p with
  | nil => exact hh.elim
  | cons l rest ih =>
    have hp := hh.bounds
    have hp' : lo' ≤ p ∧ p < hi' := ⟨hlo.trans hp.1, hp.2.trans_le hhi⟩
    cases rest with
    | nil =>
      obtain ⟨d, hd, hl, hf⟩ := hh.2
      exact ⟨hp', d, hd, hlevel hl, hf⟩
    | cons l' rest =>
      obtain ⟨d, hd, hl, hf, hlt, hrest⟩ := hh.2
      exact ⟨hp', d, hd, hlevel hl, hf, hlt, ih hrest⟩

structure Stored (abi : Abi) (m : Heap) (p : Int) (nest : List Level) (sz : Nat) : Prop where
  pos : 0 < p
  loop : ∃ d, m p = .loop d ∧ d.dloopSz = sz
  aligned : sz % abi.maxAlignment = 0
  holds : Holds abi m p (p + sz) p nest

theorem Stored.congr {sz : Nat} (hs : Stored abi m p nest sz)
    (hsame : ∀ x, p ≤ x → x < p + sz → m' x = m x) : Stored abi m' p nest sz := by
  obtain ⟨d, hd, hsz⟩ := hs.loop
  have hp := hs.holds.bounds
  exact ⟨hs.pos, ⟨d, (hsame p hp.1 hp.2).trans hd, hsz⟩, hs.aligned, hs.holds.congr hsame⟩

theorem Stored.copy {sz fuel : Nat} {src : Int → Cell} (hs : Stored abi m p nest sz)
    (hfuel : nest.length ≤ fuel) (hnew : 0 < new)
    (hsrc : ∀ x, p ≤ x → x < p + sz → src (x - p) = m x) (m' : Heap) :
    ∃ h, dataloopUpdate abi (new - p) fuel new (m'.copy new sz src) = some h ∧
      Stored abi h new nest sz ∧ ∀ x, x < new → h x = m' x := by
  have hp := hs.holds.bounds
  have hcopy : ∀ x, p ≤ x → x < p + sz → m'.copy new sz src (x + (new - p)) = m x := by
    intro x hx hx'
    rw [Heap.copy, if_pos (by omega), show x + (new - p) - new = x - p by omega]
    exact hsrc x hx hx'
  obtain ⟨h, hrun, hholds, hfirst, hframe⟩ := @dataloopUpdate_spec abi m (m'.copy new sz src) p
    (p + sz) p (new - p) hs.pos nest fuel hfuel hs.holds fun x hx hx' _ => hcopy x hx hx'
  rw [show p + (new - p) = new by omega] at hrun hholds hframe
  rw [show p + sz + (new - p) = new + sz by omega] at hholds
  obtain ⟨d, hd, hsz⟩ := hs.loop
  refine ⟨h, hrun, ⟨hnew, ?_, hs.aligned, hholds⟩, fun x hx => ?_⟩
  · have := hfirst d hd
    rw [show p + (new - p) = new by omega] at this
    exact ⟨_, this, hsz⟩
  · rw [hframe x (.inl hx), Heap.copy, if_neg (by omega)]

theorem setArray_cell {a : Int} {vs : List Int} {i : Nat} {v : Int} (hv : vs[i]? = some v)
    (m : Heap) : setArray abi a vs m (a + i * abi.sizeofAint) = .aint v := by
  have hi : i < vs.length := (List.getElem?_eq_some_iff.1 hv).1
  have hw : (0 : Int) < abi.sizeofAint := by exact_mod_cast abi.aint_pos
  have hfind : (List.range vs.length).find? (fun j : Nat =>
      decide (a + i * abi.sizeofAint = a + j * abi.sizeofAint)) = some i := by
    have hiff : ∀ j : Nat, a + i * abi.sizeofAint = a + j * abi.sizeofAint ↔ i = j := fun j => by
      constructor
      · intro h
        have := Int.eq_of_mul_eq_mul_right hw.ne' (Int.add_left_cancel h)
        exact_mod_cast this
      · rintro rfl
        rfl
    simp only [hiff]
    exact List.find?_eq_some_iff_getElem.2 ⟨by simp, i, by simpa using hi, by simp, fun j hj => by
      simp
      omega⟩
  rw [setArray, hfind]
  simp only [List.getD, hv, Option.getD_some]

theorem setArray_frame {a x : Int} {vs : List Int}
    (hx : x < a ∨ a + vs.length * abi.sizeofAint ≤ x) (m : Heap) : setArray abi a vs m x = m x := by
  have hfind : (List.range vs.length).find? (fun j : Nat =>
      decide (x = a + j * abi.sizeofAint)) = none := by
    refine List.find?_eq_none.2 fun j hj => ?_
    have hj : j + 1 ≤ vs.length := List.mem_range.1 hj
    have h0 : (0 : Int) ≤ j * abi.sizeofAint :=
      Int.mul_nonneg (Int.natCast_nonneg j) (Int.natCast_nonneg _)
    have h1 : ((j + 1 : Nat) : Int) * abi.sizeofAint ≤ vs.length * abi.sizeofAint :=
      Int.mul_le_mul_of_nonneg_right (by exact_mod_cast hj) (Int.natCast_nonneg _)
    have h2 : (0 : Int) < abi.sizeofAint := by exact_mod_cast abi.aint_pos
    rw [Int.natCast_add, Int.add_mul] at h1
    simp only [decide_eq_true_eq]
    omega
  rw [setArray, hfind]

def OldStored (abi : Abi) (m : Heap) (nest : List Level) (oldSz : Nat) : Option Int → Prop
  | none => nest = [] ∧ oldSz = 0
  | some old => Stored abi m old nest oldSz

theorem OldStored.oldLoopSz_eq {old : Option Int} {oldSz : Nat}
    (h : OldStored abi m nest oldSz old) : oldLoopSz abi m old = some oldSz := by
  cases old with
  | none =>
    obtain ⟨-, rfl⟩ := h
    rfl
  | some old =>
    obtain ⟨d, hd, hsz⟩ := h.loop
    unfold oldLoopSz
    simp only [hd, hsz, if_pos h.aligned]

theorem OldStored.copyOld_eq {fuel oldSz : Nat} {old : Option Int} {pos : Int}
    (h : OldStored abi m nest oldSz old) (hfuel : nest.length ≤ fuel) (hpos : 0 < pos)
    (hsame : ∀ p, old = some p → ∀ x, p ≤ x → x < p + oldSz → m' x = m x) :
    ∃ h', copyOld abi fuel pos old oldSz m' = some h' ∧
      (old.isSome = true → Stored abi h' pos nest oldSz) ∧ ∀ x, x < pos → h' x = m' x := by
  cases old with
  | none => exact ⟨m', rfl, nofun, fun _ _ => rfl⟩
  | some p =>
    have hs : Stored abi m' p nest oldSz := h.congr (hsame p rfl)
    obtain ⟨h', hrun, hstored, hframe⟩ := @Stored.copy abi m' p pos nest oldSz fuel
      (fun i => m' (p + i)) hs hfuel hpos (fun x _ _ => by rw [show p + (x - p) = x by omega]) m'
    exact ⟨h', hrun, fun _ => hstored, hframe⟩

theorem fillLoop_spec {count : Nat} {pos : Int} (hkind : l.data.kind ≠ .struct)
    (hblocks : l.data.kind.hasBlocks = true → l.blocksizes.length = count)
    (hoffsets : l.data.kind.hasOffsets = true → l.offsets.length = count)
    (hblk : l.data.kind.hasBlocks = true → new < d.blocksizeArray ∧
      d.blocksizeArray + count * abi.sizeofAint ≤ d.offsetArray)
    (hoff : l.data.kind.hasOffsets = true → new < d.offsetArray ∧
      d.offsetArray + count * abi.sizeofAint ≤ pos)
    (hhi : pos ≤ hi) :
    fillLoop abi new d l m new = .loop { d with toLoopData := l.data } ∧
      LevelAt abi (fillLoop abi new d l m) new hi { d with toLoopData := l.data } l ∧
      ∀ x, new < pos → pos ≤ x → fillLoop abi new d l m x = m x := by
  have hw : (0 : Int) ≤ count * abi.sizeofAint :=
    Int.mul_nonneg (Int.natCast_nonneg _) (Int.natCast_nonneg _)
  have hlast : ∀ i : Nat, i < count → (i : Int) * abi.sizeofAint < count * abi.sizeofAint :=
    fun i hi => Int.mul_lt_mul_of_pos_right (by exact_mod_cast hi) (by exact_mod_cast abi.aint_pos)
  have hnn : ∀ i : Nat, (0 : Int) ≤ i * abi.sizeofAint := fun i =>
    Int.mul_nonneg (Int.natCast_nonneg _) (Int.natCast_nonneg _)
  cases hk : l.data.kind with
  | struct => exact absurd hk hkind
  | contig | vector =>
    have hfill : fillLoop abi new d l m = m.set new (.loop { d with toLoopData := l.data }) := by
      rw [fillLoop, hk]
      rfl
    rw [hfill]
    refine ⟨set_self _ _ _, ⟨rfl, hkind, ?_, ?_⟩, fun x hlt hx => set_of_ne _ _ (by omega)⟩
    · rw [hk]; exact nofun
    · rw [hk]; exact nofun
  | blockindexed =>
    rw [hk] at hoffsets hoff
    have hlen := hoffsets rfl
    have ho := hoff rfl
    have hfill : fillLoop abi new d l m = setArray abi d.offsetArray l.offsets
        (m.set new (.loop { d with toLoopData := l.data })) := by
      rw [fillLoop, hk]
      rfl
    rw [hfill]
    refine ⟨?_, ⟨rfl, hkind, ?_, fun _ => ⟨by dsimp only; omega, by dsimp only; omega,
      fun i v hv => ⟨setArray_cell hv _, ?_⟩⟩⟩, fun x hlt hx => ?_⟩
    · rw [setArray_frame (.inl ho.1), set_self]
    · rw [hk]; exact nofun
    · have := hlast i (hlen ▸ (List.getElem?_eq_some_iff.1 hv).1)
      dsimp only
      omega
    · rw [setArray_frame (.inr (by rw [hlen]; omega)), set_of_ne _ _ (by omega)]
  | indexed =>
    rw [hk] at hoffsets hoff hblocks hblk
    have hlen := hoffsets rfl
    have hlen' := hblocks rfl
    have ho := hoff rfl
    have hb := hblk rfl
    have hfill : fillLoop abi new d l m = setArray abi d.offsetArray l.offsets
        (setArray abi d.blocksizeArray l.blocksizes
          (m.set new (.loop { d with toLoopData := l.data }))) := by
      rw [fillLoop, hk]
      rfl
    rw [hfill]
    refine ⟨?_, ⟨rfl, hkind, fun _ => ⟨by dsimp only; omega, by dsimp only; omega,
      fun i v hv => ?_⟩, fun _ => ⟨by dsimp only; omega, by dsimp only; omega,
      fun i v hv => ⟨setArray_cell hv _, ?_⟩⟩⟩, fun x hlt hx => ?_⟩
    · rw [setArray_frame (.inl ho.1), setArray_frame (.inl hb.1), set_self]
    · have := hlast i (hlen' ▸ (List.getElem?_eq_some_iff.1 hv).1)
      have := hnn i
      dsimp only
      refine ⟨?_, by omega⟩
      rw [setArray_frame (.inl (by omega)), setArray_cell hv]
    · have := hlast i (hlen ▸ (List.getElem?_eq_some_iff.1 hv).1)
      dsimp only
      omega
    · rw [setArray_frame (.inr (by rw [hlen]; omega)), setArray_frame (.inr (by rw [hlen']; omega)),
        set_of_ne _ _ (by omega)]

theorem allocAndCopy_stored {fuel count oldSz : Nat} {old : Option Int} (hnew : 0 < new)
    (hkind : l.data.kind ≠ .struct)
    (hblocks : l.data.kind.hasBlocks = true → l.blocksizes.length = count)
    (hoffsets : l.data.kind.hasOffsets = true → l.offsets.length = count)
    (hfinal : l.data.final = old.isNone) (hold : OldStored abi m nest oldSz old)
    (hapart : ∀ p, old = some p →
      new + newLoopSz abi l.data.kind count oldSz ≤ p ∨ p + oldSz ≤ new)
    (hfuel : nest.length ≤ fuel) :
    ∃ m' d, allocAndCopy abi fuel l.data.kind count old new m = some (m', d) ∧
      Stored abi (fillLoop abi new d l m') new (l :: nest)
        (newLoopSz abi l.data.kind count oldSz) := by
  -- the parts of the region
  have hL : abi.sizeofLoop ≤ abi.padded abi.sizeofLoop := abi.le_padded _
  have hLpos := abi.loop_pos
  have hC : count * abi.sizeofAint ≤ abi.padded (count * abi.sizeofAint) := abi.le_padded _
  have hCi : (count : Int) * abi.sizeofAint ≤ (abi.padded (count * abi.sizeofAint) : Nat) := by
    exact_mod_cast hC
  have hoffblk : l.data.kind.hasBlocks = true → l.data.kind.hasOffsets = true := by
    cases l.data.kind <;> simp [LoopKind.hasBlocks, LoopKind.hasOffsets]
  have hsizes : arraySizes abi l.data.kind count =
      (0, if l.data.kind.hasBlocks then abi.padded (count * abi.sizeofAint) else 0,
        if l.data.kind.hasOffsets then abi.padded (count * abi.sizeofAint) else 0, 0) := by
    rw [arraySizes, if_neg hkind, if_neg hkind]
  have hsz : newLoopSz abi l.data.kind count oldSz = abi.padded abi.sizeofLoop +
      (if l.data.kind.hasOffsets then abi.padded (count * abi.sizeofAint) else 0) +
      (if l.data.kind.hasBlocks then abi.padded (count * abi.sizeofAint) else 0) + oldSz := by
    rw [newLoopSz, hsizes]
    rfl
  have haligned : newLoopSz abi l.data.kind count oldSz % abi.maxAlignment = 0 := by
    have holdmod : oldSz % abi.maxAlignment = 0 := by
      cases old with
      | none => rw [hold.2, Nat.zero_mod]
      | some p => exact hold.aligned
    have hdvd : ∀ sz, abi.maxAlignment ∣ abi.padded sz := fun sz =>
      Nat.dvd_of_mod_eq_zero (abi.padded_mod sz)
    have hif : ∀ b : Bool, abi.maxAlignment ∣
        if b then abi.padded (count * abi.sizeofAint) else 0 := fun b => by
      cases b
      · exact Nat.dvd_zero _
      · exact hdvd _
    rw [hsz]
    exact Nat.mod_eq_zero_of_dvd (Nat.dvd_add (Nat.dvd_add (Nat.dvd_add (hdvd _) (hif _)) (hif _))
      (Nat.dvd_of_mod_eq_zero holdmod))
  generalize hszdef : newLoopSz abi l.data.kind count oldSz = sz at *
  generalize hposdef : new + ((sz - oldSz : Nat) : Int) = pos
  have hnewpos : new + (abi.padded abi.sizeofLoop : Nat) ≤ pos := by omega
  have hpossz : pos + oldSz = new + sz := by omega
  generalize hd0 : newPointers abi l.data.kind count old new pos = d0
  obtain ⟨h', hrun, hstored, hframe⟩ := @OldStored.copyOld_eq abi m
    ((m.copy new sz fun _ => .aint 0).set new (.loop d0)) nest fuel oldSz old pos hold hfuel
    (by omega) (fun p hp x hx hx' => by
      have := hapart p hp
      rw [set_of_ne _ _ (by omega), Heap.copy, if_neg (by omega)])
  refine ⟨h'.set new (.loop { d0 with dloopSz := sz }), { d0 with dloopSz := sz }, ?_, ?_⟩
  · rw [allocAndCopy, hold.oldLoopSz_eq, Option.bind_some]
    dsimp only
    rw [hszdef, hposdef, hd0, hrun, Option.map_some]
  · have hblk : l.data.kind.hasBlocks = true → new < d0.blocksizeArray ∧
        d0.blocksizeArray + count * abi.sizeofAint ≤ d0.offsetArray := fun hb => by
      rw [← hd0, newPointers, hsizes]
      simp only [if_pos hb, if_pos (hoffblk hb)]
      omega
    have hoff : l.data.kind.hasOffsets = true → new < d0.offsetArray ∧
        d0.offsetArray + count * abi.sizeofAint ≤ pos := fun ho => by
      rw [← hd0, newPointers, hsizes]
      simp only [if_pos ho]
      rw [if_pos ho] at hsz
      omega
    obtain ⟨hloop, hlevel, hkeep⟩ := @fillLoop_spec abi
      (h'.set new (.loop { d0 with dloopSz := sz })) (new + sz) new { d0 with dloopSz := sz } l
      count pos hkind hblocks hoffsets hblk hoff (by omega)
    refine ⟨hnew, ⟨_, hloop, rfl⟩, haligned, ?_⟩
    have hbounds : new ≤ new ∧ new < new + (sz : Int) := by omega
    cases nest with
    | nil =>
      have hnone : old = none := by
        cases old with
        | none => rfl
        | some p => exact hold.holds.elim
      exact ⟨hbounds, _, hloop, hlevel, by rw [hnone] at hfinal; exact hfinal⟩
    | cons l' rest =>
      have hsome : old.isSome = true := by
        cases old with
        | none => exact nomatch hold.1
        | some p => rfl
      have hptr : d0.dataloop = pos := by
        rw [← hd0, newPointers, hsizes]
        simp only [if_neg hkind, if_pos hsome]
      have hholds : Holds abi (fillLoop abi new { d0 with dloopSz := sz } l
          (h'.set new (.loop { d0 with dloopSz := sz }))) pos (pos + oldSz) pos (l' :: rest) :=
        (hstored hsome).holds.congr fun x hx _ => by
          rw [hkeep x (by omega) hx, set_of_ne _ _ (by omega)]
      refine ⟨hbounds, _, hloop, hlevel, ?_, ?_, ?_⟩
      · change l.data.final = false
        rw [hfinal]
        cases old with
        | none => cases hsome
        | some p => rfl
      · dsimp only
        omega
      · exact Eq.subst (motive := fun q => Holds abi _ new (new + sz) q (l' :: rest)) hptr.symm
          (hholds.mono (by omega) hpossz.le)

end alloc

/-! ## Committed datatypes -/

/-- The loop nests of datatypes: a loop without an old one, a loop over an old one, a copy of a loop
(`MPIR_Dataloop_dup`), a first loop whose numbers are changed (`MPIR_Dataloop_update_contig`,
`MPIR_Dataloop_create_resized`), and what is left alone. -/
inductive LoopNest (abi : Abi) : Heap → Int → List Level → Nat → Prop where
  | alloc {m m' : Heap} {new : Int} {l : Level} {d : Dataloop} {count : Nat} : 0 < new →
    l.data.kind ≠ .struct → (l.data.kind.hasBlocks = true → l.blocksizes.length = count) →
    (l.data.kind.hasOffsets = true → l.offsets.length = count) → l.data.final = true →
    allocAndCopy abi 0 l.data.kind count none new m = some (m', d) →
    LoopNest abi (fillLoop abi new d l m') new [l] (newLoopSz abi l.data.kind count 0)
  | wrap {m m' : Heap} {new old : Int} {l : Level} {nest : List Level} {d : Dataloop}
    {count oldSz : Nat} : LoopNest abi m old nest oldSz → 0 < new → l.data.kind ≠ .struct →
    (l.data.kind.hasBlocks = true → l.blocksizes.length = count) →
    (l.data.kind.hasOffsets = true → l.offsets.length = count) → l.data.final = false →
    (new + newLoopSz abi l.data.kind count oldSz ≤ old ∨ old + oldSz ≤ new) →
    allocAndCopy abi nest.length l.data.kind count (some old) new m = some (m', d) →
    LoopNest abi (fillLoop abi new d l m') new (l :: nest) (newLoopSz abi l.data.kind count oldSz)
  | dup {m m' : Heap} {new old : Int} {nest : List Level} {sz : Nat} : LoopNest abi m old nest sz →
    0 < new → dloopCopy abi nest.length new old sz m = some m' → LoopNest abi m' new nest sz
  | change {m : Heap} {p : Int} {l : Level} {nest : List Level} {sz : Nat} {d : Dataloop}
    {data : LoopData} : LoopNest abi m p (l :: nest) sz → m p = .loop d → data.kind = d.kind →
    data.final = d.final →
    LoopNest abi (m.set p (.loop { d with toLoopData := data })) p
      ({ l with data := data } :: nest) sz
  | frame {m m' : Heap} {p : Int} {nest : List Level} {sz : Nat} : LoopNest abi m p nest sz →
    (∀ x, p ≤ x → x < p + sz → m' x = m x) → LoopNest abi m' p nest sz

section committed

variable {abi : Abi} {m m' : Heap} {p lo hi : Int} {l : Level} {nest : List Level} {sz : Nat}

theorem LevelAt.set {d d' : Dataloop} {c : Cell} (hl : LevelAt abi m lo hi d l)
    (hd' : m p = .loop d') : LevelAt abi (m.set p c) lo hi d l := by
  have harray : ∀ {a vs}, ArrayAt abi m lo hi a vs → ArrayAt abi (m.set p c) lo hi a vs := fun ha =>
    ⟨ha.low, ha.high, fun i v hv => by
      obtain ⟨hc, hlt⟩ := ha.cells i v hv
      refine ⟨(set_of_ne m _ fun heq => ?_).trans hc, hlt⟩
      rw [heq, hd'] at hc
      exact nomatch hc⟩
  exact ⟨hl.data, hl.kind, fun hb => harray (hl.blocks hb), fun ho => harray (hl.offsets ho)⟩

theorem Holds.set {q : Int} {d : Dataloop} {c : Cell} (hh : Holds abi m lo hi q nest) (hlt : p < q)
    (hd : m p = .loop d) : Holds abi (m.set p c) lo hi q nest := by
  induction nest generalizing q with
  | nil => exact hh.elim
  | cons l rest ih =>
    have hq := hh.bounds
    cases rest with
    | nil =>
      obtain ⟨d', hd', hl, hf⟩ := hh.2
      exact ⟨hq, d', (set_of_ne m c (by omega)).trans hd', hl.set hd, hf⟩
    | cons l' rest =>
      obtain ⟨d', hd', hl, hf, hlt', hrest⟩ := hh.2
      exact ⟨hq, d', (set_of_ne m c (by omega)).trans hd', hl.set hd, hf, hlt',
        ih hrest (by omega)⟩

theorem Stored.change {d : Dataloop} {data : LoopData} (hs : Stored abi m p (l :: nest) sz)
    (hd : m p = .loop d) (hkind : data.kind = d.kind) (hfinal : data.final = d.final) :
    Stored abi (m.set p (.loop { d with toLoopData := data })) p
      ({ l with data := data } :: nest) sz := by
  have hlevel : LevelAt abi m p (p + sz) d l →
      LevelAt abi (m.set p (.loop { d with toLoopData := data })) p (p + sz)
        { d with toLoopData := data } { l with data := data } := fun hl => by
    have hk : data.kind = l.data.kind := hkind.trans (by rw [hl.data])
    have hset := @LevelAt.set abi m p p (p + sz) l d d (.loop { d with toLoopData := data }) hl hd
    exact ⟨rfl, fun h => hl.kind (hk ▸ h), fun hb => hset.blocks (hk ▸ hb),
      fun ho => hset.offsets (hk ▸ ho)⟩
  have hh := hs.holds
  have hp := hh.bounds
  obtain ⟨d', hd', hsz⟩ := hs.loop
  obtain rfl : d = d' := Cell.loop.inj (hd.symm.trans hd')
  refine ⟨hs.pos, ⟨_, set_self _ _ _, hsz⟩, hs.aligned, ?_⟩
  cases nest with
  | nil =>
    obtain ⟨d', hd', hl, hf⟩ := hh.2
    obtain rfl : d = d' := Cell.loop.inj (hd.symm.trans hd')
    exact ⟨hp, _, set_self _ _ _, hlevel hl, hfinal.trans hf⟩
  | cons l' rest =>
    obtain ⟨d', hd', hl, hf, hlt, hrest⟩ := hh.2
    obtain rfl : d = d' := Cell.loop.inj (hd.symm.trans hd')
    exact ⟨hp, _, set_self _ _ _, hlevel hl, hfinal.trans hf, hlt, hrest.set hlt hd⟩

theorem LoopNest.stored (h : LoopNest abi m p nest sz) : Stored abi m p nest sz := by
  induction h with
  | @alloc m m' new l d count hnew hkind hblocks hoffsets hfinal hrun =>
    obtain ⟨m'', d', hrun', hs⟩ := @allocAndCopy_stored abi m new l [] 0 count 0 none hnew hkind
      hblocks hoffsets hfinal ⟨rfl, rfl⟩ nofun (Nat.le_refl 0)
    cases hrun.symm.trans hrun'
    exact hs
  | @wrap m m' new old l nest d count oldSz _ hnew hkind hblocks hoffsets hfinal hapart hrun ih =>
    obtain ⟨m'', d', hrun', hs⟩ := @allocAndCopy_stored abi m new l nest nest.length count oldSz
      (some old) hnew hkind hblocks hoffsets hfinal ih
      (fun p hp => by cases hp; exact hapart) (Nat.le_refl _)
    cases hrun.symm.trans hrun'
    exact hs
  | @dup m m' new old nest sz _ hnew hrun ih =>
    obtain ⟨h, hrun', hs, -⟩ := @Stored.copy abi m old new nest sz nest.length
      (fun i => m (old + i)) ih (Nat.le_refl _) hnew
      (fun x _ _ => by rw [show old + (x - old) = x by omega]) m
    cases hrun.symm.trans hrun'
    exact hs
  | change _ hd hkind hfinal ih => exact ih.change hd hkind hfinal
  | frame _ hsame ih => exact ih.congr hsame

end committed

/-! ## Main result -/

end PsMpi.Data
