import PsMpi.Data.Bounds
import PsMpi.Lib.Displs
import Mathlib.Data.List.TakeWhile

/-!
# The bounds of a datatype are those of its typemap
-/

open PsMpi.Lib List Option

namespace PsMpi.Data

/-! ## Blocks -/

section displs

variable {n : Nat}

def blockDispls (n : Nat) (disp ext : Int) : List Int := sums [disp] (steps n ext)

@[simp] theorem blockDispls_length (n : Nat) (disp ext : Int) :
    (blockDispls n disp ext).length = n := by
  rw [blockDispls, sums_length, steps_length, length_singleton, Nat.one_mul]

theorem block_least (hn : 0 < n) (disp ext : Int) :
    IsLeast {x | x ∈ blockDispls n disp ext} (disp + low n ext) :=
  sums_least (singleton_least disp) (steps_least hn ext)

theorem block_greatest (hn : 0 < n) (disp ext : Int) :
    IsGreatest {x | x ∈ blockDispls n disp ext} (disp + high n ext) :=
  sums_greatest (singleton_greatest disp) (steps_greatest hn ext)

theorem blockLbUb_eq (hn : 0 < n) (disp lb ub : Int) :
    blockLbUb n disp lb ub (ub - lb) =
      (lb + (disp + low n (ub - lb)), ub + (disp + high n (ub - lb))) := by
  have hn' : (n : Int) ≠ 0 := by omega
  unfold blockLbUb low high
  rw [if_neg hn']
  by_cases h : lb ≤ ub
  · rw [if_pos h, if_pos (by omega), if_pos (by omega), Int.add_zero, Int.add_assoc]
  · rw [if_neg h, if_neg (by omega), if_neg (by omega), Int.add_zero, Int.add_assoc]

theorem contigLbUb_eq (hn : 0 < n) (lb ub : Int) :
    contigLbUb n lb ub (ub - lb) = (lb + low n (ub - lb), ub + high n (ub - lb)) := by
  have hn' : (n : Int) ≠ 0 := by omega
  unfold contigLbUb low high
  rw [if_neg hn']
  by_cases h : lb ≤ ub
  · rw [if_pos h, if_pos (by omega), if_pos (by omega), Int.add_zero]
  · rw [if_neg h, if_neg (by omega), if_neg (by omega), Int.add_zero]

theorem vectorLbUb_eq {k : Nat} (hn : 0 < n) (hk : 0 < k) (stride lb ub : Int) :
    vectorLbUb n stride k lb ub (ub - lb) =
      (lb + (low n stride + low k (ub - lb)), ub + (high n stride + high k (ub - lb))) := by
  have hzero : ¬ ((n : Int) = 0 ∨ (k : Int) = 0) := by omega
  unfold vectorLbUb low high
  rw [if_neg hzero]
  by_cases hs : 0 ≤ stride <;> by_cases he : 0 ≤ ub - lb
  · rw [if_pos ⟨hs, he⟩, if_pos hs, if_pos he, if_pos hs, if_pos he, Int.add_zero, Int.add_zero,
      Int.add_assoc, Int.add_comm (stride * _)]
  · rw [if_neg (fun h => he h.2), if_neg (fun h => he h.2), if_pos ⟨hs, by omega⟩, if_pos hs,
      if_neg he, if_pos hs, if_neg he, Int.zero_add, Int.add_zero]
  · rw [if_neg (fun h => hs h.1), if_pos ⟨by omega, he⟩, if_neg hs, if_pos he, if_neg hs, if_pos he,
      Int.zero_add, Int.add_zero]
  · rw [if_neg (fun h => hs h.1), if_neg (fun h => he h.2), if_neg (fun h => hs h.1), if_neg hs,
      if_neg he, if_neg hs, if_neg he, Int.add_zero, Int.add_zero, Int.add_assoc,
      Int.add_comm (stride * _)]

end displs

/-! ## Meanings -/

/-- The positions of the bytes of a datatype in the order of its typemap, its bounds, and the
alignment that is stored. -/
structure Meaning where
  bytes : List Int
  lb : Int
  ub : Int
  align : Int

namespace Meaning

def extent (m : Meaning) : Int := m.ub - m.lb

/-- Datatypes at displacements, with the least of their lower and the greatest of their upper
bounds. -/
def join (align : Int) (l : List (Int × Meaning)) : Meaning where
  bytes := l.flatMap fun x => x.2.bytes.map (x.1 + ·)
  lb := (l.map fun x => x.1 + x.2.lb).min?.getD 0
  ub := (l.map fun x => x.1 + x.2.ub).max?.getD 0
  align := align

def copies (m : Meaning) (ds : List Int) : Meaning := join m.align (ds.map fun d => (d, m))

def block (n : Nat) (d : Int) (m : Meaning) : List (Int × Meaning) :=
  (blockDispls n d m.extent).map fun d => (d, m)

/-- The least number that makes an extent a multiple of the alignment when it is added. -/
def padding (extent align : Int) : Int := if 0 < align then -extent % align else 0

def pad (m : Meaning) : Meaning := { m with ub := m.ub + padding m.extent m.align }

def ofBlocks (l : List (Nat × Int × Meaning)) : Meaning :=
  join ((l.map fun x => x.2.2.align).foldl max 0) (l.flatMap fun x => block x.1 x.2.1 x.2.2)

end Meaning

theorem structPadding_eq_iff (extent align : Int) :
    structPadding extent align = Meaning.padding extent align ↔
      0 < align → 0 ≤ extent ∨ align ∣ extent := by
  unfold structPadding Meaning.padding
  by_cases h : 0 < align
  · rw [if_pos h, if_pos h]
    simp only [h, forall_const]
    by_cases hd : align ∣ extent
    · have h1 : extent.tmod align = 0 := Int.tmod_eq_zero_of_dvd hd
      have h2 : -extent % align = 0 := Int.emod_eq_zero_of_dvd ((Int.dvd_neg).2 hd)
      rw [if_neg (by rw [h1]; simp), h2]
      simp [hd]
    · have hne : extent % align ≠ 0 := fun h0 => hd (Int.dvd_of_emod_eq_zero h0)
      have hpos := Int.emod_nonneg extent (show align ≠ 0 by omega)
      have hlt := Int.emod_lt_of_pos extent h
      have hneg : -extent % align = align - extent % align := by
        rw [Int.neg_emod, if_neg hd]
        omega
      by_cases he : 0 ≤ extent
      · rw [Int.tmod_eq_emod_of_nonneg he, if_pos hne, hneg]
        simp [he]
      · have hneg' := Int.emod_nonneg (-extent) (show align ≠ 0 by omega)
        have ht : extent.tmod align = -(-extent % align) := by
          have := Int.neg_tmod extent align
          rw [Int.tmod_eq_emod_of_nonneg (show 0 ≤ -extent by omega)] at this
          omega
        rw [ht, if_pos (by omega)]
        constructor
        · intro heq
          omega
        · rintro (h0 | h0)
          · exact absurd h0 he
          · exact absurd h0 hd
  · rw [if_neg h, if_neg h]
    simp [h]

/-! ## Agreement -/

/-- The fields of a datatype are those of a meaning. The true bounds are the first position and the
one behind the last. -/
structure Agrees (d : TypeInfo) (m : Meaning) : Prop where
  size : d.size = m.bytes.length
  lb : d.lb = m.lb
  ub : d.ub = m.ub
  extent : d.extent = m.ub - m.lb
  alignsize : d.alignsize = m.align
  trueLb : IsLeast {x | x ∈ m.bytes} d.trueLb
  trueUb : IsGreatest {x | x ∈ m.bytes} (d.trueUb - 1)

/-- A datatype is made of `n` old types, with the bounds shifted by `a` and `b`. -/
structure Shifted (d d' : TypeInfo) (n a b : Int) : Prop where
  size : d'.size = n * d.size
  lb : d'.lb = d.lb + a
  ub : d'.ub = d.ub + b
  trueLb : d'.trueLb = d.trueLb + a
  trueUb : d'.trueUb = d.trueUb + b
  extent : d'.extent = d'.ub - d'.lb
  alignsize : d'.alignsize = d.alignsize

section agrees

variable {alignOf : Basic → Nat} {d d' : TypeInfo} {m : Meaning} {ds : List Int} {a b : Int}
  {n : Nat}

theorem copies_bytes (m : Meaning) (ds : List Int) : (m.copies ds).bytes = sums ds m.bytes := by
  rw [Meaning.copies, Meaning.join, sums, flatMap_map]

theorem copies_lb (ha : IsLeast {x | x ∈ ds} a) : (m.copies ds).lb = a + m.lb := by
  change ((ds.map fun d => (d, m)).map fun x => x.1 + x.2.lb).min?.getD 0 = a + m.lb
  rw [List.map_map]
  refine min?_getD ?_
  have := sums_least ha (singleton_least m.lb)
  rwa [← shift_eq] at this

theorem copies_ub (hb : IsGreatest {x | x ∈ ds} b) : (m.copies ds).ub = b + m.ub := by
  change ((ds.map fun d => (d, m)).map fun x => x.1 + x.2.ub).max?.getD 0 = b + m.ub
  rw [List.map_map]
  refine max?_getD ?_
  have := sums_greatest hb (singleton_greatest m.ub)
  rwa [← shift_eq] at this

theorem Agrees.copies (h : Agrees d m) (ha : IsLeast {x | x ∈ ds} a)
    (hb : IsGreatest {x | x ∈ ds} b) (hs : Shifted d d' ds.length a b) :
    Agrees d' (m.copies ds) where
  size := by rw [copies_bytes, sums_length, hs.size, h.size, Int.natCast_mul]
  lb := by rw [copies_lb ha, hs.lb, h.lb, Int.add_comm]
  ub := by rw [copies_ub hb, hs.ub, h.ub, Int.add_comm]
  extent := by rw [copies_lb ha, copies_ub hb, hs.extent, hs.lb, hs.ub, h.lb, h.ub]; omega
  alignsize := hs.alignsize.trans h.alignsize
  trueLb := by
    rw [copies_bytes, hs.trueLb, Int.add_comm]
    exact sums_least ha h.trueLb
  trueUb := by
    rw [copies_bytes, hs.trueUb, show d.trueUb + b - 1 = b + (d.trueUb - 1) by omega]
    exact sums_greatest hb h.trueUb

theorem Agrees.extent_eq (h : Agrees d m) : d.extent = d.ub - d.lb := by
  rw [h.extent, h.ub, h.lb]

theorem Agrees.extent_eq' (h : Agrees d m) : d.extent = m.extent := h.extent

def Meaning.builtin (alignOf : Basic → Nat) (b : Basic) : Meaning where
  bytes := steps b.size 1
  lb := 0
  ub := b.size
  align := alignOf b

theorem agrees_builtin (b : Basic) :
    Agrees ((OldType.builtin b).info alignOf) (.builtin alignOf b) where
  size := by rw [Meaning.builtin, steps_length]; rfl
  lb := rfl
  ub := rfl
  extent := by simp [OldType.info, Meaning.builtin]
  alignsize := rfl
  trueLb := steps_least b.pos 1
  trueUb := by
    have := steps_greatest b.pos 1
    rwa [high, if_pos (by omega), Int.one_mul] at this

theorem agrees_resized {o : OldType} (h : Agrees (o.info alignOf) m) (lb extent : Int) :
    Agrees (createResized alignOf o lb extent) { m with lb := lb, ub := lb + extent } where
  size := h.size
  lb := rfl
  ub := rfl
  extent := by
    change extent = lb + extent - lb
    omega
  alignsize := h.alignsize
  trueLb := h.trueLb
  trueUb := h.trueUb

theorem agrees_contig {o : OldType} (h : Agrees (o.info alignOf) m) (hn : 0 < n) :
    Agrees (createContig alignOf n o) (m.copies (steps n m.extent)) := by
  refine h.copies (steps_least hn _) (steps_greatest hn _) ?_
  rw [steps_length]
  have hext := h.extent_eq
  rw [← h.extent_eq']
  cases o with
  | builtin b =>
    have hb : (0 : Int) ≤ b.size := Int.natCast_nonneg _
    have hlow : low n ((OldType.builtin b).info alignOf).extent = 0 := if_pos hb
    have hhigh : (b.size : Int) + high n ((OldType.builtin b).info alignOf).extent =
        n * b.size := by
      have : high n ((OldType.builtin b).info alignOf).extent = b.size * (n - 1) := if_pos hb
      rw [this, Int.mul_sub, Int.mul_one, Int.mul_comm]
      omega
    constructor
    · rfl
    · rw [hlow]; rfl
    · exact hhigh.symm
    · rw [hlow]; rfl
    · exact hhigh.symm
    · rfl
    · rfl
  | derived t =>
    have hb := contigLbUb_eq hn t.lb t.ub
    have he : (OldType.derived t).info alignOf = t := rfl
    rw [he] at hext ⊢
    rw [← hext] at hb
    constructor
    · rfl
    · simp only [createContig, he, hb]
    · simp only [createContig, he, hb]
    · simp only [createContig, he, hb]; omega
    · simp only [createContig, he, hb]; omega
    · rfl
    · rfl

def vectorDispls (count blocklength : Nat) (stride ext : Int) : List Int :=
  sums (steps count stride) (steps blocklength ext)

theorem agrees_vector {o : OldType} {k : Nat} (h : Agrees (o.info alignOf) m) (hn : 0 < n)
    (hk : 0 < k) (stride : Int) (inBytes : Bool) :
    Agrees (updateTypeVector alignOf n k stride o inBytes)
      (m.copies (vectorDispls n k (if inBytes then stride else stride * m.extent) m.extent)) := by
  have hext := h.extent_eq
  rw [← h.extent_eq']
  -- the stride of a single block is not computed
  have hsame : vectorDispls n k (if inBytes then stride else stride * (o.info alignOf).extent)
      (o.info alignOf).extent = vectorDispls n k
      (if n > 1 then (if inBytes then stride else stride * (o.info alignOf).extent) else 0)
      (o.info alignOf).extent := by
    by_cases h1 : n > 1
    · rw [if_pos h1]
    · obtain rfl : n = 1 := by omega
      rw [if_neg h1]
      simp [vectorDispls, steps]
  rw [hsame]
  generalize hs : (if n > 1 then (if inBytes then stride else stride * (o.info alignOf).extent)
    else 0) = s
  have hb := vectorLbUb_eq hn hk s (o.info alignOf).lb (o.info alignOf).ub
  rw [← hext] at hb
  refine h.copies (sums_least (steps_least hn s) (steps_least hk _))
    (sums_greatest (steps_greatest hn s) (steps_greatest hk _)) ?_
  rw [vectorDispls, sums_length, steps_length, steps_length]
  constructor
  · simp only [updateTypeVector, Int.natCast_mul]
  · simp only [updateTypeVector, hs, hb]
  · simp only [updateTypeVector, hs, hb]
  · simp only [updateTypeVector, hs, hb]; omega
  · simp only [updateTypeVector, hs, hb]; omega
  · rfl
  · rfl

def indexedDispls (ext : Int) (inBytes : Bool) (blocks : List (Nat × Int)) : List Int :=
  blocks.flatMap fun x => blockDispls x.1 (effDisp inBytes x.2 ext) ext

theorem indexedLoop_spec {inBytes : Bool} (hext : d.extent = d.ub - d.lb) (rest : List (Nat × Int))
    {seen : List Int} {minLb maxUb ct : Int} (hmin : IsLeast {x | x ∈ seen} (minLb - d.lb))
    (hmax : IsGreatest {x | x ∈ seen} (maxUb - d.ub)) (hct : ct = seen.length) :
    ∃ minLb' maxUb' ct', indexedLoop d inBytes rest (minLb, maxUb, ct) = (minLb', maxUb', ct') ∧
      IsLeast {x | x ∈ seen ++ indexedDispls d.extent inBytes rest} (minLb' - d.lb) ∧
      IsGreatest {x | x ∈ seen ++ indexedDispls d.extent inBytes rest} (maxUb' - d.ub) ∧
      ct' = (seen ++ indexedDispls d.extent inBytes rest).length := by
  induction rest generalizing seen minLb maxUb ct with
  | nil =>
    refine ⟨minLb, maxUb, ct, rfl, ?_⟩
    simp only [indexedDispls, flatMap_nil, append_nil]
    exact ⟨hmin, hmax, hct⟩
  | cons x rest ih =>
    obtain ⟨n, disp⟩ := x
    have hcons : indexedDispls d.extent inBytes ((n, disp) :: rest) =
        blockDispls n (effDisp inBytes disp d.extent) d.extent ++
          indexedDispls d.extent inBytes rest := rfl
    rw [hcons, ← append_assoc, indexedLoop]
    split
    · next hn =>
      have hb := blockLbUb_eq hn (effDisp inBytes disp d.extent) d.lb d.ub
      rw [← hext] at hb
      refine ih ?_ ?_ (by rw [length_append, blockDispls_length, hct]; rfl)
      · have := append_least hmin (block_least hn (effDisp inBytes disp d.extent) d.extent)
        rw [hb]
        convert this using 1
        dsimp only
        split <;> split <;> omega
      · have := append_greatest hmax (block_greatest hn (effDisp inBytes disp d.extent) d.extent)
        rw [hb]
        convert this using 1
        dsimp only
        split <;> split <;> omega
    · next hn =>
      obtain rfl : n = 0 := by omega
      have hnil : blockDispls 0 (effDisp inBytes disp d.extent) d.extent = [] := rfl
      rw [hnil, append_nil]
      exact ih hmin hmax hct

theorem indexedDispls_dropWhile (ext : Int) (inBytes : Bool) (blocks : List (Nat × Int)) :
    indexedDispls ext inBytes (blocks.dropWhile fun x => x.1 == 0) =
      indexedDispls ext inBytes blocks := by
  induction blocks with
  | nil => rfl
  | cons x blocks ih =>
    obtain ⟨n, disp⟩ := x
    rw [dropWhile_cons]
    split
    · next h =>
      obtain rfl : n = 0 := by simpa using h
      exact ih
    · rfl

theorem firstBlock_spec {inBytes : Bool} (hext : d.extent = d.ub - d.lb) (hn : 0 < n) (disp : Int)
    (rest : List (Nat × Int)) :
    ∃ minLb maxUb ct, indexedLoop d inBytes rest
        ((blockLbUb n (effDisp inBytes disp d.extent) d.lb d.ub d.extent).1,
          (blockLbUb n (effDisp inBytes disp d.extent) d.lb d.ub d.extent).2, n) =
        (minLb, maxUb, ct) ∧
      IsLeast {x | x ∈ indexedDispls d.extent inBytes ((n, disp) :: rest)} (minLb - d.lb) ∧
      IsGreatest {x | x ∈ indexedDispls d.extent inBytes ((n, disp) :: rest)} (maxUb - d.ub) ∧
      ct = (indexedDispls d.extent inBytes ((n, disp) :: rest)).length := by
  have hb := blockLbUb_eq hn (effDisp inBytes disp d.extent) d.lb d.ub
  rw [← hext] at hb
  have hmin := block_least hn (effDisp inBytes disp d.extent) d.extent
  have hmax := block_greatest hn (effDisp inBytes disp d.extent) d.extent
  rw [hb]
  refine indexedLoop_spec hext rest ?_ ?_ (by rw [blockDispls_length])
  · convert hmin using 1
    omega
  · convert hmax using 1
    omega

theorem agrees_indexed {o : OldType} (h : Agrees (o.info alignOf) m) {blocks : List (Nat × Int)}
    (hblocks : ∃ x ∈ blocks, 0 < x.1) (inBytes : Bool) :
    ∃ d', updateTypeIndexed alignOf blocks o inBytes = some d' ∧
      Agrees d' (m.copies (indexedDispls m.extent inBytes blocks)) := by
  have hext := h.extent_eq
  rw [← h.extent_eq', ← indexedDispls_dropWhile]
  unfold updateTypeIndexed
  cases hd : blocks.dropWhile fun x => x.1 == 0 with
  | nil =>
    obtain ⟨x, hx, hpos⟩ := hblocks
    have := dropWhile_eq_nil_iff.1 hd x hx
    simp only [beq_iff_eq] at this
    omega
  | cons x rest =>
    obtain ⟨n, disp⟩ := x
    have hn : 0 < n := by
      have := List.head?_dropWhile_not (fun x : Nat × Int => x.1 == 0) blocks
      rw [hd] at this
      simp only [List.head?_cons, beq_eq_false_iff_ne] at this
      omega
    obtain ⟨minLb, maxUb, ct, hloop, hmin, hmax, hct⟩ :=
      @firstBlock_spec (o.info alignOf) n inBytes hext hn disp rest
    dsimp only
    rw [hloop]
    refine ⟨_, rfl, h.copies hmin hmax ⟨?_, ?_, ?_, ?_, ?_, rfl, rfl⟩⟩
    · rw [hct]
    all_goals dsimp only; omega

theorem blockindexedLoop_eq {inBytes : Bool} (hn : 0 < n) (rest : List Int) (minLb maxUb ct : Int) :
    blockindexedLoop d n inBytes rest (minLb, maxUb) =
      ((indexedLoop d inBytes (rest.map fun x => (n, x)) (minLb, maxUb, ct)).1,
        (indexedLoop d inBytes (rest.map fun x => (n, x)) (minLb, maxUb, ct)).2.1) := by
  induction rest generalizing minLb maxUb ct with
  | nil => rfl
  | cons disp rest ih =>
    rw [map_cons, blockindexedLoop, indexedLoop, if_pos hn]
    exact ih _ _ _

theorem agrees_blockindexed {o : OldType} (h : Agrees (o.info alignOf) m) (hn : 0 < n)
    {displs : List Int} (hdispls : displs ≠ []) (inBytes : Bool) :
    ∃ d', updateTypeBlockindexed alignOf n displs o inBytes = some d' ∧
      Agrees d' (m.copies (indexedDispls m.extent inBytes (displs.map fun x => (n, x)))) := by
  have hext := h.extent_eq
  rw [← h.extent_eq']
  cases displs with
  | nil => exact absurd rfl hdispls
  | cons disp rest =>
    obtain ⟨minLb, maxUb, ct, hloop, hmin, hmax, hct⟩ :=
      @firstBlock_spec (o.info alignOf) n inBytes hext hn disp (rest.map fun x => (n, x))
    have hloop' := @blockindexedLoop_eq (o.info alignOf) n inBytes hn rest
      (blockLbUb n (effDisp inBytes disp (o.info alignOf).extent) (o.info alignOf).lb
        (o.info alignOf).ub (o.info alignOf).extent).1
      (blockLbUb n (effDisp inBytes disp (o.info alignOf).extent) (o.info alignOf).lb
        (o.info alignOf).ub (o.info alignOf).extent).2 n
    rw [hloop] at hloop'
    have hlen : (indexedDispls (o.info alignOf).extent inBytes
        ((n, disp) :: rest.map fun x => (n, x))).length = (rest.length + 1) * n := by
      change (indexedDispls (o.info alignOf).extent inBytes
        ((disp :: rest).map fun x => (n, x))).length = (disp :: rest).length * n
      generalize disp :: rest = l
      induction l with
      | nil => simp [indexedDispls]
      | cons x l ih =>
        have hcons : indexedDispls (o.info alignOf).extent inBytes ((x :: l).map fun x => (n, x)) =
            blockDispls n (effDisp inBytes x (o.info alignOf).extent) (o.info alignOf).extent ++
              indexedDispls (o.info alignOf).extent inBytes (l.map fun x => (n, x)) := rfl
        rw [hcons, length_append, blockDispls_length, ih, length_cons, Nat.succ_mul,
          Nat.add_comm]
    rw [updateTypeBlockindexed]
    dsimp only at hloop' ⊢
    rw [hloop']
    refine ⟨_, rfl, h.copies hmin hmax ⟨?_, ?_, ?_, ?_, ?_, rfl, rfl⟩⟩
    · rw [map_cons] at *
      rw [hlen, length_cons, Int.natCast_mul]
    all_goals dsimp only; omega

end agrees

/-! ## Structs -/

section structs

variable {alignOf : Basic → Nat}

/-- A bound that has been found is the least of a list, and one that has not been found is that of
an empty one. -/
def LeastFound (l : List Int) : Option Int → Prop
  | none => l = []
  | some a => IsLeast {x | x ∈ l} a

def GreatestFound (l : List Int) : Option Int → Prop
  | none => l = []
  | some a => IsGreatest {x | x ∈ l} a

theorem LeastFound.step {l l' : List Int} {found : Option Int} {b : Int} (h : LeastFound l found)
    (hb : IsLeast {x | x ∈ l'} b) : LeastFound (l ++ l') (lowest found b) := by
  cases found with
  | none =>
    obtain rfl : l = [] := h
    exact hb
  | some a =>
    have h' := append_least h hb
    unfold lowest
    dsimp only
    split
    · next hlt => rwa [if_pos hlt] at h'
    · next hlt => rwa [if_neg hlt] at h'

theorem GreatestFound.step {l l' : List Int} {found : Option Int} {b : Int}
    (h : GreatestFound l found) (hb : IsGreatest {x | x ∈ l'} b) :
    GreatestFound (l ++ l') (highest found b) := by
  cases found with
  | none =>
    obtain rfl : l = [] := h
    exact hb
  | some a =>
    have h' := append_greatest h hb
    unfold highest
    dsimp only
    split
    · next hlt => rwa [if_pos hlt] at h'
    · next hlt => rwa [if_neg hlt] at h'

theorem LeastFound.getD {l : List Int} {found : Option Int} (h : LeastFound l found)
    (hne : l ≠ []) : IsLeast {x | x ∈ l} (found.getD 0) := by
  cases found with
  | none => exact absurd h hne
  | some a => exact h

theorem GreatestFound.getD {l : List Int} {found : Option Int} (h : GreatestFound l found)
    (hne : l ≠ []) : IsGreatest {x | x ∈ l} (found.getD 0) := by
  cases found with
  | none => exact absurd h hne
  | some a => exact h

def bytesAt (l : List (Int × Meaning)) : List Int := l.flatMap fun x => x.2.bytes.map (x.1 + ·)

/-- What the loop over the blocks knows of the blocks so far; the last position of a byte is the
true upper bound less one. -/
structure StructInv (placed : List (Int × Meaning)) (acc : StructAcc) : Prop where
  size : acc.size = (bytesAt placed).length
  trueLb : LeastFound (bytesAt placed) acc.trueLb
  lb : LeastFound (placed.map fun x => x.1 + x.2.lb) acc.lb
  trueUb : GreatestFound ((bytesAt placed).map (· + 1)) acc.trueUb
  ub : GreatestFound (placed.map fun x => x.1 + x.2.ub) acc.ub

theorem bytesAt_append (l l' : List (Int × Meaning)) :
    bytesAt (l ++ l') = bytesAt l ++ bytesAt l' := flatMap_append

theorem bytesAt_block (n : Nat) (disp : Int) (m : Meaning) :
    bytesAt (Meaning.block n disp m) = sums (blockDispls n disp m.extent) m.bytes := by
  rw [Meaning.block, bytesAt, flatMap_map, sums]

theorem StructInv.step {placed : List (Int × Meaning)} {acc : StructAcc} (h : StructInv placed acc)
    {n : Nat} {disp : Int} {o : OldType} {m : Meaning} (ho : Agrees (o.info alignOf) m) :
    StructInv (placed ++ Meaning.block n disp m) (structStep alignOf acc (n, disp, o)) := by
  unfold structStep
  by_cases hn0 : n = 0
  · subst hn0
    rw [if_pos rfl]
    have hnil : Meaning.block 0 disp m = [] := rfl
    rwa [hnil, append_nil]
  · have hn : 0 < n := Nat.pos_of_ne_zero hn0
    have hb := blockLbUb_eq hn disp (o.info alignOf).lb (o.info alignOf).ub
    rw [← ho.extent_eq] at hb
    have hext := ho.extent_eq'
    rw [hext] at hb
    have hleast := block_least hn disp m.extent
    have hgreatest := block_greatest hn disp m.extent
    rw [if_neg hn0]
    simp only [hb, hext]
    constructor
    · rw [bytesAt_append, bytesAt_block, length_append, sums_length, blockDispls_length,
        h.size]
      dsimp only
      rw [ho.size]
      push_cast
      rw [Int.mul_comm (n : Int)]
    · rw [bytesAt_append, bytesAt_block]
      refine h.trueLb.step ?_
      convert sums_least hleast ho.trueLb using 1
      omega
    · rw [map_append]
      have := sums_least hleast (singleton_least m.lb)
      rw [← shift_eq] at this
      rw [Meaning.block, List.map_map, ho.lb, Int.add_comm m.lb]
      exact h.lb.step this
    · rw [bytesAt_append, bytesAt_block, map_append]
      refine h.trueUb.step (map_succ_greatest ?_)
      convert sums_greatest hgreatest ho.trueUb using 1
      omega
    · rw [map_append]
      have := sums_greatest hgreatest (singleton_greatest m.ub)
      rw [← shift_eq] at this
      rw [Meaning.block, List.map_map, ho.ub, Int.add_comm m.ub]
      exact h.ub.step this

/-- The blocks of a struct agree with those of a meaning. -/
inductive AgreesList (alignOf : Basic → Nat) :
    List (Nat × Int × OldType) → List (Nat × Int × Meaning) → Prop where
  | nil : AgreesList alignOf [] []
  | cons {n : Nat} {disp : Int} {o : OldType} {m : Meaning} {l : List (Nat × Int × OldType)}
      {l' : List (Nat × Int × Meaning)} : Agrees (o.info alignOf) m → AgreesList alignOf l l' →
      AgreesList alignOf ((n, disp, o) :: l) ((n, disp, m) :: l')

def placedBlocks (l : List (Nat × Int × Meaning)) : List (Int × Meaning) :=
  l.flatMap fun x => Meaning.block x.1 x.2.1 x.2.2

theorem structLoop_spec {l : List (Nat × Int × OldType)} {l' : List (Nat × Int × Meaning)}
    (h : AgreesList alignOf l l') {placed : List (Int × Meaning)} {acc : StructAcc}
    (hacc : StructInv placed acc) :
    StructInv (placed ++ placedBlocks l') (l.foldl (structStep alignOf) acc) := by
  induction h generalizing placed acc with
  | nil => simpa [placedBlocks] using hacc
  | @cons n disp o m l l' ho hl ih =>
    have hcons : placedBlocks ((n, disp, m) :: l') =
        Meaning.block n disp m ++ placedBlocks l' := rfl
    rw [hcons, ← append_assoc, foldl_cons]
    exact ih (hacc.step ho)

theorem structAlignsize_eq {l : List (Nat × Int × OldType)} {l' : List (Nat × Int × Meaning)}
    (h : AgreesList alignOf l l') :
    structAlignsize alignOf (l.map fun x => x.2.2) = (l'.map fun x => x.2.2.align).foldl max 0 := by
  unfold structAlignsize
  generalize (0 : Int) = a
  induction h generalizing a with
  | nil => rfl
  | @cons n disp o m l l' ho hl ih =>
    simp only [map_cons, foldl_cons]
    rw [ih, ho.alignsize]
    congr 1
    split <;> omega

/-- The extent of a struct is fit to be padded: it is not negative, or a multiple of the alignment.
-/
def Meaning.Padded (m : Meaning) : Prop := 0 < m.align → 0 ≤ m.extent ∨ m.align ∣ m.extent

theorem agrees_struct_iff {l : List (Nat × Int × OldType)} {l' : List (Nat × Int × Meaning)}
    (h : AgreesList alignOf l l') (hne : ∃ x ∈ l', 0 < x.1 ∧ x.2.2.bytes ≠ []) :
    Agrees (createStruct alignOf l) (Meaning.ofBlocks l').pad ↔ (Meaning.ofBlocks l').Padded := by
  have hinv : StructInv (placedBlocks l') (l.foldl (structStep alignOf)
      ⟨none, 0, none, none, none, none⟩) :=
    @structLoop_spec alignOf l l' h [] _ ⟨rfl, rfl, rfl, rfl, rfl⟩
  have hbytes : bytesAt (placedBlocks l') = (Meaning.ofBlocks l').bytes := rfl
  have hnonempty : (Meaning.ofBlocks l').bytes ≠ [] := by
    obtain ⟨⟨n, disp, m⟩, hx, hn, hm⟩ := hne
    obtain ⟨p, hp⟩ := exists_mem_of_ne_nil _ hm
    have hd := (block_least hn disp m.extent).1
    have hin : (disp + low n m.extent) + p ∈ bytesAt (placedBlocks l') :=
      mem_flatMap.2 ⟨_, mem_flatMap.2 ⟨_, hx, mem_map_of_mem hd⟩,
        mem_map_of_mem hp⟩
    exact ne_nil_of_mem (hbytes ▸ hin)
  have hplaced : placedBlocks l' ≠ [] := by
    intro h0
    rw [← hbytes, h0] at hnonempty
    exact hnonempty rfl
  have hmap : ∀ f : Int × Meaning → Int, (placedBlocks l').map f ≠ [] := fun f h0 =>
    hplaced (map_eq_nil_iff.1 h0)
  have hlb := min?_getD (hinv.lb.getD (hmap _))
  have hub := max?_getD (hinv.ub.getD (hmap _))
  have htrueLb := hinv.trueLb.getD (hbytes ▸ hnonempty)
  have htrueUb := of_map_succ_greatest (hinv.trueUb.getD fun h0 =>
    hnonempty (hbytes ▸ map_eq_nil_iff.1 h0))
  have hsize := hinv.size
  have halign := structAlignsize_eq h
  change (Meaning.ofBlocks l').lb = _ at hlb
  change (Meaning.ofBlocks l').ub = _ at hub
  change _ = (Meaning.ofBlocks l').align at halign
  rw [hbytes] at hsize htrueLb htrueUb
  rw [Meaning.Padded, ← structPadding_eq_iff]
  unfold createStruct
  dsimp only
  rw [← hlb, ← hub, halign]
  have hpad : (Meaning.ofBlocks l').pad.ub = (Meaning.ofBlocks l').ub +
      Meaning.padding (Meaning.ofBlocks l').extent (Meaning.ofBlocks l').align := rfl
  constructor
  · intro hagrees
    have := hagrees.ub
    rw [hpad] at this
    exact Int.add_left_cancel this
  · intro heq
    exact ⟨hsize, rfl, by rw [hpad, ← heq]; rfl, by rw [hpad, ← heq]; rfl, rfl, htrueLb, htrueUb⟩

end structs

/-! ## Nests -/

section nests

variable (alignOf : Basic → Nat)

mutual

def Ty.meaning : Ty → Meaning
  | .builtin b => .builtin alignOf b
  | .contig count old => old.meaning.copies (steps count old.meaning.extent)
  | .vector count blocklength stride inBytes old =>
    old.meaning.copies (vectorDispls count blocklength
      (if inBytes then stride else stride * old.meaning.extent) old.meaning.extent)
  | .indexed blocks inBytes old =>
    old.meaning.copies (indexedDispls old.meaning.extent inBytes blocks)
  | .blockindexed blocklength displs inBytes old =>
    old.meaning.copies (indexedDispls old.meaning.extent inBytes
      (displs.map fun x => (blocklength, x)))
  | .resized lb extent old => { old.meaning with lb := lb, ub := lb + extent }
  | .struct blocks => (Meaning.ofBlocks blocks.meanings).pad

def Blocks.meanings : Blocks → List (Nat × Int × Meaning)
  | .nil => []
  | .cons blocklength displ old rest => (blocklength, displ, old.meaning) :: rest.meanings

end

def Blocks.HasBlock : Blocks → Prop
  | .nil => False
  | .cons blocklength _ _ rest => 0 < blocklength ∨ rest.HasBlock

mutual

def Ty.Nonempty : Ty → Prop
  | .builtin _ => True
  | .contig count old => 0 < count ∧ old.Nonempty
  | .vector count blocklength _ _ old => (0 < count ∧ 0 < blocklength) ∧ old.Nonempty
  | .indexed blocks _ old => (∃ x ∈ blocks, 0 < x.1) ∧ old.Nonempty
  | .blockindexed blocklength displs _ old => (0 < blocklength ∧ displs ≠ []) ∧ old.Nonempty
  | .resized _ _ old => old.Nonempty
  | .struct blocks => blocks.HasBlock ∧ blocks.Nonempty

def Blocks.Nonempty : Blocks → Prop
  | .nil => True
  | .cons _ _ old rest => old.Nonempty ∧ rest.Nonempty

end

def Ty.Right (t : Ty) : Prop :=
  ∃ o, t.build alignOf = some o ∧ Agrees (o.info alignOf) (t.meaning alignOf)

mutual

def Ty.AllRight : Ty → Prop
  | .builtin b => (Ty.builtin b).Right alignOf
  | .contig count old => (Ty.contig count old).Right alignOf ∧ old.AllRight
  | .vector count blocklength stride inBytes old =>
    (Ty.vector count blocklength stride inBytes old).Right alignOf ∧ old.AllRight
  | .indexed blocks inBytes old => (Ty.indexed blocks inBytes old).Right alignOf ∧ old.AllRight
  | .blockindexed blocklength displs inBytes old =>
    (Ty.blockindexed blocklength displs inBytes old).Right alignOf ∧ old.AllRight
  | .resized lb extent old => (Ty.resized lb extent old).Right alignOf ∧ old.AllRight
  | .struct blocks => (Ty.struct blocks).Right alignOf ∧ blocks.AllRight

def Blocks.AllRight : Blocks → Prop
  | .nil => True
  | .cons _ _ old rest => old.AllRight ∧ rest.AllRight

end

mutual

def Ty.Padded : Ty → Prop
  | .builtin _ => True
  | .contig _ old => old.Padded
  | .vector _ _ _ _ old => old.Padded
  | .indexed _ _ old => old.Padded
  | .blockindexed _ _ _ old => old.Padded
  | .resized _ _ old => old.Padded
  | .struct blocks => (Meaning.ofBlocks (blocks.meanings alignOf)).Padded ∧ blocks.Padded

def Blocks.Padded : Blocks → Prop
  | .nil => True
  | .cons _ _ old rest => old.Padded ∧ rest.Padded

end

end nests

section result

variable {alignOf : Basic → Nat}

theorem Ty.AllRight.right {t : Ty} (h : t.AllRight alignOf) : t.Right alignOf := by
  cases t with
  | builtin b => exact h
  | contig | vector | indexed | blockindexed | resized | struct => exact h.1

theorem Agrees.bytes_ne_nil {d : TypeInfo} {m : Meaning} (h : Agrees d m) : m.bytes ≠ [] :=
  ne_nil_of_mem h.trueLb.1

theorem Blocks.AllRight.agreesList : ∀ {bs : Blocks}, bs.AllRight alignOf →
    ∃ l, bs.build alignOf = some l ∧ AgreesList alignOf l (bs.meanings alignOf) ∧
      (bs.HasBlock → ∃ x ∈ bs.meanings alignOf, 0 < x.1 ∧ x.2.2.bytes ≠ [])
  | .nil, _ => ⟨[], rfl, .nil, fun h => h.elim⟩
  | .cons n disp _ _, h => by
    obtain ⟨o, ho, hagrees⟩ := h.1.right
    obtain ⟨l, hl, hlist, hhas⟩ := h.2.agreesList
    refine ⟨(n, disp, o) :: l, ?_, .cons hagrees hlist, ?_⟩
    · exact (congrArg (Option.bind · _) ho).trans (congrArg (Option.map _) hl)
    · rintro (hn | hrest)
      · exact ⟨_, mem_cons_self, hn, hagrees.bytes_ne_nil⟩
      · obtain ⟨x, hx, hx'⟩ := hhas hrest
        exact ⟨x, mem_cons_of_mem _ hx, hx'⟩

theorem right_and_iff {right old padded : Prop} (h : old → right) (ih : old ↔ padded) :
    right ∧ old ↔ padded :=
  ⟨fun hr => ih.1 hr.2, fun hp => ⟨h (ih.2 hp), ih.2 hp⟩⟩

theorem Ty.Right.contig {old : Ty} {count : Nat} (h : old.Right alignOf) (hn : 0 < count) :
    (Ty.contig count old).Right alignOf := by
  obtain ⟨o, ho, hagrees⟩ := h
  exact ⟨.derived (createContig alignOf count o), congrArg (Option.map _) ho,
    agrees_contig hagrees hn⟩

theorem Ty.Right.vector {old : Ty} {count blocklength : Nat} (h : old.Right alignOf)
    (hn : 0 < count) (hk : 0 < blocklength) (stride : Int) (inBytes : Bool) :
    (Ty.vector count blocklength stride inBytes old).Right alignOf := by
  obtain ⟨o, ho, hagrees⟩ := h
  exact ⟨.derived (updateTypeVector alignOf count blocklength stride o inBytes),
    congrArg (Option.map _) ho, agrees_vector hagrees hn hk stride inBytes⟩

theorem Ty.Right.indexed {old : Ty} {blocks : List (Nat × Int)} (h : old.Right alignOf)
    (hblocks : ∃ x ∈ blocks, 0 < x.1) (inBytes : Bool) :
    (Ty.indexed blocks inBytes old).Right alignOf := by
  obtain ⟨o, ho, hagrees⟩ := h
  obtain ⟨d, hd, hagrees⟩ := agrees_indexed hagrees hblocks inBytes
  exact ⟨.derived _, (congrArg (Option.bind · _) ho).trans (congrArg (Option.map _) hd), hagrees⟩

theorem Ty.Right.blockindexed {old : Ty} {blocklength : Nat} {displs : List Int}
    (h : old.Right alignOf) (hn : 0 < blocklength) (hdispls : displs ≠ []) (inBytes : Bool) :
    (Ty.blockindexed blocklength displs inBytes old).Right alignOf := by
  obtain ⟨o, ho, hagrees⟩ := h
  obtain ⟨d, hd, hagrees⟩ := agrees_blockindexed hagrees hn hdispls inBytes
  exact ⟨.derived _, (congrArg (Option.bind · _) ho).trans (congrArg (Option.map _) hd), hagrees⟩

theorem Ty.Right.resized {old : Ty} (h : old.Right alignOf) (lb extent : Int) :
    (Ty.resized lb extent old).Right alignOf := by
  obtain ⟨o, ho, hagrees⟩ := h
  exact ⟨.derived (createResized alignOf o lb extent), congrArg (Option.map _) ho,
    agrees_resized hagrees lb extent⟩

theorem Blocks.AllRight.struct_iff {bs : Blocks} (h : bs.AllRight alignOf) (hhas : bs.HasBlock) :
    (Ty.struct bs).Right alignOf ↔ (Meaning.ofBlocks (bs.meanings alignOf)).Padded := by
  obtain ⟨l, hl, hlist, hblock⟩ := h.agreesList
  have hbuild : (Ty.struct bs).build alignOf = some (.derived (createStruct alignOf l)) := by
    exact congrArg (Option.map _) hl
  rw [← agrees_struct_iff hlist (hblock hhas)]
  constructor
  · rintro ⟨o, ho, hagrees⟩
    rw [hbuild] at ho
    cases ho
    exact hagrees
  · exact fun hagrees => ⟨_, hbuild, hagrees⟩

mutual

theorem Ty.allRight_iff : ∀ t : Ty, t.Nonempty → (t.AllRight alignOf ↔ t.Padded alignOf)
  | .builtin b, _ => ⟨fun _ => trivial, fun _ => ⟨_, rfl, agrees_builtin b⟩⟩
  | .contig _ old, h =>
    right_and_iff (fun hold => hold.right.contig h.1) (old.allRight_iff h.2)
  | .vector _ _ stride inBytes old, h =>
    right_and_iff (fun hold => hold.right.vector h.1.1 h.1.2 stride inBytes) (old.allRight_iff h.2)
  | .indexed _ inBytes old, h =>
    right_and_iff (fun hold => hold.right.indexed h.1 inBytes) (old.allRight_iff h.2)
  | .blockindexed _ _ inBytes old, h =>
    right_and_iff (fun hold => hold.right.blockindexed h.1.1 h.1.2 inBytes) (old.allRight_iff h.2)
  | .resized lb extent old, h =>
    right_and_iff (fun hold => hold.right.resized lb extent) (old.allRight_iff h)
  | .struct blocks, h =>
    have ih := blocks.allRight_iff h.2
    ⟨fun hr => ⟨(hr.2.struct_iff h.1).1 hr.1, ih.1 hr.2⟩,
      fun hp => ⟨((ih.2 hp.2).struct_iff h.1).2 hp.1, ih.2 hp.2⟩⟩

theorem Blocks.allRight_iff :
    ∀ bs : Blocks, bs.Nonempty → (bs.AllRight alignOf ↔ bs.Padded alignOf)
  | .nil, _ => ⟨fun _ => trivial, fun _ => trivial⟩
  | .cons _ _ old rest, h => and_congr (old.allRight_iff h.1) (rest.allRight_iff h.2)

end

end result

/-! ## Main result -/

/-- In a nest whose datatypes have a block that is not empty, the size, the bounds and the true
bounds of every datatype are those of its typemap if and only if the extent of every struct, before
it is padded, is not negative or a multiple of its alignment. -/
theorem bounds_right_iff (alignOf : Basic → Nat) (t : Ty) (h : t.Nonempty) :
    t.AllRight alignOf ↔ t.Padded alignOf :=
  t.allRight_iff h

def int4 : Basic := ⟨0, 4, by decide, by decide⟩

theorem bounds_right_vector :
    (Ty.struct (.cons 2 8 (.vector 2 1 (-3) false (.builtin int4)) .nil)).AllRight
      fun b => b.size := by
  have hne : (Ty.struct (.cons 2 8 (.vector 2 1 (-3) false (.builtin int4)) .nil)).Nonempty :=
    ⟨.inl (by decide), ⟨⟨by decide, by decide⟩, trivial⟩, trivial⟩
  exact (bounds_right_iff _ _ hne).2 ⟨fun _ => .inl (by decide), trivial, trivial⟩

/-- A struct of one block whose extent is -2: the upper bound is increased by 6, and an increase by
2 makes the extent a multiple of 4. -/
theorem bounds_negative_extent :
    ¬ (Ty.struct (.cons 1 0 (.resized 0 (-2) (.builtin int4)) .nil)).AllRight fun b => b.size := by
  rintro ⟨⟨o, ho, hagrees⟩, -⟩
  cases ho
  exact absurd hagrees.ub (by decide)

end PsMpi.Data
