import PsMpi.Handle.Alloc
import Mathlib.Data.List.Nodup
import Mathlib.Data.List.Perm.Basic
import Mathlib.Data.Nat.Bitwise

/-!
# The objects of a handle allocator
-/

open List Option Function

namespace PsMpi.Handle

open PsMpi.Lib

/-! ## Handles -/

section handles

theorem field_eq {a m k w : Nat} (h : m >>> k = 2 ^ w - 1) : (a &&& m) >>> k = a / 2 ^ k % 2 ^ w := by
  rw [Nat.shiftRight_and_distrib, h, Nat.and_two_pow_sub_one_eq_mod, Nat.shiftRight_eq_div_pow]

theorem or_eq_add {a b k : Nat} (h : b < 2 ^ k) : a <<< k ||| b = a * 2 ^ k + b := by
  rw [← Nat.shiftLeft_add_eq_or_of_lt h, Nat.shiftLeft_eq]

variable {kind block i : Nat}

theorem directHandle_eq (hk : kind < 2 ^ 4) (hi : i < 2 ^ 26) :
    directHandle kind i = 2 * 2 ^ 30 + kind * 2 ^ 26 + i := by
  have h₁ : 2 <<< 30 ||| kind <<< 26 = (2 * 2 ^ 4 + kind) <<< 26 := by
    rw [or_eq_add (by rw [Nat.shiftLeft_eq]; omega), Nat.shiftLeft_eq, Nat.shiftLeft_eq]
    omega
  rw [directHandle, h₁, or_eq_add hi]
  omega

theorem indirectHandle_eq (hk : kind < 2 ^ 4) (hb : block < 2 ^ 14) (hi : i < 2 ^ 12) :
    indirectHandle kind block i = 3 * 2 ^ 30 + kind * 2 ^ 26 + block * 2 ^ 12 + i := by
  have h₁ : 3 <<< 30 ||| kind <<< 26 = (3 * 2 ^ 4 + kind) <<< 26 := by
    rw [or_eq_add (by rw [Nat.shiftLeft_eq]; omega), Nat.shiftLeft_eq, Nat.shiftLeft_eq]
    omega
  have h₂ : (3 * 2 ^ 4 + kind) <<< 26 ||| block <<< 12 =
      ((3 * 2 ^ 4 + kind) * 2 ^ 14 + block) <<< 12 := by
    rw [or_eq_add (by rw [Nat.shiftLeft_eq]; omega), Nat.shiftLeft_eq, Nat.shiftLeft_eq]
    omega
  rw [indirectHandle, h₁, h₂, or_eq_add hi]
  omega

theorem handleGetKind_eq (a : Nat) : handleGetKind a = a / 2 ^ 30 % 2 ^ 2 := field_eq rfl

theorem handleGetMpiKind_eq (a : Nat) : handleGetMpiKind a = a / 2 ^ 26 % 2 ^ 4 := field_eq rfl

theorem handleBlock_eq (a : Nat) : handleBlock a = a / 2 ^ 12 % 2 ^ 14 := field_eq rfl

theorem handleBlockIndex_eq (a : Nat) : handleBlockIndex a = a % 2 ^ 12 :=
  Nat.and_two_pow_sub_one_eq_mod a 12

theorem handleIndex_eq (a : Nat) : handleIndex a = a % 2 ^ 26 := Nat.and_two_pow_sub_one_eq_mod a 26

theorem getPtr_direct {P : Params} {o : Objmem} (hi : i < 2 ^ 26) :
    getPtr P o (directHandle P.kind i) = some ⟨.direct, i⟩ := by
  have hk := P.kind_lt
  have heq := directHandle_eq hk hi
  have hkind : handleGetKind (directHandle P.kind i) = 2 := by
    rw [handleGetKind_eq, heq]
    omega
  have hidx : handleIndex (directHandle P.kind i) = i := by
    rw [handleIndex_eq, heq]
    omega
  rw [getPtr, hkind]
  simp only [hidx]

theorem getPtr_indirect {P : Params} {o : Objmem} {ptr : Nat} (hb : o.blocks[block]? = some ptr)
    (hlt : block < 2 ^ 14) (hi : i < 2 ^ 12) :
    getPtr P o (indirectHandle P.kind block i) = some ⟨.indirect ptr, i⟩ := by
  have hk := P.kind_lt
  have heq := indirectHandle_eq hk hlt hi
  have hkind : handleGetKind (indirectHandle P.kind block i) = 3 := by
    rw [handleGetKind_eq, heq]
    omega
  have hmpi : handleGetMpiKind (indirectHandle P.kind block i) = P.kind := by
    rw [handleGetMpiKind_eq, heq]
    omega
  have hblk : handleBlock (indirectHandle P.kind block i) = block := by
    rw [handleBlock_eq, heq]
    omega
  have hidx : handleBlockIndex (indirectHandle P.kind block i) = i := by
    rw [handleBlockIndex_eq, heq]
    omega
  rw [getPtr, hkind]
  simp only [getPtrIndirect, hmpi, hblk, hidx, hb, ne_eq, not_true, if_false, map_some]

end handles

/-! ## The objects of an allocator -/

def Params.sizeOf (P : Params) : Block → Nat
  | .direct => P.directSize
  | .indirect _ => P.maxIndices

def Params.objsOf (P : Params) (b : Block) : List Obj := (List.range (P.sizeOf b)).map fun i => ⟨b, i⟩

def objects (P : Params) (o : Objmem) : List Obj :=
  (if o.initialized then P.objsOf .direct else []) ++
    o.blocks.flatMap fun b => P.objsOf (.indirect b)

def handleAt (P : Params) (o : Objmem) (x : Obj) : Nat :=
  match x.block with
  | .direct => directHandle P.kind x.index
  | .indirect b => indirectHandle P.kind (o.blocks.idxOf b) x.index

section objects

variable {P : Params} {o : Objmem}

theorem mem_objsOf {b : Block} {x : Obj} : x ∈ P.objsOf b ↔ x.block = b ∧ x.index < P.sizeOf b := by
  rw [Params.objsOf, List.mem_map]
  constructor
  · rintro ⟨i, hi, rfl⟩
    exact ⟨rfl, List.mem_range.1 hi⟩
  · rintro ⟨rfl, hi⟩
    exact ⟨x.index, List.mem_range.2 hi, rfl⟩

theorem objsOf_nodup (b : Block) : (P.objsOf b).Nodup :=
  nodup_range.map fun _ _ h => (Obj.mk.inj h).2

theorem mem_objects {x : Obj} : x ∈ objects P o ↔
    (o.initialized = true ∧ x ∈ P.objsOf .direct) ∨ ∃ b ∈ o.blocks, x ∈ P.objsOf (.indirect b) := by
  rw [objects, mem_append, mem_flatMap]
  cases o.initialized <;> simp

theorem objects_nodup (h : o.blocks.Nodup) : (objects P o).Nodup := by
  refine nodup_append'.2 ⟨?_, ?_, fun x hx hx' => ?_⟩
  · split
    · exact objsOf_nodup _
    · exact nodup_nil
  · refine nodup_flatMap.2 ⟨fun b _ => objsOf_nodup _, h.imp fun hne x hx hx' => ?_⟩
    have := (mem_objsOf.1 hx).1.symm.trans (mem_objsOf.1 hx').1
    exact hne (Block.indirect.inj this)
  · obtain ⟨b, -, hb⟩ := mem_flatMap.1 hx'
    split at hx
    · exact nomatch (mem_objsOf.1 hx).1.symm.trans (mem_objsOf.1 hb).1
    · exact not_mem_nil hx

theorem getPtr_handleAt (hlen : o.blocks.length ≤ P.maxBlocks) {x : Obj} (hx : x ∈ objects P o) :
    getPtr P o (handleAt P o x) = some x := by
  obtain ⟨b, i⟩ := x
  rcases mem_objects.1 hx with ⟨-, hx⟩ | ⟨ptr, hptr, hx⟩
  · obtain ⟨rfl, hi⟩ := mem_objsOf.1 hx
    exact getPtr_direct (Nat.lt_of_lt_of_le hi P.direct_le)
  · obtain ⟨rfl, hi⟩ := mem_objsOf.1 hx
    have hidx := idxOf_lt_length_of_mem hptr
    have := P.blocks_le
    refine getPtr_indirect ?_ (by omega) (Nat.lt_of_lt_of_le hi P.indices_le)
    rw [List.getElem?_eq_getElem hidx, getElem_idxOf]

end objects

/-! ## The invariant -/

structure Ok (P : Params) (o : Objmem) (l : List Obj) (k : Nat) : Prop where
  list : ListFrom o.next o.avail l
  perm : (l ++ o.live).Perm (objects P o)
  blocks : o.blocks.Nodup
  length : o.blocks.length ≤ P.maxBlocks
  handles : ∀ x ∈ objects P o, o.handle x = handleAt P o x
  allocated : o.numAllocated = (objects P o).length
  avail : o.numAvail + k = l.length
  fresh : o.initialized = false → o.blocks = []

section invariant

variable {P : Params} {o o' : Objmem} {l : List Obj} {k : Nat}

theorem Ok.nodup (h : Ok P o l k) : (l ++ o.live).Nodup :=
  h.perm.nodup_iff.2 (objects_nodup h.blocks)

theorem Ok.ne_of_live (h : Ok P o l k) {obj : Obj} (hobj : obj ∈ o.live) : ∀ a ∈ l, a ≠ obj := by
  rintro a ha rfl
  exact (nodup_append'.1 h.nodup).2.2 ha hobj

theorem Ok.addBlock (h : Ok P o [] k) (b : Block) (handle : Nat → Nat) (hpos : P.sizeOf b ≠ 0)
    (hnew : ∀ x ∈ objects P o, x.block ≠ b)
    (hthread : ∃ i ind, o' =
      { o.thread b (P.sizeOf b) handle with initialized := i, indirect := ind })
    (hobjs : (objects P o').Perm (objects P o ++ P.objsOf b)) (hblocks : o'.blocks.Nodup)
    (hlength : o'.blocks.length ≤ P.maxBlocks)
    (hsame : ∀ x ∈ objects P o, handleAt P o' x = handleAt P o x)
    (hhandle : ∀ i, handleAt P o' ⟨b, i⟩ = handle i) (hinit : o'.initialized = true) :
    ∃ l', Ok P { o' with
      avail := o'.next ⟨b, 0⟩, numAvail := o'.numAvail - 1, live := ⟨b, 0⟩ :: o'.live } l' k := by
  obtain ⟨i, ind, rfl⟩ := hthread
  have hnext : ∀ i < P.sizeOf b, (o.thread b (P.sizeOf b) handle).next ⟨b, i⟩ =
      if i + 1 = P.sizeOf b then none else some ⟨b, i + 1⟩ := by
    intro i hi
    simp only [Objmem.thread, hi, and_self, if_true]
  have hrange : P.objsOf b = ⟨b, 0⟩ :: (List.range' 1 (P.sizeOf b - 1)).map fun i => ⟨b, i⟩ := by
    rw [Params.objsOf, range_eq_range']
    obtain ⟨n, hn⟩ := Nat.exists_eq_succ_of_ne_zero hpos
    rw [hn, range'_succ]
    rfl
  refine ⟨(List.range' 1 (P.sizeOf b - 1)).map fun i => ⟨b, i⟩, ?_, ?_, hblocks, hlength, ?_, ?_, ?_,
    fun hno => absurd (hno.symm.trans hinit) nofun⟩
  · have hlist := @ListFrom.of_block _ _ (fun i => (⟨b, i⟩ : Obj)) _ 1 (P.sizeOf b - 1) (by omega)
      hnext
    have h0 := hnext 0 (by omega)
    simp only [Nat.zero_add] at h0
    simp only [h0]
    exact hlist
  · refine List.Perm.trans ?_ hobjs.symm
    have hlive := h.perm
    rw [nil_append] at hlive
    rw [hrange]
    refine perm_middle.trans ?_
    rw [← cons_append]
    exact perm_append_comm.trans (hlive.append_right _)
  · intro x hx
    rcases mem_append.1 (hobjs.mem_iff.1 hx) with hx | hx
    · have hne := hnew x hx
      show (o.thread b (P.sizeOf b) handle).handle x = _
      rw [Objmem.thread]
      simp only [hne, false_and, if_false]
      rw [h.handles x hx]
      exact (hsame x hx).symm
    · obtain ⟨rfl, hi⟩ := mem_objsOf.1 hx
      show (o.thread x.block (P.sizeOf x.block) handle).handle x = _
      rw [Objmem.thread]
      simp only [hi, and_self, if_true]
      exact (hhandle x.index).symm
  · have hlen := hobjs.length_eq
    rw [length_append, Params.objsOf, length_map, length_range] at hlen
    show o.numAllocated + (P.sizeOf b : Int) = ((objects P _).length : Int)
    rw [h.allocated]
    exact_mod_cast hlen.symm
  · have havail := h.avail
    show o.numAvail + (P.sizeOf b : Int) - 1 + k = _
    rw [length_map, length_range']
    rw [length_nil] at havail
    omega

/-! ### Allocations -/

def finish (r : Objmem × Option Obj) : Objmem :=
  { r.1 with numAvail := r.1.numAvail - 1, live := r.2.toList ++ r.1.live }

theorem Ok.fail (h : Ok P o [] k) : Ok P (finish (o, none)) [] (k + 1) := by
  refine ⟨h.list, h.perm, h.blocks, h.length, h.handles, h.allocated, ?_, h.fresh⟩
  have := h.avail
  show o.numAvail - 1 + ((k + 1 : Nat) : Int) = _
  omega

def CanGrow (P : Params) (o : Objmem) (mem : Mem) : Prop :=
  (o.indirect.isSome = true ∨ mem.table = true) ∧ o.blocks.length < P.maxBlocks ∧
    mem.block.isSome = true

theorem Ok.createTable {mem : Mem} (h : Ok P o l k) (hc : createTable o mem = some o') :
    Ok P o' l k ∧ o'.blocks = o.blocks ∧ o'.initialized = o.initialized := by
  unfold Handle.createTable at hc
  split at hc
  · cases hc
    exact ⟨h, rfl, rfl⟩
  · next hnone =>
    obtain ⟨-, hc⟩ := ite_none_right_eq_some.1 hc
    cases hc
    have hblocks : Objmem.blocks { o with indirect := some [] } = o.blocks := by
      rw [Objmem.blocks, Objmem.blocks, hnone]
      rfl
    have hobjs : objects P { o with indirect := some [] } = objects P o := by
      rw [objects, objects, hblocks]
    have hhandle : handleAt P { o with indirect := some [] } = handleAt P o := by
      funext x
      rw [handleAt, handleAt, hblocks]
    refine ⟨⟨h.list, hobjs ▸ h.perm, hblocks ▸ h.blocks, hblocks ▸ h.length, ?_, ?_, h.avail,
      fun hi => hblocks.trans (h.fresh hi)⟩, hblocks, rfl⟩
    · rw [hobjs, hhandle]
      exact h.handles
    · rw [hobjs]
      exact h.allocated

theorem Ok.indirect {mem : Mem} (h : Ok P o [] k) (hinit : o.initialized = true)
    (hmem : ∀ b ∈ mem.block, b ∉ o.blocks) :
    ∃ l' k', Ok P (finish (takeFirst (indirectInit P o mem))) l' k' ∧ (CanGrow P o mem → k' = k) := by
  unfold indirectInit
  split
  · next hnone =>
    refine ⟨[], k + 1, h.fail, fun hgrow => ?_⟩
    unfold Handle.createTable at hnone
    rcases hgrow.1 with htable | htable
    · obtain ⟨bs, hbs⟩ := isSome_iff_exists.1 htable
      rw [hbs] at hnone
      cases hnone
    · split at hnone
      · cases hnone
      · rw [if_pos htable] at hnone
        cases hnone
  · next o₁ hc =>
    obtain ⟨h₁, hblocks, hinit₁⟩ := h.createTable hc
    rw [hinit] at hinit₁
    split
    · next hfull => exact ⟨[], k + 1, h₁.fail, fun hgrow => absurd hgrow.2.1 (by rw [← hblocks]; omega)⟩
    · next hroom =>
      split
      · next hnone =>
        refine ⟨[], k + 1, h₁.fail, fun hgrow => ?_⟩
        have hsome := hgrow.2.2
        rw [hnone] at hsome
        cases hsome
      · next b hb =>
        have hnew : b ∉ o₁.blocks := hblocks ▸ hmem b hb
        have hidx : ∀ c ∈ o₁.blocks, (o₁.blocks ++ [b]).idxOf c = o₁.blocks.idxOf c :=
          fun c hc => idxOf_append_of_mem hc
        suffices hok : ∃ l', Ok P _ l' k from hok.elim fun l' hok => ⟨l', k, hok, fun _ => rfl⟩
        refine h₁.addBlock (.indirect b) (indirectHandle P.kind o₁.blocks.length)
          (Nat.ne_of_gt P.indices_pos) ?_ ⟨o₁.initialized, some (o₁.blocks ++ [b]), rfl⟩ ?_ ?_ ?_ ?_
          ?_ hinit₁
        · intro x hx hxb
          rcases mem_objects.1 hx with ⟨-, hx⟩ | ⟨c, hc, hx⟩
          · exact nomatch (mem_objsOf.1 hx).1.symm.trans hxb
          · obtain rfl := Block.indirect.inj ((mem_objsOf.1 hx).1.symm.trans hxb)
            exact hnew hc
        · refine .of_eq ?_
          show _ ++ List.flatMap _ (o₁.blocks ++ [b]) = (_ ++ _) ++ _
          rw [flatMap_append, flatMap_singleton, append_assoc]
        · show (o₁.blocks ++ [b]).Nodup
          exact nodup_append'.2 ⟨h₁.blocks, nodup_singleton b, by simpa using hnew⟩
        · show (o₁.blocks ++ [b]).length ≤ P.maxBlocks
          rw [length_append, length_singleton]
          omega
        · intro x hx
          rcases mem_objects.1 hx with ⟨-, hx⟩ | ⟨c, hc, hx⟩
          · rw [handleAt, handleAt, (mem_objsOf.1 hx).1]
          · rw [handleAt, handleAt, (mem_objsOf.1 hx).1]
            exact congrArg (indirectHandle P.kind · x.index) (hidx c hc)
        · intro i
          have hlast : (o₁.blocks ++ [b]).idxOf b = o₁.blocks.length := by
            rw [idxOf_append_of_notMem hnew, idxOf_cons_self, Nat.add_zero]
          exact congrArg (indirectHandle P.kind · i) hlast

/-- An allocation does not fail: there is an available object, the direct block is still to be set
up, or there can be a new indirect block. -/
def CanAlloc (P : Params) (o : Objmem) (mem : Mem) : Prop :=
  o.avail.isSome = true ∨ (o.initialized = false ∧ P.directSize ≠ 0) ∨ CanGrow P o mem

theorem Ok.direct (h : Ok P o [] k) (hinit : o.initialized = false) (hpos : P.directSize ≠ 0) :
    ∃ l', Ok P (finish (takeFirst (directInit P { o with initialized := true }))) l' k := by
  have hnil : o.blocks = [] := h.fresh hinit
  have hnone : objects P o = [] := by
    rw [objects, hnil, hinit]
    rfl
  have hobjs : objects P { o with initialized := true } = P.objsOf .direct := by
    show P.objsOf .direct ++ List.flatMap _ o.blocks = _
    rw [hnil]
    exact append_nil _
  rw [directInit, if_neg hpos]
  refine h.addBlock .direct (directHandle P.kind) hpos ?_ ⟨true, o.indirect, rfl⟩ ?_ h.blocks
    h.length ?_ (fun _ => rfl) rfl
  · rw [hnone]
    exact fun x hx => absurd hx not_mem_nil
  · rw [hnone]
    exact .of_eq hobjs
  · rw [hnone]
    exact fun x hx => absurd hx not_mem_nil

theorem Ok.noDirect (h : Ok P o [] k) (hinit : o.initialized = false) (hzero : P.directSize = 0) :
    Ok P (directInit P { o with initialized := true }).1 [] k := by
  have hnil : o.blocks = [] := h.fresh hinit
  have hnone : objects P o = [] := by
    rw [objects, hnil, hinit]
    rfl
  have hobjs : objects P (directInit P { o with initialized := true }).1 = [] := by
    show P.objsOf .direct ++ List.flatMap _ o.blocks = _
    rw [hnil, Params.objsOf, Params.sizeOf, hzero]
    rfl
  refine ⟨h.list, ?_, h.blocks, h.length, ?_, ?_, ?_, nofun⟩
  · have hperm := h.perm
    rw [hnone] at hperm
    rw [hobjs]
    exact hperm
  · rw [hobjs]
    exact fun x hx => absurd hx not_mem_nil
  · rw [hobjs, ← hnone]
    show o.numAllocated + (P.directSize : Int) = _
    rw [hzero, h.allocated]
    exact Int.add_zero _
  · have := h.avail
    show o.numAvail + (P.directSize : Int) + k = _
    rw [hzero]
    omega

theorem Ok.alloc {mem : Mem} (h : Ok P o l k) (hmem : ∀ b ∈ mem.block, b ∉ o.blocks) :
    ∃ l' k', Ok P { (objAlloc P o mem).1 with
        live := (objAlloc P o mem).2.toList ++ (objAlloc P o mem).1.live } l' k' ∧
      (CanAlloc P o mem → k' = k) := by
  cases hav : o.avail with
  | some p =>
    have hlist := h.list
    rw [hav] at hlist
    cases l with
    | nil => exact nomatch (show some p = none from hlist)
    | cons q l =>
      obtain ⟨hpq, hlist⟩ := hlist
      cases hpq
      unfold objAlloc
      simp only [hav]
      refine ⟨l, k, ⟨hlist, ?_, h.blocks, h.length, h.handles, h.allocated, ?_, h.fresh⟩, fun _ => rfl⟩
      · exact perm_middle.trans h.perm
      · have := h.avail
        rw [length_cons] at this
        show o.numAvail - 1 + (k : Int) = _
        omega
  | none =>
    obtain rfl : l = [] := by
      have hlist := h.list
      rw [hav] at hlist
      cases l with
      | nil => rfl
      | cons q l => exact nomatch hlist.1
    unfold objAlloc
    simp only [hav]
    show ∃ l' k', Ok P (finish (slowPath P o mem)) l' k' ∧ _
    unfold slowPath directFirst
    cases hinit : o.initialized with
    | true =>
      simp only [if_true]
      obtain ⟨l', k', hok, hk⟩ := h.indirect hinit hmem
      refine ⟨l', k', hok, fun hcan => ?_⟩
      rcases hcan with hcan | hcan | hcan
      · rw [hav] at hcan
        cases hcan
      · exact absurd (hinit.symm.trans hcan.1) nofun
      · exact hk hcan
    | false =>
      by_cases hzero : P.directSize = 0
      · have hnone : takeFirst (directInit P { o with initialized := true }) =
            ((directInit P { o with initialized := true }).1, none) := by
          rw [directInit, if_pos hzero]
          rfl
        simp only [Bool.false_eq_true, if_false, hnone]
        obtain ⟨l', k', hok, hk⟩ := (h.noDirect hinit hzero).indirect rfl hmem
        refine ⟨l', k', hok, fun hcan => ?_⟩
        rcases hcan with hcan | hcan | hcan
        · rw [hav] at hcan
          cases hcan
        · exact absurd hzero hcan.2
        · exact hk hcan
      · obtain ⟨l', hok⟩ := h.direct hinit hzero
        refine ⟨l', k, ?_, fun _ => rfl⟩
        have hsome : takeFirst (directInit P { o with initialized := true }) =
            ((takeFirst (directInit P { o with initialized := true })).1, some ⟨.direct, 0⟩) := by
          rw [directInit, if_neg hzero]
          rfl
        rw [hsome] at hok
        simp only [Bool.false_eq_true, if_false]
        rw [hsome]
        exact hok

def Grows (o o' : Objmem) : Prop :=
  o.blocks ⊆ o'.blocks ∧ (o.initialized = true → o'.initialized = true)

theorem Grows.refl (o : Objmem) : Grows o o := ⟨fun _ h => h, id⟩

theorem Grows.objects (h : Grows o o') {x : Obj} (hx : x ∈ objects P o) : x ∈ objects P o' := by
  rcases mem_objects.1 hx with ⟨hi, hx⟩ | ⟨b, hb, hx⟩
  · exact mem_objects.2 (.inl ⟨h.2 hi, hx⟩)
  · exact mem_objects.2 (.inr ⟨b, h.1 hb, hx⟩)

theorem Grows.takeFirst {r : Objmem × Option Obj} (h : Grows o r.1) : Grows o (takeFirst r).1 := by
  unfold Handle.takeFirst
  split
  · exact h
  · exact h

theorem grows_createTable {mem : Mem} (h : createTable o mem = some o') : Grows o o' := by
  unfold createTable at h
  split at h
  · cases h
    exact .refl _
  · next hnone =>
    obtain ⟨-, h⟩ := ite_none_right_eq_some.1 h
    cases h
    refine ⟨fun b hb => ?_, id⟩
    rw [Objmem.blocks, hnone] at hb
    exact absurd hb not_mem_nil

theorem grows_indirectInit (P : Params) (o : Objmem) (mem : Mem) :
    Grows o (indirectInit P o mem).1 := by
  unfold indirectInit
  split
  · exact .refl _
  · next o₁ hc =>
    have hgrows := grows_createTable hc
    split
    · exact hgrows
    · split
      · exact hgrows
      · exact ⟨fun b hb => mem_append_left _ (hgrows.1 hb), hgrows.2⟩

theorem grows_objAlloc (P : Params) (o : Objmem) (mem : Mem) : Grows o (objAlloc P o mem).1 := by
  have hfirst : Grows o (directFirst P o).1 := by
    unfold directFirst
    split
    · exact .refl _
    · exact Grows.takeFirst ⟨fun _ h => h, fun _ => rfl⟩
  unfold objAlloc
  cases o.avail with
  | some p => exact .refl _
  | none =>
    show Grows o (slowPath P o mem).1
    unfold slowPath
    split
    · exact hfirst
    · refine Grows.takeFirst ?_
      have hnext := grows_indirectInit P (directFirst P o).1 mem
      exact ⟨fun b hb => hnext.1 (hfirst.1 hb), fun hi => hnext.2 (hfirst.2 hi)⟩

/-! ### Frees -/

theorem Ok.free {obj : Obj} (h : Ok P o l k) (hobj : obj ∈ o.live) :
    ∃ l' k', Ok P { objFree P o obj with live := o.live.erase obj } l' k' ∧ k' ≤ k ∧
      ((∃ x ∈ objects P o, x ∉ objects P (objFree P o obj)) → o.live.erase obj = []) := by
  have hnl := h.ne_of_live hobj
  have hlist : ListFrom (Function.update o.next obj o.avail) (some obj) (obj :: l) := by
    refine ⟨rfl, ?_⟩
    rw [update_self]
    exact h.list.congr fun a ha => update_of_ne (hnl a ha) _ _
  have hperm : (obj :: l ++ o.live.erase obj).Perm (objects P o) := by
    refine List.Perm.trans ?_ h.perm
    rw [cons_append]
    refine perm_middle.symm.trans ?_
    exact (perm_append_left_iff l).2 (perm_cons_erase hobj).symm
  have havail := h.avail
  have hallocated := h.allocated
  unfold objFree
  simp only
  split
  · next hrel =>
    have hlen := hperm.length_eq
    rw [length_append, length_cons] at hlen
    have hnil : o.live.erase obj = [] := length_eq_zero_iff.1 (by omega)
    refine ⟨[], 0, ⟨rfl, ?_, nodup_nil, Nat.zero_le _, fun x hx => absurd hx not_mem_nil,
      rfl, rfl, fun _ => rfl⟩, Nat.zero_le _, fun _ => hnil⟩
    rw [hnil]
    exact .refl _
  · refine ⟨obj :: l, k, ⟨hlist, hperm, h.blocks, h.length, h.handles, h.allocated, ?_, h.fresh⟩,
      Nat.le_refl _, ?_⟩
    · rw [length_cons]
      show o.numAvail + 1 + (k : Int) = _
      omega
    · rintro ⟨x, hx, hno⟩
      exact absurd hx hno

theorem Ok.write {obj : Obj} (h : Ok P o l k) (hobj : obj ∈ o.live) (next : Option Obj) :
    Ok P { o with next := Function.update o.next obj next } l k := by
  refine ⟨h.list.congr fun a ha => update_of_ne (h.ne_of_live hobj a ha) _ _, h.perm,
    h.blocks, h.length, h.handles, h.allocated, h.avail, h.fresh⟩

end invariant

/-! ## Runs -/

/-- The objects of an allocator: the available ones are in its list once, and every object is
available or live; the handles of live objects are distinct and lead back to them. -/
structure Sound (P : Params) (o : Objmem) : Prop where
  objects : ∃ l, ListFrom o.next o.avail l ∧ l.Nodup ∧ o.live.Nodup ∧
    ∀ x, (x ∈ Handle.objects P o ↔ x ∈ l ∨ x ∈ o.live) ∧ (x ∈ l → x ∉ o.live)
  handles : ∀ x ∈ o.live, getPtr P o (o.handle x) = some x
  distinct : ∀ x ∈ o.live, ∀ y ∈ o.live, o.handle x = o.handle y → x = y

def Counted (o : Objmem) : Prop := ∃ l, ListFrom o.next o.avail l ∧ o.numAvail = l.length

section runs

variable {P : Params} {o o' : Objmem} {l : List Obj} {k : Nat}

theorem Ok.sound (h : Ok P o l k) : Sound P o := by
  obtain ⟨hl, hlive, hdisj⟩ := nodup_append'.1 h.nodup
  have hget : ∀ x ∈ o.live, getPtr P o (o.handle x) = some x := by
    intro x hx
    have hmem := h.perm.mem_iff.1 (mem_append_right _ hx)
    rw [h.handles x hmem]
    exact getPtr_handleAt h.length hmem
  refine ⟨⟨l, h.list, hl, hlive, fun x => ⟨?_, fun hxl hx => hdisj hxl hx⟩⟩, hget, ?_⟩
  · rw [← h.perm.mem_iff, mem_append]
  · intro x hx y hy heq
    have := hget x hx
    rw [heq, hget y hy] at this
    exact (Option.some.inj this).symm

def StepOk (P : Params) (o : Objmem) : Act → Prop
  | .alloc mem => CanAlloc P o mem
  | _ => True

theorem Ok.step {a : Act} (h : Ok P o l k) (hs : Handle.step P o a = some o') :
    ∃ l' k', Ok P o' l' k' ∧ (StepOk P o a → k' ≤ k) ∧
      ((∃ x ∈ Handle.objects P o, x ∉ Handle.objects P o') → o'.live = []) := by
  cases a with
  | alloc mem =>
    obtain ⟨hmem, hs⟩ := ite_none_right_eq_some.1 hs
    cases hs
    obtain ⟨l', k', hok, hk⟩ := h.alloc hmem
    refine ⟨l', k', hok, fun hcan => Nat.le_of_eq (hk hcan), ?_⟩
    rintro ⟨x, hx, hno⟩
    exact absurd ((grows_objAlloc P o mem).objects hx) hno
  | free obj =>
    obtain ⟨hobj, hs⟩ := ite_none_right_eq_some.1 hs
    cases hs
    obtain ⟨l', k', hok, hk, hrel⟩ := h.free hobj
    exact ⟨l', k', hok, fun _ => hk, hrel⟩
  | write obj next =>
    obtain ⟨hobj, hs⟩ := ite_none_right_eq_some.1 hs
    cases hs
    exact ⟨l, k, h.write hobj next, fun _ => Nat.le_refl _, fun ⟨x, hx, hno⟩ => absurd hx hno⟩

theorem Ok.init : Ok P Handle.init [] 0 :=
  ⟨rfl, .refl _, nodup_nil, Nat.zero_le _, fun _ hx => absurd hx not_mem_nil, rfl, rfl,
    fun _ => rfl⟩

end runs

/-- In every run of allocations and frees, the objects are live or available, the handles lead back to
them, and blocks are released only if no object is live. The number of available objects is right in
every run in which no allocation fails. -/
theorem handle_alloc_sound (P : Params) :
    (∀ o, (sys P).Reach o → Sound P o ∧ ∀ a o', step P o a = some o' →
      (∃ x ∈ objects P o, x ∉ objects P o') → o'.live = []) ∧
    ∀ o, (sys P).ReachWhen (StepOk P) o → Counted o := by
  constructor
  · intro o h
    obtain ⟨l, k, hok⟩ := Sys.Reach.inv (M := sys P) (I := fun o => ∃ l k, Ok P o l k)
      ⟨[], 0, Ok.init⟩ (fun hi hs => by
        obtain ⟨l, k, hok⟩ := hi
        obtain ⟨l', k', hok', -⟩ := hok.step hs
        exact ⟨l', k', hok'⟩) h
    refine ⟨hok.sound, fun a o' hs => ?_⟩
    obtain ⟨-, -, -, -, hrel⟩ := hok.step hs
    exact hrel
  · intro o h
    obtain ⟨l, hok⟩ := Sys.ReachWhen.inv (M := sys P) (I := fun o => ∃ l, Ok P o l 0)
      ⟨[], Ok.init⟩ (fun _ hi hc hs => by
        obtain ⟨l, hok⟩ := hi
        obtain ⟨l', k', hok', hk, -⟩ := hok.step hs
        obtain rfl := Nat.le_zero.1 (hk hc)
        exact ⟨l', hok'⟩) h
    exact ⟨l, hok.list, by have := hok.avail; omega⟩

/-- `MPIR_Comm_mem` (`commutil.c:21`). -/
def commMem : Params :=
  ⟨1, 8, 8192, 1024, false, by decide, by decide, by decide, by decide, by decide, by decide⟩

theorem handle_alloc_two : ∃ o, (sys commMem).ReachWhen (StepOk commMem) o ∧
    o.live = [⟨.direct, 0⟩] ∧ Sound commMem o ∧ Counted o := by
  have h₁ := Sys.ReachWhen.step (a := Act.alloc ⟨true, none⟩)
    (Sys.ReachWhen.init (M := sys commMem) (C := StepOk commMem))
    (.inr (.inl ⟨rfl, by decide⟩)) rfl
  have h₂ := Sys.ReachWhen.step (a := Act.alloc ⟨true, none⟩) h₁ (.inl rfl) rfl
  have h₃ := Sys.ReachWhen.step (a := Act.free ⟨.direct, 1⟩) h₂ trivial rfl
  exact ⟨_, h₃, rfl, ((handle_alloc_sound commMem).1 _ h₃.reach).1,
    (handle_alloc_sound commMem).2 _ h₃⟩

/-- Eight communicators are allocated, and there is no memory for the ninth one: no object is
available then, but the number says one less. -/
theorem handle_alloc_fails : ¬ ∀ o, (sys commMem).Reach o → Counted o := by
  intro h
  have hrun : ((sys commMem).exec (sys commMem).init
      (List.replicate 9 (.alloc ⟨false, none⟩))).map (fun o => (o.avail, o.numAvail)) =
        some (none, -1) := by decide
  obtain ⟨o, ho, heq⟩ := map_eq_some_iff.1 hrun
  obtain ⟨havail, hnum⟩ := Prod.mk.inj heq
  obtain ⟨l, -, hl⟩ := h o (Sys.exec_reach .init ho)
  omega

end PsMpi.Handle
