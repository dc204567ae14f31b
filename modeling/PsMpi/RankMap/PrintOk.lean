import Mathlib.Data.List.Basic
import PsMpi.RankMap.ParseOk
import PsMpi.RankMap.Print

/-!
# Writing a node map and reading it again
-/

open PsMpi.Lib List Option

namespace PsMpi.RankMap

/-! ## Runs -/

structure Run where
  id : Nat
  nodes : Nat
  ranks : Nat
  nodes_pos : 0 < nodes
  ranks_pos : 0 < ranks

def Run.ids (r : Run) : List Int :=
  (List.range r.nodes).flatMap fun (i : Nat) => List.replicate r.ranks ((r.id : Int) + i)

def runsIds (O : List Run) : List Int := O.flatMap Run.ids

def Run.block (r : Run) : Block :=
  if r.nodes = 1 ∧ r.ranks = 1 then .num (.ofNat r.id)
  else .triple (.ofNat r.id) (.ofNat r.nodes) (.ofNat r.ranks)

def Run.toBlock (r : Run) (start : Nat) (startRepeat : Bool) : NodeBlock :=
  ⟨r.id, r.nodes, r.ranks, start, startRepeat⟩

def openBlocks : Nat → List Run → List NodeBlock
  | _, [] => []
  | start, r :: O => r.toBlock start false :: openBlocks (start + r.ids.length) O

section runs

variable {r : Run} {O O' : List Run} {start : Nat}

theorem Run.length_ids (r : Run) : r.ids.length = r.nodes * r.ranks := by
  rw [Run.ids, length_flatMap]
  simp only [length_replicate]
  rw [map_const', sum_replicate_nat, length_range]

theorem Run.ids_pos (r : Run) : 0 < r.ids.length := by
  rw [r.length_ids]
  exact Nat.mul_pos r.nodes_pos r.ranks_pos

theorem Run.id_mem (r : Run) : (r.id : Int) ∈ r.ids := by
  rw [Run.ids, mem_flatMap]
  refine ⟨0, mem_range.2 r.nodes_pos, mem_replicate.2 ⟨r.ranks_pos.ne', ?_⟩⟩
  rw [Int.natCast_zero, Int.add_zero]

theorem Run.block_ids (r : Run) : r.block.ids = r.ids := by
  unfold Run.block Run.ids
  split
  · next h =>
    rw [h.1, h.2, Block.ids, Numeral.value_ofNat]
    simp
  · rw [Block.ids, Numeral.value_ofNat, Numeral.value_ofNat, Numeral.value_ofNat]

theorem Run.ids_single (h : r.nodes = 1) : r.ids = List.replicate r.ranks (r.id : Int) := by
  rw [Run.ids, h]
  simp

theorem Run.ids_merge {r₀ r₁ r : Run} (hone : r₁.nodes = 1) (hranks : r₀.ranks = r₁.ranks)
    (hid : r₀.id + r₀.nodes = r₁.id) (hr : r.id = r₀.id ∧ r.nodes = r₀.nodes + 1 ∧ r.ranks = r₀.ranks) :
    r.ids = r₀.ids ++ r₁.ids := by
  rw [Run.ids_single hone, Run.ids, Run.ids, hr.1, hr.2.1, hr.2.2, range_succ,
    flatMap_append, flatMap_singleton, hranks, ← hid, Int.natCast_add]

theorem runsIds_cons : runsIds (r :: O) = r.ids ++ runsIds O := flatMap_cons

theorem runsIds_singleton : runsIds [r] = r.ids := append_nil _

theorem runsIds_append : runsIds (O ++ O') = runsIds O ++ runsIds O' := flatMap_append

theorem runsIds_blocks : (O.map Run.block).flatMap Block.ids = runsIds O := by
  rw [flatMap_map]
  exact congrArg (fun f => O.flatMap f) (funext Run.block_ids)

theorem openBlocks_append : openBlocks start (O ++ O') =
    openBlocks start O ++ openBlocks (start + (runsIds O).length) O' := by
  induction O generalizing start with
  | nil => rfl
  | cons r O ih =>
    rw [cons_append, openBlocks, ih, openBlocks, cons_append, runsIds_cons,
      length_append, Nat.add_assoc]

theorem length_openBlocks : (openBlocks start O).length = O.length := by
  induction O generalizing start with
  | nil => rfl
  | cons r O ih => rw [openBlocks, length_cons, ih, length_cons]

theorem openBlocks_nonneg : ∀ b ∈ openBlocks start O, 0 ≤ b.startId + b.numNodes := by
  induction O generalizing start with
  | nil => exact nofun
  | cons r O ih =>
    refine forall_mem_cons.2 ⟨?_, ih⟩
    exact Int.add_nonneg (Int.natCast_nonneg _) (Int.natCast_nonneg _)

end runs

/-! ## Text -/

section text

variable {O : List Run} {start : Nat}

theorem intText_natCast (n : Nat) : intText (n : Int) = Nat.toDigits 10 n := by
  rw [intText, if_neg (by omega), Int.natAbs_natCast]

theorem Run.pieces (r : Run) (start : Nat) (startRepeat : Bool) :
    (blockPieces (r.toBlock start startRepeat)).flatten =
      ',' :: ((if startRepeat then ['['] else []) ++ r.block.text) := by
  have hid : (r.toBlock start startRepeat).startId ≠ -1 := by
    show (r.id : Int) ≠ -1
    omega
  have hone : ((r.nodes : Int) = 1 ∧ (r.ranks : Int) = 1) ↔ (r.nodes = 1 ∧ r.ranks = 1) := by
    omega
  obtain ⟨b, hb⟩ : ∃ b, r.toBlock start startRepeat = b := ⟨_, rfl⟩
  have hlast : (if b.numNodes = 1 ∧ b.numRanks = 1 then intText b.startId
      else '(' :: (intText b.startId ++ ',' :: (intText b.numNodes ++ ',' ::
        (intText b.numRanks ++ [')'])))) = r.block.text := by
    have hstart : b.startId = r.id := hb ▸ rfl
    have hnodes : b.numNodes = r.nodes := hb ▸ rfl
    have hranks : b.numRanks = r.ranks := hb ▸ rfl
    rw [hstart, hnodes, hranks, intText_natCast, intText_natCast, intText_natCast, Run.block]
    by_cases h : r.nodes = 1 ∧ r.ranks = 1
    · rw [if_pos h, if_pos (hone.2 h)]
      rfl
    · rw [if_neg h, if_neg fun h' => h (hone.1 h')]
      rfl
  have hrepeat : b.startRepeat = startRepeat := hb ▸ rfl
  rw [hb] at hid ⊢
  unfold blockPieces
  rw [if_neg hid, hlast, hrepeat]
  cases startRepeat with
  | false => simp
  | true => simp

theorem openBlocks_pieces :
    ((openBlocks start O).flatMap blockPieces).flatten = blocksText (O.map Run.block) := by
  induction O generalizing start with
  | nil => rfl
  | cons r O ih =>
    rw [openBlocks, flatMap_cons, flatten_append, ih, Run.pieces, map_cons,
      blocksText, blocksText, flatMap_cons]
    rfl

theorem itemsText_blocks (bs : List Block) : itemsText (bs.map Item.block) = blocksText bs := by
  rw [itemsText, flatMap_map]
  rfl

theorem itemsText_append (A B : List Item) : itemsText (A ++ B) = itemsText A ++ itemsText B :=
  flatMap_append

end text

/-! ## The invariant -/

/-- The ranks before `base` are the ones that some items denote, and also the ones that the parser
reads, unless it reads all ranks already. -/
structure Covers (a : List Int) (D : List Item) (base : Nat) : Prop where
  expand : expand D = a.take base
  more : a <+: expandMore false D ∨ expandMore false D = a.take base

/-- The writer before a rank: the closed blocks `dn` are the items `D`, which denote the ranks before
`base`, and behind them there are open blocks. -/
structure Inv (a : List Int) (rank : Nat) (e : Encoder) (D : List Item) (dn : List NodeBlock)
    (base : Nat) (O : List Run) : Prop where
  size : e.nodeBlocks.length = a.length
  small : e.iBlk ≤ rank
  blocks : e.nodeBlocks.take e.iBlk = dn ++ openBlocks base O
  count : e.iBlk = dn.length + O.length
  skip : ∀ r : Nat, (r : Int) < e.skipToRank ↔ r < base
  text : (dn.flatMap blockPieces).flatten = itemsText D
  plain : ∀ i ∈ D, i.Plain
  covers : Covers a D base
  done : ∀ b ∈ dn, 0 ≤ b.startId + b.numNodes
  last : (dn = [] ∧ D = [] ∧ base = 0) ∨ ∃ dn' b, dn = dn' ++ [b] ∧ b.startId = -1
  ids : a.take (max rank base) = a.take base ++ runsIds O
  early : rank < base → O = []
  base_le : base ≤ a.length
  markers : ∀ id ∈ a, id.toNat < e.nodeMarkers.length
  marks : ∀ (id : Nat) j, e.nodeMarkers[id]? = some j →
    j = -1 ∨ ∃ k, (O.map Run.id)[k]? = some id ∧ j = (dn.length + k : Nat)

def Single (O : List Run) : Prop := ∀ O' r, O = O' ++ [r] → r.nodes = 1

section steps

variable {a : List Int} {rank base : Nat} {e : Encoder} {D : List Item} {dn : List NodeBlock}
  {O : List Run}

theorem Inv.getElem? (h : Inv a rank e D dn base O) {j : Nat} (hj : j < e.iBlk) :
    e.nodeBlocks[j]? = (dn ++ openBlocks base O)[j]? := by
  rw [← h.blocks, List.getElem?_take_of_lt hj]

theorem Inv.lt_length (h : Inv a rank e D dn base O) (hrank : rank < a.length) :
    e.iBlk < e.nodeBlocks.length := by
  rw [h.size]
  exact Nat.lt_of_le_of_lt h.small hrank

theorem take_set_length {α : Type} {l : List α} {n : Nat} (x : α) (h : n < l.length) :
    (l.set n x).take (n + 1) = l.take n ++ [x] := by
  rw [set_eq_take_append_cons_drop, if_pos h, take_append, length_take,
    Nat.min_eq_left h.le, take_take, Nat.min_eq_right (Nat.le_succ n), Nat.add_sub_cancel_left]
  rfl

theorem Inv.rank_eq (h : Inv a rank e D dn base O) (hbase : base ≤ rank) (hrank : rank ≤ a.length) :
    rank = base + (runsIds O).length := by
  have hids := congrArg List.length h.ids
  rw [Nat.max_eq_left hbase, length_take, length_append, length_take] at hids
  omega

theorem Inv.incr (h : Inv a rank e D dn base O) (hsingle : Single O) (hbase : base ≤ rank)
    (hpos : 0 < rank) (hrank : rank < a.length) (hsame : a[rank]? = a[rank - 1]?)
    (hlast : ∀ b, e.nodeBlocks[e.iBlk - 1]? = some b → b.startId ≠ -1) :
    ∃ e' O', incrRanks e = some e' ∧ Inv a (rank + 1) e' D dn base O' ∧ Single O' := by
  rcases eq_nil_or_concat' O with rfl | ⟨O', r, rfl⟩
  · -- the last block would be a repeat block
    exfalso
    rcases h.last with ⟨rfl, -, rfl⟩ | ⟨dn', b, rfl, hb⟩
    · have := h.rank_eq hbase hrank.le
      exact absurd (this : rank = 0) hpos.ne'
    · have hcount := h.count
      rw [length_append, length_singleton, length_nil] at hcount
      refine hlast b ?_ hb
      rw [h.getElem? (by omega), show e.iBlk - 1 = dn'.length by omega]
      simp [openBlocks]
  · have hr : r.nodes = 1 := hsingle O' r rfl
    obtain ⟨r', hr'⟩ : ∃ r' : Run, r' = { r with ranks := r.ranks + 1, ranks_pos := Nat.succ_pos _ } :=
      ⟨_, rfl⟩
    have hcount := h.count
    rw [length_append, length_singleton] at hcount
    obtain ⟨n, hn⟩ : ∃ n, e.iBlk = n + 1 := ⟨e.iBlk - 1, by omega⟩
    have hblocks := h.blocks
    rw [openBlocks_append, ← append_assoc, hn] at hblocks
    have hlen : (dn ++ openBlocks base O').length = n := by
      rw [length_append, length_openBlocks]
      omega
    have hget : e.nodeBlocks[n]? = some (r.toBlock (base + (runsIds O').length) false) := by
      rw [← List.getElem?_take_of_lt (Nat.lt_succ_self n), hblocks, ← hlen]
      exact List.getElem?_concat_length
    have htake : e.nodeBlocks.take n = dn ++ openBlocks base O' := by
      have := congrArg (List.take n) hblocks
      rwa [take_take, Nat.min_eq_left (Nat.le_succ n), take_left' hlen] at this
    have hids := h.ids
    rw [Nat.max_eq_left hbase, runsIds_append, runsIds_singleton, Run.ids_single hr] at hids
    have hid : a[rank]? = some (r.id : Int) := by
      obtain ⟨k, hk⟩ : ∃ k, r.ranks = k + 1 := ⟨r.ranks - 1, by have := r.ranks_pos; omega⟩
      have hend : (a.take rank).getLast? = some (r.id : Int) := by
        rw [hids, hk, replicate_succ', ← append_assoc, ← append_assoc,
          List.getLast?_concat]
      rw [List.getLast?_eq_getElem?, length_take, Nat.min_eq_left hrank.le,
        List.getElem?_take_of_lt (Nat.sub_lt hpos Nat.one_pos)] at hend
      rw [hsame, hend]
    refine ⟨{ e with nodeBlocks := e.nodeBlocks.set n (r'.toBlock (base + (runsIds O').length) false) },
      O' ++ [r'], ?_, ?_, ?_⟩
    · unfold incrRanks
      rw [if_pos (by omega), hn, Nat.add_sub_cancel, hget, hr']
      rfl
    · refine ⟨?_, ?_, ?_, ?_, h.skip, h.text, h.plain, h.covers, h.done, h.last, ?_, ?_, h.base_le,
        h.markers, ?_⟩
      · rw [length_set, h.size]
      · exact Nat.le_succ_of_le h.small
      · dsimp only
        rw [hn, take_set_length _ (by have := h.lt_length hrank; omega), htake, openBlocks_append,
          append_assoc]
        rfl
      · rw [length_append, length_singleton]
        exact hcount
      · rw [Nat.max_eq_left (Nat.le_succ_of_le hbase), take_add_one, hids, hid,
          runsIds_append, runsIds_singleton, Run.ids_single (by rw [hr']; exact hr), hr', replicate_succ']
        simp only [append_assoc, toList_some]
      · omega
      · have hmap : (O' ++ [r']).map Run.id = (O' ++ [r]).map Run.id := by
          rw [map_append, map_append, hr']
          rfl
        rw [hmap]
        exact h.marks
    · intro X x hx
      obtain ⟨-, hx⟩ := append_inj' hx rfl
      obtain rfl := singleton_inj.1 hx
      rw [hr']
      exact hr

theorem Inv.id_mem (h : Inv a rank e D dn base O) {r : Run} (hr : r ∈ O) : (r.id : Int) ∈ a := by
  have hmem : (r.id : Int) ∈ a.take (max rank base) := by
    rw [h.ids]
    exact mem_append_right _ (mem_flatMap.2 ⟨r, hr, r.id_mem⟩)
  exact mem_of_mem_take hmem

def mergesRepeat (e : Encoder) : Bool :=
  match e.nodeBlocks[e.iBlk - 2]?, e.nodeBlocks[e.iBlk - 1]? with
  | some p0, some p1 => decide (1 < e.iBlk ∧ p0.startId = -1 ∧ p0.numRanks = p1.numRanks ∧
      p0.startId + p0.numNodes = p1.startId)
  | _, _ => false

theorem Inv.merge_open (h : Inv a rank e D dn base O) {n : Nat} (hn : e.iBlk = n + 2)
    (hfree : mergesRepeat e = false) {p0 p1 : NodeBlock}
    (h0 : e.nodeBlocks[n]? = some p0) (h1 : e.nodeBlocks[n + 1]? = some p1)
    (hm : p0.numRanks = p1.numRanks ∧ p0.startId + p0.numNodes = p1.startId) :
    ∃ X r₀ r₁, O = X ++ [r₀, r₁] := by
  have hcount := h.count
  have h0' := h.getElem? (show n < e.iBlk by omega)
  have h1' := h.getElem? (show n + 1 < e.iBlk by omega)
  rw [h0] at h0'
  rw [h1] at h1'
  rcases eq_nil_or_concat' O with rfl | ⟨O', r₁, rfl⟩
  · -- the last block is a repeat block
    rw [openBlocks, append_nil] at h0' h1'
    rcases h.last with ⟨rfl, -, -⟩ | ⟨dn', b, rfl, hb⟩
    · cases h0'
    · have hlen : dn'.length = n + 1 := by
        rw [length_append, length_singleton, length_nil] at hcount
        omega
      rw [← hlen, List.getElem?_concat_length] at h1'
      have hp1 := Option.some.inj h1'
      have hp0 := h.done p0 (mem_of_getElem? h0'.symm)
      rw [hm.2, hp1, hb] at hp0
      exact absurd hp0 (by decide)
  · rcases eq_nil_or_concat' O' with rfl | ⟨X, r₀, rfl⟩
    · -- the block before the last one is a repeat block
      rcases h.last with ⟨rfl, -, -⟩ | ⟨dn', b, rfl, hb⟩
      · rw [length_nil, length_append, length_nil, length_singleton] at hcount
        omega
      · have hlen : dn'.length = n := by
          simp only [length_append, length_singleton, length_nil] at hcount
          omega
        rw [← hlen, append_assoc, List.getElem?_append_right (Nat.le_refl _),
          Nat.sub_self] at h0'
        have hp0 : p0 = b := Option.some.inj h0'
        unfold mergesRepeat at hfree
        rw [hn, show n + 2 - 2 = n by omega, show n + 2 - 1 = n + 1 by omega, h0, h1] at hfree
        dsimp only at hfree
        rw [decide_eq_false_iff_not] at hfree
        exact absurd ⟨by omega, hp0 ▸ hb, hm⟩ hfree
    · exact ⟨X, r₀, r₁, by rw [append_assoc]; rfl⟩

theorem Inv.compress (h : Inv a rank e D dn base O) (hsingle : Single O)
    (hfree : mergesRepeat e = false) (hsize : e.iBlk ≤ e.nodeBlocks.length) :
    ∃ e' O', compress e = some e' ∧ Inv a rank e' D dn base O' := by
  unfold RankMap.compress
  by_cases hmany : 1 < e.iBlk
  · obtain ⟨n, hn⟩ : ∃ n, e.iBlk = n + 2 := ⟨e.iBlk - 2, by omega⟩
    obtain ⟨p0, h0⟩ : ∃ p, e.nodeBlocks[n]? = some p :=
      ⟨_, List.getElem?_eq_getElem (by omega)⟩
    obtain ⟨p1, h1⟩ : ∃ p, e.nodeBlocks[n + 1]? = some p :=
      ⟨_, List.getElem?_eq_getElem (by omega)⟩
    rw [if_pos hmany, hn, show n + 2 - 2 = n by omega, show n + 2 - 1 = n + 1 by omega, h0, h1]
    simp only [bind, bind_some]
    by_cases hm : p0.numRanks = p1.numRanks ∧ p0.startId + p0.numNodes = p1.startId
    · obtain ⟨X, r₀, r₁, rfl⟩ := h.merge_open hn hfree h0 h1 hm
      have hone : r₁.nodes = 1 := hsingle (X ++ [r₀]) r₁ (by rw [append_assoc]; rfl)
      have hcount := h.count
      rw [length_append, length_cons, length_singleton] at hcount
      have hblocks := h.blocks
      rw [openBlocks_append, ← append_assoc, hn] at hblocks
      have hlen : (dn ++ openBlocks base X).length = n := by
        rw [length_append, length_openBlocks]
        omega
      have hp0 : p0 = r₀.toBlock (base + (runsIds X).length) false := by
        rw [← List.getElem?_take_of_lt (show n < n + 2 by omega), hblocks, ← hlen,
          List.getElem?_append_right (Nat.le_refl _), Nat.sub_self] at h0
        exact (Option.some.inj h0).symm
      have hp1 : p1.startId = r₁.id ∧ p1.numRanks = r₁.ranks := by
        rw [← List.getElem?_take_of_lt (show n + 1 < n + 2 by omega), hblocks,
          List.getElem?_append_right (by omega), hlen, Nat.add_sub_cancel_left] at h1
        rw [← Option.some.inj h1]
        exact ⟨rfl, rfl⟩
      have htake : e.nodeBlocks.take n = dn ++ openBlocks base X := by
        have := congrArg (List.take n) hblocks
        rwa [take_take, Nat.min_eq_left (by omega), take_left' hlen] at this
      obtain ⟨hranks, hid⟩ := hm
      rw [hp0, hp1.2] at hranks
      rw [hp0, hp1.1] at hid
      have hranks' : r₀.ranks = r₁.ranks := Int.ofNat_inj.1 hranks
      have hid' : r₀.id + r₀.nodes = r₁.id := by
        have : (r₀.id : Int) + r₀.nodes = r₁.id := hid
        omega
      obtain ⟨r, hr⟩ : ∃ r : Run,
          r = { r₀ with nodes := r₀.nodes + 1, nodes_pos := Nat.succ_pos _ } := ⟨_, rfl⟩
      have hrun : r.toBlock (base + (runsIds X).length) false =
          { p0 with numNodes := p0.numNodes + 1 } := by
        rw [hr, hp0]
        rfl
      have hmem : r₁.id < e.nodeMarkers.length := h.markers _ (h.id_mem (r := r₁) (by simp))
      have hset : setMarker e.nodeMarkers p1.startId (-1) =
          some (e.nodeMarkers.set r₁.id (-1)) := by
        rw [hp1.1, setMarker, Int.toNat_natCast]
        exact if_pos ⟨Int.natCast_nonneg _, hmem⟩
      rw [if_pos (by rw [hp0, hp1.1, hp1.2]; exact ⟨hranks, hid⟩), hset]
      refine ⟨_, X ++ [r], rfl, ?_, ?_, ?_, ?_, h.skip, h.text, h.plain, h.covers, h.done, h.last,
        ?_, ?_, h.base_le, ?_, ?_⟩
      · rw [length_set, h.size]
      · have := h.small
        dsimp only
        omega
      · dsimp only
        rw [take_set_length _ (by omega), htake, ← hrun, openBlocks_append, append_assoc]
        rfl
      · rw [length_append, length_singleton]
        dsimp only
        omega
      · have hids : r.ids = r₀.ids ++ r₁.ids :=
          Run.ids_merge hone hranks' hid' (by subst hr; exact ⟨rfl, rfl, rfl⟩)
        rw [h.ids, runsIds_append, runsIds_append, runsIds_singleton, runsIds_cons,
          runsIds_singleton, hids]
      · intro hlt
        exact absurd (h.early hlt) (by simp)
      · intro id hid
        rw [length_set]
        exact h.markers id hid
      · intro id j hj
        dsimp only at hj ⊢
        by_cases hid₁ : id = r₁.id
        · -- the marker of the last block is cleared
          subst hid₁
          rw [List.getElem?_set_self hmem] at hj
          exact .inl (Option.some.inj hj).symm
        · rw [List.getElem?_set_ne (Ne.symm hid₁)] at hj
          rcases h.marks id j hj with hj | ⟨k, hk, hj⟩
          · exact .inl hj
          · have hmap : (X ++ [r₀, r₁]).map Run.id = (X ++ [r]).map Run.id ++ [r₁.id] := by
              rw [hr]
              simp
            rw [hmap] at hk
            refine .inr ⟨k, ?_, hj⟩
            rw [List.getElem?_append] at hk
            split at hk
            · exact hk
            · exact absurd (mem_singleton.1 (mem_of_getElem? hk)) hid₁
    · rw [if_neg hm]
      exact ⟨e, O, rfl, h⟩
  · rw [if_neg hmany]
    exact ⟨e, O, rfl, h⟩

/-! ## Repeated groups -/

theorem countRepeats_spec {start p : Nat} {todo curRank k n : Nat}
    (h : countRepeats a start p todo curRank k = some n) (hcur : curRank = start + k * p)
    (hle : curRank ≤ a.length)
    (hk : (a.drop start).take (k * p) = repeated k ((a.drop start).take p)) :
    start + n * p ≤ a.length ∧
      (a.drop start).take (n * p) = repeated n ((a.drop start).take p) := by
  induction todo generalizing curRank k with
  | zero => cases h
  | succ todo ih =>
    unfold countRepeats at h
    obtain ⟨next, hnext, h⟩ := bind_eq_some_iff.1 h
    obtain ⟨hnext', -⟩ : next = curRank + p ∧ True := by
      unfold addInt at hnext
      split at hnext
      · exact ⟨(Option.some.inj hnext).symm, trivial⟩
      · cases hnext
    split at h
    · next hsame =>
      have hcur' : next = start + (k + 1) * p := by
        rw [hnext', hcur, Nat.succ_mul, Nat.add_assoc]
      refine ih h hcur' hsame.1 ?_
      rw [Nat.succ_mul, take_add, hk, drop_drop, ← hcur, ← hsame.2, ← repeated_succ']
    · cases h
      exact ⟨hcur ▸ hle, hk⟩

theorem Inv.found (h : Inv a rank e D dn base O) (hbase : base ≤ rank)
    (hrank : rank < a.length) {nodeId : Int} {markBlk markRank n : Nat}
    (hfind : findRepeats a 0 rank nodeId e = some (some (markBlk, markRank, n))) :
    ∃ O₁ r O₂, O = O₁ ++ r :: O₂ ∧ markBlk = dn.length + O₁.length ∧
      markRank = base + (runsIds O₁).length ∧ rank = markRank + (runsIds (r :: O₂)).length ∧
      1 < n ∧ markRank + n * (runsIds (r :: O₂)).length ≤ a.length ∧
      (a.drop markRank).take (runsIds (r :: O₂)).length = runsIds (r :: O₂) ∧
      (a.drop markRank).take (n * (runsIds (r :: O₂)).length) = repeated n (runsIds (r :: O₂)) := by
  unfold RankMap.findRepeats at hfind
  obtain ⟨j, hj, hfind⟩ := bind_eq_some_iff.1 hfind
  split at hfind
  · cases hfind
  · next hne =>
    obtain ⟨b, hb, hfind⟩ := bind_eq_some_iff.1 hfind
    obtain ⟨m, hm, hfind⟩ := bind_eq_some_iff.1 hfind
    split at hfind
    · next hmany =>
      simp only [pure, Option.some.injEq, Prod.mk.injEq] at hfind
      obtain ⟨hmark, hmarkRank, rfl⟩ := hfind
      unfold getMarker at hj
      split at hj
      · obtain hj | ⟨k, hk, hj⟩ := h.marks _ j hj
        · exact absurd hj hne
        · rw [List.getElem?_map, map_eq_some_iff] at hk
          obtain ⟨r, hr, -⟩ := hk
          obtain ⟨hk, hr⟩ := List.getElem?_eq_some_iff.1 hr
          have hsplit : O = O.take k ++ r :: O.drop (k + 1) := by
            rw [← hr, ← drop_eq_getElem_cons hk, take_append_drop]
          have hlen : (O.take k).length = k := by
            rw [length_take]
            omega
          obtain ⟨O₁, hO₁⟩ : ∃ O₁, O.take k = O₁ := ⟨_, rfl⟩
          obtain ⟨O₂, hO₂⟩ : ∃ O₂, O.drop (k + 1) = O₂ := ⟨_, rfl⟩
          rw [hO₁, hO₂] at hsplit
          rw [hO₁] at hlen
          subst hsplit
          have hcount := h.count
          rw [length_append, length_cons] at hcount
          have hjk : j.toNat = dn.length + O₁.length := by omega
          have hblock : b = r.toBlock (base + (runsIds O₁).length) false := by
            rw [hjk, h.getElem? (by omega), openBlocks_append,
              List.getElem?_append_right (Nat.le_add_right _ _), Nat.add_sub_cancel_left,
              List.getElem?_append_right (by rw [length_openBlocks]), length_openBlocks,
              Nat.sub_self] at hb
            exact (Option.some.inj hb).symm
          have hstart : b.startRank.toNat = base + (runsIds O₁).length := by
            rw [hblock]
            exact Int.toNat_natCast _
          have hrankEq := h.rank_eq hbase hrank.le
          rw [runsIds_append, length_append] at hrankEq
          have hgroup : (a.drop (base + (runsIds O₁).length)).take (runsIds (r :: O₂)).length =
              runsIds (r :: O₂) := by
            have hids := congrArg (List.drop (base + (runsIds O₁).length)) h.ids
            rw [Nat.max_eq_left hbase, runsIds_append, ← append_assoc, drop_take,
              drop_left' (by
                rw [length_append, length_take, Nat.min_eq_left h.base_le])] at hids
            rwa [show rank - (base + (runsIds O₁).length) = (runsIds (r :: O₂)).length by omega]
              at hids
          rw [hstart] at hm hmarkRank
          have hperiod : rank - (base + (runsIds O₁).length) = (runsIds (r :: O₂)).length := by omega
          have hrep := countRepeats_spec hm (by rw [hperiod]; omega) hrank.le (by
            rw [Nat.one_mul, repeated_succ]
            exact (append_nil _).symm)
          rw [hperiod, hgroup] at hrep
          subst hmarkRank
          exact ⟨O₁, r, O₂, rfl, hmark ▸ hjk, rfl, by omega, hmany, hrep.1, hgroup, hrep.2⟩
      · cases hj
    · cases hfind

theorem Run.plain {r : Run} (hids : ∀ id ∈ r.ids, id < (intMax : Int))
    (hlen : r.ids.length ≤ intMax) : r.block.Plain := by
  have hid := hids _ r.id_mem
  rw [r.length_ids] at hlen
  have hnodes : r.nodes ≤ intMax :=
    Nat.le_trans (Nat.le_mul_of_pos_right _ r.ranks_pos) hlen
  have hranks : r.ranks ≤ intMax :=
    Nat.le_trans (Nat.le_mul_of_pos_left _ r.nodes_pos) hlen
  have hblock := r.block_ids
  unfold Run.block at hblock ⊢
  split
  · exact Numeral.plain_ofNat (by omega)
  · next hne =>
    rw [if_neg hne] at hblock
    refine ⟨Numeral.plain_ofNat (by omega), Numeral.plain_ofNat hnodes,
      Numeral.plain_ofNat hranks, ?_⟩
    rw [hblock]
    exact fun id h => (hids id h).le

theorem Inv.runs_plain (h : Inv a rank e D dn base O) (ha : ∀ id ∈ a, id < (intMax : Int))
    (hlen : a.length ≤ intMax) : ∀ b ∈ O.map Run.block, b.Plain := by
  intro b hb
  obtain ⟨r, hr, rfl⟩ := mem_map.1 hb
  have hsub : r.ids.Sublist (runsIds O) := by
    obtain ⟨A, B, rfl⟩ := append_of_mem hr
    rw [runsIds_append, runsIds_cons]
    exact (sublist_append_left _ _).trans (sublist_append_right _ _)
  have hids : (runsIds O).Sublist a := by
    have := take_sublist (max rank base) a
    rw [h.ids] at this
    exact (sublist_append_right _ _).trans this
  exact Run.plain (fun id hid => ha id ((hsub.trans hids).subset hid))
    (Nat.le_trans (hsub.trans hids).length_le hlen)

theorem Inv.push (h : Inv a rank e D dn base O) (hbase : base ≤ rank) (hrank : rank < a.length)
    {nodeId : Int} (hid : a[rank]? = some nodeId) (hnonneg : 0 ≤ nodeId)
    (hfind : findRepeats a 0 rank nodeId e = some none) :
    ∃ e' O', startBlock a 0 rank nodeId e = some e' ∧ Inv a (rank + 1) e' D dn base O' ∧
      Single O' := by
  have hmem := h.markers nodeId (mem_of_getElem? hid)
  have hset : setMarker e.nodeMarkers nodeId e.iBlk =
      some (e.nodeMarkers.set nodeId.toNat e.iBlk) := if_pos ⟨hnonneg, hmem⟩
  obtain ⟨r, hr⟩ : ∃ r : Run, r = ⟨nodeId.toNat, 1, 1, Nat.one_pos, Nat.one_pos⟩ := ⟨_, rfl⟩
  have hrankEq := h.rank_eq hbase hrank.le
  have hblock : r.toBlock rank false = ⟨nodeId, 1, 1, rank, false⟩ := by
    rw [hr, Run.toBlock, Int.toNat_of_nonneg hnonneg]
    rfl
  have hids : r.ids = [nodeId] := by
    rw [hr, Run.ids_single rfl, Int.toNat_of_nonneg hnonneg]
    rfl
  refine ⟨⟨e.nodeBlocks.set e.iBlk ⟨nodeId, 1, 1, rank, false⟩, e.iBlk + 1,
    e.nodeMarkers.set nodeId.toNat e.iBlk, e.skipToRank⟩, O ++ [r], ?_, ?_, ?_⟩
  · unfold startBlock Encoder.push
    rw [hfind]
    simp only [bind, bind_some, hset]
    rw [if_pos (h.lt_length hrank)]
  · refine ⟨?_, ?_, ?_, ?_, h.skip, h.text, h.plain, h.covers, h.done, h.last, ?_, ?_, h.base_le,
      ?_, ?_⟩
    · rw [length_set, h.size]
    · exact Nat.succ_le_succ h.small
    · dsimp only
      rw [take_set_length _ (h.lt_length hrank), h.blocks, openBlocks_append, ← hrankEq,
        append_assoc, ← hblock]
      rfl
    · rw [length_append, length_singleton, ← Nat.add_assoc, ← h.count]
    · have := h.ids
      rw [Nat.max_eq_left hbase] at this
      rw [Nat.max_eq_left (Nat.le_succ_of_le hbase), take_add_one, this, hid, runsIds_append,
        runsIds_singleton, hids, append_assoc]
      rfl
    · omega
    · intro id hid
      rw [length_set]
      exact h.markers id hid
    · intro id j hj
      dsimp only at hj
      have hmap : (O ++ [r]).map Run.id = O.map Run.id ++ [nodeId.toNat] := by
        rw [map_append, hr]
        rfl
      rw [hmap]
      by_cases heq : nodeId.toNat = id
      · subst heq
        rw [List.getElem?_set_self hmem] at hj
        refine .inr ⟨O.length, ?_, ?_⟩
        · rw [List.getElem?_append_right (by rw [length_map]), length_map, Nat.sub_self]
          rfl
        · rw [← h.count]
          exact (Option.some.inj hj).symm
      · rw [List.getElem?_set_ne heq] at hj
        rcases h.marks id j hj with hj | ⟨k, hk, hj⟩
        · exact .inl hj
        · refine .inr ⟨k, ?_, hj⟩
          rw [List.getElem?_append_left (List.getElem?_eq_some_iff.1 hk).1]
          exact hk
  · intro X x hx
    obtain ⟨-, hx⟩ := append_inj' hx rfl
    obtain rfl := singleton_inj.1 hx
    rw [hr]

def hasRepeat (e : Encoder) : Bool := (e.nodeBlocks.take e.iBlk).any (·.startId == -1)

theorem Inv.close (h : Inv a rank e D dn base O) (ha : ∀ id ∈ a, id < (intMax : Int))
    (hlen : a.length ≤ intMax) (hbase : base ≤ rank) (hrank : rank < a.length)
    {nodeId : Int} {markBlk markRank n : Nat}
    (hfind : findRepeats a 0 rank nodeId e = some (some (markBlk, markRank, n)))
    (hreplay : hasRepeat e = true → a.drop (markRank + (rank - markRank) * n) <+:
      (a.drop markRank).take (rank - markRank)) :
    ∃ e' D' dn' base', startBlock a 0 rank nodeId e = some e' ∧
      Inv a (rank + 1) e' D' dn' base' [] := by
  obtain ⟨O₁, r, O₂, rfl, hmark, hmarkRank, hperiod, hmany, hle, hgroup, hrep⟩ :=
    h.found hbase hrank hfind
  have hplain := h.runs_plain ha hlen
  obtain ⟨G, hG⟩ : ∃ G, runsIds (r :: O₂) = G := ⟨_, rfl⟩
  rw [hG] at hperiod hle hgroup hrep
  have hp : rank - markRank = G.length := by omega
  have hskip : markRank + (rank - markRank) * n = markRank + n * G.length := by
    rw [hp, Nat.mul_comm]
  rw [hskip, hp, hgroup] at hreplay
  obtain ⟨skip, hskip'⟩ : ∃ skip, markRank + n * G.length = skip := ⟨_, rfl⟩
  rw [hskip'] at hskip hreplay hle
  have hcount := h.count
  rw [length_append, length_cons] at hcount
  have hsize := h.lt_length hrank
  obtain ⟨old, hold⟩ : ∃ b, e.nodeBlocks[e.iBlk]? = some b := ⟨_, List.getElem?_eq_getElem hsize⟩
  have hget : e.nodeBlocks[markBlk]? = some (r.toBlock markRank false) := by
    rw [hmark, h.getElem? (by omega), openBlocks_append,
      List.getElem?_append_right (Nat.le_add_right _ _), Nat.add_sub_cancel_left,
      List.getElem?_append_right (by rw [length_openBlocks]), length_openBlocks, Nat.sub_self,
      hmarkRank]
    rfl
  obtain ⟨rep, hrepBlock⟩ : ∃ b : NodeBlock, b = { old with startId := -1, numNodes := n } :=
    ⟨_, rfl⟩
  obtain ⟨dn', hdn'⟩ : ∃ dn', dn' = dn ++ openBlocks base O₁ ++
      r.toBlock markRank true :: openBlocks (markRank + r.ids.length) O₂ ++ [rep] := ⟨_, rfl⟩
  obtain ⟨D', hD'⟩ : ∃ D', D' = D ++ (O₁.map Run.block).map Item.block ++
      [Item.repeats r.block (O₂.map Run.block) (.ofNat n)] := ⟨_, rfl⟩
  refine ⟨⟨(e.nodeBlocks.set markBlk (r.toBlock markRank true)).set e.iBlk rep, e.iBlk + 1,
    e.nodeMarkers.map fun _ => -1, skip⟩, D', dn', skip, ?_, ?_⟩
  · have hold' : (e.nodeBlocks.set markBlk (r.toBlock markRank true))[e.iBlk]? = some old := by
      rw [List.getElem?_set_ne (by omega), hold]
    unfold startBlock
    rw [hfind]
    simp only [bind, bind_some]
    unfold closeGroup
    rw [hget]
    simp only [bind, bind_some]
    have hblock : { r.toBlock markRank false with startRepeat := true } = r.toBlock markRank true :=
      rfl
    rw [hblock, hold']
    simp only [bind_some, Encoder.push]
    rw [if_pos (by rw [length_set]; exact hsize), hskip, hrepBlock]
    rfl
  · have hids := h.ids
    rw [Nat.max_eq_left hbase, runsIds_append, hG, ← append_assoc] at hids
    have htakeMark : a.take markRank = a.take base ++ runsIds O₁ := by
      have := congrArg (List.take markRank) hids
      rwa [take_take, Nat.min_eq_left (by omega), take_left' (by
        rw [length_append, length_take, Nat.min_eq_left h.base_le, hmarkRank])] at this
    have htake : a.take skip = a.take base ++ runsIds O₁ ++ repeated n G := by
      rw [← hskip', take_add, htakeMark, hrep]
    have hgroupIds : (r.block :: O₂.map Run.block).flatMap Block.ids = G := by
      rw [← hG, ← runsIds_blocks, map_cons]
    have hmore : expandMore false D' = expandMore false D ++ runsIds O₁ ++
        repeated (if hasList D then n + 1 else n) G := by
      rw [hD', expandMore_append, expandMore_append, expandMore_blocks, runsIds_blocks,
        hasList_append, hasList_blocks, Bool.false_or, Bool.or_false, expandMore, hgroupIds,
        Numeral.value_ofNat]
      exact congrArg _ (append_nil _)
    have hrepId : rep.startId = -1 ∧ rep.numNodes = n := by
      rw [hrepBlock]
      exact ⟨rfl, rfl⟩
    have hGpos : 0 < G.length := by
      rw [← hG, runsIds_cons, length_append]
      have := r.ids_pos
      omega
    have hskipGe : rank + 1 ≤ skip := by
      have : 2 * G.length ≤ n * G.length := Nat.mul_le_mul_right _ hmany
      omega
    refine ⟨?_, Nat.succ_le_succ h.small, ?_, ?_, ?_, ?_, ?_, ⟨?_, ?_⟩, ?_, ?_, ?_, ?_, hle, ?_, ?_⟩
    · rw [length_set, length_set, h.size]
    · dsimp only
      rw [take_set_length _ (by rw [length_set]; exact hsize), take_set, h.blocks,
        set_append_right _ _ (by omega), hmark, Nat.add_sub_cancel_left, openBlocks_append,
        set_append_right _ _ (by rw [length_openBlocks]), length_openBlocks, Nat.sub_self,
        hdn', ← hmarkRank]
      simp only [openBlocks, set_cons_zero, append_assoc, cons_append,
        append_nil]
    · rw [hdn', length_nil, Nat.add_zero]
      simp only [length_append, length_openBlocks, length_cons, length_nil]
      omega
    · exact fun k => Int.ofNat_lt
    · have hrepText : (blockPieces rep).flatten = ']' :: 'x' :: (Numeral.ofNat n).digits := by
        rw [blockPieces, if_pos hrepId.1, hrepId.2, intText_natCast]
        exact append_nil _
      rw [hdn', hD', itemsText_append, itemsText_append, itemsText_blocks]
      simp only [flatMap_append, flatMap_cons, flatten_append, h.text,
        openBlocks_pieces, Run.pieces, flatMap_nil, append_nil, hrepText]
      simp only [itemsText, flatMap_cons, flatMap_nil, Item.text, append_nil,
        append_assoc, if_true, cons_append, nil_append]
    · intro i hi
      rw [hD'] at hi
      rcases mem_append.1 hi with hi | hi
      · rcases mem_append.1 hi with hi | hi
        · exact h.plain i hi
        · obtain ⟨b, hb, rfl⟩ := mem_map.1 hi
          exact hplain b (by rw [map_append]; exact mem_append_left _ hb)
      · obtain rfl := mem_singleton.1 hi
        refine ⟨fun b hb => hplain b ?_, Numeral.plain_ofNat ?_, ?_⟩
        · rw [map_append]
          exact mem_append_right _ hb
        · have := Nat.le_mul_of_pos_right n hGpos
          omega
        · rw [Numeral.value_ofNat]
          omega
    · rw [hD', expand_append, expand_append, expand_blocks, runsIds_blocks, h.covers.expand, htake]
      have hlast : expand [Item.repeats r.block (O₂.map Run.block) (.ofNat n)] = repeated n G := by
        rw [expand, flatMap_singleton, Item.ids, hgroupIds, Numeral.value_ofNat]
      rw [hlast]
    · rw [hmore]
      rcases h.covers.more with hall | hexact
      · exact .inl (hall.trans ((prefix_append _ _).trans (prefix_append _ _)))
      · cases hlist : hasList D with
        | false =>
          rw [if_neg (by decide), hexact, htake]
          exact .inr rfl
        | true =>
          -- the group is played once more, and the ranks behind it are the beginning of that play
          rw [if_pos rfl, hexact, repeated_succ', ← append_assoc, ← htake]
          refine .inl ?_
          have hreplayed := hreplay ?_
          · have := (prefix_append_right_inj (a.take skip)).2 hreplayed
            rwa [take_append_drop] at this
          · rcases h.last with ⟨-, rfl, -⟩ | ⟨dn₀, b, rfl, hb⟩
            · cases hlist
            · unfold hasRepeat
              rw [h.blocks, List.any_eq_true]
              exact ⟨b, by simp, by rw [hb]; rfl⟩
    · intro b hb
      rw [hdn'] at hb
      simp only [mem_append, mem_cons, not_mem_nil, or_false] at hb
      rcases hb with ((hb | hb) | rfl | hb) | rfl
      · exact h.done b hb
      · exact openBlocks_nonneg b hb
      · exact Int.add_nonneg (Int.natCast_nonneg _) (Int.natCast_nonneg _)
      · exact openBlocks_nonneg b hb
      · rw [hrepId.1, hrepId.2]
        omega
    · exact .inr ⟨_, rep, hdn', hrepId.1⟩
    · rw [Nat.max_eq_right hskipGe]
      exact (append_nil _).symm
    · exact fun _ => rfl
    · intro id hid
      rw [length_map]
      exact h.markers id hid
    · intro id j hj
      rw [List.getElem?_map, map_eq_some_iff] at hj
      obtain ⟨_, -, hj⟩ := hj
      exact .inl hj.symm

end steps

/-! ## Runs of the writer -/

/-- Whether the writer takes no wrong branch at a rank: no rank of the node of the last rank follows a
repeated group, no block is put into a repeat block, and a repeated group behind another one is only
followed by the beginning of one more play of it. -/
def soundAt (rankmap : List Int) (rank : Nat) (e : Encoder) : Bool :=
  if (rank : Int) < e.skipToRank then true
  else if 0 < rank ∧ rank < rankmap.length ∧ rankmap[rank]? = rankmap[rank - 1]? then
    (e.nodeBlocks[e.iBlk - 1]?).all fun b => b.startId != -1
  else !mergesRepeat e &&
    match rankmap[rank]?, compress e with
    | some nodeId, some e =>
      match findRepeats rankmap 0 rank nodeId e with
      | none => false
      | some none => true
      | some (some (_, markRank, n)) => !hasRepeat e ||
        (rankmap.drop (markRank + (rank - markRank) * n)).isPrefixOf
          ((rankmap.drop markRank).take (rank - markRank))
    | _, _ => true

section writer

variable {a : List Int} {rank base : Nat} {e : Encoder} {D : List Item} {dn : List NodeBlock}
  {O : List Run}

theorem Inv.step (h : Inv a rank e D dn base O) (hsingle : Single O) (hnonneg : ∀ id ∈ a, 0 ≤ id)
    (ha : ∀ id ∈ a, id < (intMax : Int)) (hlen : a.length ≤ intMax) (hrank : rank < a.length)
    (hsound : soundAt a rank e = true) :
    ∃ e' D' dn' base' O', encodeRank a 0 e rank = some e' ∧ Inv a (rank + 1) e' D' dn' base' O' ∧
      Single O' := by
  unfold encodeRank
  unfold soundAt at hsound
  by_cases hskip : (rank : Int) < e.skipToRank
  · rw [if_pos hskip]
    have hlt := (h.skip rank).1 hskip
    obtain rfl := h.early hlt
    have hids := h.ids
    rw [Nat.max_eq_right hlt.le] at hids
    refine ⟨e, D, dn, base, [], rfl, ⟨h.size, Nat.le_succ_of_le h.small, h.blocks, h.count, h.skip,
      h.text, h.plain, h.covers, h.done, h.last, ?_, fun _ => rfl, h.base_le, h.markers, h.marks⟩,
      hsingle⟩
    rw [Nat.max_eq_right hlt]
    exact hids
  · rw [if_neg hskip]
    rw [if_neg hskip] at hsound
    have hbase : base ≤ rank := Nat.le_of_not_lt fun hlt => hskip ((h.skip rank).2 hlt)
    by_cases hcont : 0 < rank ∧ rank < a.length ∧ a[rank]? = a[rank - 1]?
    · rw [if_pos hcont]
      rw [if_pos hcont] at hsound
      obtain ⟨e', O', he', hinv, hsingle'⟩ := h.incr hsingle hbase hcont.1 hrank hcont.2.2
        fun b hb => by rw [hb] at hsound; simpa using hsound
      exact ⟨e', D, dn, base, O', he', hinv, hsingle'⟩
    · rw [if_neg hcont]
      rw [if_neg hcont, Bool.and_eq_true, Bool.not_eq_true'] at hsound
      obtain ⟨e', O', he', hinv⟩ := h.compress hsingle hsound.1 (h.lt_length hrank).le
      obtain ⟨nodeId, hid⟩ : ∃ id, a[rank]? = some id := ⟨_, List.getElem?_eq_getElem hrank⟩
      have hsound' := hsound.2
      rw [he', hid] at hsound' ⊢
      simp only [bind, bind_some]
      dsimp only at hsound'
      split at hsound'
      · cases hsound'
      · next hfind =>
        obtain ⟨e'', O'', he'', hinv', hsingle'⟩ :=
          hinv.push hbase hrank hid (hnonneg _ (mem_of_getElem? hid)) hfind
        exact ⟨e'', D, dn, base, O'', he'', hinv', hsingle'⟩
      · next markBlk markRank n hfind =>
        obtain ⟨e'', D', dn', base', he'', hinv'⟩ := hinv.close ha hlen hbase hrank hfind fun hrep => by
          rw [hrep, Bool.not_true, Bool.false_or] at hsound'
          exact isPrefixOf_iff_prefix.1 hsound'
        exact ⟨e'', D', dn', base', [], he'', hinv', fun O' r hO => by simp at hO⟩

theorem Inv.start (a : List Int) (mem : List NodeBlock) (hmem : mem.length = a.length)
    (markers : Nat) (hmarkers : ∀ id ∈ a, id.toNat < markers) :
    Inv a 0 ⟨mem, 0, List.replicate markers (-1), -1⟩ [] [] 0 [] := by
  refine ⟨hmem, Nat.le_refl _, rfl, rfl, fun r => ?_, rfl, nofun, ⟨rfl, .inr rfl⟩, nofun,
    .inl ⟨rfl, rfl, rfl⟩, rfl, fun h => rfl, Nat.zero_le _, fun id hid => ?_, fun id j hj => ?_⟩
  · dsimp only
    omega
  · rw [length_replicate]
    exact hmarkers id hid
  · exact .inl (eq_of_mem_replicate (mem_of_getElem? hj))

theorem foldl_max_ge {α : Type} [LinearOrder α] (l : List α) (x : α) :
    ∀ y ∈ x :: l, y ≤ l.foldl max x := by
  induction l generalizing x with
  | nil =>
    intro y hy
    exact (mem_singleton.1 hy).le
  | cons z l ih =>
    intro y hy
    rw [foldl_cons]
    have hmax := ih (max x z) (max x z) mem_cons_self
    rcases mem_cons.1 hy with rfl | hy
    · exact (le_max_left y z).trans hmax
    · rcases mem_cons.1 hy with rfl | hy
      · exact (le_max_right x y).trans hmax
      · exact ih (max x z) y (mem_cons_of_mem _ hy)

theorem foldl_min_le (l : List Int) (x : Int) : ∀ y ∈ x :: l, l.foldl min x ≤ y :=
  @foldl_max_ge (OrderDual Int) _ l x

theorem foldl_mem {f : Int → Int → Int} (hf : ∀ x y, f x y = x ∨ f x y = y) (l : List Int)
    (x : Int) : l.foldl f x ∈ x :: l := by
  induction l generalizing x with
  | nil => exact mem_singleton.2 rfl
  | cons z l ih =>
    rw [foldl_cons]
    rcases mem_cons.1 (ih (f x z)) with h | h
    · rw [h]
      rcases hf x z with h | h
      · rw [h]
        exact mem_cons_self
      · rw [h]
        exact mem_cons_of_mem _ mem_cons_self
    · exact mem_cons_of_mem _ (mem_cons_of_mem _ h)

theorem getRankmapRange_eq (hzero : (0 : Int) ∈ a) (hnonneg : ∀ id ∈ a, 0 ≤ id) :
    ∃ m ∈ a, getRankmapRange a = some (m, 0) ∧ ∀ id ∈ a, id ≤ m := by
  cases a with
  | nil => cases hzero
  | cons x l =>
    have hmin : l.foldl min x = 0 := le_antisymm (foldl_min_le l x 0 hzero)
      (hnonneg _ (foldl_mem (fun x y => min_choice x y) l x))
    refine ⟨l.foldl max x, foldl_mem (fun x y => max_choice x y) l x, ?_, foldl_max_ge l x⟩
    rw [getRankmapRange, hmin]

theorem Inv.run (mem : List NodeBlock) (hmem : mem.length = a.length) (hzero : (0 : Int) ∈ a)
    (hnonneg : ∀ id ∈ a, 0 ≤ id) (ha : ∀ id ∈ a, id < (intMax : Int)) (hlen : a.length < intMax)
    (hsound : ∀ rank < a.length, ∀ e, encodeUpTo mem a rank = some e → soundAt a rank e = true)
    (hrank : rank ≤ a.length) :
    ∃ e D dn base O, encodeUpTo mem a rank = some e ∧ Inv a rank e D dn base O ∧ Single O ∧
      encodeUpTo mem a (rank + 1) = encodeRank a 0 e rank := by
  obtain ⟨m, hm, hrange, hmax⟩ := getRankmapRange_eq hzero hnonneg
  have hcond : m - 0 + 1 ≤ (intMax : Int) ∧ a.length + 1 ≤ intMax := by
    have := ha m hm
    omega
  have hup : ∀ rank, encodeUpTo mem a rank = (List.range rank).foldlM (encodeRank a 0)
      ⟨mem, 0, List.replicate (m - 0 + 1).toNat (-1), -1⟩ := by
    intro rank
    unfold encodeUpTo
    rw [hrange]
    simp only [bind, bind_some]
    rw [if_pos hcond]
  have hnext : ∀ rank, encodeUpTo mem a (rank + 1) =
      (encodeUpTo mem a rank).bind fun e => encodeRank a 0 e rank := by
    intro rank
    have hone : ∀ e, [rank].foldlM (encodeRank a 0) e = encodeRank a 0 e rank := by
      intro e
      rw [foldlM_cons]
      simp only [foldlM_nil, bind_pure]
    rw [hup, hup, range_succ, foldlM_append]
    simp only [hone]
    rfl
  have hmarkers : ∀ id ∈ a, id.toNat < (m - 0 + 1).toNat := by
    intro id hid
    have := hmax id hid
    have := hnonneg id hid
    omega
  induction rank with
  | zero =>
    have hfirst := hup 0
    refine ⟨_, [], [], 0, [], hfirst, Inv.start a mem hmem _ hmarkers, fun O' r hO => by simp at hO, ?_⟩
    rw [hnext, hfirst]
    rfl
  | succ rank ih =>
    obtain ⟨e, D, dn, base, O, he, hinv, hsingle, hstep⟩ := ih (by omega)
    obtain ⟨e', D', dn', base', O', he', hinv', hsingle'⟩ :=
      hinv.step hsingle hnonneg ha hlen.le (by omega) (hsound rank (by omega) e he)
    rw [he'] at hstep
    refine ⟨e', D', dn', base', O', hstep, hinv', hsingle', ?_⟩
    rw [hnext, hstep]
    rfl

/-! ## The text -/

def roomy : Buffer → List Text → Bool
  | _, [] => true
  | b, piece :: ps => decide (b.pos + piece.length < b.grown) && roomy (b.append piece) ps

theorem roomy_str {b : Buffer} {ps : List Text} (h : roomy b ps = true)
    (hpos : b.pos = b.str.length) : (ps.foldl Buffer.append b).str = b.str ++ ps.flatten := by
  induction ps generalizing b with
  | nil => exact (append_nil _).symm
  | cons piece ps ih =>
    rw [roomy, Bool.and_eq_true, decide_eq_true_iff] at h
    have hstr : (b.append piece).str = b.str ++ piece := by
      rw [Buffer.append, if_pos hpos, take_of_length_le (by omega)]
    rw [foldl_cons, ih h.2, hstr, flatten_cons, append_assoc]
    rw [hstr, length_append, ← hpos]
    rfl

theorem Inv.parse (h : Inv a a.length e D dn base O) (ha : ∀ id ∈ a, id < (intMax : Int))
    (hlen : a.length ≤ intMax) :
    (pieces e).flatten = mappingText (D ++ (O.map Run.block).map Item.block) ∧
      ∃ todo, strToArray todo (mappingText (D ++ (O.map Run.block).map Item.block)) a.length =
        some (.success a) := by
  have hids := h.ids
  rw [Nat.max_eq_left h.base_le, take_length] at hids
  constructor
  · unfold pieces mappingText
    rw [h.blocks, flatMap_append, cons_append, flatten_cons, flatten_append,
      flatten_append, h.text, openBlocks_pieces, itemsText_append, itemsText_blocks,
      flatten_singleton]
  · obtain ⟨items, hitems⟩ : ∃ items, D ++ (O.map Run.block).map Item.block = items := ⟨_, rfl⟩
    have hexpand : expand items = a := by
      rw [← hitems, expand_append, h.covers.expand, expand_blocks, runsIds_blocks, ← hids]
    have hmore : (expandMore false items).take a.length = a := by
      rw [← hitems, expandMore_append, expandMore_blocks, runsIds_blocks]
      rcases h.covers.more with hall | hexact
      · obtain ⟨t, ht⟩ := hall.trans (prefix_append _ (runsIds O))
        rw [← ht, take_left]
      · rw [hexact, ← hids, take_length]
    have hplain : ∀ i ∈ items, i.Plain := by
      intro i hi
      rw [← hitems] at hi
      rcases mem_append.1 hi with hi | hi
      · exact h.plain i hi
      · obtain ⟨b, hb, rfl⟩ := mem_map.1 hi
        exact h.runs_plain ha hlen b hb
    obtain ⟨todo, htodo⟩ := strToArray_emits [] (by rw [hexpand]) hplain
    rw [append_nil, hmore] at htodo
    rw [hitems]
    exact ⟨todo, htodo⟩

end writer

/-! ## Node maps without the node 0 -/

section withoutZero

variable {a : List Int} {rank : Nat} {e e' : Encoder} {minId : Int}

theorem countRepeats_zero (todo start curRank k : Nat) (h : curRank ≤ a.length) :
    countRepeats a start 0 todo curRank k = none := by
  induction todo generalizing k with
  | zero => rfl
  | succ todo ih =>
    unfold countRepeats addInt
    split
    · simp only [bind, bind_some, Nat.add_zero, take_zero]
      rw [if_pos ⟨h, trivial⟩, ih]
    · rfl

theorem findRepeats_early {nodeId : Int} {markBlk markRank n : Nat} (hrank : rank ≤ a.length)
    (h : findRepeats a minId rank nodeId e = some (some (markBlk, markRank, n))) :
    rank < markRank + (rank - markRank) * n ∧
      ∀ j < markRank + (rank - markRank) * n, ∃ i < rank, a[i]? = a[j]? := by
  unfold findRepeats at h
  obtain ⟨mark, -, h⟩ := bind_eq_some_iff.1 h
  split at h
  · cases h
  · obtain ⟨b, -, h⟩ := bind_eq_some_iff.1 h
    obtain ⟨m, hm, h⟩ := bind_eq_some_iff.1 h
    split at h
    · next hmany =>
      simp only [pure, Option.some.injEq, Prod.mk.injEq] at h
      obtain ⟨-, hmark, rfl⟩ := h
      rw [hmark] at hm
      unfold checkRepeats at hm
      obtain ⟨p, hp⟩ : ∃ p, rank - markRank = p := ⟨_, rfl⟩
      rw [hp] at hm ⊢
      rcases Nat.eq_zero_or_pos p with rfl | hpos
      · rw [countRepeats_zero _ _ _ _ hrank] at hm
        cases hm
      · obtain ⟨hle, hrep⟩ := countRepeats_spec hm (by omega) hrank (by
          rw [Nat.one_mul, repeated_succ]
          exact (append_nil _).symm)
        have htwo : 2 * p ≤ m * p := Nat.mul_le_mul_right _ hmany
        rw [Nat.mul_comm p m]
        refine ⟨by omega, fun j hj => ?_⟩
        by_cases hlt : j < rank
        · exact ⟨j, hlt, rfl⟩
        · -- the rank is in one of the plays of the group
          have hj' : ((a.drop markRank).take (m * p))[j - markRank]? = a[j]? := by
            rw [List.getElem?_take_of_lt (by omega), List.getElem?_drop,
              show markRank + (j - markRank) = j by omega]
          obtain ⟨x, hx⟩ : ∃ x, a[j]? = some x := ⟨_, List.getElem?_eq_getElem (by omega)⟩
          rw [hrep, hx] at hj'
          obtain ⟨G, hG, hmem⟩ := mem_flatten.1 (mem_of_getElem? hj')
          rw [eq_of_mem_replicate hG] at hmem
          obtain ⟨t, ht⟩ := mem_iff_getElem?.1 hmem
          have htp : t < p := by
            have := (List.getElem?_eq_some_iff.1 ht).1
            rw [length_take] at this
            omega
          rw [List.getElem?_take_of_lt htp, List.getElem?_drop] at ht
          exact ⟨markRank + t, by omega, by rw [ht, hx]⟩
    · cases h

structure Early (a : List Int) (markers rank : Nat) (e : Encoder) : Prop where
  markers : e.nodeMarkers.length = markers
  skip : ∀ j : Nat, (j : Int) < e.skipToRank → ∃ i < rank, a[i]? = a[j]?

theorem compress_keeps (h : compress e = some e') :
    e'.nodeMarkers.length = e.nodeMarkers.length ∧ e'.skipToRank = e.skipToRank := by
  unfold compress at h
  split at h
  · obtain ⟨p0, -, h⟩ := bind_eq_some_iff.1 h
    obtain ⟨p1, -, h⟩ := bind_eq_some_iff.1 h
    split at h
    · obtain ⟨markers, hset, h⟩ := bind_eq_some_iff.1 h
      cases h
      unfold setMarker at hset
      split at hset
      · cases hset
        exact ⟨length_set, rfl⟩
      · cases hset
    · cases h
      exact ⟨rfl, rfl⟩
  · cases h
    exact ⟨rfl, rfl⟩

theorem Early.step {markers : Nat} (hearly : Early a markers rank e) (hrank : rank ≤ a.length)
    (h : encodeRank a minId e rank = some e') : Early a markers (rank + 1) e' := by
  have hmono : ∀ j : Nat, (j : Int) < e.skipToRank → ∃ i < rank + 1, a[i]? = a[j]? := by
    intro j hj
    obtain ⟨i, hi, hij⟩ := hearly.skip j hj
    exact ⟨i, Nat.lt_succ_of_lt hi, hij⟩
  unfold encodeRank at h
  split at h
  · cases h
    exact ⟨hearly.markers, hmono⟩
  · split at h
    · unfold incrRanks at h
      split at h
      · obtain ⟨b, -, h⟩ := bind_eq_some_iff.1 h
        cases h
        exact ⟨hearly.markers, hmono⟩
      · cases h
    · obtain ⟨e₁, hcompress, h⟩ := bind_eq_some_iff.1 h
      obtain ⟨hlen, hskip⟩ := compress_keeps hcompress
      split at h
      · cases h
        exact ⟨hlen.trans hearly.markers, hskip ▸ hmono⟩
      · next nodeId hid =>
        unfold startBlock at h
        obtain ⟨found, hfound, h⟩ := bind_eq_some_iff.1 h
        split at h
        · next markBlk markRank n =>
          obtain ⟨-, hsame⟩ := findRepeats_early hrank hfound
          unfold closeGroup at h
          obtain ⟨b, -, h⟩ := bind_eq_some_iff.1 h
          obtain ⟨old, -, h⟩ := bind_eq_some_iff.1 h
          obtain ⟨e₂, hpush, h⟩ := bind_eq_some_iff.1 h
          cases h
          unfold Encoder.push at hpush
          split at hpush
          · cases hpush
            refine ⟨?_, fun j hj => ?_⟩
            · rw [length_map]
              exact hlen.trans hearly.markers
            · obtain ⟨i, hi, hij⟩ := hsame j (Int.ofNat_lt.1 hj)
              exact ⟨i, Nat.lt_succ_of_lt hi, hij⟩
          · cases hpush
        · obtain ⟨markers', hset, h⟩ := bind_eq_some_iff.1 h
          unfold Encoder.push at h
          split at h
          · cases h
            unfold setMarker at hset
            split at hset
            · cases hset
              refine ⟨?_, hskip ▸ hmono⟩
              rw [length_set]
              exact hlen.trans hearly.markers
            · cases hset
          · cases h

theorem Early.greatest {maxId : Int} (hearly : Early a (maxId - minId + 1).toNat rank e)
    (hmin : 0 < minId) (hid : a[rank]? = some maxId) (hfirst : ∀ i < rank, a[i]? ≠ some maxId) :
    encodeRank a minId e rank = none := by
  have hrank : rank < a.length := (List.getElem?_eq_some_iff.1 hid).1
  have hskip : ¬ (rank : Int) < e.skipToRank := by
    intro hlt
    obtain ⟨i, hi, hij⟩ := hearly.skip rank hlt
    exact hfirst i hi (hij.trans hid)
  have hcont : ¬ (0 < rank ∧ rank < a.length ∧ a[rank]? = a[rank - 1]?) := by
    rintro ⟨hpos, -, hsame⟩
    exact hfirst (rank - 1) (by omega) (hsame ▸ hid)
  unfold encodeRank
  rw [if_neg hskip, if_neg hcont]
  cases hcompress : compress e with
  | none => rfl
  | some e₁ =>
    simp only [bind, bind_some, hid]
    unfold startBlock
    cases hfound : findRepeats a minId rank maxId e₁ with
    | none => rfl
    | some found =>
      cases found with
      | some g =>
        obtain ⟨markBlk, markRank, n⟩ := g
        obtain ⟨hlt, hsame⟩ := findRepeats_early hrank.le hfound
        obtain ⟨i, hi, hij⟩ := hsame rank hlt
        exact absurd (hij.trans hid) (hfirst i hi)
      | none =>
        have hset : setMarker e₁.nodeMarkers maxId e₁.iBlk = none := by
          refine if_neg fun h => ?_
          rw [(compress_keeps hcompress).1, hearly.markers] at h
          omega
        simp only [bind, bind_some, hset, bind_none]

theorem arrayToStr_without_zero (mem : List NodeBlock) (hpos : ∀ id ∈ a, 0 < id) :
    arrayToStr mem a = none := by
  suffices hup : encodeUpTo mem a (a.length + 1) = none by rw [arrayToStr, hup]; rfl
  unfold encodeUpTo
  cases hrange : getRankmapRange a with
  | none => rfl
  | some range =>
    obtain ⟨maxId, minId⟩ := range
    simp only [bind, bind_some]
    split
    · obtain ⟨hmax, hmin⟩ : maxId ∈ a ∧ minId ∈ a := by
        cases a with
        | nil => cases hrange
        | cons x l =>
          obtain ⟨rfl, rfl⟩ := Prod.mk.inj (Option.some.inj hrange)
          exact ⟨foldl_mem (fun x y => max_choice x y) l x,
            foldl_mem (fun x y => min_choice x y) l x⟩
      obtain ⟨run, hrun⟩ : ∃ run : Nat → Option Encoder, run = fun rank =>
          (List.range rank).foldlM (encodeRank a minId)
            ⟨mem, 0, List.replicate (maxId - minId + 1).toNat (-1), -1⟩ := ⟨_, rfl⟩
      have hnext : ∀ rank, run (rank + 1) = (run rank).bind fun e => encodeRank a minId e rank := by
        intro rank
        have hone : ∀ e, [rank].foldlM (encodeRank a minId) e = encodeRank a minId e rank := by
          intro e
          rw [foldlM_cons]
          simp only [foldlM_nil, bind_pure]
        rw [hrun]
        dsimp only
        rw [range_succ, foldlM_append]
        simp only [hone]
        rfl
      have hfirst := idxOf_lt_length_of_mem hmax
      -- before the first rank of the greatest node
      have hearly : ∀ rank ≤ a.length, ∀ e, run rank = some e →
          Early a (maxId - minId + 1).toNat rank e := by
        intro rank
        induction rank with
        | zero =>
          intro _ e he
          rw [hrun] at he
          cases he
          exact ⟨length_replicate, fun j hj => absurd hj (by dsimp only; omega)⟩
        | succ rank ih =>
          intro hle e he
          rw [hnext] at he
          obtain ⟨e₀, he₀, he⟩ := bind_eq_some_iff.1 he
          exact (ih (by omega) e₀ he₀).step (by omega) he
      have hnone : run (a.idxOf maxId + 1) = none := by
        rw [hnext]
        cases he : run (a.idxOf maxId) with
        | none => rfl
        | some e =>
          refine (hearly _ hfirst.le e he).greatest (hpos _ hmin) (List.getElem?_idxOf hmax) ?_
          intro i hi hsame
          obtain ⟨hlt, heq⟩ := List.getElem?_eq_some_iff.1 hsame
          have hne : (a[i] == maxId) = false := not_of_lt_findIdx hi
          rw [heq, beq_self_eq_true] at hne
          exact Bool.noConfusion hne
      have hrest : ∀ k, run (a.idxOf maxId + 1 + k) = none := by
        intro k
        induction k with
        | zero => exact hnone
        | succ k ih => rw [← Nat.add_assoc, hnext, ih]; rfl
      have := hrest (a.length - a.idxOf maxId)
      rw [show a.idxOf maxId + 1 + (a.length - a.idxOf maxId) = a.length + 1 by omega, hrun] at this
      exact this
    · rfl

end withoutZero

/-! ## The round trip -/

def RoundTrip (mem : List NodeBlock) (rankmap : List Int) : Prop :=
  ∃ text, arrayToStr mem rankmap = some text ∧
    ∃ todo, strToArray todo text rankmap.length = some (.success rankmap)

/-- A node map that is written is read again if its least node is 0 and no wrong branch is taken,
whatever the memory of the blocks was; and it is not if its least node is not 0. -/
theorem array_to_str_round_trip (mem : List NodeBlock) (rankmap : List Int)
    (hmem : mem.length = rankmap.length) (hnonneg : ∀ id ∈ rankmap, 0 ≤ id)
    (hids : ∀ id ∈ rankmap, id < (intMax : Int)) (hlen : rankmap.length < intMax) :
    (RoundTrip mem rankmap → 0 ∈ rankmap) ∧
      (0 ∈ rankmap →
        (∀ rank < rankmap.length + 1, ∀ e, encodeUpTo mem rankmap rank = some e →
          soundAt rankmap rank e = true) →
        (∀ e, encodeUpTo mem rankmap (rankmap.length + 1) = some e →
          roomy ⟨[], 0, 0⟩ (pieces e) = true) →
        RoundTrip mem rankmap) := by
  constructor
  · rintro ⟨text, htext, -⟩
    by_contra hzero
    have hpos : ∀ id ∈ rankmap, 0 < id := fun id hid =>
      lt_of_le_of_ne (hnonneg id hid) fun h => hzero (h ▸ hid)
    rw [arrayToStr_without_zero mem hpos] at htext
    cases htext
  intro hzero hsound hroomy
  obtain ⟨e, D, dn, base, O, he, hinv, hsingle, hlast⟩ := Inv.run mem hmem hzero hnonneg hids hlen
    (fun rank hrank => hsound rank (by omega)) (Nat.le_refl _)
  have hsound' := hsound _ (Nat.lt_succ_self _) e he
  -- the sentinel only puts the last block into the one before it
  have hend : ∃ e' O', encodeRank rankmap 0 e rankmap.length = some e' ∧
      Inv rankmap rankmap.length e' D dn base O' := by
    have hskip : ¬ (rankmap.length : Int) < e.skipToRank := fun h =>
      absurd ((hinv.skip _).1 h) (Nat.not_lt.2 hinv.base_le)
    have hcont : ¬ (0 < rankmap.length ∧ rankmap.length < rankmap.length ∧
        rankmap[rankmap.length]? = rankmap[rankmap.length - 1]?) := fun h => absurd h.2.1 (lt_irrefl _)
    unfold soundAt at hsound'
    rw [if_neg hskip, if_neg hcont, Bool.and_eq_true, Bool.not_eq_true'] at hsound'
    obtain ⟨e', O', he', hinv'⟩ := hinv.compress hsingle hsound'.1 (by
      rw [hinv.size]
      exact hinv.small)
    refine ⟨e', O', ?_, hinv'⟩
    unfold encodeRank
    rw [if_neg hskip, if_neg hcont, he', List.getElem?_eq_none (Nat.le_refl _)]
    rfl
  obtain ⟨e', O', he', hinv'⟩ := hend
  rw [he'] at hlast
  obtain ⟨htext, hparse⟩ := hinv'.parse hids hlen.le
  refine ⟨_, ?_, hparse⟩
  rw [arrayToStr, hlast, ← htext]
  exact congrArg some (roomy_str (hroomy e' hlast) rfl)

theorem array_to_str_round_trip_groups :
    RoundTrip (List.replicate 11 ⟨0, 0, 0, 0, false⟩) [0, 1, 2, 0, 1, 2, 4, 6, 4, 6, 4] := by
  have hsound : ∀ rank < 12, (encodeUpTo (List.replicate 11 ⟨0, 0, 0, 0, false⟩)
      [0, 1, 2, 0, 1, 2, 4, 6, 4, 6, 4] rank).all
        (soundAt [0, 1, 2, 0, 1, 2, 4, 6, 4, 6, 4] rank) = true := by
    decide
  have hroomy : (encodeUpTo (List.replicate 11 ⟨0, 0, 0, 0, false⟩)
      [0, 1, 2, 0, 1, 2, 4, 6, 4, 6, 4] 12).all (fun e => roomy ⟨[], 0, 0⟩ (pieces e)) = true := by
    decide
  refine (array_to_str_round_trip _ [0, 1, 2, 0, 1, 2, 4, 6, 4, 6, 4] (by decide) (by decide)
    (by decide) (by decide)).2 (by decide) (fun rank hrank e he => ?_) (fun e he => ?_)
  · have := hsound rank hrank
    rwa [he, all_some] at this
  · have he' : encodeUpTo (List.replicate 11 ⟨0, 0, 0, 0, false⟩)
        [0, 1, 2, 0, 1, 2, 4, 6, 4, 6, 4] 12 = some e := he
    rwa [he', all_some] at hroomy

/-- The last rank gets lost: it is on the last node of a repeated group. A node map without the node 0 is
not written at all. -/
theorem array_to_str_loses_rank :
    ¬ RoundTrip (List.replicate 5 ⟨0, 0, 0, 0, false⟩) [0, 1, 0, 1, 1] ∧
      arrayToStr [⟨0, 0, 0, 0, false⟩] [1] = none := by
  have htext : arrayToStr (List.replicate 5 ⟨0, 0, 0, 0, false⟩) [0, 1, 0, 1, 1] =
      some "(vector,[(0,2,1)]x2)".toList := by decide
  have hread : strToArray 100 "(vector,[(0,2,1)]x2)".toList 5 =
      some (.success [0, 1, 0, 1, 0]) := by decide
  refine ⟨?_, by decide⟩
  rintro ⟨text, h, todo, htodo⟩
  rw [htext] at h
  cases h
  exact absurd (Outcome.success.inj (strToArray_unique htodo hread)) (by decide)

end PsMpi.RankMap
