import PsMpi.Topo.DistGraph
import Mathlib.Data.List.Count
import Mathlib.Data.List.Perm.Subperm
import Mathlib.Data.List.Flatten

/-!
# The edges of a distributed graph are conserved
-/

open List Option Function

namespace PsMpi.DistGraph

open PsMpi.Lib

/-! ## Arrays of edges -/

def arrayOf (edges : List Edge) (tag : Tag) (k : Nat) : List Int :=
  (edges.filter fun e => e.endpoint tag = k).flatMap fun e => [(e.neighbour tag : Int), e.weight]

section arrays

variable {size : Nat} {edges : List Edge} {tag : Tag}

theorem length_arrayOf (edges : List Edge) (tag : Tag) (k : Nat) :
    (arrayOf edges tag k).length = 2 * edges.countP fun e => e.endpoint tag = k := by
  rw [arrayOf, length_flatMap, countP_eq_length_filter]
  generalize edges.filter (fun e => decide (e.endpoint tag = k)) = l
  induction l with
  | nil => rfl
  | cons e l ih =>
    rw [List.map_cons, sum_cons, ih, length_cons]
    simp only [length_cons, length_nil]
    omega

theorem edgeLoop_mem {destinations : List Nat} {weights : Option (List Int)}
    {sources degrees : List Nat} {idx : Nat} (hlen : idx + degrees.sum ≤ destinations.length) {e : Edge}
    (he : e ∈ edgeLoop destinations weights sources degrees idx) :
    e.source ∈ sources ∧ e.destination ∈ destinations := by
  induction sources generalizing degrees idx with
  | nil => simp [edgeLoop] at he
  | cons s sources ih =>
    cases degrees with
    | nil => simp [edgeLoop] at he
    | cons d degrees =>
      rw [sum_cons] at hlen
      rw [edgeLoop] at he
      rcases mem_append.1 he with he | he
      · obtain ⟨j, hj, rfl⟩ := mem_map.1 he
        have hlt : idx + j < destinations.length := by
          have := mem_range.1 hj
          omega
        refine ⟨mem_cons_self, ?_⟩
        rw [getD_eq_getElem?_getD, List.getElem?_eq_getElem hlt]
        exact getElem_mem hlt
      · obtain ⟨hs, hd⟩ := ih (by omega) he
        exact ⟨mem_cons_of_mem _ hs, hd⟩

theorem Args.endpoint_lt (a : Args size) {e : Edge} (he : e ∈ a.edges) (tag : Tag) :
    e.endpoint tag < size := by
  obtain ⟨hs, hd⟩ := edgeLoop_mem (Nat.le_of_eq (by rw [Nat.zero_add, a.length_destinations])) he
  cases tag with
  | topoA => exact a.destination_lt _ hd
  | topoB => exact a.source_lt _ hs

theorem arraySizes_spec (size : Nat) (edges : List Edge) (tag : Tag) :
    arraySizes size edges tag = (List.range size).map fun k => (arrayOf edges tag k).length := by
  have hfold : ∀ sizes : List Nat,
      edges.foldl (fun sizes e => sizes.modify (e.endpoint tag) (· + 2)) sizes =
        sizes.mapIdx fun k n => n + 2 * edges.countP fun e => e.endpoint tag = k := by
    induction edges with
    | nil =>
      intro sizes
      refine List.ext_getElem? fun k => ?_
      simp
    | cons e edges ih =>
      intro sizes
      rw [foldl_cons, ih]
      refine List.ext_getElem? fun k => ?_
      simp only [List.getElem?_mapIdx, List.getElem?_modify, countP_cons]
      cases sizes[k]? with
      | none => rfl
      | some n =>
        by_cases hk : e.endpoint tag = k
        · simp [hk]
          omega
        · simp [hk]
  rw [arraySizes, hfold]
  refine List.ext_getElem (by simp) fun k h₁ h₂ => ?_
  simp [length_arrayOf]

theorem putEdge_spec {done rest : List Edge} {e : Edge} (he : e.endpoint tag < size) :
    putEdge (arraySizes size (done ++ e :: rest) tag) tag
        ((List.range size).map (arrayOf done tag)) e =
      some ((List.range size).map (arrayOf (done ++ [e]) tag)) := by
  have hroom : (arrayOf done tag (e.endpoint tag)).length + 2 ≤
      (arrayOf (done ++ e :: rest) tag (e.endpoint tag)).length := by
    rw [length_arrayOf, length_arrayOf, countP_append, countP_cons]
    simp only [decide_true, if_true]
    omega
  rw [putEdge, arraySizes_spec]
  simp only [List.getElem?_map, List.getElem?_range he, map_some, Option.bind_eq_bind,
    Option.bind_some, if_pos hroom, some_inj]
  refine List.ext_getElem (by simp) fun k h₁ h₂ => ?_
  simp only [length_set, length_map, length_range] at h₁
  rw [getElem_set, getElem_map, getElem_map, getElem_range]
  by_cases hk : e.endpoint tag = k
  · subst hk
    simp [arrayOf]
  · simp [arrayOf, hk]

theorem populate_spec (h : ∀ e ∈ edges, e.endpoint tag < size) :
    populate size edges tag = some ((List.range size).map (arrayOf edges tag)) := by
  have hfold : ∀ rest done : List Edge, edges = done ++ rest →
      rest.foldlM (putEdge (arraySizes size edges tag) tag)
          ((List.range size).map (arrayOf done tag)) =
        some ((List.range size).map (arrayOf edges tag)) := by
    intro rest
    induction rest with
    | nil =>
      intro done heq
      rw [heq, List.append_nil]
      rfl
    | cons e rest ih =>
      intro done heq
      have he : e.endpoint tag < size := h e (by rw [heq]; simp)
      have hput := @putEdge_spec size tag done rest e he
      rw [← heq] at hput
      rw [List.foldlM_cons, hput]
      exact ih (done ++ [e]) (by rw [heq, List.append_assoc, List.singleton_append])
  have hinit : List.replicate size [] = (List.range size).map (arrayOf [] tag) := by
    refine List.ext_getElem (by simp) fun k h₁ h₂ => ?_
    simp [arrayOf]
  rw [populate, hinit, hfold edges [] rfl]
  simp only [Option.bind_eq_bind, Option.bind_some]
  rw [if_pos]
  rw [arraySizes_spec, List.map_map]
  rfl

end arrays

/-! ## Growing lists -/

def pairsOf : List Int → List (Int × Int)
  | x :: y :: buf => (x, y) :: pairsOf buf
  | _ => []

structure AdjOk (isWeighted : Bool) (a : Adj) (pairs : List (Int × Int)) : Prop where
  ids : a.ids = pairs.map Prod.fst
  weights : a.weights = if isWeighted then pairs.map Prod.snd else []
  degree : a.degree = pairs.length
  degree_le : a.degree ≤ a.capacity
  capacity_pos : 0 < a.capacity

section adj

variable {isWeighted : Bool} {a : Adj} {pairs : List (Int × Int)}

theorem pairs_eq (buf : List Int) :
    (List.range (buf.length / 2)).map (fun j => (buf.getD (2 * j) 0, buf.getD (2 * j + 1) 0)) =
      pairsOf buf := by
  induction buf using pairsOf.induct with
  | case1 x y buf ih =>
    have hlen : (x :: y :: buf).length / 2 = buf.length / 2 + 1 := by
      simp only [length_cons]
      omega
    rw [hlen, List.range_succ_eq_map, List.map_cons, List.map_map, pairsOf, ← ih]
    refine congrArg₂ List.cons rfl (map_congr_left fun j _ => ?_)
    simp [Nat.mul_succ]
  | case2 buf h =>
    match buf, h with
    | [], _ => rfl
    | [x], _ => simp [pairsOf]
    | x :: y :: buf, h => exact absurd rfl (h x y buf)

theorem AdjOk.add (h : AdjOk isWeighted a pairs) (p : Int × Int) :
    ∃ a', a.add isWeighted p.1 p.2 = some a' ∧ AdjOk isWeighted a' (pairs ++ [p]) := by
  have hle := h.degree_le
  have hpos := h.capacity_pos
  have hroom : a.degree < if a.capacity ≤ a.degree then a.capacity * 2 else a.capacity := by
    split <;> omega
  rw [Adj.add]
  simp only [if_pos hroom]
  refine ⟨_, rfl, by simp [h.ids], ?_, by simp [h.degree], hroom,
    Nat.lt_of_le_of_lt (Nat.zero_le _) hroom⟩
  cases isWeighted <;> simp [h.weights]

theorem AdjOk.addAll (h : AdjOk isWeighted a pairs) (buf : List Int) :
    ∃ a', a.addAll isWeighted buf buf.length = some a' ∧
      AdjOk isWeighted a' (pairs ++ pairsOf buf) := by
  have hfold : ∀ (l pairs : List (Int × Int)) (a : Adj), AdjOk isWeighted a pairs →
      ∃ a', l.foldlM (fun a p => a.add isWeighted p.1 p.2) a = some a' ∧
        AdjOk isWeighted a' (pairs ++ l) := by
    intro l
    induction l with
    | nil => exact fun pairs a h => ⟨a, rfl, by rwa [List.append_nil]⟩
    | cons p l ih =>
      intro pairs a h
      obtain ⟨a₁, hadd, hok⟩ := h.add p
      obtain ⟨a', hrest, hok'⟩ := ih _ a₁ hok
      rw [List.append_assoc, List.singleton_append] at hok'
      refine ⟨a', ?_, hok'⟩
      rw [List.foldlM_cons, hadd]
      exact hrest
  obtain ⟨a', hrun, hok⟩ := hfold (pairsOf buf) pairs a h
  refine ⟨a', ?_, hok⟩
  rw [← pairs_eq, foldlM_map] at hrun
  exact hrun

end adj

/-! ## Messages -/

section messages

variable (inp : Input)

def Input.arrays (p : Nat) (tag : Tag) : List (List Int) :=
  (List.range inp.size).map (arrayOf (inp.args p).edges tag)

def Input.sends (p : Nat) : List Msg := DistGraph.sends inp.size p (inp.arrays p)

def Input.allSends : List Msg := (List.range inp.size).flatMap inp.sends

def Input.peers (r : Nat) (tag : Tag) : Nat :=
  ((List.range inp.size).map fun p => rs (inp.arrays p tag) r).sum

def Input.sendsTo (r : Nat) (tag : Tag) : List Msg :=
  (List.range inp.size).flatMap fun p => sendTo p r tag (arrayOf (inp.args p).edges tag r)

variable {inp}

theorem getD_arrays {p r : Nat} {tag : Tag} (hr : r < inp.size) :
    (inp.arrays p tag).getD r [] = arrayOf (inp.args p).edges tag r := by
  rw [Input.arrays, getD_eq_getElem?_getD, List.getElem?_map, List.getElem?_range hr]
  rfl

theorem filter_sends {r : Nat} (hr : r < inp.size) (p : Nat) (tag : Tag) :
    (inp.sends p).filter (fun m => m.dest = r ∧ m.tag = tag) =
      sendTo p r tag (arrayOf (inp.args p).edges tag r) := by
  have hone : ∀ i tag', (sendTo p i tag' ((inp.arrays p tag').getD i [])).filter
      (fun m => m.dest = r ∧ m.tag = tag) =
        if i = r ∧ tag' = tag then sendTo p i tag' ((inp.arrays p tag').getD i []) else [] := by
    intro i tag'
    unfold sendTo
    by_cases hd : (((inp.arrays p tag').getD i []).length ≠ 0)
    · rw [if_pos hd]
      by_cases hi : i = r ∧ tag' = tag
      · rw [if_pos hi]
        simp [hi.1, hi.2]
      · rw [if_neg hi]
        simpa using hi
    · rw [if_neg hd]
      simp
  have hmap : ∀ l : List Nat, l.Nodup → (l.flatMap fun i =>
      sendTo p i .topoA ((inp.arrays p .topoA).getD i []) ++
        sendTo p i .topoB ((inp.arrays p .topoB).getD i [])).filter
          (fun m => m.dest = r ∧ m.tag = tag) =
        if r ∈ l then sendTo p r tag ((inp.arrays p tag).getD r []) else [] := by
    intro l hnd
    induction l with
    | nil => rfl
    | cons i l ih =>
      obtain ⟨hi, hnd⟩ := nodup_cons.1 hnd
      rw [flatMap_cons, filter_append, filter_append, hone, hone, ih hnd]
      by_cases hir : i = r
      · subst hir
        rw [if_neg hi, if_pos mem_cons_self]
        cases tag <;> simp
      · have hmem : r ∈ i :: l ↔ r ∈ l := by
          rw [mem_cons, or_iff_right (Ne.symm hir)]
        simp only [hir, false_and, if_false, nil_append, hmem]
  have := hmap (List.range inp.size) nodup_range
  rw [if_pos (mem_range.2 hr), getD_arrays hr] at this
  exact this

theorem filter_allSends {r : Nat} (hr : r < inp.size) (tag : Tag) :
    inp.allSends.filter (fun m => m.dest = r ∧ m.tag = tag) = inp.sendsTo r tag := by
  rw [Input.allSends, Input.sendsTo, filter_flatMap]
  exact flatMap_congr fun p _ => filter_sends hr p tag

theorem count_sendsTo {m : Msg} (hr : m.dest < inp.size) :
    (inp.sendsTo m.dest m.tag).count m = inp.allSends.count m := by
  rw [← filter_allSends hr m.tag]
  refine count_filter (p := fun x : Msg => decide (x.dest = m.dest ∧ x.tag = m.tag)) ?_
  simp

theorem length_sendsTo {r : Nat} (hr : r < inp.size) (tag : Tag) :
    (inp.sendsTo r tag).length = inp.peers r tag := by
  rw [Input.sendsTo, Input.peers, length_flatMap]
  refine congrArg List.sum (map_congr_left fun p _ => ?_)
  rw [rs, getD_arrays hr, sendTo]
  split <;> rfl

theorem peers_le (r : Nat) (tag : Tag) : inp.peers r tag ≤ inp.size := by
  have hle : ∀ l : List Nat, (l.map fun p => rs (inp.arrays p tag) r).sum ≤ l.length := by
    intro l
    induction l with
    | nil => exact Nat.le_refl _
    | cons p l ih =>
      have : rs (inp.arrays p tag) r ≤ 1 := by
        unfold rs
        split <;> omega
      rw [List.map_cons, sum_cons, length_cons]
      omega
  simpa [Input.peers] using hle (List.range inp.size)

theorem dest_lt {m : Msg} (hm : m ∈ inp.allSends) : m.dest < inp.size := by
  obtain ⟨p, -, hm⟩ := mem_flatMap.1 hm
  obtain ⟨i, hi, hm⟩ := mem_flatMap.1 hm
  have hi := mem_range.1 hi
  have hto : ∀ tag, m ∈ sendTo p i tag ((inp.arrays p tag).getD i []) → m.dest < inp.size := by
    intro tag hm
    unfold sendTo at hm
    split at hm
    · rw [mem_singleton.1 hm]
      exact hi
    · exact absurd hm not_mem_nil
  rcases mem_append.1 hm with hm | hm
  · exact hto _ hm
  · exact hto _ hm

end messages

/-! ## The invariant -/

def unsent (inp : Input) (p : Nat) : Pc → List Msg
  | .start => inp.sends p
  | .reduce => inp.sends p
  | .send rest => rest
  | _ => []

def received (peers : Tag → Nat) : Pc → Tag → Nat
  | .probe .topoA i, .topoA => i
  | .recv .topoA i _, .topoA => i
  | .probe .topoB _, .topoA => peers .topoA
  | .probe .topoB i, .topoB => i
  | .recv .topoB _ _, .topoA => peers .topoA
  | .recv .topoB i _, .topoB => i
  | .waitall, tag => peers tag
  | .done, tag => peers tag
  | _, _ => 0

structure ProcOk (inp : Input) (r : Nat) (q : Proc) (got : List Msg) : Prop where
  running : q.pc ≠ .failed
  arrays : q.pc ≠ .start → q.arrays = inp.arrays r
  peers : q.pc ≠ .start → q.pc ≠ .reduce → q.peers = inp.peers r
  dest : ∀ m ∈ q.queue ++ got, m.dest = r
  count : ∀ tag, (got.filter (Msg.hasTag tag)).length = received q.peers q.pc tag
  probe : ∀ tag i, q.pc = .probe tag i → i ≤ q.peers tag
  recv : ∀ tag i count, q.pc = .recv tag i count → i < q.peers tag ∧
    ∃ m, q.queue.find? (Msg.hasTag tag) = some m ∧ m.data.length = count
  adj : ∀ tag, AdjOk (inp.args r).weights.isSome (q.adj tag)
    ((got.filter (Msg.hasTag tag)).flatMap fun m => pairsOf m.data)

def countAll (n : Nat) (f : Nat → List Msg) (m : Msg) : Nat := ((List.range n).flatMap f).count m

/-- The invariant: every process is all right, and every message is not sent yet, in flight, in a
queue or received. -/
structure Good (inp : Input) (s : St) (got : Nat → List Msg) : Prop where
  proc : ∀ r < inp.size, ProcOk inp r (s.procs r) (got r)
  conserved : ∀ m, countAll inp.size (fun p => unsent inp p (s.procs p).pc) m + s.flight.count m +
    countAll inp.size (fun p => (s.procs p).queue) m + countAll inp.size got m =
      inp.allSends.count m

section invariant

variable {inp : Input} {s s' : St} {got : Nat → List Msg} {r : Nat}

theorem sum_range_update {n : Nat} (h : r < n) (f f' : Nat → Nat) (hne : ∀ p, p ≠ r → f' p = f p) :
    ((List.range n).map f').sum + f r = ((List.range n).map f).sum + f' r := by
  induction n with
  | zero => exact absurd h (Nat.not_lt_zero _)
  | succ n ih =>
    rw [range_succ, map_append, map_append, sum_append, sum_append]
    simp only [List.map_cons, map_nil, sum_cons, sum_nil]
    by_cases hr : r = n
    · subst hr
      have hsame : (List.range r).map f' = (List.range r).map f :=
        map_congr_left fun p hp => hne p (Nat.ne_of_lt (mem_range.1 hp))
      rw [hsame]
      omega
    · have := ih (by omega)
      rw [hne n (Ne.symm hr)]
      omega

theorem countAll_update {n : Nat} (h : r < n) (f f' : Nat → List Msg)
    (hne : ∀ p, p ≠ r → f' p = f p) (m : Msg) :
    countAll n f' m + (f r).count m = countAll n f m + (f' r).count m := by
  rw [countAll, countAll, count_flatMap, count_flatMap]
  exact sum_range_update h _ _ fun p hp => congrArg (List.count m) (hne p hp)

theorem Good.set (h : Good inp s got) (hr : r < inp.size) {q : Proc} {g : List Msg} (fl : List Msg)
    (hq : ProcOk inp r q g)
    (hcount : ∀ m, (unsent inp r q.pc).count m + fl.count m + q.queue.count m + g.count m =
      (unsent inp r (s.procs r).pc).count m + s.flight.count m + (s.procs r).queue.count m +
        (got r).count m) :
    Good inp { s.set r q with flight := fl } (Function.update got r g) := by
  refine ⟨fun p hp => ?_, fun m => ?_⟩
  · by_cases hpr : p = r
    · subst hpr
      simpa [St.set] using hq
    · simpa [St.set, hpr] using h.proc p hp
  · have h₁ := countAll_update hr (fun p => unsent inp p (s.procs p).pc)
      (fun p => unsent inp p ((s.set r q).procs p).pc) (fun p hp => by simp [St.set, hp]) m
    have h₂ := countAll_update hr (fun p => (s.procs p).queue)
      (fun p => ((s.set r q).procs p).queue) (fun p hp => by simp [St.set, hp]) m
    have h₃ := countAll_update hr got (Function.update got r g) (fun p hp => by simp [hp]) m
    have hc := hcount m
    have hall := h.conserved m
    simp only [St.set, update_self] at h₁ h₂ h₃ ⊢
    omega

theorem Good.setPc (h : Good inp s got) (hr : r < inp.size) {q : Proc}
    (hq : ProcOk inp r q (got r)) (hqueue : q.queue = (s.procs r).queue)
    (hunsent : unsent inp r q.pc = unsent inp r (s.procs r).pc) :
    Good inp (s.set r q) got := by
  have := h.set hr s.flight hq fun m => by rw [hqueue, hunsent]
  rwa [update_eq_self] at this

theorem Good.mem_allSends (h : Good inp s got) {m : Msg} (hm : m ∈ s.flight) : m ∈ inp.allSends := by
  have := h.conserved m
  have hpos := count_pos_iff.2 hm
  exact count_pos_iff.1 (by omega)

/-! ### Steps -/

theorem Good.start (h : Good inp s got) (hr : r < inp.size) (hs : startStep inp s r = some s') :
    Good inp s' got := by
  obtain ⟨hpc, hs⟩ := ite_none_right_eq_some.1 hs
  rw [populate_spec fun e he => (inp.args r).endpoint_lt he _,
    populate_spec fun e he => (inp.args r).endpoint_lt he _] at hs
  cases hs
  have hp := h.proc r hr
  refine h.setPc hr ⟨nofun, fun _ => ?_, fun _ hne => absurd rfl hne, hp.dest, fun tag => ?_, nofun,
    nofun, hp.adj⟩ rfl (by rw [hpc]; rfl)
  · funext tag
    cases tag <;> rfl
  · have := hp.count tag
    rw [hpc] at this
    exact this

theorem Good.reduce (h : Good inp s got) (hr : r < inp.size) (hs : reduceStep inp s r = some s') :
    Good inp s' got := by
  obtain ⟨⟨hpc, hall⟩, hs⟩ := ite_none_right_eq_some.1 hs
  have hpeers : peersOf inp s r = inp.peers r := by
    funext tag
    refine congrArg List.sum (map_congr_left fun p hp => ?_)
    have hp := mem_range.1 hp
    rw [(h.proc p hp).arrays (hall p hp)]
  have hp := h.proc r hr
  rw [hpeers, if_pos ⟨peers_le r _, peers_le r _⟩] at hs
  cases hs
  have harr := hp.arrays (by rw [hpc]; nofun)
  refine h.setPc hr ⟨nofun, fun _ => harr, fun _ _ => rfl, hp.dest, fun tag => ?_, nofun,
    nofun, hp.adj⟩ rfl (by rw [hpc, harr]; rfl)
  have := hp.count tag
  rw [hpc] at this
  exact this

theorem Good.send (h : Good inp s got) (hr : r < inp.size) (hs : sendStep s r = some s') :
    Good inp s' got := by
  have hp := h.proc r hr
  unfold sendStep at hs
  split at hs
  · next m rest hpc =>
    cases hs
    have hgood := h.set hr (q := { s.procs r with pc := .send rest }) (s.flight ++ [m])
      ⟨nofun, fun _ => hp.arrays (by rw [hpc]; nofun),
        fun _ _ => hp.peers (by rw [hpc]; nofun) (by rw [hpc]; nofun), hp.dest,
        fun tag => by have := hp.count tag; rw [hpc] at this; exact this, nofun, nofun, hp.adj⟩
      fun x => by
        simp only [hpc, unsent, count_append, count_cons, count_nil]
        omega
    rwa [update_eq_self] at hgood
  · next hpc =>
    cases hs
    refine h.setPc hr ⟨nofun, fun _ => hp.arrays (by rw [hpc]; nofun),
      fun _ _ => hp.peers (by rw [hpc]; nofun) (by rw [hpc]; nofun), hp.dest, fun tag => ?_, ?_,
      nofun, hp.adj⟩ rfl (by rw [hpc]; rfl)
    · have := hp.count tag
      rw [hpc] at this
      rw [this]
      cases tag <;> rfl
    · rintro tag i ⟨⟩
      exact Nat.zero_le _
  · cases hs

theorem Good.arrive {k : Nat} (h : Good inp s got) (hs : arriveStep s k = some s') :
    Good inp s' got := by
  obtain ⟨m, hm, hs⟩ := bind_eq_some_iff.1 hs
  cases hs
  have hk := (List.getElem?_eq_some_iff.1 hm).1
  have hr := dest_lt (h.mem_allSends (mem_of_getElem? hm))
  have hp := h.proc _ hr
  have hgood := h.set hr
    (q := { s.procs m.dest with queue := (s.procs m.dest).queue ++ [m] }) (s.flight.eraseIdx k)
    ⟨hp.running, hp.arrays, hp.peers, ?_, hp.count, hp.probe, ?_, hp.adj⟩ ?_
  · rwa [update_eq_self] at hgood
  · intro x hx
    rw [List.append_assoc] at hx
    rcases mem_append.1 hx with hx | hx
    · exact hp.dest x (mem_append_left _ hx)
    · rcases mem_cons.1 hx with rfl | hx
      · rfl
      · exact hp.dest x (mem_append_right _ hx)
  · intro tag i count hpc
    obtain ⟨hi, x, hx, hlen⟩ := hp.recv tag i count hpc
    refine ⟨hi, x, ?_, hlen⟩
    show List.find? _ (_ ++ [m]) = _
    rw [List.find?_append, hx]
    rfl
  · intro x
    have hcount : s.flight.count x = (s.flight.eraseIdx k).count x + [m].count x := by
      have hget := (List.getElem?_eq_some_iff.1 hm).2
      have := (getElem_cons_eraseIdx_perm hk).count_eq x
      rw [hget, count_cons] at this
      rw [count_singleton]
      omega
    show _ + _ + List.count x (_ ++ [m]) + _ = _
    rw [count_append, hcount]
    simp only
    omega

theorem Good.probeStep (h : Good inp s got) (hr : r < inp.size) (hs : probeStep s r = some s') :
    Good inp s' got := by
  have hp := h.proc r hr
  unfold DistGraph.probeStep at hs
  split at hs
  · next tag i hpc =>
    have harr := hp.arrays (by rw [hpc]; nofun)
    have hpeers := hp.peers (by rw [hpc]; nofun) (by rw [hpc]; nofun)
    split at hs
    · next hi =>
      obtain ⟨m, hm, hs⟩ := bind_eq_some_iff.1 hs
      cases hs
      refine h.setPc hr ⟨nofun, fun _ => harr, fun _ _ => hpeers, hp.dest, fun tag' => ?_, nofun, ?_,
        hp.adj⟩ rfl (by rw [hpc]; rfl)
      · have := hp.count tag'
        rw [hpc] at this
        rw [this]
        cases tag <;> cases tag' <;> rfl
      · rintro _ _ _ ⟨⟩
        exact ⟨hi, m, hm, rfl⟩
    · next hi =>
      -- all messages of the loop have been received
      obtain rfl : i = (s.procs r).peers tag := by
        have := hp.probe tag i hpc
        omega
      cases hs
      cases tag with
      | topoA =>
        refine h.setPc hr ⟨nofun, fun _ => harr, fun _ _ => hpeers, hp.dest, fun tag' => ?_, ?_,
          nofun, hp.adj⟩ rfl (by rw [hpc]; rfl)
        · have := hp.count tag'
          rw [hpc] at this
          rw [this]
          cases tag' <;> rfl
        · rintro _ _ ⟨⟩
          exact Nat.zero_le _
      | topoB =>
        refine h.setPc hr ⟨nofun, fun _ => harr, fun _ _ => hpeers, hp.dest, fun tag' => ?_, nofun,
          nofun, hp.adj⟩ rfl (by rw [hpc]; rfl)
        have := hp.count tag'
        rw [hpc] at this
        rw [this]
        cases tag' <;> rfl
  · cases hs

theorem Good.recvStep (h : Good inp s got) (hr : r < inp.size) (hs : recvStep inp s r = some s') :
    ∃ got', Good inp s' got' := by
  have hp := h.proc r hr
  unfold DistGraph.recvStep at hs
  split at hs
  · next tag i count hpc =>
    obtain ⟨⟨m, rest⟩, hpick, hs⟩ := bind_eq_some_iff.1 hs
    obtain ⟨hi, x, hx, hlen⟩ := hp.recv tag i count hpc
    obtain ⟨l₁, l₂, hqueue, rfl, hm, hl₁⟩ := pick?_some hpick
    obtain rfl : m = x := by
      have hfind : (l₁ ++ m :: l₂).find? (Msg.hasTag tag) = some m := by
        rw [List.find?_append, List.find?_eq_none.2 fun y hy => by simp [hl₁ y hy], none_or,
          List.find?_cons_of_pos hm]
      rw [hqueue, hfind] at hx
      exact Option.some.inj hx
    obtain ⟨a, hadd, hadj⟩ := (hp.adj tag).addAll m.data
    simp only [if_pos hlen] at hs
    rw [← hlen, hadd] at hs
    cases hs
    refine ⟨_, h.set hr (g := got r ++ [m]) s.flight ⟨nofun, fun _ => hp.arrays (by rw [hpc]; nofun),
      fun _ _ => hp.peers (by rw [hpc]; nofun) (by rw [hpc]; nofun), fun y hy => ?_, fun tag' => ?_,
      ?_, nofun, fun tag' => ?_⟩ fun y => ?_⟩
    · refine hp.dest y ?_
      rw [hqueue]
      simp only [mem_append, mem_cons, not_mem_nil, or_false] at hy ⊢
      tauto
    · have := hp.count tag'
      rw [hpc] at this
      have hm' : m.tag = tag := of_decide_eq_true hm
      rw [filter_append, length_append, this]
      cases tag <;> cases tag' <;> simp [received, Msg.hasTag, hm']
    · rintro _ _ ⟨⟩
      exact hi
    · have hm' : m.tag = tag := of_decide_eq_true hm
      rw [filter_append, flatMap_append]
      by_cases htag : tag' = tag
      · subst htag
        simpa [Msg.hasTag, hm'] using hadj
      · have hno : Msg.hasTag tag' m = false := by
          simp [Msg.hasTag, hm', Ne.symm htag]
        simpa [htag, hno] using hp.adj tag'
    · rw [hpc, hqueue]
      simp only [unsent, count_append, count_cons, count_nil]
      omega
  · cases hs

theorem Good.waitall (h : Good inp s got) (hr : r < inp.size) (hs : waitallStep inp s r = some s') :
    Good inp s' got := by
  obtain ⟨⟨hpc, -⟩, hs⟩ := ite_none_right_eq_some.1 hs
  cases hs
  have hp := h.proc r hr
  refine h.setPc hr ⟨nofun, fun _ => hp.arrays (by rw [hpc]; nofun),
    fun _ _ => hp.peers (by rw [hpc]; nofun) (by rw [hpc]; nofun), hp.dest, fun tag => ?_, nofun,
    nofun, hp.adj⟩ rfl (by rw [hpc]; rfl)
  have := hp.count tag
  rw [hpc] at this
  exact this

theorem Good.step {a : Act} (h : Good inp s got) (hs : step inp s a = some s') :
    ∃ got', Good inp s' got' := by
  cases a with
  | arrive k => exact ⟨got, h.arrive hs⟩
  | start r =>
    obtain ⟨hr, hs⟩ := ite_none_right_eq_some.1 hs
    exact ⟨got, h.start hr hs⟩
  | reduce r =>
    obtain ⟨hr, hs⟩ := ite_none_right_eq_some.1 hs
    exact ⟨got, h.reduce hr hs⟩
  | send r =>
    obtain ⟨hr, hs⟩ := ite_none_right_eq_some.1 hs
    exact ⟨got, h.send hr hs⟩
  | probe r =>
    obtain ⟨hr, hs⟩ := ite_none_right_eq_some.1 hs
    exact ⟨got, h.probeStep hr hs⟩
  | recv r =>
    obtain ⟨hr, hs⟩ := ite_none_right_eq_some.1 hs
    exact h.recvStep hr hs
  | waitall r =>
    obtain ⟨hr, hs⟩ := ite_none_right_eq_some.1 hs
    exact ⟨got, h.waitall hr hs⟩

theorem Good.init : Good inp DistGraph.init fun _ => [] := by
  refine ⟨fun r _ => ⟨nofun, fun h => absurd rfl h, fun h => absurd rfl h, by simp [DistGraph.init],
    fun tag => rfl, nofun, nofun, fun tag => ?_⟩, fun m => ?_⟩
  · refine ⟨rfl, ?_, rfl, ?_, ?_⟩
    · cases (inp.args r).weights.isSome <;> rfl
    · exact Nat.zero_le _
    · exact (by decide : 0 < 10)
  · have hnil : (List.range inp.size).flatMap (fun _ => ([] : List Msg)) = [] :=
      flatMap_eq_nil_iff.2 fun _ _ => rfl
    simp [DistGraph.init, countAll, unsent, Input.allSends, hnil]

theorem count_le_countAll {n : Nat} (h : r < n) (f : Nat → List Msg) (m : Msg) :
    (f r).count m ≤ countAll n f m :=
  (sublist_flatten_of_mem (mem_map_of_mem (mem_range.2 h))).count_le m

theorem Good.got_subperm (h : Good inp s got) (hr : r < inp.size) (tag : Tag) :
    ((got r).filter (Msg.hasTag tag)).Subperm (inp.sendsTo r tag) := by
  rw [subperm_ext_iff]
  intro m hm
  obtain ⟨hm, htag⟩ := mem_filter.1 hm
  obtain rfl := (h.proc r hr).dest m (mem_append_right _ hm)
  obtain rfl : m.tag = tag := of_decide_eq_true htag
  rw [count_filter htag, count_sendsTo hr]
  have := h.conserved m
  have := count_le_countAll hr got m
  omega

theorem ProcOk.count_last {q : Proc} {g : List Msg} (h : ProcOk inp r q g)
    (hpc : q.pc = .waitall ∨ q.pc = .done) (tag : Tag) :
    (g.filter (Msg.hasTag tag)).length = inp.peers r tag := by
  have hne : q.pc ≠ .start ∧ q.pc ≠ .reduce := by
    rcases hpc with hpc | hpc <;> rw [hpc] <;> exact ⟨nofun, nofun⟩
  rw [h.count tag, ← h.peers hne.1 hne.2]
  rcases hpc with hpc | hpc <;> rw [hpc] <;> rfl

theorem Good.complete (h : Good inp s got) (hr : r < inp.size) {tag : Tag}
    (hcount : ((got r).filter (Msg.hasTag tag)).length = inp.peers r tag) :
    ((got r).filter (Msg.hasTag tag)).Perm (inp.sendsTo r tag) := by
  refine (h.got_subperm hr tag).perm_of_length_le (Nat.le_of_eq ?_)
  rw [hcount, length_sendsTo hr]

theorem Good.queue_of_lt (h : Good inp s got) (hr : r < inp.size) {tag : Tag}
    (hcount : ((got r).filter (Msg.hasTag tag)).length < inp.peers r tag)
    (hsent : ∀ p < inp.size, unsent inp p (s.procs p).pc = []) (hflight : s.flight = []) :
    ∃ m ∈ (s.procs r).queue, Msg.hasTag tag m = true := by
  -- otherwise every message with the tag has been received
  by_contra hno
  have hsub : (inp.sendsTo r tag).Subperm ((got r).filter (Msg.hasTag tag)) := by
    rw [subperm_ext_iff]
    intro m hm
    rw [← filter_allSends hr tag] at hm
    obtain ⟨hdest, htag⟩ := decide_eq_true_iff.1 (mem_filter.1 hm).2
    subst hdest htag
    have htag' : Msg.hasTag m.tag m = true := decide_eq_true rfl
    rw [count_sendsTo hr, count_filter htag']
    have hnone : ∀ f : Nat → List Msg, (∀ p < inp.size, m ∉ f p) → countAll inp.size f m = 0 := by
      intro f hf
      refine count_eq_zero.2 fun hmem => ?_
      obtain ⟨p, hp, hmem⟩ := mem_flatMap.1 hmem
      exact hf p (mem_range.1 hp) hmem
    have hu := hnone (fun p => unsent inp p (s.procs p).pc) fun p hp => by
      rw [hsent p hp]
      exact not_mem_nil
    have hq := hnone (fun p => (s.procs p).queue) fun p hp hmem => by
      obtain rfl := (h.proc p hp).dest m (mem_append_left _ hmem)
      exact hno ⟨m, hmem, htag'⟩
    have hg : countAll inp.size got m = (got m.dest).count m := by
      have hupd := countAll_update hr got (Function.update got m.dest [])
        (fun p hp => by simp [hp]) m
      have hzero := hnone (Function.update got m.dest []) fun p hp hmem => by
        by_cases hpr : p = m.dest
        · rw [hpr, update_self] at hmem
          exact not_mem_nil hmem
        · rw [update_of_ne hpr] at hmem
          exact hpr ((h.proc p hp).dest m (mem_append_right _ hmem)).symm
      rw [update_self, count_nil] at hupd
      omega
    have := h.conserved m
    rw [hflight, count_nil] at this
    omega
  have hle := hsub.length_le
  rw [length_sendsTo hr] at hle
  omega

theorem Good.queue_eq_nil (h : Good inp s got) (hr : r < inp.size)
    (hpc : (s.procs r).pc = .waitall ∨ (s.procs r).pc = .done) : (s.procs r).queue = [] := by
  refine eq_nil_iff_forall_not_mem.2 fun m hm => ?_
  have hp := h.proc r hr
  obtain rfl := hp.dest m (mem_append_left _ hm)
  have hall := (h.complete hr (hp.count_last hpc m.tag)).count_eq m
  have htag : Msg.hasTag m.tag m = true := decide_eq_true rfl
  rw [count_filter htag, count_sendsTo hr] at hall
  have hq := count_le_countAll hr (fun p => (s.procs p).queue) m
  have hg := count_le_countAll hr got m
  have hpos := count_pos_iff.2 hm
  have := h.conserved m
  omega

theorem Good.done (h : Good inp s got) (hstuck : ∀ a, DistGraph.step inp s a = none) :
    ∀ r < inp.size, (s.procs r).pc = .done := by
  have hstart : ∀ r < inp.size, (s.procs r).pc ≠ .start := by
    intro r hr hpc
    have hno := hstuck (.start r)
    rw [DistGraph.step, if_pos hr, startStep, if_pos hpc] at hno
    split at hno <;> cases hno
  have hreduce : ∀ r < inp.size, (s.procs r).pc ≠ .reduce := by
    intro r hr hpc
    have hno := hstuck (.reduce r)
    rw [DistGraph.step, if_pos hr, reduceStep, if_pos ⟨hpc, hstart⟩] at hno
    split at hno <;> cases hno
  have hsend : ∀ r < inp.size, ∀ rest, (s.procs r).pc ≠ .send rest := by
    intro r hr rest hpc
    have hno := hstuck (.send r)
    rw [DistGraph.step, if_pos hr, sendStep, hpc] at hno
    cases rest <;> cases hno
  have hflight : s.flight = [] := by
    have hno := hstuck (.arrive 0)
    rw [DistGraph.step, arriveStep] at hno
    cases hf : s.flight with
    | nil => rfl
    | cons m fl =>
      rw [hf] at hno
      cases hno
  have hsent : ∀ p < inp.size, unsent inp p (s.procs p).pc = [] := by
    intro p hp
    cases hpc : (s.procs p).pc with
    | start => exact absurd hpc (hstart p hp)
    | reduce => exact absurd hpc (hreduce p hp)
    | send rest => exact absurd hpc (hsend p hp rest)
    | _ => rfl
  have hprobe : ∀ r < inp.size, ∀ tag i, (s.procs r).pc ≠ .probe tag i := by
    intro r hr tag i hpc
    have hp := h.proc r hr
    have hno := hstuck (.probe r)
    rw [DistGraph.step, if_pos hr, DistGraph.probeStep, hpc] at hno
    simp only at hno
    split at hno
    · next hi =>
      have hcount := hp.count tag
      rw [hpc] at hcount
      have hlt : ((got r).filter (Msg.hasTag tag)).length < inp.peers r tag := by
        rw [hcount, ← hp.peers (hstart r hr) (hreduce r hr)]
        cases tag <;> exact hi
      obtain ⟨m, hm, htag⟩ := h.queue_of_lt hr hlt hsent hflight
      cases hf : (s.procs r).queue.find? (Msg.hasTag tag) with
      | none => exact List.find?_eq_none.1 hf m hm htag
      | some m =>
        rw [hf] at hno
        cases hno
    · cases hno
  have hrecv : ∀ r < inp.size, ∀ tag i count, (s.procs r).pc ≠ .recv tag i count := by
    intro r hr tag i count hpc
    obtain ⟨-, m, hm, -⟩ := (h.proc r hr).recv tag i count hpc
    have hno := hstuck (.recv r)
    rw [DistGraph.step, if_pos hr, DistGraph.recvStep, hpc] at hno
    cases hpick : pick? (Msg.hasTag tag) (s.procs r).queue with
    | none =>
      have := pick?_none hpick m (mem_of_find?_eq_some hm)
      rw [List.find?_some hm] at this
      cases this
    | some x =>
      simp only [hpick, Option.bind_eq_bind, Option.bind_some] at hno
      split at hno <;> cases hno
  have hlast : ∀ r < inp.size, (s.procs r).pc = .waitall ∨ (s.procs r).pc = .done := by
    intro r hr
    cases hpc : (s.procs r).pc with
    | start => exact absurd hpc (hstart r hr)
    | reduce => exact absurd hpc (hreduce r hr)
    | send rest => exact absurd hpc (hsend r hr rest)
    | probe tag i => exact absurd hpc (hprobe r hr tag i)
    | recv tag i count => exact absurd hpc (hrecv r hr tag i count)
    | failed => exact absurd hpc (h.proc r hr).running
    | waitall => exact .inl rfl
    | done => exact .inr rfl
  intro r hr
  refine (hlast r hr).resolve_left fun hpc => ?_
  have hno := hstuck (.waitall r)
  rw [DistGraph.step, if_pos hr, waitallStep, if_pos ⟨hpc, by simp [hflight], fun p hp m hm => by
    rw [h.queue_eq_nil hp (hlast p hp)] at hm
    exact absurd hm not_mem_nil⟩] at hno
  cases hno

def Pc.left (inp : Input) (r : Nat) : Pc → Nat
  | .start => 2 * (inp.sends r).length + 2 * inp.peers r .topoA + 2 * inp.peers r .topoB + 7
  | .reduce => 2 * (inp.sends r).length + 2 * inp.peers r .topoA + 2 * inp.peers r .topoB + 6
  | .send rest => 2 * rest.length + 2 * inp.peers r .topoA + 2 * inp.peers r .topoB + 5
  | .probe .topoA i => 2 * (inp.peers r .topoA - i) + 2 * inp.peers r .topoB + 4
  | .recv .topoA i _ => 2 * (inp.peers r .topoA - i) + 2 * inp.peers r .topoB + 3
  | .probe .topoB i => 2 * (inp.peers r .topoB - i) + 2
  | .recv .topoB i _ => 2 * (inp.peers r .topoB - i) + 1
  | .waitall => 1
  | .done => 0
  | .failed => 0

def left (inp : Input) (s : St) : Nat :=
  ((List.range inp.size).map fun r => (s.procs r).pc.left inp r).sum + s.flight.length

theorem left_set (hr : r < inp.size) (q : Proc) :
    left inp (s.set r q) + (s.procs r).pc.left inp r = left inp s + q.pc.left inp r := by
  have := sum_range_update hr (fun p => (s.procs p).pc.left inp p)
    (fun p => ((s.set r q).procs p).pc.left inp p) fun p hp => by simp [St.set, hp]
  simp only [St.set, update_self] at this
  simp only [left, St.set]
  omega

theorem left_set_lt (hr : r < inp.size) {q : Proc}
    (hlt : q.pc.left inp r < (s.procs r).pc.left inp r) : left inp (s.set r q) < left inp s := by
  have := @left_set inp s r hr q
  omega

theorem Good.left_lt {a : Act} (h : Good inp s got) (hs : DistGraph.step inp s a = some s') :
    left inp s' < left inp s := by
  cases a with
  | start r =>
    obtain ⟨hr, hs⟩ := ite_none_right_eq_some.1 hs
    obtain ⟨hpc, hs⟩ := ite_none_right_eq_some.1 hs
    split at hs
    · cases hs
      refine left_set_lt hr ?_
      rw [hpc]
      simp only [Pc.left]
      omega
    · cases hs
      refine left_set_lt hr ?_
      rw [hpc]
      simp only [Pc.left]
      omega
  | reduce r =>
    obtain ⟨hr, hs⟩ := ite_none_right_eq_some.1 hs
    obtain ⟨⟨hpc, -⟩, hs⟩ := ite_none_right_eq_some.1 hs
    have harr := (h.proc r hr).arrays (by rw [hpc]; nofun)
    split at hs
    · cases hs
      refine left_set_lt hr ?_
      rw [hpc, harr]
      simp only [Pc.left, Input.sends]
      omega
    · cases hs
      refine left_set_lt hr ?_
      rw [hpc]
      simp only [Pc.left]
      omega
  | send r =>
    obtain ⟨hr, hs⟩ := ite_none_right_eq_some.1 hs
    unfold sendStep at hs
    split at hs
    · next m rest hpc =>
      cases hs
      have := @left_set inp s r hr { s.procs r with pc := .send rest }
      rw [hpc] at this
      simp only [left, Pc.left, length_cons, length_append, length_nil,
        St.set] at this ⊢
      omega
    · next hpc =>
      cases hs
      refine left_set_lt hr ?_
      rw [hpc]
      simp only [Pc.left, length_nil]
      omega
    · cases hs
  | arrive k =>
    obtain ⟨m, hm, hs⟩ := bind_eq_some_iff.1 hs
    cases hs
    have hk := (List.getElem?_eq_some_iff.1 hm).1
    have hr := dest_lt (h.mem_allSends (mem_of_getElem? hm))
    have := @left_set inp s m.dest hr
      { s.procs m.dest with queue := (s.procs m.dest).queue ++ [m] }
    simp only [left, St.set, length_eraseIdx_of_lt hk] at this ⊢
    omega
  | probe r =>
    obtain ⟨hr, hs⟩ := ite_none_right_eq_some.1 hs
    unfold DistGraph.probeStep at hs
    split at hs
    · next tag i hpc =>
      have hpeers := (h.proc r hr).peers (by rw [hpc]; nofun) (by rw [hpc]; nofun)
      split at hs
      · obtain ⟨m, hm, hs⟩ := bind_eq_some_iff.1 hs
        cases hs
        refine left_set_lt hr ?_
        rw [hpc]
        cases tag <;> simp only [Pc.left] <;> omega
      · next hi =>
        cases hs
        refine left_set_lt hr ?_
        rw [hpc]
        cases tag <;> simp only [Pc.left, Pc.next] <;> omega
    · cases hs
  | recv r =>
    obtain ⟨hr, hs⟩ := ite_none_right_eq_some.1 hs
    unfold DistGraph.recvStep at hs
    split at hs
    · next tag i count hpc =>
      have hpeers := (h.proc r hr).peers (by rw [hpc]; nofun) (by rw [hpc]; nofun)
      have hi := ((h.proc r hr).recv tag i count hpc).1
      rw [hpeers] at hi
      obtain ⟨x, hx, hs⟩ := bind_eq_some_iff.1 hs
      simp only at hs
      split at hs
      · cases hs
        refine left_set_lt hr ?_
        rw [hpc]
        cases tag <;> simp only [Pc.left] <;> omega
      · cases hs
        refine left_set_lt hr ?_
        rw [hpc]
        cases tag <;> simp only [Pc.left] <;> omega
    · cases hs
  | waitall r =>
    obtain ⟨hr, hs⟩ := ite_none_right_eq_some.1 hs
    obtain ⟨⟨hpc, -⟩, hs⟩ := ite_none_right_eq_some.1 hs
    cases hs
    refine left_set_lt hr ?_
    rw [hpc]
    exact Nat.one_pos

end invariant

end PsMpi.DistGraph
