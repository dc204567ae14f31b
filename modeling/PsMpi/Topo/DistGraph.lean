import Mathlib.Algebra.GroupWithZero.Nat
import Mathlib.Algebra.Ring.Int.Defs
import PsMpi.Lib.Trans
import PsMpi.Lib.Pairing

/-!
# Creating a distributed graph

See `MPIR_Dist_graph_create_impl` (`mpich2/src/mpi/topo/dist_graph_create.c`).
-/

namespace PsMpi.DistGraph

open PsMpi.Lib

/-- `MPIR_Dist_graph_create_impl` (:10). -/
structure Args (size : Nat) where
  sources : List Nat
  degrees : List Nat
  destinations : List Nat
  weights : Option (List Int)
  length_degrees : degrees.length = sources.length
  length_destinations : destinations.length = degrees.sum
  length_weights : ∀ w ∈ weights, w.length = destinations.length
  source_lt : ∀ s ∈ sources, s < size
  destination_lt : ∀ d ∈ destinations, d < size

structure Edge where
  source : Nat
  destination : Nat
  weight : Int

/-- Line 94. -/
def weightAt (weights : Option (List Int)) (idx : Nat) : Int :=
  match weights with
  | none => 0
  | some w => w.getD idx 0

/-- Line 86. -/
def edgeLoop (destinations : List Nat) (weights : Option (List Int)) :
    List Nat → List Nat → Nat → List Edge
  | s :: sources, d :: degrees, idx =>
    (List.range d).map (fun j => ⟨s, destinations.getD (idx + j) 0, weightAt weights (idx + j)⟩) ++
      edgeLoop destinations weights sources degrees (idx + d)
  | _, _, _ => []

def Args.edges {size : Nat} (a : Args size) : List Edge :=
  edgeLoop a.destinations a.weights a.sources a.degrees 0

/-- Edges that end at a process are sent with one tag, and those that begin there with another.
`MPIR_TOPO_A_TAG`, `MPIR_TOPO_B_TAG` (`mpir_tags.h`). -/
inductive Tag where
  | topoA
  | topoB
deriving DecidableEq

def Edge.endpoint (e : Edge) : Tag → Nat
  | .topoA => e.destination
  | .topoB => e.source

def Edge.neighbour (e : Edge) : Tag → Nat
  | .topoA => e.source
  | .topoB => e.destination

/-! ## Arrays of edges -/

/-- `MPIR_Dist_graph_create_impl` (:61). -/
def arraySizes (size : Nat) (edges : List Edge) (tag : Tag) : List Nat :=
  edges.foldl (fun sizes e => sizes.modify (e.endpoint tag) (· + 2)) (List.replicate size 0)

def putEdge (sizes : List Nat) (tag : Tag) (arrays : List (List Int)) (e : Edge) :
    Option (List (List Int)) := do
  let n ← sizes[e.endpoint tag]?
  let a ← arrays[e.endpoint tag]?
  if a.length + 2 ≤ n then
    some (arrays.set (e.endpoint tag) (a ++ [(e.neighbour tag : Int), e.weight]))
  else none

/-- Line 84. -/
def populate (size : Nat) (edges : List Edge) (tag : Tag) : Option (List (List Int)) := do
  let sizes := arraySizes size edges tag
  let arrays ← edges.foldlM (putEdge sizes tag) (List.replicate size [])
  if arrays.map List.length = sizes then some arrays else none

structure Msg where
  source : Nat
  dest : Nat
  tag : Tag
  data : List Int
deriving DecidableEq

def sendTo (rank i : Nat) (tag : Tag) (data : List Int) : List Msg :=
  if data.length ≠ 0 then [⟨rank, i, tag, data⟩] else []

/-- Line 148. -/
def sends (size rank : Nat) (arrays : Tag → List (List Int)) : List Msg :=
  (List.range size).flatMap fun i =>
    sendTo rank i .topoA ((arrays .topoA).getD i []) ++
      sendTo rank i .topoB ((arrays .topoB).getD i [])

/-- Line 127. -/
def rs (arrays : List (List Int)) (i : Nat) : Nat := if (arrays.getD i []).length ≠ 0 then 1 else 0

/-! ## Growing lists of neighbours -/

/-- `MPII_Dist_graph_topology` (`mpir_topo.h`). -/
structure Adj where
  ids : List Int
  weights : List Int
  degree : Nat
  capacity : Nat

/-- `MPIR_Dist_graph_create_impl` (:182). -/
def Adj.init : Adj := ⟨[], [], 0, 10⟩

/-- `MPIR_Dist_graph_create_impl` (:209, :242). -/
def Adj.add (isWeighted : Bool) (a : Adj) (id weight : Int) : Option Adj :=
  let capacity := if a.capacity ≤ a.degree then a.capacity * 2 else a.capacity
  if a.degree < capacity then
    some ⟨a.ids ++ [id], if isWeighted then a.weights ++ [weight] else a.weights, a.degree + 1,
      capacity⟩
  else none

def Adj.addAll (isWeighted : Bool) (a : Adj) (buf : List Int) (count : Nat) : Option Adj :=
  (List.range (count / 2)).foldlM
    (fun a j => a.add isWeighted (buf.getD (2 * j) 0) (buf.getD (2 * j + 1) 0)) a

/-! ## The processes -/

inductive Pc where
  | start
  | reduce
  | send (rest : List Msg)
  | probe (tag : Tag) (i : Nat)
  | recv (tag : Tag) (i count : Nat)
  | waitall
  | done
  | failed
deriving DecidableEq

/-- A process: its arrays, the number of its peers, the messages that have arrived and its lists of
neighbours. -/
structure Proc where
  pc : Pc
  arrays : Tag → List (List Int)
  peers : Tag → Nat
  queue : List Msg
  adj : Tag → Adj

structure St where
  procs : Nat → Proc
  flight : List Msg

inductive Act where
  | start (r : Nat)
  | reduce (r : Nat)
  | send (r : Nat)
  | arrive (k : Nat)
  | probe (r : Nat)
  | recv (r : Nat)
  | waitall (r : Nat)

structure Input where
  size : Nat
  args : Nat → Args size

def St.set (s : St) (r : Nat) (p : Proc) : St := { s with procs := Function.update s.procs r p }

def Pc.next : Tag → Pc
  | .topoA => .probe .topoB 0
  | .topoB => .waitall

def Msg.hasTag (tag : Tag) (m : Msg) : Bool := m.tag = tag

def startStep (inp : Input) (s : St) (r : Nat) : Option St :=
  if (s.procs r).pc = .start then
    match populate inp.size (inp.args r).edges .topoA,
        populate inp.size (inp.args r).edges .topoB with
    | some rin, some rout =>
      some (s.set r { s.procs r with
        pc := .reduce, arrays := fun | .topoA => rin | .topoB => rout })
    | _, _ => some (s.set r { s.procs r with pc := .failed })
  else none

def peersOf (inp : Input) (s : St) (r : Nat) (tag : Tag) : Nat :=
  ((List.range inp.size).map fun p => rs ((s.procs p).arrays tag) r).sum

/-- `MPIR_Dist_graph_create_impl` (:133). -/
def reduceStep (inp : Input) (s : St) (r : Nat) : Option St :=
  if (s.procs r).pc = .reduce ∧ ∀ p < inp.size, (s.procs p).pc ≠ .start then
    if peersOf inp s r .topoA ≤ inp.size ∧ peersOf inp s r .topoB ≤ inp.size then
      some (s.set r { s.procs r with
        pc := .send (sends inp.size r (s.procs r).arrays), peers := peersOf inp s r })
    else some (s.set r { s.procs r with pc := .failed })
  else none

def sendStep (s : St) (r : Nat) : Option St :=
  match (s.procs r).pc with
  | .send (m :: rest) =>
    some { s.set r { s.procs r with pc := .send rest } with flight := s.flight ++ [m] }
  | .send [] => some (s.set r { s.procs r with pc := .probe .topoA 0 })
  | _ => none

def arriveStep (s : St) (k : Nat) : Option St := do
  let m ← s.flight[k]?
  return { s.set m.dest { s.procs m.dest with queue := (s.procs m.dest).queue ++ [m] } with
    flight := s.flight.eraseIdx k }

/-- `MPIR_Dist_graph_create_impl` (:197, :230). -/
def probeStep (s : St) (r : Nat) : Option St :=
  match (s.procs r).pc with
  | .probe tag i =>
    if i < (s.procs r).peers tag then do
      let m ← (s.procs r).queue.find? (Msg.hasTag tag)
      return s.set r { s.procs r with pc := .recv tag i m.data.length }
    else some (s.set r { s.procs r with pc := .next tag })
  | _ => none

/-- Receive a message from anyone into a buffer of the size that was probed, and add its edges.
`MPIR_Dist_graph_create_impl` (:204, :237). -/
def recvStep (inp : Input) (s : St) (r : Nat) : Option St :=
  match (s.procs r).pc with
  | .recv tag i count => do
    let (m, rest) ← pick? (Msg.hasTag tag) (s.procs r).queue
    -- a longer message is truncated, and a shorter one does not fill the buffer
    let adj := if m.data.length = count then
        ((s.procs r).adj tag).addAll (inp.args r).weights.isSome m.data count
      else none
    match adj with
    | some a => some (s.set r { s.procs r with
        pc := .probe tag (i + 1), queue := rest,
        adj := Function.update (s.procs r).adj tag a })
    | none => some (s.set r { s.procs r with pc := .failed })
  | _ => none

def waitallStep (inp : Input) (s : St) (r : Nat) : Option St :=
  if (s.procs r).pc = .waitall ∧ (∀ m ∈ s.flight, m.source ≠ r) ∧
      ∀ p < inp.size, ∀ m ∈ (s.procs p).queue, m.source ≠ r then
    some (s.set r { s.procs r with pc := .done })
  else none

def step (inp : Input) (s : St) : Act → Option St
  | .start r => if r < inp.size then startStep inp s r else none
  | .reduce r => if r < inp.size then reduceStep inp s r else none
  | .send r => if r < inp.size then sendStep s r else none
  | .arrive k => arriveStep s k
  | .probe r => if r < inp.size then probeStep s r else none
  | .recv r => if r < inp.size then recvStep inp s r else none
  | .waitall r => if r < inp.size then waitallStep inp s r else none

def init : St := ⟨fun _ => ⟨.start, fun _ => [], fun _ => 0, [], fun _ => .init⟩, []⟩

def sys (inp : Input) : Sys St Act := ⟨init, step inp⟩

end PsMpi.DistGraph
