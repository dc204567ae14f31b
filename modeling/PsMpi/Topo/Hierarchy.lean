import PsMpi.Topo.Badges

/-!
# The hierarchy of a communicator
-/

namespace PsMpi.Topo

/-- The number of the node of a process, for a build with (`aware`) and without the awareness of
modules. `mpir_localproc.c:56-60,69-73`. -/
def nodeId (aware : Bool) (v : View) (c : List Member) (me rank : Nat) : Except Stop Int :=
  if aware then getBadge v c me rank else getNodeId v c rank

/-- `:171-180`. -/
def numNodes (aware : Bool) (v : View) (c : List Member) (me : Nat) : Except Stop Int :=
  if aware then getMaxBadge v c me else .ok ((v.nodeHostnames.getD v.numNodes : Nat) : Int)

/-! ## The processes of the own node -/

/-- The processes of the own node; the rank of the process among them; for every process its rank
among them, or `-1`. -/
structure LocalProcs where
  localRank : Int
  localRanks : List Nat
  intranodeTable : List Int
  deriving DecidableEq

/-- `:68-90`. -/
def localStep (id : Nat → Except Stop Int) (myNodeId : Int) (me : Nat) (p : LocalProcs) (i : Nat) :
    Except Stop LocalProcs :=
  match id i with
  | .error e => .error e
  | .ok nodeId =>
    if nodeId < 0 then .error .error
    else if nodeId = myNodeId then
      .ok ⟨if i = me then p.localRanks.length else p.localRank, p.localRanks ++ [i],
        p.intranodeTable.set i p.localRanks.length⟩
    else .ok p

/-- `MPIR_Find_local` (:35). -/
def findLocal (id : Nat → Except Stop Int) (n me : Nat) : Except Stop LocalProcs :=
  match id me with
  | .error e => .error e
  | .ok myNodeId =>
    if 0 ≤ myNodeId then
      (List.range n).foldlM (localStep id myNodeId me) ⟨-1, [], List.replicate n (-1)⟩
    else .error .assertion

/-! ## One process of every node -/

/-- The roots of the nodes; the rank of the process among them, or `-1`; for every process the rank of
the root of its node; for every node the rank of its root, or `-1`. -/
structure ExternalProcs where
  externalRank : Int
  externalRanks : List Nat
  internodeTable : List Int
  nodes : List Int
  deriving DecidableEq

/-- `:190-215`. -/
def externalStep (id : Nat → Except Stop Int) (numNodes : Int) (me : Nat) (p : ExternalProcs)
    (i : Nat) : Except Stop ExternalProcs :=
  match id i with
  | .error e => .error e
  | .ok nodeId =>
    if nodeId < 0 then .error .error
    else if nodeId < numNodes then
      match p.nodes[nodeId.toNat]? with
      | none => .error .assertion
      | some root =>
        if root = -1 then
          .ok ⟨if i = me then p.externalRanks.length else p.externalRank, p.externalRanks ++ [i],
            p.internodeTable ++ [(p.externalRanks.length : Int)],
            p.nodes.set nodeId.toNat p.externalRanks.length⟩
        else .ok { p with internodeTable := p.internodeTable ++ [root] }
    else .error .assertion

/-- `MPIR_Find_external` (:145). -/
def findExternal (id : Nat → Except Stop Int) (numNodes : Except Stop Int) (n me : Nat) :
    Except Stop ExternalProcs :=
  match numNodes with
  | .error e => .error e
  | .ok num =>
    (List.range n).foldlM (externalStep id num me) ⟨-1, [], [], List.replicate num.toNat (-1)⟩

/-! ## The communicators -/

/-- A parent communicator: its tables, the communicator of the own node, which a process that is alone
on its node does not have, and the one of the roots, which the other processes do not have. -/
structure Parent where
  locals : LocalProcs
  externals : ExternalProcs
  nodeComm : Option (List Nat × Int)
  nodeRootsComm : Option (List Nat × Int)
  deriving DecidableEq

/-- `MPIR_Comm_create_subcomms` (`commutil.c:613`). -/
def commCreateSubcomms (aware : Bool) (v : View) (c : List Member) (me : Nat) :
    Except Stop (Option Parent) :=
  match findLocal (nodeId aware v c me) c.length me with
  | .error .error => .ok none
  | .error .assertion => .error .assertion
  | .ok p =>
    match findExternal (nodeId aware v c me) (numNodes aware v c me) c.length me with
    | .error .error => .ok none
    | .error .assertion => .error .assertion
    | .ok q =>
      if 0 < p.localRanks.length ∧ (1 < p.localRanks.length ∨ 0 ≤ q.externalRank) then
        if q.externalRanks.length = c.length then
          if p.localRanks.length = 1 then .ok none else .error .assertion
        else
          .ok (some ⟨p, q,
            if 1 < p.localRanks.length then some (p.localRanks, p.localRank) else none,
            if p.localRank = 0 then some (q.externalRanks, q.externalRank) else none⟩)
      else .error .assertion

/-- `:865-870`. -/
def consecutiveFrom (curr : Int) : List Int → Bool
  | [] => true
  | x :: xs =>
    if x = curr + 1 then consecutiveFrom (curr + 1) xs
    else if x ≠ curr then false
    else consecutiveFrom curr xs

/-- Whether the processes of every node have consecutive ranks, as the communicator has it.
`MPII_Comm_is_node_consecutive` (:857). -/
def commIsNodeConsecutive (p : Option Parent) : Bool :=
  match p with
  | none => false
  | some p => consecutiveFrom 0 p.externals.internodeTable

end PsMpi.Topo
