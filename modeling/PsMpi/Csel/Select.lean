import Mathlib.Algebra.BigOperators.Group.List.Basic
import Mathlib.Algebra.Ring.Int.Defs

/-!
# Selection of collective algorithms

See `mpich2/src/mpi/coll/src/csel.c`.
-/

namespace PsMpi.Csel

/-! ## Communicators and calls -/

inductive Coll where
  | allgather
  | allgatherv
  | allreduce
  | alltoall
  | alltoallv
  | alltoallw
  | barrier
  | bcast
  | exscan
  | gather
  | gatherv
  | neighborAllgather
  | neighborAllgatherv
  | neighborAlltoall
  | neighborAlltoallv
  | neighborAlltoallw
  | reduce
  | reduceScatter
  | reduceScatterBlock
  | scan
  | scatter
  | scatterv
deriving DecidableEq

/-- `MPIR_Csel_coll_type_e` (`mpir_csel.h:12`). -/
structure CollType where
  coll : Coll
  nonblocking : Bool
deriving DecidableEq

/-- `MPIR_Comm_hierarchy_kind_t` (`mpir_comm.h:26`). -/
inductive HierarchyKind where
  | flat
  | parent
  | nodeRoots
  | node
  | multiLeads
deriving DecidableEq

structure Comm where
  intra : Bool
  localSize : Nat
  remoteSize : Nat
  nodeCommSize : Option Nat
  hierarchyKind : HierarchyKind
  isNodeConsecutive : Bool
  nodeCount : Nat
  pof2 : Nat

structure Basic where
  id : Nat
  size : Nat
deriving DecidableEq

structure Datatype where
  signature : List Basic

/-- `MPIR_Datatype_get_size_macro`. -/
def Datatype.size (t : Datatype) : Int := (t.signature.map fun b => (b.size : Int)).sum

inductive Root where
  | rank (r : Nat)
  | root
  | procNull
deriving DecidableEq

structure ReduceOp where
  commutative : Bool
  builtin : Bool

/-- `MPIR_Csel_coll_sig_s` (`mpir_csel.h:60`). -/
structure Args where
  inPlace : Bool
  count : Int
  datatype : Datatype
  sendcount : Int
  sendtype : Datatype
  recvcount : Int
  recvtype : Datatype
  sendcounts : List Int
  sendtypes : List Datatype
  recvcounts : List Int
  root : Root
  op : ReduceOp

/-! ## Trees -/

/-- `csel_node_type_e` (:14). -/
inductive Op where
  | isMultiThreaded (val : Bool)
  | commTypeIntra
  | commTypeInter
  | commSizeLe (val : Int)
  | commSizeLt (val : Int)
  | commSizeNodeCommSize
  | commSizePow2
  | commHierarchy (val : HierarchyKind)
  | isNodeConsecutive (val : Bool)
  | commAvgPpnLe (val : Int)
  | commAvgPpnLt (val : Int)
  | collective (collType : CollType)
  | avgMsgSizeLe (val : Int)
  | avgMsgSizeLt (val : Int)
  | totalMsgSizeLe (val : Int)
  | totalMsgSizeLt (val : Int)
  | countLe (val : Int)
  | countLtPow2
  | isSbufInplace (val : Bool)
  | isBlockRegular (val : Bool)
  | isCommutative (val : Bool)
  | isOpBuiltIn (val : Bool)
  | any
deriving DecidableEq

/-- `csel_node_s` (:57). -/
inductive Tree (C : Type) where
  | null
  | container (c : C)
  | node (op : Op) (success failure : Tree C)
deriving DecidableEq

/-! ## Reading a tree -/

inductive Json where
  | object (fields : List (String × Json))
  | other

/-- `MPL_strdup_no_spaces` (`mpl_trmem.c:984`). -/
def noSpaces (key : String) : List Char := key.toList.filter fun c => c ≠ ' '

/-- `atoi`. -/
def atoi (s : List Char) : Int :=
  let digits := fun l : List Char =>
    ((l.takeWhile Char.isDigit).foldl (fun n c => 10 * n + (c.toNat - '0'.toNat)) 0 : Nat)
  match s with
  | '-' :: l => -(digits l : Int)
  | '+' :: l => digits l
  | l => digits l

def after (start : String) (s : List Char) : Option (List Char) :=
  if start.toList.isPrefixOf s then some (s.drop start.length) else none

/-- The names of the operations. See line 371. -/
def collNames : List (String × Coll) :=
  [("allgather", .allgather), ("allgatherv", .allgatherv), ("allreduce", .allreduce),
    ("alltoall", .alltoall), ("alltoallv", .alltoallv), ("alltoallw", .alltoallw),
    ("barrier", .barrier), ("bcast", .bcast), ("exscan", .exscan), ("gather", .gather),
    ("gatherv", .gatherv), ("neighbor_allgather", .neighborAllgather),
    ("neighbor_allgatherv", .neighborAllgatherv), ("neighbor_alltoall", .neighborAlltoall),
    ("neighbor_alltoallv", .neighborAlltoallv), ("neighbor_alltoallw", .neighborAlltoallw),
    ("reduce", .reduce), ("reduce_scatter", .reduceScatter),
    ("reduce_scatter_block", .reduceScatterBlock), ("scan", .scan), ("scatter", .scatter),
    ("scatterv", .scatterv)]

/-- See lines 371-461. -/
def parseColl (s : List Char) : Option CollType :=
  match collNames.find? fun p => p.1.toList = s with
  | some p => some ⟨p.2, false⟩
  | none => (collNames.find? fun p => 'i' :: p.1.toList = s).map fun p => ⟨p.2, true⟩

/-- The keys without a number. See lines 357-541. -/
def plainKeys : List (String × Op) :=
  [("is_multi_threaded=yes", .isMultiThreaded true), ("is_multi_threaded=no", .isMultiThreaded false),
    ("comm_type=intra", .commTypeIntra), ("comm_type=inter", .commTypeInter),
    ("comm_size=pow2", .commSizePow2), ("comm_size=node_comm_size", .commSizeNodeCommSize),
    ("count<pow2", .countLtPow2), ("is_commutative=yes", .isCommutative true),
    ("is_commutative=no", .isCommutative false), ("is_sendbuf_inplace=yes", .isSbufInplace true),
    ("is_sendbuf_inplace=no", .isSbufInplace false), ("is_op_built_in=yes", .isOpBuiltIn true),
    ("is_op_built_in=no", .isOpBuiltIn false), ("is_block_regular=yes", .isBlockRegular true),
    ("is_block_regular=no", .isBlockRegular false),
    ("is_node_consecutive=yes", .isNodeConsecutive true),
    ("is_node_consecutive=no", .isNodeConsecutive false),
    ("comm_hierarchy=parent", .commHierarchy .parent),
    ("comm_hierarchy=node_roots", .commHierarchy .nodeRoots),
    ("comm_hierarchy=node", .commHierarchy .node), ("comm_hierarchy=flat", .commHierarchy .flat),
    ("any", .any)]

/-- The keys with a number; those with `<=` come before those with `<`. See
lines 465-530. -/
def numberKeys : List (String × (Int → Op)) :=
  [("comm_size<=", .commSizeLe), ("comm_size<", .commSizeLt), ("count<=", .countLe),
    ("avg_msg_size<=", .avgMsgSizeLe), ("avg_msg_size<", .avgMsgSizeLt),
    ("total_msg_size<=", .totalMsgSizeLe), ("total_msg_size<", .totalMsgSizeLt),
    ("comm_avg_ppn<=", .commAvgPpnLe), ("comm_avg_ppn<", .commAvgPpnLt)]

/-- The operator of a key without spaces. See lines 357-549, `key_is_any`
(:316). -/
def parseOp (ckey : List Char) : Option Op :=
  match plainKeys.find? fun p => p.1.toList = ckey with
  | some p => some p.2
  | none =>
    match after "collective=" ckey with
    | some s => (parseColl s).map .collective
    | none =>
      match numberKeys.findSome? fun p => (after p.1 ckey).map fun s => p.2 (atoi s) with
      | some op => some op
      | none => if "=any".toList.isSuffixOf ckey then some .any else none

/-- A key of a container. See line 341. -/
def isContainerKey (ckey : List Char) : Bool :=
  "composition=".toList.isPrefixOf ckey || "algorithm=".toList.isPrefixOf ckey

mutual

/-- `parse_json_tree` (:327). -/
def parseJsonTree {C : Type} (createContainer : Json → C) : Json → Option (Tree C)
  | .other => none
  | .object fields => parseFields createContainer (.object fields) fields

/-- The fields of an object, from one on: a container takes the place of the whole object. -/
def parseFields {C : Type} (createContainer : Json → C) (obj : Json) :
    List (String × Json) → Option (Tree C)
  | [] => some .null
  | (key, val) :: fields => do
    match val with
    | .other => none
    | .object fields' =>
      if isContainerKey (noSpaces key) then some (.container (createContainer obj))
      else do
        let success ← parseFields createContainer (.object fields') fields'
        let op ← parseOp (noSpaces key)
        match ← parseFields createContainer obj fields with
        | .container c => some (.container c)
        | failure => some (.node op success failure)

end

/-! ## What a call asks for -/

section call

variable (comm : Comm) (collType : CollType) (args : Args)

def sumCounts (n : Nat) (counts : List Int) : Option Int :=
  if n ≤ counts.length then some (counts.take n).sum else none

/-- `get_avg_msgsize` (:868). -/
def getAvgMsgsize : Option Int :=
  match collType.coll with
  | .allreduce => some (args.datatype.size * args.count)
  | .bcast => some (args.datatype.size * args.count)
  | .reduce => some (args.datatype.size * args.count)
  | .alltoall => some (args.sendtype.size * args.sendcount)
  | _ => none

/-- `get_count` (:922). -/
def getCount : Option Int :=
  match collType.coll with
  | .bcast => if collType.nonblocking then none else some args.count
  | .allreduce => some args.count
  | .reduce => some args.count
  | .allgather => some args.recvcount
  | .allgatherv => sumCounts comm.localSize args.recvcounts
  | .reduceScatter => sumCounts comm.localSize args.recvcounts
  | .reduceScatterBlock => some args.recvcount
  | _ => none

/-- Gather at the root of an intercommunicator uses what is received, else what is sent; scatter the
other way round. See lines 1032-1058. -/
def gatherSize (rootcount count : Int) : Int :=
  if args.root = .root then
    if comm.intra then rootcount * comm.localSize else rootcount * comm.remoteSize
  else count * comm.localSize

/-- `get_total_msgsize` (:981). -/
def getTotalMsgsize : Option Int :=
  match collType.coll with
  | .allreduce => some (args.datatype.size * (args.count * comm.localSize))
  | .bcast => some (args.datatype.size * (args.count * comm.localSize))
  | .reduce => some (args.datatype.size * (args.count * comm.localSize))
  | .alltoall => some (args.sendtype.size * (args.sendcount * comm.localSize))
  | .alltoallv => (sumCounts comm.localSize args.sendcounts).map fun n => args.sendtype.size * n
  | .alltoallw =>
    if comm.localSize ≤ args.sendcounts.length ∧ comm.localSize ≤ args.sendtypes.length then
      some (((args.sendcounts.zip args.sendtypes).take comm.localSize).map fun p =>
        p.1 * p.2.size).sum
    else none
  | .allgather => some (args.recvtype.size * (args.recvcount * comm.localSize))
  | .allgatherv => (sumCounts comm.localSize args.recvcounts).map fun n => args.recvtype.size * n
  | .gather => some (gatherSize comm args args.recvcount args.sendcount)
  | .scatter => some (gatherSize comm args args.sendcount args.recvcount)
  | .reduceScatter => (sumCounts comm.localSize args.recvcounts).map fun n => args.datatype.size * n
  | .reduceScatterBlock =>
    if collType.nonblocking then some (args.recvcount * comm.localSize)
    else some (args.datatype.size * (args.recvcount * comm.localSize))
  | _ => none

/-- `is_sendbuf_inplace` (:738). -/
def isSendbufInplace : Option Bool :=
  match collType.coll with
  | .alltoall => some args.inPlace
  | .alltoallv => some args.inPlace
  | .alltoallw => some args.inPlace
  | _ => none

/-- `is_commutative` (:769). -/
def isCommutative : Option Bool :=
  match collType.coll with
  | .allreduce => some args.op.commutative
  | .reduce => some args.op.commutative
  | .reduceScatter => some args.op.commutative
  | .reduceScatterBlock => some args.op.commutative
  | _ => none

/-- `is_op_built_in` (:806). -/
def isOpBuiltIn : Option Bool :=
  match collType.coll with
  | .allreduce => some args.op.builtin
  | .reduce => some args.op.builtin
  | _ => none

/-- All counts are the same. See line 850. -/
def regular : List Int → Bool
  | a :: b :: l => a == b && regular (b :: l)
  | _ => true

/-- `is_block_regular` (:831). -/
def isBlockRegular : Option Bool :=
  match collType.coll with
  | .reduceScatter =>
    if comm.localSize ≤ args.recvcounts.length then
      some (regular (args.recvcounts.take comm.localSize))
    else none
  | _ => none

end call

/-! ## Searching and pruning -/

section search

variable {C : Type} (threaded : Bool) (comm : Comm) (collType : CollType) (args : Args)

/-- The power of two test. See line 640, line 1240. -/
def isPow2 (n : Nat) : Bool := n &&& (n - 1) == 0

/-- `MPIR_Csel_search` (:1195). -/
def searchTest : Op → Option Bool
  | .isMultiThreaded val => some (threaded == val)
  | .commTypeIntra => some comm.intra
  | .commTypeInter => some (!comm.intra)
  | .commSizeLe val => some ((comm.localSize : Int) ≤ val)
  | .commSizeLt val => some ((comm.localSize : Int) ≤ val)
  | .commSizeNodeCommSize => some (comm.nodeCommSize == some comm.localSize)
  | .commSizePow2 => some (isPow2 comm.localSize)
  | .commHierarchy val => some (comm.hierarchyKind == val)
  | .isNodeConsecutive val => some (comm.isNodeConsecutive == val)
  | .commAvgPpnLe val => some ((comm.localSize : Int) ≤ val * comm.nodeCount)
  | .commAvgPpnLt val => some ((comm.localSize : Int) < val * comm.nodeCount)
  | .collective c => some (c == collType)
  | .avgMsgSizeLe val => (getAvgMsgsize collType args).map fun n => n ≤ val
  | .avgMsgSizeLt val => (getAvgMsgsize collType args).map fun n => n < val
  | .totalMsgSizeLe val => (getTotalMsgsize comm collType args).map fun n => n ≤ val
  | .totalMsgSizeLt val => (getTotalMsgsize comm collType args).map fun n => n < val
  | .countLe val => (getCount comm collType args).map fun n => n ≤ val
  | .countLtPow2 => (getCount comm collType args).map fun n => n < (comm.pof2 : Int)
  | .isSbufInplace val => (isSendbufInplace collType args).map fun b => b == val
  | .isBlockRegular val => (isBlockRegular comm collType args).map fun b => b == val
  | .isCommutative val => (isCommutative collType args).map fun b => b == val
  | .isOpBuiltIn val => (isOpBuiltIn collType args).map fun b => b == val
  | .any => some true

/-- Line 1180. -/
def search : Tree C → Option (Option C)
  | .null => some none
  | .container c => some (some c)
  | .node op success failure => do
    if ← searchTest threaded comm collType args op then search success else search failure

/-- `prune_tree` (:602). -/
def pruneTest : Op → Option Bool
  | .commTypeIntra => some comm.intra
  | .commTypeInter => some (!comm.intra)
  | .commSizeLe val => some ((comm.localSize : Int) ≤ val)
  | .commSizeLt val => some ((comm.localSize : Int) < val)
  | .commSizeNodeCommSize => some (comm.nodeCommSize == some comm.localSize)
  | .commSizePow2 => some (isPow2 comm.localSize)
  | .commHierarchy val => some (comm.hierarchyKind == val)
  | .isNodeConsecutive val => some (comm.isNodeConsecutive == val)
  | .commAvgPpnLe val => some ((comm.localSize : Int) ≤ val * comm.nodeCount)
  | .commAvgPpnLt val => some ((comm.localSize : Int) < val * comm.nodeCount)
  | .any => some true
  | _ => none

/-- Line 598. -/
def pruneWalk : Tree C → Option (Tree C)
  | .null => none
  | .container c => some (.container c)
  | .node op success failure =>
    match pruneTest comm op with
    | some true => pruneWalk success
    | some false => pruneWalk failure
    | none => some (.node op success failure)

/-- Line 598. -/
def pruneTree (root : Tree C) : Tree C := (pruneWalk comm root).getD root

/-- The trees of the operations; a later operator for an operation takes the place of an earlier
one. `MPIR_Csel_prune` (:712). -/
def pruneColls : Tree C → (CollType → Tree C) → Option (CollType → Tree C)
  | .null, trees => some trees
  | .node (.collective c) success failure, trees =>
    pruneColls failure fun c' => if c' = c then pruneTree comm success else trees c'
  | _, _ => none

/-- Line 685. -/
def cselPrune (root : Tree C) : Option (CollType → Tree C) :=
  pruneColls comm (pruneTree comm root) fun _ => .null

/-- `MPIR_Csel_search` (:1189). -/
def searchPruned (trees : CollType → Tree C) : Option (Option C) :=
  search threaded comm collType args (trees collType)

end search

end PsMpi.Csel
