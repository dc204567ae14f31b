import Mathlib.Algebra.GroupWithZero.Nat
import Mathlib.Algebra.Ring.Int.Defs
import PsMpi.Lib.PtrTree

/-!
# Generic AVL trees of buffers

See `mpich2/src/mpl/src/gavl/mpl_gavl.c`.
-/

open PsMpi.Lib.PtrTree

namespace PsMpi.Gavl

/-- What a node carries apart from its links. `MPLI_gavl_tree_node_s` (`mpl_gavl.h:44`). -/
structure Info (β : Type) where
  height : Nat
  addr : Nat
  len : Nat
  val : β

/-- A tree with the nodes in memory, the address of the next new one, and the calls of the user free
function. `MPLI_gavl_tree_s` (:59). -/
structure GavlTree (β : Type) where
  heap : Heap (Info β)
  fresh : Nat
  root : Option Nat
  gavlFreeFn : Bool
  stack : List Nat
  curNode : Option Nat
  removeList : Option Nat
  freed : List β

/-- `MPLI_GAVL_MAX_STACK_SIZE` (:28). -/
def maxStackSize : Nat := 64

/-- `:30`. -/
inductive Cmp where
  | searchLeft
  | searchRight
  | bufferMatch
deriving DecidableEq

/-- `:37`. -/
inductive Mode where
  | subset
  | intersection
  | startAddr

section gavl

variable {β : Type}

/-! ## Comparisons -/

/-- `uintptr_t`. -/
def uintptr (n : Nat) : Nat := n % 2 ^ 64

/-- `MPLI_gavl_subset_cmp_func` (:73). -/
def subsetCmp (tnode : Info β) (ustart len : Nat) : Cmp :=
  let uend := uintptr (ustart + len)
  let tstart := tnode.addr
  let tend := uintptr (tnode.addr + tnode.len)
  if tstart ≤ ustart ∧ uend ≤ tend then .bufferMatch
  else if ustart < tstart then .searchLeft
  else .searchRight

/-- `MPLI_gavl_intersect_cmp_func` (:92). -/
def intersectCmp (tnode : Info β) (ustart len : Nat) : Cmp :=
  let uend := uintptr (ustart + len)
  let tstart := tnode.addr
  let tend := uintptr (tnode.addr + tnode.len)
  if uend ≤ tstart then .searchLeft
  else if tend ≤ ustart then .searchRight
  else .bufferMatch

/-- `MPLI_gavl_start_addr_cmp_func` (:111). -/
def startAddrCmp (tnode : Info β) (ustart : Nat) : Cmp :=
  let tstart := tnode.addr
  if tstart = ustart then .bufferMatch
  else if ustart < tstart then .searchLeft
  else .searchRight

/-- `GAVL_TREE_NODE_CMP` (:17). -/
def nodeCmp (tnode : Info β) (addr len : Nat) : Mode → Cmp
  | .subset => subsetCmp tnode addr len
  | .intersection => intersectCmp tnode addr len
  | .startAddr => startAddrCmp tnode addr

/-! ## Links and heights -/

def setChild (H : Heap (Info β)) (d : Side) (p : Nat) (x : Option Nat) : Option (Heap (Info β)) :=
  (H p).map fun n => Function.update H p (some (n.setChild x d))

def setParent (H : Heap (Info β)) (p : Nat) (x : Option Nat) : Option (Heap (Info β)) :=
  (H p).map fun n => Function.update H p (some { n with parent := x })

def setParent? (H : Heap (Info β)) (p x : Option Nat) : Option (Heap (Info β)) :=
  match p with
  | none => some H
  | some p => setParent H p x

def replaceChild (H : Heap (Info β)) (p : Nat) (old : Nat) (new : Option Nat) :
    Option (Heap (Info β)) :=
  (H p).bind fun n => setChild H (if n.left = some old then .left else .right) p new

def replaceChild? (H : Heap (Info β)) (p : Option Nat) (old : Nat) (new : Option Nat) :
    Option (Heap (Info β)) :=
  match p with
  | none => some H
  | some p => replaceChild H p old new

def height (H : Heap (Info β)) : Option Nat → Option Nat
  | none => some 0
  | some p => (H p).map fun n => n.info.height

/-- `gavl_update_node_info` (:53). -/
def updateNodeInfo (H : Heap (Info β)) (p : Nat) : Option (Heap (Info β)) := do
  let n ← H p
  let lheight ← height H n.left
  let rheight ← height H n.right
  return Function.update H p
    (some { n with info := { n.info with height := (if lheight < rheight then rheight else lheight) + 1 } })

def rotation (d : Side) (H : Heap (Info β)) (parentPtr child : Nat) : Option (Heap (Info β)) := do
  let c ← H child
  let H ← setChild H d parentPtr (c.child d.flip)
  let H ← setChild H d.flip child (some parentPtr)
  let q ← H parentPtr
  let H ← setParent H child q.parent
  let H ← replaceChild? H q.parent parentPtr (some child)
  let H ← setParent H parentPtr (some child)
  let q ← H parentPtr
  let H ← setParent? H (q.child d) (some parentPtr)
  let H ← updateNodeInfo H parentPtr
  updateNodeInfo H child

/-- `gavl_right_rotation` (:61). -/
def rightRotation (H : Heap (Info β)) (parentPtr lchild : Nat) : Option (Heap (Info β)) :=
  rotation .left H parentPtr lchild

/-- `gavl_left_rotation` (:82). -/
def leftRotation (H : Heap (Info β)) (parentPtr rchild : Nat) : Option (Heap (Info β)) :=
  rotation .right H parentPtr rchild

/-- `gavl_left_right_rotation` (:103). -/
def leftRightRotation (H : Heap (Info β)) (parentPtr lchild : Nat) : Option (Heap (Info β)) := do
  let rlchild ← (← H lchild).right
  let H ← leftRotation H lchild rlchild
  rightRotation H parentPtr rlchild

/-- `gavl_right_left_rotation` (:112). -/
def rightLeftRotation (H : Heap (Info β)) (parentPtr rchild : Nat) : Option (Heap (Info β)) := do
  let lrchild ← (← H rchild).left
  let H ← rightRotation H rchild lrchild
  leftRotation H parentPtr lrchild

/-! ## Rebalancing -/

/-- `gavl_tree_rebalance` (:191). -/
def rebalanceNode (H : Heap (Info β)) (curNode : Nat) : Option (Heap (Info β)) := do
  let H ← updateNodeInfo H curNode
  let cur ← H curNode
  let lheight ← height H cur.left
  let rheight ← height H cur.right
  if rheight + 1 < lheight then do
    let lnode ← cur.left
    let llheight ← height H (← H lnode).left
    if llheight + 1 = lheight then rightRotation H curNode lnode
    else leftRightRotation H curNode lnode
  else if lheight + 1 < rheight then do
    let rnode ← cur.right
    let rlheight ← height H (← H rnode).left
    if rlheight + 1 = rheight then rightLeftRotation H curNode rnode
    else leftRotation H curNode rnode
  else some H

/-- Line 190. -/
def rebalanceLoop : List Nat → Heap (Info β) → Nat → Option (Heap (Info β))
  | [], H, curNode => rebalanceNode H curNode
  | p :: stack, H, curNode => do
    let H ← rebalanceNode H curNode
    rebalanceLoop stack H p

/-- Line 238. -/
def climb : Nat → Heap (Info β) → Nat → Option Nat
  | 0, _, _ => none
  | todo + 1, H, p => do
    match (← H p).parent with
    | none => some p
    | some q => climb todo H q

/-- Line 185. -/
def rebalance (t : GavlTree β) : Option (GavlTree β) :=
  match t.curNode with
  | none => some t
  | some curNode => do
    let H ← rebalanceLoop t.stack t.heap curNode
    match t.root with
    | none => some { t with heap := H, stack := [] }
    | some root => do
      let root ← climb (t.fresh + 1) H root
      return { t with heap := H, stack := [], root := some root }

/-! ## Search -/

/-- `TREE_STACK_PUSH` (:33). -/
def push (stack : List Nat) (p : Nat) : Option (List Nat) :=
  if stack.length < maxStackSize then some (p :: stack) else none

/-- `gavl_tree_search_internal` (:155). -/
def searchLoop (H : Heap (Info β)) (addr len : Nat) (mode : Mode) :
    Nat → List Nat → Nat → Option (List Nat × Nat × Cmp)
  | 0, _, _ => none
  | todo + 1, stack, curNode => do
    let cur ← H curNode
    let cmpRet := nodeCmp cur.info addr len mode
    let next := match cmpRet with
      | .searchLeft => cur.left
      | .searchRight => cur.right
      | .bufferMatch => none
    match next with
    | some next => do
      let stack ← push stack curNode
      searchLoop H addr len mode todo stack next
    | none => some (stack, curNode, cmpRet)

/-- Line 146. -/
def searchInternal (t : GavlTree β) (addr len : Nat) (mode : Mode) :
    Option (GavlTree β × Nat × Cmp) := do
  let (stack, curNode, cmpRet) ←
    searchLoop t.heap addr len mode (maxStackSize + 1) [] (← t.root)
  return ({ t with stack := stack, curNode := some curNode }, curNode, cmpRet)

/-- Look for a range that contains another one. `MPL_gavl_tree_search` (:138). -/
def lookupLoop (H : Heap (Info β)) (addr len : Nat) : Nat → Option Nat → Option (Option β)
  | _, none => some none
  | 0, some _ => none
  | todo + 1, some curNode => do
    let cur ← H curNode
    match subsetCmp cur.info addr len with
    | .bufferMatch => some (some cur.info.val)
    | .searchLeft => lookupLoop H addr len todo cur.left
    | .searchRight => lookupLoop H addr len todo cur.right

/-- Line 130. -/
def search (t : GavlTree β) (addr len : Nat) : Option (Option β) :=
  lookupLoop t.heap addr len (t.fresh + 1) t.root

/-! ## Removal -/

/-- `gavl_tree_remove_node_internal` (:387). -/
def leftmost (H : Heap (Info β)) : Nat → List Nat → Nat → Option (List Nat × Nat)
  | 0, _, _ => none
  | todo + 1, stack, p => do
    match (← H p).left with
    | none => some (stack, p)
    | some q => do
      let stack ← push stack p
      leftmost H todo stack q

/-- Line 352. -/
def unlinkNode (t : GavlTree β) (dnode : Nat) : Option (GavlTree β) := do
  let d ← t.heap dnode
  match d.parent with
  | none => do
    let H ← setParent? t.heap d.left none
    return { t with heap := H, root := d.left }
  | some p => do
    let H ← replaceChild t.heap p dnode d.left
    let H ← setParent? H d.left (some p)
    let stack ← push t.stack p
    return { t with heap := H, stack := stack }

/-- Line 380. -/
def exchangeNode (t : GavlTree β) (dnode right : Nat) : Option (GavlTree β × Nat) := do
  let stack ← push t.stack dnode
  let (stack, inorderNode) ← leftmost t.heap (maxStackSize + 1) stack right
  let m ← t.heap inorderNode
  let H ← setParent? t.heap m.right m.parent
  let p ← m.parent
  let H ← (if p ≠ dnode then setChild H .left p m.right else setChild H .right dnode m.right)
  let d ← H dnode
  let m ← H inorderNode
  let H := Function.update H dnode (some { d with info := { m.info with height := d.info.height } })
  let H := Function.update H inorderNode
    (some { m with info := { d.info with height := m.info.height } })
  return ({ t with heap := H, stack := stack }, inorderNode)

/-- Line 347. -/
def removeNodeInternal (t : GavlTree β) (dnode : Nat) : Option (GavlTree β) := do
  let d ← t.heap dnode
  let (t, dnode) ← (match d.right with
    | none => (unlinkNode t dnode).map fun t => (t, dnode)
    | some right => exchangeNode t dnode right)
  let H ← setParent t.heap dnode t.removeList
  let t := { t with heap := H, removeList := some dnode }
  match t.stack with
  | [] => some { t with curNode := none }
  | p :: stack => some { t with curNode := some p, stack := stack }

/-- `gavl_tree_remove_nodes` (:476). -/
def removeLoop (addr len : Nat) (mode : Mode) : Nat → GavlTree β → Option (GavlTree β)
  | 0, _ => none
  | todo + 1, t =>
    match t.root with
    | none => some t
    | some _ => do
      let (t, dnode, cmpRet) ← searchInternal t addr len mode
      if cmpRet = .bufferMatch then do
        let t ← removeNodeInternal t dnode
        let t ← rebalance t
        removeLoop addr len mode todo t
      else some t

/-- Line 470. -/
def removeNodes (t : GavlTree β) (addr len : Nat) (mode : Mode) : Option (GavlTree β) :=
  removeLoop addr len mode (t.fresh + 1) t

/-- Call the user free function on the buffer object of a node, and free the node. -/
def freeNode (t : GavlTree β) (p : Nat) : Option (GavlTree β) := do
  let n ← t.heap p
  return { t with
    heap := Function.update t.heap p none
    freed := if t.gavlFreeFn then t.freed ++ [n.info.val] else t.freed }

/-- `gavl_tree_delete_removed_nodes` (:511). -/
def deleteRemovedLoop (addr len : Nat) (mode : Mode) :
    Nat → GavlTree β → Option Nat → Option Nat → Option (GavlTree β)
  | _, t, _, none => some t
  | 0, _, _, some _ => none
  | todo + 1, t, prev, some cur => do
    let n ← t.heap cur
    let next := n.parent
    if nodeCmp n.info addr len mode = .bufferMatch then do
      let t ← (match prev with
        | some prev => (setParent t.heap prev next).map fun H => { t with heap := H }
        | none => some { t with removeList := next })
      let t ← freeNode t cur
      deleteRemovedLoop addr len mode todo t prev next
    else deleteRemovedLoop addr len mode todo t (some cur) next

/-- Line 502. -/
def deleteRemovedNodes (t : GavlTree β) (addr len : Nat) (mode : Mode) : Option (GavlTree β) :=
  deleteRemovedLoop addr len mode (t.fresh + 1) t none t.removeList

/-! ## The functions of the tree -/

/-- `MPL_gavl_tree_create` (:127). -/
def create (freeFn : Bool) : GavlTree β := ⟨fun _ => none, 0, none, freeFn, [], none, none, []⟩

/-- Insert a range with its buffer object; `memory` says whether there is memory for the node.
`MPL_gavl_tree_insert` (:256). -/
def insert (t : GavlTree β) (addr len : Nat) (val : β) (memory : Bool) :
    Option (GavlTree β × Bool) := do
  let t ← removeNodes t addr len .subset
  if memory then do
    let node := t.fresh
    let t := { t with
      heap := Function.update t.heap node (some ⟨none, none, none, ⟨1, addr, len, val⟩⟩)
      fresh := t.fresh + 1 }
    match t.root with
    | none => some ({ t with root := some node }, true)
    | some _ => do
      let (t, pnode, cmpRet) ← searchInternal t addr len .subset
      match cmpRet with
      | .bufferMatch => do
        let t ← freeNode t node
        return (t, true)
      | _ => do
        let H ← setChild t.heap (if cmpRet = .searchLeft then .left else .right) pnode (some node)
        let H ← setParent H node (some pnode)
        let t ← rebalance { t with heap := H }
        return (t, true)
  else some (t, false)

/-- `MPL_gavl_tree_delete_range` (:437). -/
def deleteRange (t : GavlTree β) (addr len : Nat) : Option (GavlTree β) := do
  let t ← removeNodes t addr len .intersection
  deleteRemovedNodes t addr len .intersection

/-- `MPL_gavl_tree_delete_start_addr` (:460). -/
def deleteStartAddr (t : GavlTree β) (addr : Nat) : Option (GavlTree β) := do
  let t ← removeNodes t addr 0 .startAddr
  deleteRemovedNodes t addr 0 .startAddr

/-- `MPL_gavl_tree_destroy` (:324). -/
def destroyLoop : Nat → GavlTree β → Option Nat → Option (GavlTree β)
  | _, t, none => some t
  | 0, _, some _ => none
  | todo + 1, t, some curNode => do
    let cur ← t.heap curNode
    match cur.left, cur.right with
    | some l, _ => destroyLoop todo t (some l)
    | none, some r => destroyLoop todo t (some r)
    | none, none => do
      let H ← replaceChild? t.heap cur.parent curNode none
      let t ← freeNode { t with heap := H } curNode
      destroyLoop todo t cur.parent

/-- Line 318. -/
def destroy (t : GavlTree β) : Option (List β) := do
  let t ← destroyLoop (2 * t.fresh + 1) t t.root
  return t.freed

end gavl

end PsMpi.Gavl
