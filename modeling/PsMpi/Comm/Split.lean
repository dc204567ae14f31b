import Mathlib.Data.List.Basic

/-!
# Splitting a communicator

See `mpich2/src/mpi/comm/comm_split.c`.
-/

set_option linter.all false

namespace PsMpi.Comm

/-- `MPI_UNDEFINED` (`mpi.h.in:545`). -/
def undefined : Int := -32766

/-- `splittype` (:8). -/
structure Splittype where
  color : Int
  key : Int
deriving DecidableEq

/-- `sorttype` (:15). -/
structure Sorttype where
  color : Int
  key : Int
  origIdx : Int

/-! ## Sorting -/

/-- `sorttype_compare` (:21). -/
def sorttypeCompare (s1 s2 : Sorttype) : Int :=
  if s2.key < s1.key then 1
  else if s1.key < s2.key then -1
  else if s2.origIdx < s1.origIdx then 1
  else if s1.origIdx < s2.origIdx then -1
  else 0

/-- The function `qsort` of the C library with this comparison: entries that compare equal may be in
any order. -/
structure Qsort where
  run : List Sorttype → List Sorttype
  perm : ∀ l, (run l).Perm l
  sorted : ∀ l, (run l).Pairwise fun s1 s2 => sorttypeCompare s1 s2 ≤ 0

/-- `MPIU_Sort_inttable` (:55). -/
def setOrigIdx (keytable : List Sorttype) : List Sorttype :=
  keytable.mapIdx fun i e => { e with origIdx := i }

/-- Move entries with larger keys up, from the entry below `j` on; the result has the place for the
entry `tmp`. Line 64. -/
def shiftLoop (tmp : Sorttype) : Nat → List Sorttype → Option (List Sorttype × Nat)
  | 0, keytable => some (keytable, 0)
  | j + 1, keytable => do
    let e ← keytable[j]?
    if tmp.key < e.key then shiftLoop tmp j (keytable.set (j + 1) e) else some (keytable, j + 1)

/-- Line 62. -/
def insertEntry (keytable : List Sorttype) (i : Nat) : Option (List Sorttype) := do
  let tmp ← keytable[i]?
  let (keytable, j) ← shiftLoop tmp i keytable
  return keytable.set j tmp

/-- Line 45. -/
def sortInttable (qsort : Option Qsort) (keytable : List Sorttype) : Option (List Sorttype) :=
  match qsort with
  | some q => some (q.run (setOrigIdx keytable))
  | none => (List.range' 1 (keytable.length - 1)).foldlM insertEntry keytable

/-! ## Entries of a color -/

/-- A table whose entries of a color are chained: the entries so far, and where the index of the next
one is written, which is `first` or the color of an entry. -/
structure Chain where
  table : List Splittype
  first : Int
  last : Option Nat
  size : Nat

def Chain.link (c : Chain) (i : Nat) : Chain :=
  match c.last with
  | none => { c with first := i, last := some i, size := c.size + 1 }
  | some k => { c with
      table := c.table.modify k fun e => { e with color := i }, last := some i, size := c.size + 1 }

def chainStep (color : Int) (c : Chain) (i : Nat) : Option Chain := do
  let e ← c.table[i]?
  return if e.color = color then c.link i else c

/-- `MPIR_Comm_split_impl` (:127, :169). -/
def chainColor (color : Int) (table : List Splittype) : Option Chain :=
  (List.range table.length).foldlM (chainStep color) ⟨table, 0, none, 0⟩

/-- `MPIR_Comm_split_impl` (:253, :267). -/
def fillKeytable (table : List Splittype) : Nat → Int → Option (List Sorttype)
  | 0, _ => some []
  | n + 1, first => do
    let e ← if 0 ≤ first then table[first.toNat]? else none
    let rest ← fillKeytable table n e.color
    return ⟨first, e.key, 0⟩ :: rest

def sortedRanks (qsort : Option Qsort) (c : Chain) : Option (List Int) := do
  let keytable ← fillKeytable c.table c.size c.first
  let keytable ← sortInttable qsort keytable
  return keytable.map Sorttype.color

/-! ## The new communicator -/

/-- `MPIR_Comm_kind_t` (`mpir_comm.h`). -/
inductive Kind where
  | intracomm
  | intercomm
deriving DecidableEq

structure CommPtr where
  commKind : Kind
  rank : Nat
  isLowGroup : Bool

/-- A new communicator: `l2l` and `r2r` map its local and its remote group to those of the old one.
-/
structure Newcomm where
  recvcontextId : Nat
  contextId : Nat
  localSize : Nat
  remoteSize : Nat
  commKind : Kind
  rank : Option Nat
  l2l : List Int
  r2r : List Int
  isLowGroup : Option Bool

/-- `MPIR_Comm_split_impl` (:282, :320). -/
def findRank (rank : Nat) (l2l : List Int) : Option Nat :=
  ((List.range l2l.length).filter fun i => l2l[i]? = some (rank : Int)).getLast?

/-- Line 145. -/
def remoteChain (kind : Kind) (color : Int) (remotetable : List Splittype) : Option Chain :=
  match kind with
  | .intracomm => some ⟨[], 0, none, 0⟩
  | .intercomm => chainColor color remotetable

/-- Line 120. -/
def localChain (color : Int) (table : List Splittype) : Option Chain :=
  if color ≠ undefined then chainColor color table else some ⟨table, 0, none, 0⟩

/-- Line 232. -/
def makeNewcomm (qsort : Option Qsort) (comm : CommPtr) (c rc : Chain)
    (newContextId remoteContextId : Nat) : Option Newcomm := do
  let l2l ← sortedRanks qsort c
  match comm.commKind with
  | .intercomm =>
    let r2r ← sortedRanks qsort rc
    return ⟨newContextId, remoteContextId, c.size, rc.size, .intercomm, findRank comm.rank l2l, l2l,
      r2r, some comm.isLowGroup⟩
  | .intracomm =>
    return ⟨newContextId, newContextId, c.size, c.size, .intracomm, findRank comm.rank l2l, l2l, [],
      none⟩

/-- Line 82. -/
def splitImpl (qsort : Option Qsort) (comm : CommPtr) (table remotetable : List Splittype)
    (color : Int) (getContextid : Bool → Nat) (remoteContextId : Nat) : Option (Option Newcomm × Bool) := do
  let c ← localChain color table
  let rc ← remoteChain comm.commKind color remotetable
  let newRemoteSize := if comm.commKind = .intercomm then rc.size else c.size
  let inNewcomm := decide (color ≠ undefined ∧ 0 < newRemoteSize)
  -- the root of an intercommunicator exchanges the ids, so that it always gets one
  let isRoot := decide (comm.commKind = .intercomm ∧ comm.rank = 0)
  let newContextId := getContextid (!isRoot && !inNewcomm)
  if inNewcomm then
    let newcomm ← makeNewcomm qsort comm c rc newContextId remoteContextId
    return (some newcomm, false)
  else return (none, isRoot)

end PsMpi.Comm
