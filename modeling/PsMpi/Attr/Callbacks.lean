import PsMpi.Attr.Lists

/-!
# Delete callbacks that change their list

See `mpich2/src/mpi/attr/attr_impl.c` and `mpich2/src/mpi/attr/attrutil.c`.
-/

namespace PsMpi.Attr

/-- An entry of a list: its address, its keyval, its value, and the number of the value. -/
structure Entry (V : Type) where
  addr : Nat
  keyval : Int
  value : V
  inst : Nat

/-- The list of an object: the entries that its pointers lead to, the addresses of those that have
been freed, and how many addresses and values there have been. -/
structure Mem (V : Type) where
  chain : List (Entry V)
  freed : List Nat
  addrs : Nat
  insts : Nat
  removed : List Nat

/-- The result of a computation: an access to an entry that has been freed, a callback that does not
return, or a value. -/
inductive Res (V α : Type) where
  | fault
  | halted (m : Mem V)
  | ok (x : α)

def Res.bind {V α β : Type} : Res V α → (α → Res V β) → Res V β
  | .fault, _ => .fault
  | .halted m, _ => .halted m
  | .ok x, f => f x

inductive Op (V : Type) where
  | set (h : Int) (v : V)
  | delete (h : Int)

/-- What a callback does: operations, with what the callbacks do that they call, until it returns
whether it has succeeded, or does not return. -/
inductive Beh (V : Type) where
  | done (ok : Bool)
  | cut
  | op (o : Op V) (inner rest : Beh V)

/-! ## Traversals -/

section traversals

variable {V : Type} (kind : Kind) (hasDelete : Int → Bool)

def walk (freed : List Nat) (stop : Entry V → Bool) : List (Entry V) → Res V (Option (Entry V))
  | [] => .ok none
  | e :: l => if e.addr ∈ freed then .fault else if stop e then .ok (some e) else walk freed stop l

/-- `delete_attr` (`attr_impl.c:484`). -/
def deleteEntry (freed : List Nat) (a : Nat) : List (Entry V) → Res V (List (Entry V))
  | [] => .ok []
  | e :: l =>
    if e.addr ∈ freed then .fault
    else if e.addr = a then .ok l
    else (deleteEntry freed a l).bind fun l => .ok (e :: l)

/-- `MPIR_Call_attr_delete` (`attrutil.c:70`). -/
def callAttrDelete (cb : Mem V → Res V (Mem V × Bool)) (e : Entry V) (m : Mem V) :
    Res V (Mem V × Bool) :=
  if hasDelete e.keyval then cb m else .ok (m, true)

/-- Delete an attribute: run its callback, and take its entry out of the list if the callback has
succeeded. `MPIR_Comm_delete_attr_impl` (`attr_impl.c:508`),
`MPIR_Type_delete_attr_impl` (:700), `MPIR_Win_delete_attr_impl`
(:920). -/
def deleteAttrMem (h : Int) (cb : Mem V → Res V (Mem V × Bool)) (m : Mem V) :
    Res V (Mem V × Bool) :=
  (walk m.freed (fun e => e.keyval == h) m.chain).bind fun
    | none => .ok (m, true)
    | some p => (callAttrDelete hasDelete cb p m).bind fun (m, ok) =>
      if ok then
        (deleteEntry m.freed p.addr m.chain).bind fun chain =>
          .ok ({ m with chain, freed := p.addr :: m.freed, removed := m.removed ++ [p.inst] }, true)
      else .ok (m, false)

def insertAfter (a : Nat) (e : Entry V) : List (Entry V) → List (Entry V)
  | [] => []
  | p :: l => if p.addr = a then p :: e :: l else p :: insertAfter a e l

/-- Where the loop of a set function stops: at the keyval, and in a list that is ordered by keyvals
at a greater one. -/
def stopsAt (h : Int) (e : Entry V) : Bool :=
  e.keyval == h || (kind != .comm && decide (h < e.keyval))

def writeValue (a : Nat) (v : V) (inst : Nat) (l : List (Entry V)) : List (Entry V) :=
  l.map fun e => if e.addr = a then { e with value := v, inst } else e

/-- A new entry is put in front of the list of a communicator, and else behind the entry where the
loop has stopped or at the end. -/
def addEntry (stopped : Option (Entry V)) (h : Int) (v : V) (m : Mem V) : Mem V :=
  let e : Entry V := ⟨m.addrs, h, v, m.insts⟩
  { m with
    chain := match kind, stopped with
      | .comm, _ => e :: m.chain
      | _, some p => insertAfter p.addr e m.chain
      | _, none => m.chain ++ [e]
    addrs := m.addrs + 1
    insts := m.insts + 1 }

/-- Set an attribute: if the keyval is found, run the callback for the old value and write the new
one into the entry. `MPIR_Comm_set_attr_impl` (:406),
`MPIR_Type_set_attr_impl` (:618), `MPIR_Win_set_attr_impl` (:847). -/
def setAttrMem (h : Int) (v : V) (cb : Mem V → Res V (Mem V × Bool)) (m : Mem V) :
    Res V (Mem V × Bool) :=
  (walk m.freed (stopsAt kind h) m.chain).bind fun stopped =>
    match stopped.filter fun p => p.keyval == h with
    | some p => (callAttrDelete hasDelete cb p m).bind fun (m, ok) =>
      if ok then
        if p.addr ∈ m.freed then .fault
        else .ok ({ m with
          chain := writeValue p.addr v m.insts m.chain
          insts := m.insts + 1
          removed := m.removed ++ [p.inst] }, true)
      else .ok (m, false)
    | none => .ok (addEntry kind stopped h v m, true)

def runOp (cb : Mem V → Res V (Mem V × Bool)) : Op V → Mem V → Res V (Mem V × Bool)
  | .set h v, m => setAttrMem kind hasDelete h v cb m
  | .delete h, m => deleteAttrMem hasDelete h cb m

def Beh.run : Beh V → Mem V → Res V (Mem V × Bool)
  | .done ok, m => .ok (m, ok)
  | .cut, m => .halted m
  | .op o inner rest, m => (runOp kind hasDelete (fun m => inner.run m) o m).bind fun x =>
    rest.run x.1

def nextAddr (a : Nat) : List (Entry V) → Option Nat
  | [] => none
  | e :: l => if e.addr = a then l.head?.map Entry.addr else nextAddr a l

/-- `MPIR_Attr_delete_list` (`attrutil.c:206`). -/
def deleteListLoop : List (Beh V) → Option Nat → Mem V → Res V (Mem V)
  | _, none, m => .ok { m with chain := [] }
  | [], some _, m => .halted m
  | beh :: behs, some a, m =>
    match m.chain.find? fun e => e.addr == a with
    | none => .fault
    | some p =>
      if a ∈ m.freed then .fault
      else (callAttrDelete hasDelete (fun m => beh.run kind hasDelete m) p m).bind fun (m', _) =>
        if a ∈ m'.freed then .fault
        else deleteListLoop behs (nextAddr a m.chain)
          { m' with freed := a :: m'.freed, removed := m'.removed ++ [p.inst] }

/-- `MPIR_Attr_delete_list` (:206). -/
def deleteListMem (behs : List (Beh V)) (m : Mem V) : Res V (Mem V) :=
  deleteListLoop kind hasDelete behs (m.chain.head?.map Entry.addr) m

def Mem.ofList (l : List (Int × V)) : Mem V where
  chain := l.zipIdx.map fun x => ⟨x.2, x.1.1, x.1.2, x.2⟩
  freed := []
  addrs := l.length
  insts := l.length
  removed := []

end traversals

end PsMpi.Attr
