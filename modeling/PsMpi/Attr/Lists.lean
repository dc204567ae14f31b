import PsMpi.Lib.Trans

/-!
# Attribute lists

`mpich2/src/mpi/attr/attr_impl.c` and `mpich2/src/mpi/attr/attrutil.c`.
-/

namespace PsMpi.Attr

open PsMpi.Lib

inductive Kind where
  | comm
  | type
  | win
deriving DecidableEq

/-- `MPII_Keyval` (`mpir_attr.h:97`). -/
structure Keyval where
  kind : Kind
  refCount : Nat
  wasFreed : Bool
  hasCopy : Bool
  hasDelete : Bool

/-- `MPIR_Attribute` (:173). -/
structure Attribute (V : Type) where
  keyval : Int
  value : V
  inst : Nat

structure Obj (V : Type) where
  kind : Kind
  attributes : List (Attribute V)

/-- A delete callback has run for a value: the value goes, or the callback has failed and the value
stays. -/
inductive Ev where
  | deleted (inst : Nat)
  | refused (inst : Nat)
deriving DecidableEq

inductive CopyResult (V : Type) where
  | error
  | skip
  | copied (value : V)

/-- The keyvals and the objects. For every value that has been stored, `insts` has whether its
keyval has a delete callback. -/
structure St (V : Type) where
  keyvals : Int → Option Keyval
  objs : List (Obj V)
  insts : List Bool
  log : List Ev

section lists

variable {V : Type}

/-- `MPIR_Comm_get_attr_impl` (`attr_impl.c:366`), `MPIR_Type_get_attr_impl`
(:574), `MPIR_Win_get_attr_impl` (:806). -/
def findAttr (h : Int) (l : List (Attribute V)) : Option (Attribute V) :=
  l.find? fun p => p.keyval == h

def replaceAttr (e : Attribute V) : List (Attribute V) → List (Attribute V)
  | [] => []
  | p :: l => if p.keyval = e.keyval then e :: l else p :: replaceAttr e l

/-- Where the loop over an ordered list stops: at the attribute with the keyval, at one with a
greater handle, or at the end. `MPIR_Type_set_attr_impl` (:626), `MPIR_Win_set_attr_impl`
(:861). -/
def orderedSet (e : Attribute V) : List (Attribute V) → Option (Attribute V) × List (Attribute V)
  | [] => (none, [e])
  | p :: l =>
    if p.keyval = e.keyval then (some p, e :: l)
    else if e.keyval < p.keyval then (none, p :: e :: l)
    else ((orderedSet e l).1, p :: (orderedSet e l).2)

/-- `MPIR_Comm_set_attr_impl` (:430). -/
def recentSet (e : Attribute V) (l : List (Attribute V)) :
    Option (Attribute V) × List (Attribute V) :=
  match findAttr e.keyval l with
  | some p => (some p, replaceAttr e l)
  | none => (none, e :: l)

/-- The attribute whose value is replaced, and the list after that or after the new attribute has
been added. -/
def setList (kind : Kind) (e : Attribute V) (l : List (Attribute V)) :
    Option (Attribute V) × List (Attribute V) :=
  match kind with
  | .comm => recentSet e l
  | .type => orderedSet e l
  | .win => orderedSet e l

/-- `delete_attr` (:484). -/
def deleteAttr (p : Attribute V) (l : List (Attribute V)) : List (Attribute V) :=
  l.eraseP fun q => q.inst == p.inst

end lists

/-! ## Operations -/

section ops

variable {V : Type}

def setKeyval (ks : Int → Option Keyval) (h : Int) (k : Option Keyval) : Int → Option Keyval :=
  fun h' => if h' = h then k else ks h'

/-- `MPII_Keyval_add_ref` (`mpir_attr.h:110`). -/
def addRef (ks : Int → Option Keyval) (h : Int) : Option (Int → Option Keyval) :=
  (ks h).map fun k => setKeyval ks h (some { k with refCount := k.refCount + 1 })

/-- `MPII_Keyval_release_ref` (:115). -/
def releaseRef (ks : Int → Option Keyval) (h : Int) : Option (Int → Option Keyval) := do
  let k ← ks h
  if k.refCount = 0 then none
  else if k.refCount = 1 then some (setKeyval ks h none)
  else some (setKeyval ks h (some { k with refCount := k.refCount - 1 }))

def St.setAttrs (s : St V) (i : Nat) (l : List (Attribute V)) : St V :=
  { s with objs := s.objs.modify i fun o => { o with attributes := l } }

/-- `MPIR_Call_attr_delete` (`attrutil.c:70`). -/
def St.callDelete (s : St V) (k : Keyval) (e : Ev) : St V :=
  if k.hasDelete then { s with log := s.log ++ [e] } else s

def St.newAttr (s : St V) (h : Int) (v : V) : Attribute V := ⟨h, v, s.insts.length⟩

/-- `MPIR_Comm_create_keyval_impl` (`attr_impl.c:53`), `MPIR_Type_create_keyval_impl`
(:103), `MPIR_Win_create_keyval_impl` (:157). -/
def createKeyval (s : St V) (kind : Kind) (h : Int) (hasCopy hasDelete : Bool) : Option (St V) :=
  match s.keyvals h with
  | some _ => none
  | none => some { s with
      keyvals := setKeyval s.keyvals h (some ⟨kind, 1, false, hasCopy, hasDelete⟩) }

/-- `MPIR_free_keyval` (:10). -/
def freeKeyval (s : St V) (h : Int) : Option (St V) := do
  let k ← s.keyvals h
  if k.wasFreed then some s
  else
    let ks ← releaseRef (setKeyval s.keyvals h (some { k with wasFreed := true })) h
    return { s with keyvals := ks }

/-- `MPIR_Comm_set_attr_impl` (:406), `MPIR_Type_set_attr_impl`
(:612), `MPIR_Win_set_attr_impl` (:847). -/
def setAttr (s : St V) (i : Nat) (h : Int) (v : V) (delOk : Bool) : Option (St V) := do
  let o ← s.objs[i]?
  let k ← s.keyvals h
  if k.kind = o.kind then
    let e := s.newAttr h v
    match setList o.kind e o.attributes with
    | (some p, l) =>
      if k.hasDelete && !delOk then some (s.callDelete k (.refused p.inst))
      else some { (s.setAttrs i l).callDelete k (.deleted p.inst) with
        insts := s.insts ++ [k.hasDelete] }
    | (none, l) => do
      let ks ← addRef s.keyvals h
      return { s.setAttrs i l with keyvals := ks, insts := s.insts ++ [k.hasDelete] }
  else none

def St.dropAttr (s : St V) (i : Nat) (l : List (Attribute V)) (p : Attribute V) :
    Option (St V) := do
  let k ← s.keyvals p.keyval
  let ks ← releaseRef s.keyvals p.keyval
  return { (s.setAttrs i (deleteAttr p l)).callDelete k (.deleted p.inst) with keyvals := ks }

/-- `MPIR_Comm_delete_attr_impl` (:508), `MPIR_Type_delete_attr_impl`
(:685), `MPIR_Win_delete_attr_impl` (:918). -/
def deleteAttrImpl (s : St V) (i : Nat) (h : Int) (delOk : Bool) : Option (St V) := do
  let o ← s.objs[i]?
  let k ← s.keyvals h
  if k.kind = o.kind then
    match findAttr h o.attributes with
    | none => some s
    | some p =>
      if k.hasDelete && !delOk then some (s.callDelete k (.refused p.inst))
      else s.dropAttr i o.attributes p
  else none

/-- `MPIR_Attr_delete_list` (`attrutil.c:206`). -/
def deleteLoop (i : Nat) : List (Attribute V) → St V → Option (St V)
  | [], s => some s
  | p :: l, s => do
    let s ← s.dropAttr i (p :: l) p
    deleteLoop i l s

/-- `MPIR_Attr_delete_list` (:206). -/
def deleteList (s : St V) (i : Nat) : Option (St V) := do
  let o ← s.objs[i]?
  deleteLoop i o.attributes s

/-- What becomes of an attribute when its list is duplicated; without a copy callback it is left
out. `MPIR_Call_attr_copy` (:113). -/
def callCopy (k : Keyval) (copy : Int → V → CopyResult V) (p : Attribute V) : CopyResult V :=
  if k.hasCopy then copy p.keyval p.value else .skip

/-- Duplicate attributes to the end of a list until a callback fails; the result has whether none has
failed. `MPIR_Attr_dup_list` (:151). -/
def dupLoop (copy : Int → V → CopyResult V) (i : Nat) :
    List (Attribute V) → List (Attribute V) → St V → Option (St V × List (Attribute V) × Bool)
  | [], new, s => some (s, new, true)
  | p :: l, new, s => do
    let k ← s.keyvals p.keyval
    match callCopy k copy p with
    | .error => some (s, new, false)
    | .skip => dupLoop copy i l new s
    | .copied v => do
      let ks ← addRef s.keyvals p.keyval
      let new' := new ++ [s.newAttr p.keyval v]
      dupLoop copy i l new'
        { s.setAttrs i new' with keyvals := ks, insts := s.insts ++ [k.hasDelete] }

/-- A new object gets the attributes of another one; if a callback fails, those that have been
duplicated are deleted. Line 145. -/
def dupList (s : St V) (i : Nat) (copy : Int → V → CopyResult V) : Option (St V) := do
  let o ← s.objs[i]?
  let dst := s.objs.length
  let (s, new, ok) ← dupLoop copy dst o.attributes [] { s with objs := s.objs ++ [⟨o.kind, []⟩] }
  if ok then some s else deleteLoop dst new s

def getAttr (s : St V) (i : Nat) (h : Int) : Option V :=
  (s.objs[i]?).bind fun o => (findAttr h o.attributes).map Attribute.value

end ops

/-! ## The system -/

inductive Act (V : Type) where
  | newObj (kind : Kind)
  | createKeyval (kind : Kind) (h : Int) (hasCopy hasDelete : Bool)
  | freeKeyval (h : Int)
  | setAttr (i : Nat) (h : Int) (v : V) (delOk : Bool)
  | deleteAttr (i : Nat) (h : Int) (delOk : Bool)
  | dupList (i : Nat) (copy : Int → V → CopyResult V)
  | deleteList (i : Nat)

section system

variable {V : Type}

def step (s : St V) : Act V → Option (St V)
  | .newObj kind => some { s with objs := s.objs ++ [⟨kind, []⟩] }
  | .createKeyval kind h hasCopy hasDelete => createKeyval s kind h hasCopy hasDelete
  | .freeKeyval h => freeKeyval s h
  | .setAttr i h v delOk => setAttr s i h v delOk
  | .deleteAttr i h delOk => deleteAttrImpl s i h delOk
  | .dupList i copy => dupList s i copy
  | .deleteList i => deleteList s i

/-- The values that users have attached to the objects, by object and keyval. -/
abbrev Values (V : Type) := Nat → Int → Option V

def Values.set (m : Values V) (i : Nat) (h : Int) (v : Option V) : Values V := fun i' h' =>
  if i' = i ∧ h' = h then v else m i' h'

def St.refuses (s : St V) (h : Int) (delOk : Bool) : Bool :=
  (s.keyvals h).any fun k => k.hasDelete && !delOk

def St.copyOf (s : St V) (copy : Int → V → CopyResult V) (h : Int) (v : V) : CopyResult V :=
  if (s.keyvals h).any Keyval.hasCopy then copy h v else .skip

def St.copyFails (s : St V) (i : Nat) (copy : Int → V → CopyResult V) : Bool :=
  (s.objs[i]?).any fun o => o.attributes.any fun p =>
    match s.copyOf copy p.keyval p.value with
    | .error => true
    | _ => false

/-- What the actions do to the values: the last value that has been set is there until it is
deleted, and a failing delete callback leaves it. -/
def valuesStep (s : St V) (m : Values V) : Act V → Values V
  | .setAttr i h v delOk =>
    if (m i h).isSome && s.refuses h delOk then m else m.set i h (some v)
  | .deleteAttr i h delOk =>
    if (m i h).isSome && s.refuses h delOk then m else m.set i h none
  | .dupList i copy => fun j h =>
    if j = s.objs.length then
      if s.copyFails i copy then none
      else (m i h).bind fun v =>
        match s.copyOf copy h v with
        | .copied v => some v
        | _ => none
    else m j h
  | .deleteList i => fun j h => if j = i then none else m j h
  | _ => m

def attrSys (V : Type) : Sys (St V × Values V) (Act V) :=
  ⟨(⟨fun _ => none, [], [], []⟩, fun _ _ => none),
    fun s a => (step s.1 a).map fun s' => (s', valuesStep s.1 s.2 a)⟩

end system

end PsMpi.Attr
