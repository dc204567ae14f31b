import PsMpi.Lib.Table

/-!
# Info objects

See `mpich2/src/mpi/info/info_impl.c`, `mpich2/src/mpi/info/infoutil.c`.
-/

namespace PsMpi.Infos

open PsMpi.Lib

/-- `struct info_entry` (`mpir_info.h:48`). -/
structure Entry where
  key : String
  value : String

/-- `struct info_array_entry` (:55). -/
structure ArrayEntry where
  key : String
  values : List String

/-- `struct MPIR_Info` (:98). -/
structure Info where
  entries : List Entry
  arrayEntries : List ArrayEntry

inductive Error where
  | infoNokey
  | assertion

/-- `MPIR_INFO_INFOKEY_ARRAY_TYPE` (:61). -/
def arrayType : String := "mpix_info_array_type"

/-- `MPIR_Info_push_array` (`infoutil.c:155`). -/
def noValue : String := "none"

/-- `mpi.h.in:506`. -/
def canon (key : String) : List Char := key.toList.take 255

def Entry.canon (e : Entry) : List Char := Infos.canon e.key

def ArrayEntry.canon (e : ArrayEntry) : List Char := Infos.canon e.key

/-- `MPIR_Info_alloc` (:61). -/
def Info.empty : Info := ⟨[], []⟩

/-! ## The two tables -/

/-- `MPIR_Info_lookup` (`info_impl.c:51`). -/
def lookup (info : Info) (key : String) : Option String :=
  (Table.find Entry.canon (canon key) info.entries).map Entry.value

def array (info : Info) (key : String) : Option (List String) :=
  (Table.find ArrayEntry.canon (canon key) info.arrayEntries).map ArrayEntry.values

/-- `MPIR_Info_lookup_array` (:65). -/
def lookupArray (info : Info) (key : String) (index : Nat) :
    Except Error (Option (String × Nat)) :=
  match array info key with
  | none => .ok none
  | some values =>
    match values[index]? with
    | none => .error .assertion
    | some value => .ok (some (value, values.length))

/-- `MPIR_Info_push` (`infoutil.c:97`). -/
def push (info : Info) (key value : String) : Info :=
  { info with entries := info.entries ++ [⟨key, value⟩] }

/-- `MPIR_Info_push_array` (:131). -/
def pushArray (info : Info) (index count : Nat) (key value : String) : Except Error Info :=
  if index < count then
    .ok { info with arrayEntries :=
      info.arrayEntries ++ [⟨key, (List.replicate count noValue).set index value⟩] }
  else .error .assertion

/-- `MPIR_Info_set_array` (:175). -/
def setArray (info : Info) (index : Nat) (key value : String) : Except Error Info :=
  if info.arrayEntries.countP (fun e => e.canon = canon key) = 1 ∧
      ∃ values ∈ array info key, index < values.length then
    .ok { info with
      arrayEntries := Table.updateFirst ArrayEntry.canon (canon key)
        (fun e => { e with values := e.values.set index value }) info.arrayEntries }
  else .error .assertion

/-- `info_delete_array` (`info_impl.c:28`). -/
def deleteArray (info : Info) (key : String) : Info :=
  { info with arrayEntries := Table.erase ArrayEntry.canon (canon key) info.arrayEntries }

/-! ## Operations -/

/-- `MPIR_Info_set_impl` (:414). -/
def set (info : Info) (key value : String) : Info :=
  match lookup info key with
  | none => push info key value
  | some _ =>
    let entries := Table.updateFirst Entry.canon (canon key) (fun e => { e with value := value })
      info.entries
    deleteArray { info with entries := entries } key

/-- `MPIR_Info_delete_impl` (:85). -/
def delete (info : Info) (key : String) : Except Error Info :=
  match lookup info key with
  | none => .error .infoNokey
  | some _ =>
    .ok (deleteArray { info with entries := Table.erase Entry.canon (canon key) info.entries } key)

/-- `:134`, `:172`. -/
def setArrayFrom (key : String) : List String → Nat → Info → Except Error Info
  | [], _, info => .ok info
  | value :: values, index, info => do
    let info ← setArray info index key value
    setArrayFrom key values (index + 1) info

/-- `:125-138`. -/
def dupArray (info : Info) (e : ArrayEntry) : Except Error Info :=
  match e.values with
  | [] => .error .assertion
  | value :: values => do
    let info ← pushArray info 0 e.values.length e.key value
    setArrayFrom e.key values 1 info

/-- `MPIR_Info_dup_impl` (:112). -/
def dup (info : Info) : Except Error Info :=
  info.arrayEntries.foldlM dupArray
    (info.entries.foldl (fun new e => push new e.key e.value) Info.empty)

/-- `:171`. -/
def dupKeyLoop (src : Info) (key : String) : Nat → Nat → Info → Except Error Info
  | 0, _, dest => .ok dest
  | n + 1, index, dest => do
    match ← lookupArray src key index with
    | none => .error .assertion
    | some (value, _) => do
      let dest ← setArray dest index key value
      dupKeyLoop src key n (index + 1) dest

/-- `MPIR_Info_dup_key_impl` (:151). -/
def dupKey (src : Info) (key : String) (dest : Info) : Except Error Info :=
  match lookup src key with
  | none => .error .infoNokey
  | some value => do
    let dest := set dest key value
    match ← lookupArray src key 0 with
    | none => .ok dest
    | some (value, numValues) => do
      let dest ← pushArray (deleteArray dest key) 0 numValues key value
      dupKeyLoop src key (numValues - 1) 1 dest

/-! ## Merging -/

/-- The other info objects are searched for a key; `found` says whether the array has been created.
`:214-240`. -/
def mergeRest (count : Nat) (key : String) :
    List (Option Info × Nat) → Info → Bool → Except Error (Info × Bool)
  | [], new, found => .ok (new, found)
  | (none, _) :: rest, new, found => mergeRest count key rest new found
  | (some info, k) :: rest, new, found =>
    match lookup info key with
    | none => mergeRest count key rest new found
    | some value =>
      if value = arrayType then mergeRest count key rest new found
      else do
        let new ← if found then setArray new k key value else pushArray new k count key value
        mergeRest count key rest new true

/-- `:207-250`. -/
def mergeKey (infos : List (Option Info)) (i : Nat) (new : Info) (e : Entry) :
    Except Error Info := do
  if e.value = arrayType then return new
  else
    let old ← lookupArray new e.key 0
    if old.isSome then return new
    else
      let (new, found) ← mergeRest infos.length e.key (infos.zipIdx.drop (i + 1)) new false
      if found then setArray new i e.key e.value else return new

/-- `:265-278`. -/
def copyKey (new : Info) (e : Entry) : Except Error Info := do
  if e.value = arrayType then return new
  else
    match ← lookupArray new e.key 0 with
    | none => return push new e.key e.value
    | some _ =>
      match lookup new e.key with
      | none => return push new e.key arrayType
      | some _ => return new

def allEntries (infos : List (Option Info)) : List (Nat × Entry) :=
  infos.zipIdx.flatMap fun p => match p.1 with
    | none => []
    | some info => info.entries.map fun e => (p.2, e)

/-- `MPIR_Info_merge_from_array_impl` (:186). -/
def mergeFromArray (infos : List (Option Info)) : Except Error Info := do
  let new ← (allEntries infos).foldlM (fun new p => mergeKey infos p.1 new p.2) Info.empty
  (allEntries infos).foldlM (fun new p => copyKey new p.2) new

/-! ## Splitting -/

/-- `:318-331`. -/
def splitValues (info : Info) (key : String) (numValues : Nat) :
    Nat → List Info → Except Error (List Info)
  | _, [] => .ok []
  | j, target :: targets =>
    if j < numValues then do
      match ← lookupArray info key j with
      | none => .error .assertion
      | some (value, _) => do
        let targets ← splitValues info key numValues (j + 1) targets
        return set target key value :: targets
    else .ok (target :: targets)

/-- `:296-340`. -/
def splitEntry (info : Info) (st : List Info × Nat) (e : Entry) : Except Error (List Info × Nat) :=
  if e.value = arrayType then do
    match ← lookupArray info e.key 0 with
    | none => .error .assertion
    | some (_, numValues) => do
      let targets ← splitValues info e.key numValues 0 st.1
      return (targets, max st.2 numValues)
  else .ok (st.1.map fun target => set target e.key e.value, st.2)

/-- `MPIR_Info_split_into_array_impl` (:288). -/
def splitIntoArray (targets : List Info) (info : Info) : Except Error (List Info × Nat) :=
  info.entries.foldlM (splitEntry info) (targets, 0)

end PsMpi.Infos
