import PsMpi.Pmi.ReadCmd

/-!
# Spawn queries

See `mpich2/src/pmi/src/pmi_wire.c`.
-/

open List PsMpi.Lib

namespace PsMpi.Pmi

inductive SpawnArray
  | cmds
  | maxprocs
  | argcs
  | argvs
  | infoCounts
  | infoKeys
  | infoVals
  | preputKeys
  | preputVals
deriving DecidableEq

/-- The keys of a wire version. `PMIU_msg_get_query_spawn` (`pmi_wire.c:1202`). -/
structure SpawnKeys where
  first : Nat
  count : Text
  spawnssofar : Option Text
  cmd : Text
  maxprocs : Text
  argc : Text
  arg : Text
  preputNum : Text
  preputKey : Text
  preputVal : Text
  infoNum : Text
  infoKey : Text
  infoVal : Text

/-- `:1207`. -/
def spawnKeys1 : SpawnKeys :=
  ⟨1, "totspawns".toList, some "spawnssofar".toList, "execname".toList, "nprocs".toList,
    "argcnt".toList, "arg".toList, "preput_num".toList, "preput_key".toList, "preput_val".toList,
    "info_num".toList, "info_key".toList, "info_val".toList⟩

/-- `:1239`. -/
def spawnKeys2 : SpawnKeys :=
  ⟨0, "ncmds".toList, none, "subcmd".toList, "maxprocs".toList, "argc".toList, "argv".toList,
    "preputcount".toList, "ppkey".toList, "ppval".toList, "infokeycount".toList, "infokey".toList,
    "infoval".toList⟩

def SpawnKeys.of : WireVersion → SpawnKeys
  | .v1 => spawnKeys1
  | .v2 => spawnKeys2

/-- `PMIU_msg_get_query_spawn` (:1214). -/
def SpawnKeys.array (K : SpawnKeys) (seg : Nat) (key : Text) : Option SpawnArray :=
  if key = K.count ∨ K.spawnssofar = some key then none
  else if key = K.cmd then some .cmds
  else if key = K.maxprocs then some .maxprocs
  else if key = K.argc then some .argcs
  else if K.arg <+: key then some .argvs
  else if seg = K.first ∧ K.preputKey <+: key then some .preputKeys
  else if seg = K.first ∧ K.preputVal <+: key then some .preputVals
  else if key = K.infoNum then some .infoCounts
  else if K.infoKey <+: key then some .infoKeys
  else if K.infoVal <+: key then some .infoVals
  else none

/-- `PMIU_msg_get_query_spawn_sizes` (:1141). -/
structure SpawnSizes where
  count : Int
  totalArgs : Int
  totalInfoKeys : Int
  numPreput : Int

def SpawnSizes.announced (z : SpawnSizes) : SpawnArray → Int
  | .argvs => z.totalArgs
  | .infoKeys | .infoVals => z.totalInfoKeys
  | .preputKeys | .preputVals => z.numPreput
  | _ => z.count

/-! ## Reading the query -/

def entries (K : SpawnKeys) (f : SpawnArray) : Nat → List Token → Nat
  | _, [] => 0
  | seg, t :: ts =>
    match t.key with
    | none => entries K f (seg + 1) ts
    | some key => (if K.array seg key = some f then 1 else 0) + entries K f seg ts

def Agree (version : WireVersion) (tokens : List Token) (z : SpawnSizes) : Prop :=
  ∀ f, (entries (.of version) f 0 tokens : Int) = z.announced f

section

variable {version : WireVersion} {tokens : List Token} {seg : Nat} {key : Text} {val : Option Text}

end

end PsMpi.Pmi
