import PsMpi.Topo.Groups

/-!
# Badges of the processes of a communicator
-/

namespace PsMpi.Topo

/-- Why a function does not return a value: an assertion fails (or a table is read past its end), or
it returns an error that is not fatal. -/
inductive Stop
  | assertion
  | error
  deriving DecidableEq

/-- `vcr` (`mpidpre.h`). -/
structure Member where
  pg : Nat
  pgRank : Nat

/-- What a process knows: the process groups, with the own one first, the nodes of the processes of
its own group, and whether the awareness of modules is enabled. `MPIDI_Process`,
`MPIR_Process`. -/
structure View where
  home : Pg
  others : List Pg
  nodeMap : List Int
  numNodes : Nat
  nodeHostnames : Option Nat
  msaAwareCollops : Bool

def View.levels (v : View) (pg : Nat) : List Level :=
  if pg = v.home.idNum then v.home.topoLevels
  else ((v.others.find? fun p => p.idNum == pg).map (·.topoLevels)).getD []

/-- `MPIDI_PSP_check_pg_for_level` (`mpid_comm.c:64`). -/
def findLevel (degree : Int) (levels : List Level) : Option Level :=
  levels.find? fun tl => tl.degree == degree

/-- `MPIDI_PSP_comm_is_global` (:247). -/
def commIsGlobal (v : View) (ms : List Member) : Bool := ms.any fun m => m.pg != v.home.idNum

/-- `MPIDI_PSP_get_max_badge_by_level` (:259). -/
def getMaxBadgeByLevel (v : View) (level : Level) : Int :=
  v.others.foldl (fun maxBadge pg =>
    match findLevel level.degree pg.topoLevels with
    | some ext => if ext.maxBadge > maxBadge then ext.maxBadge else maxBadge
    | none => maxBadge) level.maxBadge

/-- `MPIDI_PSP_TOPO_BADGE__UNKNOWN` (`mpidimpl.h:77`). -/
def badgeUnknown (v : View) (level : Level) : Int := getMaxBadgeByLevel v level + 1

def tableEntry (t : List Int) (i : Nat) : Except Stop Int :=
  match t[i]? with
  | some b => .ok b
  | none => .error .assertion

/-- The badge of a process at a level. `MPIDI_PSP_get_badge_by_level_and_comm_rank`
(`mpid_comm.c:280`). -/
def getBadgeByLevelAndCommRank (v : View) (ms : List Member) (level : Level) (rank : Nat) :
    Except Stop Int :=
  match ms[rank]? with
  | none => .error .assertion
  | some m =>
    if m.pg = v.home.idNum then
      match level.badgeTable with
      | none =>
        if level.maxBadge = badgeNull then .ok (badgeUnknown v level) else .error .assertion
      | some t =>
        if level.badgesAreGlobal = 0 ∧ commIsGlobal v ms = true then .ok (badgeUnknown v level)
        else tableEntry t m.pgRank
    else
      match findLevel level.degree (v.levels m.pg) with
      | none => .ok (badgeUnknown v level)
      | some ext =>
        if ext.badgesAreGlobal ≠ 0 then
          match ext.badgeTable with
          | none => .error .assertion
          | some t => tableEntry t m.pgRank
        else .ok (badgeUnknown v level)

/-- `:329-333`. -/
def flatFrom (badge : Nat → Except Stop Int) (myBadge : Int) : List Nat → Except Stop Bool
  | [] => .ok true
  | i :: is =>
    match badge i with
    | .error e => .error e
    | .ok b => if b ≠ myBadge then .ok false else flatFrom badge myBadge is

/-- `MPIDI_PSP_comm_is_flat_on_level` (:322). -/
def commIsFlatOnLevel (v : View) (ms : List Member) (me : Nat) (level : Level) :
    Except Stop Bool :=
  match getBadgeByLevelAndCommRank v ms level me with
  | .error e => .error e
  | .ok myBadge => flatFrom (getBadgeByLevelAndCommRank v ms level) myBadge (List.range ms.length)

/-- The first level that is not flat, or the last one; a flat level before it has to have a table.
`:394-397,417-420`. -/
def selectLevel (v : View) (ms : List Member) (me : Nat) : Level → List Level → Except Stop Level
  | tl, [] => .ok tl
  | tl, next :: rest =>
    match commIsFlatOnLevel v ms me tl with
    | .error e => .error e
    | .ok false => .ok tl
    | .ok true =>
      if tl.badgeTable = none then .error .assertion else selectLevel v ms me next rest

/-- The node of a process; the nodes of processes of other groups are not known.
`MPID_Get_node_id` (:475). -/
def getNodeId (v : View) (ms : List Member) (rank : Nat) : Except Stop Int :=
  match ms[rank]? with
  | none => .error .assertion
  | some m => if m.pg = v.home.idNum then tableEntry v.nodeMap m.pgRank else .ok (-1)

/-- `MPID_Get_badge` (:386). -/
def getBadge (v : View) (ms : List Member) (me rank : Nat) : Except Stop Int :=
  match v.home.topoLevels with
  | [] => getNodeId v ms rank
  | tl :: tls =>
    match selectLevel v ms me tl tls with
    | .error e => .error e
    | .ok level => getBadgeByLevelAndCommRank v ms level rank

/-- `MPID_Get_max_badge` (:404). -/
def getMaxBadge (v : View) (ms : List Member) (me : Nat) : Except Stop Int :=
  match v.home.topoLevels with
  | [] => if v.msaAwareCollops then .error .error else .ok v.numNodes
  | tl :: tls =>
    match selectLevel v ms me tl tls with
    | .error e => .error e
    | .ok level => .ok (getMaxBadgeByLevel v level + 1)

end PsMpi.Topo
