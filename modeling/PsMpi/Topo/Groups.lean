import PsMpi.Lib.Trans
import PsMpi.Topo.Levels

/-!
# The process groups of several processes
-/

open PsMpi.Lib

namespace PsMpi.Topo

/-- `MPIDI_PSP_TOPO_LEVEL__MODULES` (`mpidimpl.h:79`). -/
def levelModules : Int := 4096

/-- `MPIDI_PSP_init_topo_level` (`mpid_comm.c:339`). -/
def initTopoLevel (size : Nat) (degree badgesAreGlobal : Int) : Level :=
  ⟨degree, -1, badgesAreGlobal, some (List.replicate size badgeNull)⟩

/-- `MPIDI_PSP_topo_init` (:435). -/
def topoInit (size : Nat) (msa : Bool) : List Level :=
  if msa then [initTopoLevel size levelModules 1] else []

/-- `MPIDI_PSP_add_flat_level_to_pg` (`mpid_pg.c:1053`). -/
def flatLevel (degree : Int) : Level := ⟨degree, badgeNull, 1, none⟩

/-- `MPIDI_PSP_check_pg_for_level` (`mpid_comm.c:64`). -/
def checkPgForLevel (degree : Int) (levels : List Level) : Bool :=
  levels.any fun tl => tl.degree == degree

/-- `MPIDI_PG_Create` (`mpid_pg.c:1115-1125`). -/
def addFlatLevels (home : List Level) : List Level → Option (List Level)
  | [] => some home
  | level :: rest =>
    if level.badgesAreGlobal ≠ 0 ∧ checkPgForLevel level.degree home = false then
      (addTopoLevelToPg home (flatLevel level.degree)).bind fun home => addFlatLevels home rest
    else addFlatLevels home rest

/-- `MPIDI_PG_Create` (:1069). -/
def pgCreate (pgs : List Pg) (size idNum : Nat) (levels : List Level) : Option (List Pg) :=
  (addTopoLevelsToPg [] levels).bind fun ls =>
    match pgs with
    | [] => some [⟨idNum, size, ls⟩]
    | home :: rest => (addFlatLevels home.topoLevels ls).map fun hls =>
        { home with topoLevels := hls } :: rest ++ [⟨idNum, size, ls⟩]

/-! ## The badges of the own group -/

/-- `mpid_comm.c:213-218`. -/
def fillBadges (ranks : List Nat) (badge : Nat → Int) (t : List Int) : List Int :=
  ranks.foldl (fun t dest => t.set dest (badge dest)) t

/-- `:221-226`. -/
def maxBadgeOf : List Int → Int
  | [] => badgeNull
  | b :: bs => bs.foldl max b

/-- Complete the badge table for the ranks of a communicator. `MPIDI_PSP_update_badge_table`
(:143). -/
def updateBadgeTable (size : Nat) (ranks : List Nat) (badge : Bool → Nat → Int) (normalize : Bool)
    (l : Level) (t : List Int) : Level :=
  if ∀ dest ∈ ranks, t[dest]? ≠ some badgeNull then l
  else
    let t := fillBadges ranks (badge normalize) t
    if (size : Int) ≤ maxBadgeOf (t.take size) ∧ normalize = true then
      let t := fillBadges ranks (badge false) t
      { l with badgeTable := some t, maxBadge := maxBadgeOf (t.take size) }
    else { l with badgeTable := some t, maxBadge := maxBadgeOf (t.take size) }

/-- Complete the table of the level of a degree; there has to be a table if there is the level. -/
def updateLevels (size : Nat) (ranks : List Nat) (badge : Bool → Nat → Int) (normalize : Bool)
    (degree : Int) : List Level → Option (List Level)
  | [] => some []
  | l :: ls =>
    if l.degree = degree then
      l.badgeTable.map fun t => updateBadgeTable size ranks badge normalize l t :: ls
    else (updateLevels size ranks badge normalize degree ls).map (l :: ·)

/-! ## Other groups -/

/-- `MPIDI_GPID_ToLpidArray` (`mpid_pg.c:92-116`). -/
def growPg (idNum rank : Nat) : List Pg → Option (List Pg)
  | [] => none
  | pg :: pgs =>
    if pg.idNum = idNum then
      some ((if pg.size ≤ rank then { pg with size := rank + 1 } else pg) :: pgs)
    else (growPg idNum rank pgs).map (pg :: ·)

/-- `MPIDI_GPID_ToLpidArray` (:65-116). -/
def gpidPg (pgs : List Pg) (idNum rank : Nat) : Option (List Pg) :=
  match growPg idNum rank pgs with
  | some pgs' => some pgs'
  | none => pgCreate pgs (rank + 1) idNum []

def setLevels (idNum : Nat) (ls : List Level) : List Pg → List Pg
  | [] => []
  | pg :: pgs =>
    if pg.idNum = idNum then { pg with topoLevels := ls } :: pgs else pg :: setLevels idNum ls pgs

/-- A process gets to know what another one knows about a group: a group that it does not know is
made, and a group that it knows without levels gets them.
`MPIDI_PG_ForwardPGInfo` (`:506-556,628-676`). -/
def forwardPg (pg : Pg) (pgs : List Pg) : Option (List Pg) :=
  (packTopologyBadges pg.size pg.topoLevels).bind fun msg =>
    match pgs.find? fun old => old.idNum == pg.idNum with
    | none =>
      (unpackTopologyBadges pg.size pg.topoLevels.length msg []).bind fun levels =>
        pgCreate pgs pg.size pg.idNum levels
    | some old =>
      if old.topoLevels = [] ∧ pg.topoLevels ≠ [] then
        (unpackTopologyBadges pg.size pg.topoLevels.length msg []).bind fun levels =>
          (addTopoLevelsToPg [] levels).map fun ls => setLevels pg.idNum ls pgs
      else some pgs

/-! ## The processes -/

/-- The steps: the start of a process, a new communicator of its own group, a process of another
group is met, and a process forwards what it knows about a group. -/
inductive TopoAct
  | init (p idNum size : Nat) (msa : Bool)
  | update (p : Nat) (ranks : List Nat) (badge : Bool → Nat → Int)
  | gpid (p idNum rank : Nat)
  | forward (p q idNum : Nat)

def topoStep (s : Nat → List Pg) : TopoAct → Option (Nat → List Pg)
  | .init p idNum size msa =>
    if s p = [] ∧ 0 < size then
      (pgCreate [] size idNum (topoInit size msa)).map (Function.update s p)
    else none
  | .update p ranks badge =>
    match s p with
    | [] => none
    | home :: rest =>
      (updateLevels home.size ranks badge false levelModules home.topoLevels).map fun ls =>
        Function.update s p ({ home with topoLevels := ls } :: rest)
  | .gpid p idNum rank =>
    if s p = [] then none else (gpidPg (s p) idNum rank).map (Function.update s p)
  | .forward p q idNum =>
    match (s p).find? fun pg => pg.idNum == idNum with
    | none => none
    | some pg => if s q = [] then none else (forwardPg pg (s q)).map (Function.update s q)

def topoSys : Sys (Nat → List Pg) TopoAct := ⟨fun _ => [], topoStep⟩

end PsMpi.Topo
