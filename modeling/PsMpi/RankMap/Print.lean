import PsMpi.Lib.CInt
import PsMpi.Lib.Text

/-!
# Writing a node map

See `mpich2/src/mpl/src/mpl_rankmap.c`.
-/

open PsMpi.Lib

namespace PsMpi.RankMap

/-! ## Blocks -/

/-- `struct node_block` (:243). -/
structure NodeBlock where
  startId : Int
  numNodes : Int
  numRanks : Int
  startRank : Int
  startRepeat : Bool

/-- The variables of the writer. An access outside of the blocks or the markers is `none`. -/
structure Encoder where
  nodeBlocks : List NodeBlock
  iBlk : Nat
  nodeMarkers : List Int
  skipToRank : Int

/-- `get_rankmap_range` (:199). -/
def getRankmapRange : List Int → Option (Int × Int)
  | [] => none
  | id :: ids => some (ids.foldl max id, ids.foldl min id)

/-- The repeats of the `numRanks` ranks at `start`, when `numRepeats` of them are found and the next
one would begin at `curRank`. `check_repeats` (:223). -/
def countRepeats (rankmap : List Int) (start numRanks : Nat) : Nat → Nat → Nat → Option Nat
  | 0, _, _ => none
  | todo + 1, curRank, numRepeats => do
    let next ← addInt curRank numRanks
    if next ≤ rankmap.length ∧
        (rankmap.drop start).take numRanks = (rankmap.drop curRank).take numRanks then
      countRepeats rankmap start numRanks todo next (numRepeats + 1)
    else some numRepeats

/-- Line 216. -/
def checkRepeats (rankmap : List Int) (fromRank curRank : Nat) : Option Nat :=
  countRepeats rankmap fromRank (curRank - fromRank) rankmap.length curRank 1

def getMarker (nodeMarkers : List Int) (i : Int) : Option Int :=
  if 0 ≤ i then nodeMarkers[i.toNat]? else none

def setMarker (nodeMarkers : List Int) (i v : Int) : Option (List Int) :=
  if 0 ≤ i ∧ i.toNat < nodeMarkers.length then some (nodeMarkers.set i.toNat v) else none

def Encoder.push (e : Encoder) (b : NodeBlock) : Option Encoder :=
  if e.iBlk < e.nodeBlocks.length then
    some { e with nodeBlocks := e.nodeBlocks.set e.iBlk b, iBlk := e.iBlk + 1 }
  else none

/-- `MPL_rankmap_array_to_str` (:268). -/
def incrRanks (e : Encoder) : Option Encoder :=
  if 0 < e.iBlk then do
    let b ← e.nodeBlocks[e.iBlk - 1]?
    return { e with
      nodeBlocks := e.nodeBlocks.set (e.iBlk - 1) { b with numRanks := b.numRanks + 1 } }
  else none

/-- Line 271. -/
def compress (e : Encoder) : Option Encoder :=
  if 1 < e.iBlk then do
    let p0 ← e.nodeBlocks[e.iBlk - 2]?
    let p1 ← e.nodeBlocks[e.iBlk - 1]?
    if p0.numRanks = p1.numRanks ∧ p0.startId + p0.numNodes = p1.startId then do
      let markers ← setMarker e.nodeMarkers p1.startId (-1)
      return { e with
        nodeBlocks := e.nodeBlocks.set (e.iBlk - 2) { p0 with numNodes := p0.numNodes + 1 }
        iBlk := e.iBlk - 1
        nodeMarkers := markers }
    else some e
  else some e

/-- Line 294. -/
def closeGroup (e : Encoder) (markBlk : Nat) (numRepeats skip : Nat) : Option Encoder := do
  let b ← e.nodeBlocks[markBlk]?
  let e := { e with nodeBlocks := e.nodeBlocks.set markBlk { b with startRepeat := true } }
  let old ← e.nodeBlocks[e.iBlk]?
  let e ← e.push { old with startId := -1, numNodes := numRepeats }
  return { e with nodeMarkers := e.nodeMarkers.map fun _ => -1, skipToRank := skip }

/-- Line 288. -/
def findRepeats (rankmap : List Int) (minId : Int) (rank : Nat) (nodeId : Int) (e : Encoder) :
    Option (Option (Nat × Nat × Nat)) := do
  let markBlk ← getMarker e.nodeMarkers (nodeId - minId)
  if markBlk = -1 then some none
  else do
    let b ← e.nodeBlocks[markBlk.toNat]?
    let numRepeats ← checkRepeats rankmap b.startRank.toNat rank
    return if 1 < numRepeats then some (markBlk.toNat, b.startRank.toNat, numRepeats) else none

/-- Line 286. -/
def startBlock (rankmap : List Int) (minId : Int) (rank : Nat) (nodeId : Int) (e : Encoder) :
    Option Encoder := do
  match ← findRepeats rankmap minId rank nodeId e with
  | some (markBlk, markRank, numRepeats) =>
    closeGroup e markBlk numRepeats (markRank + (rank - markRank) * numRepeats)
  | none =>
    let markers ← setMarker e.nodeMarkers nodeId e.iBlk
    { e with nodeMarkers := markers }.push ⟨nodeId, 1, 1, rank, false⟩

/-- Line 264. -/
def encodeRank (rankmap : List Int) (minId : Int) (e : Encoder) (rank : Nat) : Option Encoder :=
  if (rank : Int) < e.skipToRank then some e
  else if 0 < rank ∧ rank < rankmap.length ∧ rankmap[rank]? = rankmap[rank - 1]? then incrRanks e
  else do
    let e ← compress e
    match rankmap[rank]? with
    | none => some e
    | some nodeId => startBlock rankmap minId rank nodeId e

/-- Line 261. -/
def encodeUpTo (mem : List NodeBlock) (rankmap : List Int) (rank : Nat) : Option Encoder := do
  let (maxId, minId) ← getRankmapRange rankmap
  if maxId - minId + 1 ≤ intMax ∧ rankmap.length + 1 ≤ intMax then
    (List.range rank).foldlM (encodeRank rankmap minId)
      ⟨mem, 0, List.replicate (maxId - minId + 1).toNat (-1), -1⟩
  else none

/-! ## Text -/

def intText (n : Int) : Text :=
  if n < 0 then '-' :: Nat.toDigits 10 n.natAbs else Nat.toDigits 10 n.natAbs

/-- Line 327. -/
def blockPieces (b : NodeBlock) : List Text :=
  if b.startId = -1 then [']' :: 'x' :: intText b.numNodes]
  else
    [','] :: (if b.startRepeat then [['[']] else []) ++
      [if b.numNodes = 1 ∧ b.numRanks = 1 then intText b.startId
        else '(' :: (intText b.startId ++ ',' :: (intText b.numNodes ++ ',' ::
          (intText b.numRanks ++ [')'])))]

/-- A string with the memory that it has, and the place of the next piece. Behind a piece that was cut
off nothing is seen. -/
structure Buffer where
  str : Text
  strSize : Nat
  pos : Nat

/-- `MAPSTR_GROW` (:179). -/
def Buffer.grown (b : Buffer) : Nat :=
  if b.strSize ≤ b.pos + 20 then
    if b.strSize = 0 then 20 * 3 / 2 else (b.strSize + 20) * 3 / 2
  else b.strSize

/-- `MAPSTR_APPEND` (:192). -/
def Buffer.append (b : Buffer) (piece : Text) : Buffer where
  str := if b.pos = b.str.length then b.str ++ piece.take (b.grown - b.pos - 1) else b.str
  strSize := b.grown
  pos := b.pos + piece.length

/-- `MPL_rankmap_array_to_str` (:325). -/
def pieces (e : Encoder) : List Text :=
  "(vector".toList :: (e.nodeBlocks.take e.iBlk).flatMap blockPieces ++ [[')']]

/-- Line 236. -/
def arrayToStr (mem : List NodeBlock) (rankmap : List Int) : Option Text := do
  let e ← encodeUpTo mem rankmap (rankmap.length + 1)
  return ((pieces e).foldl Buffer.append ⟨[], 0, 0⟩).str

end PsMpi.RankMap
