import Mathlib.Algebra.GroupWithZero.Nat
import Mathlib.Algebra.Ring.Int.Defs
import PsMpi.Pmi.Wire

/-!
# Reading PMI messages from a descriptor

See `mpich2/src/pmi/src/pmi_util.c`.
-/

open PsMpi.Lib

namespace PsMpi.Pmi

/-- `MAX_READLINE` (:125). -/
def maxReadline : Nat := 1024

/-- What the next calls of `read` on a descriptor find: some bytes, or an interruption, or an
error. -/
inductive Recv where
  | data (bytes : Text)
  | interrupted
  | failed

/-- `last_read` (:206). -/
structure LastRead where
  fd : Nat
  buf : Text

/-- The bytes that are kept, and what comes on each descriptor. -/
structure Input where
  lastReadList : List LastRead
  inbox : Nat → List Recv

/-- Read at most `size` bytes; no bytes are the end of the stream, and `none` is an error. A read that
is interrupted is repeated. -/
def read (size : Nat) : List Recv → Option (Text × List Recv)
  | [] => some ([], [])
  | .data bytes :: rest =>
    some (bytes.take size, if bytes.length ≤ size then rest else .data (bytes.drop size) :: rest)
  | .interrupted :: rest => read size rest
  | .failed :: _ => none

/-! ## One message -/

/-- The buffer of a call: its first bytes are those of `buf`. The wire version is not known before
there are more than six bytes. -/
structure Reader where
  buf : Text
  bufsize : Nat
  wireVersion : Option WireVersion
  pmi2CmdLen : Int

inductive ReadResult where
  | message (bytes : Text)
  | eof
  | failed
deriving DecidableEq

def ofDigits (s : Text) : Nat := s.foldl (fun n c => n * 10 + (c.toNat - '0'.toNat)) 0

/-- `atoi`. -/
def atoi (s : Text) : Int :=
  match s.dropWhile isspace with
  | '-' :: s => -(ofDigits (s.takeWhile Char.isDigit) : Int)
  | '+' :: s => ofDigits (s.takeWhile Char.isDigit)
  | s => ofDigits (s.takeWhile Char.isDigit)

def Reader.grow (r : Reader) (few : Bool) : Reader :=
  if few then { r with bufsize := r.bufsize + maxReadline } else r

def Reader.room (r : Reader) : Nat := r.bufsize - r.buf.length - 1

/-- `PMIU_read_cmd` (:236). -/
def transfer (st : Input) (fd : Nat) (r : Reader) : Option (Input × Reader × Nat) :=
  match st.lastReadList.find? (·.fd == fd) with
  | none => some (st, r, 0)
  | some p =>
    let r := r.grow (decide (r.room < p.buf.length))
    if r.buf.length + p.buf.length ≤ r.bufsize then
      some ({ st with lastReadList := st.lastReadList.eraseP (·.fd == fd) },
        { r with buf := r.buf ++ p.buf }, p.buf.length)
    else none

/-- Line 276. -/
def checkWire (r : Reader) : Option Reader :=
  if r.wireVersion = none ∧ 6 < r.buf.length then
    if "cmd=".toList <+: r.buf then some { r with wireVersion := some .v1 }
    else
      let len := atoi (r.buf.take 6) + 6
      if 10 < len then
        some { r with
          wireVersion := some .v2, pmi2CmdLen := len, bufsize := max r.bufsize (len.toNat + 1) }
      else none
  else some r

/-- Line 298. -/
def fullCmd (r : Reader) (n : Nat) : Option Nat :=
  if r.wireVersion = some .v1 then
    let start := r.buf.length - n
    if '\n' ∈ r.buf.drop start then some (start + (r.buf.drop start).idxOf '\n' + 1) else none
  else if 0 < r.pmi2CmdLen ∧ r.pmi2CmdLen ≤ r.buf.length then some r.pmi2CmdLen.toNat
  else none

/-- Line 315. -/
def saveRest (st : Input) (fd : Nat) (r : Reader) (cmdLen : Nat) : Input :=
  if cmdLen < r.buf.length then
    { st with lastReadList := st.lastReadList ++ [⟨fd, r.buf.drop cmdLen⟩] }
  else st

inductive Round where
  | done (res : ReadResult)
  | more (r : Reader)

/-- Line 273. -/
def deliver (st : Input) (fd : Nat) (r : Reader) (n : Nat) : Option (Round × Input) := do
  let r ← checkWire r
  match fullCmd r n with
  | some cmdLen =>
    if cmdLen < r.bufsize then
      some (.done (.message (r.buf.take cmdLen)), saveRest st fd r cmdLen)
    else none
  | none => some (.more r, st)

/-- Line 255. -/
def receive (st : Input) (fd : Nat) (r : Reader) : Option (Round × Input) :=
  match read r.room (st.inbox fd) with
  | none => some (.done .failed, st)
  | some (bytes, inbox) =>
    let st := { st with inbox := Function.update st.inbox fd inbox }
    if bytes = [] then some (.done .eof, st)
    else deliver st fd { r with buf := r.buf ++ bytes } bytes.length

/-- Line 232. -/
def readRound (st : Input) (fd : Nat) (r : Reader) : Option (Round × Input) := do
  let (st, r, n) ← transfer st fd r
  if n = 0 then receive st fd (r.grow (decide (r.room < 100))) else deliver st fd r n

/-- Get more bytes until there is a message. The first argument bounds the number of rounds.
Line 232. -/
def readLoop : Nat → Input → Nat → Reader → Option (ReadResult × Input)
  | 0, _, _, _ => none
  | todo + 1, st, fd, r =>
    match readRound st fd r with
    | none => none
    | some (.done res, st) => some (res, st)
    | some (.more r, st) => readLoop todo st fd r

def Recv.size : Recv → Nat
  | .data bytes => bytes.length + 1
  | _ => 1

/-- Line 214. -/
def readCmd (st : Input) (fd : Nat) : Option (ReadResult × Input) :=
  readLoop (((st.inbox fd).map Recv.size).sum + 2) st fd ⟨[], maxReadline, none, 0⟩

end PsMpi.Pmi
