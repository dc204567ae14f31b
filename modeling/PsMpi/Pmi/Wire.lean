import PsMpi.Lib.Text

/-!
# PMI commands on the wire

See `mpich2/src/pmi/src/pmi_wire.c`.
-/

open PsMpi.Lib

namespace PsMpi.Pmi

/-- `PMIU_token` (`pmi_wire.h:24`). -/
structure Token where
  key : Option Text
  val : Option Text
deriving DecidableEq

/-- `PMIU_cmd` (:29). -/
structure Cmd where
  cmd : Option Text
  tokens : List Token
deriving DecidableEq

inductive Fail where
  | error (msg : String)
  | assertion
deriving DecidableEq

/-- `MAX_PMI_ARGS` (:12). -/
def maxPmiArgs : Nat := 1000

/-- `PMIU_CMD_ADD_TOKEN`, `CHECK_NUM_TOKENS` (:41, :53). -/
def addToken (pmicmd : Cmd) (key val : Option Text) : Except Fail Cmd :=
  let tokens := pmicmd.tokens ++ [⟨key, val⟩]
  if tokens.length < maxPmiArgs then .ok { pmicmd with tokens := tokens } else .error .assertion

/-! ## Characters -/

/-- `IS_KEY` (:21). -/
def isKey (c : Char) : Bool := !(c == ' ' || c == '\n' || c == '=')

/-- `SKIP_SPACES` (:24). -/
def skipSpaces (p : Text) : Text := p.dropWhile (· == ' ')

/-- `IS_EOL` (:20). -/
def isEol : Text → Bool
  | [] => true
  | c :: _ => c == '\n'

/-- `IS_NONVAL` (:22). -/
def isNonval (p : Text) : Bool := isEol p || p.head? == some ' '

/-- `IS_NONVAL_2` (:63). -/
def isNonval2 (p : Text) : Bool := p.isEmpty || p.head? == some ';'

/-- `SKIP_VAL` (:36). -/
def skipVal : Text → Text × Text
  | [] => ([], [])
  | [c] => if c = ' ' ∨ c = '\n' then ([], [c]) else ([c], [])
  | c :: d :: p =>
    if c = ' ' ∨ c = '\n' then ([], c :: d :: p)
    else if c = '\\' ∧ d ≠ '\n' then (c :: d :: (skipVal p).1, (skipVal p).2)
    else (c :: (skipVal (d :: p)).1, (skipVal (d :: p)).2)

/-- `SKIP_VAL_2` (:65). -/
def skipVal2 (p : Text) : Text × Text := (p.takeWhile (· != ';'), p.dropWhile (· != ';'))

/-- `unescape_val` (:74). -/
def unescapeVal : Text → Text
  | [] => []
  | [c] => [c]
  | c :: d :: s => if c = '\\' then d :: unescapeVal s else c :: unescapeVal (d :: s)

/-! ## Parsing -/

/-- `parse_v1` (:120), `parse_v2` (:247). -/
def parseKey (p : Text) : Except Fail (Text × Text) :=
  match p with
  | [] => .ok ([], [])
  | c :: _ =>
    if isKey c then
      let key := p.takeWhile isKey
      match p.dropWhile isKey with
      | [] => .ok (key, [])
      | d :: q =>
        if d ≠ '=' ∧ d ≠ ' ' ∧ d ≠ '\n' then .error (.error ("Invalid char after key, got ".push d))
        else .ok (key, d :: q)
    else .error (.error ("Expecting key, got ".push c))

/-- The key `cmd` has the name of the command as its value, and the other ones are tokens.
`parse_v1` (:151). -/
def addEntry1 (pmicmd : Cmd) (key : Text) (val : Option Text) : Except Fail Cmd :=
  if key = "cmd".toList then .ok { pmicmd with cmd := val } else addToken pmicmd (some key) val

/-- `parse_v2` (:275). -/
def addEntry2 (pmicmd : Cmd) (key : Text) (val : Option Text) : Except Fail Cmd :=
  if key = "cmd".toList then .ok { pmicmd with cmd := val }
  else if key = "subcmd".toList then do
    addToken (← addToken pmicmd none none) (some key) val
  else addToken pmicmd (some key) val

/-- How a line is read: what is skipped before a key, where the line ends, and how a value is read. -/
structure Format where
  skipFirst : Text → Text
  atEnd : Text → Bool
  nonval : Text → Bool
  skip : Text → Text × Text
  unescape : Text → Text
  add : Cmd → Text → Option Text → Except Fail Cmd
  lastAt : Text → Bool

/-- `parse_v1` (:127). -/
def parseEntry (f : Format) (p : Text) : Except Fail (Text × Option Text × Text) := do
  let (key, p) ← parseKey p
  match p with
  | '=' :: p =>
    if f.nonval p then .error (.error "Expecting value after =")
    else return (key, some (f.unescape (f.skip p).1), (f.skip p).2)
  | p => return (key, none, p)

/-- Line 110. -/
def parseLoop (f : Format) : Nat → Text → Cmd → Except Fail Cmd
  | 0, _, pmicmd => .ok pmicmd
  | todo + 1, p, pmicmd =>
    if f.atEnd (f.skipFirst p) then .ok pmicmd
    else do
      let (key, val, p) ← parseEntry f (f.skipFirst p)
      let pmicmd ← f.add pmicmd key val
      if f.lastAt p then .ok pmicmd else parseLoop f todo p.tail pmicmd

/-- `parse_v1_mcmd` (:217). -/
def addEntryMcmd (pmicmd : Cmd) (key : Text) (val : Option Text) : Except Fail Cmd :=
  if key = "mcmd".toList then addToken pmicmd none none else addToken pmicmd (some key) val

/-- `parse_v1` (:110). -/
def format1 : Format := ⟨skipSpaces, isEol, isNonval, skipVal, unescapeVal, addEntry1, isEol⟩

/-- A line of several commands has a newline behind each token, so that a value may have blanks.
`parse_v1_mcmd` (:179). -/
def formatMcmd : Format :=
  ⟨fun p => p.dropWhile fun c => c == ' ' || c == '\n', List.isEmpty, isEol,
    fun p => (p.takeWhile (· != '\n'), p.dropWhile (· != '\n')), unescapeVal, addEntryMcmd,
    fun _ => false⟩

/-- `parse_v2` (:241). -/
def format2 : Format := ⟨skipSpaces, isEol, isNonval2, skipVal2, id, addEntry2, fun _ => false⟩

/-- `parse_v1` (:100). -/
def parseV1 (buf : Text) : Except Fail Cmd :=
  if "cmd=".toList <+: buf then parseLoop format1 (buf.length + 1) buf ⟨none, []⟩
  else .error (.error "Expecting cmd=")

/-- `parse_v1_mcmd` (:168). -/
def parseV1Mcmd (buf : Text) : Except Fail Cmd :=
  if "mcmd=spawn".toList <+: buf then
    parseLoop formatMcmd (buf.length + 1) buf ⟨some "spawn".toList, []⟩
  else .error (.error "Expecting cmd=spawn")

/-- `parse_v2` (:231). -/
def parseV2 (buf : Text) : Except Fail Cmd :=
  if "cmd=".toList <+: buf.drop 6 then parseLoop format2 (buf.length + 1) (buf.drop 6) ⟨none, []⟩
  else .error (.error "Expecting cmd=")

/-- `PMIU_WIRE_V1`, `PMIU_WIRE_V2` (:9). -/
inductive WireVersion where
  | v1
  | v2
deriving DecidableEq

/-- `PMIU_cmd_parse` (:293). -/
def cmdParse (buf : Text) : WireVersion → Except Fail Cmd
  | .v1 => if "mcmd=".toList <+: buf then parseV1Mcmd buf else parseV1 buf
  | .v2 => parseV2 buf

/-! ## Output -/

/-- `PMIU_cmd_output_v1` (:699). -/
def outputEntry (key : Text) : Option Text → Text
  | some v => key ++ '=' :: v
  | none => key

def outputToken (t : Token) : Option Text := t.key.map fun key => outputEntry key t.val

/-- Line 665. -/
def outputV1 (pmicmd : Cmd) : Option Text := do
  let cmd ← pmicmd.cmd
  let tokens ← pmicmd.tokens.mapM outputToken
  return "cmd=".toList ++ cmd ++ tokens.flatMap (' ' :: ·) ++ ['\n']

/-- `PMIU_cmd_output_v2` (:815). -/
def lengthField (n : Nat) : Text :=
  let digits := Nat.toDigits 10 n
  (List.replicate (6 - digits.length) ' ' ++ digits).take 6

/-- Line 792. -/
def outputV2 (pmicmd : Cmd) : Option Text := do
  let cmd ← pmicmd.cmd
  let tokens ← pmicmd.tokens.mapM outputToken
  let line := "cmd=".toList ++ cmd ++ [';'] ++ tokens.flatMap (· ++ [';'])
  return lengthField line.length ++ line

end PsMpi.Pmi
