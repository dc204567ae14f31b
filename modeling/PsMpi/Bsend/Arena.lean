import PsMpi.Lib.Links

/-!
# The arena of an attached buffer

See `mpich2/src/mpi/pt2pt/bsendutil.c`.
-/

namespace PsMpi.Bsend

open PsMpi.Lib

/-- `BSENDDATA_HEADER_TRUE_SIZE` (:27), of `MPII_Bsend_data_t` (`mpir_bsend.h:52`). -/
def headerTrueSize : Nat := 88

/-- `MPI_BSEND_OVERHEAD` (`mpi.h.in:524`), the size of `MPII_Bsend_data_t`. -/
def bsendOverhead : Nat := 96

/-- `MAX_ALIGNMENT` (`configure.ac:2746`). -/
def maxAlignment : Nat := 16

/-- `MIN_BUFFER_BLOCK` (:800). -/
def minBufferBlock : Nat := 8

/-- `align_sz` (:458). -/
def alignSz : Nat := 8

/-- `MPII_Bsend_data_t` (:52). -/
structure Header where
  size : Nat
  totalSize : Nat
  request : Nat
  msgbuf : Nat
  count : Nat

/-- A buffer of the program, with the headers that are stored in it; `packs` is the trace of what
was packed into it, as the address and the number of bytes. `MPII_BsendBuffer_user`
(:84). -/
structure User where
  buffer : Nat
  bufferSize : Nat
  origbuffer : Nat
  origbufferSize : Nat
  avail : Option Nat
  active : Option Nat
  links : Links Nat
  hdr : Nat → Header
  packs : List (Nat × Nat)

namespace User

/-- `MPIR_Bsend_attach` (:60). -/
def zero : User where
  buffer := 0
  bufferSize := 0
  origbuffer := 0
  origbufferSize := 0
  avail := none
  active := none
  links := ⟨fun _ => none, fun _ => none⟩
  hdr := fun _ => ⟨0, 0, 0, 0, 0⟩
  packs := []

def setHdr (u : User) (p : Nat) (h : Header) : User := { u with hdr := Function.update u.hdr p h }

/-- `bsend_attach_user` (:459). -/
def alignShift (buffer : Nat) : Nat :=
  let offset := buffer % alignSz
  if offset ≠ 0 then alignSz - offset else 0

/-- Line 427. -/
def attachUser (u : User) (buffer bufferSize : Nat) : User × Bool :=
  if bufferSize < bsendOverhead then (u, false)
  else
    let p := buffer + alignShift buffer
    let first : Header :=
      { size := bufferSize - headerTrueSize
        totalSize := bufferSize
        request := (u.hdr p).request
        msgbuf := p + headerTrueSize
        count := (u.hdr p).count }
    ({ origbuffer := buffer
       origbufferSize := bufferSize
       buffer := p
       bufferSize := bufferSize - alignShift buffer
       avail := some p
       active := none
       links := ⟨Function.update u.links.next p none, Function.update u.links.prev p none⟩
       hdr := Function.update u.hdr p first
       packs := [] }, true)

/-! ## Segments -/

/-- `MPIR_Bsend_find_buffer` (:782). -/
def findFrom (u : User) (size : Nat) : Nat → Option Nat → Option Nat
  | _, none => none
  | 0, some _ => none
  | fuel + 1, some p =>
    if size ≤ (u.hdr p).size then some p else findFrom u size fuel (u.links.next p)

/-- Line 782. -/
def findBuffer (u : User) (size : Nat) : Option Nat := u.findFrom size u.origbufferSize u.avail

/-- `MPIR_Bsend_take_buffer` (:814). -/
def allocSize (size : Nat) : Nat :=
  if size % maxAlignment ≠ 0 then size + (maxAlignment - size % maxAlignment) else size

/-- Line 826. -/
def splitSegment (u : User) (p alloc : Nat) : User :=
  let newp := p + headerTrueSize + alloc
  let total := (u.hdr p).totalSize - alloc - headerTrueSize
  let rest : Header :=
    { u.hdr newp with
      size := total - headerTrueSize, totalSize := total, msgbuf := newp + headerTrueSize }
  let used : Header :=
    { u.hdr p with size := newp - p - headerTrueSize, totalSize := newp - p }
  { (u.setHdr newp rest).setHdr p used with links := u.links.insertAfter p newp }

/-- Line 849. -/
def activate (u : User) (p : Nat) : User :=
  let cut := u.links.unlink u.avail p
  { u with avail := cut.2, active := some p, links := cut.1.pushFront u.active p }

/-- Line 805. -/
def takeBuffer (u : User) (p size : Nat) : User :=
  let alloc := allocSize size
  if alloc + headerTrueSize + minBufferBlock ≤ (u.hdr p).size then
    (u.splitSegment p alloc).activate p
  else u.activate p

/-- `MPIR_Bsend_free_segment` (:690). -/
def around (u : User) (p : Nat) : Nat → Option Nat → Option Nat → Option Nat × Option Nat
  | _, availPrev, none => (availPrev, none)
  | 0, availPrev, some a => (availPrev, some a)
  | fuel + 1, availPrev, some a =>
    if p < a then (availPrev, some a) else around u p fuel (some a) (u.links.next a)

/-- `MPIR_Bsend_free_segment` (:701, :716). -/
def absorb (u : User) (p a : Nat) : User :=
  let total := (u.hdr p).totalSize + (u.hdr a).totalSize
  u.setHdr p { u.hdr p with totalSize := total, size := total - headerTrueSize }

/-- Line 698. -/
def mergeNext (u : User) (p : Nat) : Option Nat → User
  | some a =>
    if p + (u.hdr p).totalSize = a then
      { u.absorb p a with links := u.links.linkNext p (u.links.next a) }
    else { u with links := u.links.linkNext p (some a) }
  | none => { u with links := u.links.linkNext p none }

/-- Line 714. -/
def mergePrev (u : User) (p : Nat) : Option Nat → User
  | some q =>
    if q + (u.hdr q).totalSize = p then
      { u.absorb q p with links := u.links.linkNext q (u.links.next p) }
    else { u with links := u.links.linkNext q (some p) }
  | none => { u with avail := some p, links := u.links.cutPrev (some p) }

/-- Line 669. -/
def deactivate (u : User) (p : Nat) : User :=
  let cut := u.links.unlink u.active p
  { u with active := cut.2, links := cut.1 }

/-- Line 653. -/
def freeSegment (u : User) (p : Nat) : User :=
  let v := u.deactivate p
  let (availPrev, avail) := v.around p v.origbufferSize none u.avail
  (v.mergeNext p avail).mergePrev p availPrev

/-! ## Sends -/

/-- Walk the active list and give back the segments whose requests are complete, with the requests
of these. `MPIR_Bsend_progress` (:744). -/
def progressFrom (complete : List Nat) : Nat → Option Nat → User → User × List Nat
  | _, none, u => (u, [])
  | 0, some _, u => (u, [])
  | fuel + 1, some p, u =>
    let next := u.links.next p
    let req := (u.hdr p).request
    if req ∈ complete then
      let (v, freed) := progressFrom complete fuel next (u.freeSegment p)
      (v, req :: freed)
    else progressFrom complete fuel next u

/-- Line 744. -/
def progress (u : User) (complete : List Nat) : User × List Nat :=
  progressFrom complete u.origbufferSize u.active u

/-- Pack a message of `data` bytes into the room of a segment; at most `packsize` bytes are packed.
`bsend_isend_user` (:576). -/
def pack (u : User) (p packsize data : Nat) : User :=
  let count := min data packsize
  { u.setHdr p { u.hdr p with count := count } with
    packs := ((u.hdr p).msgbuf, count) :: u.packs }

/-- Line 566. -/
def sendFrom (u : User) (p packsize data : Nat) : Option Nat → User
  | none => u.pack p packsize data
  | some req =>
    let v := u.pack p packsize data
    (v.setHdr p { v.hdr p with request := req }).takeBuffer p (v.hdr p).count

/-- `bsend_detach_user` (:490). -/
def requestsFrom (u : User) : Nat → Option Nat → List Nat
  | _, none => []
  | 0, some _ => []
  | fuel + 1, some p => (u.hdr p).request :: requestsFrom u fuel (u.links.next p)

def requests (u : User) : List Nat := u.requestsFrom u.origbufferSize u.active

end User

end PsMpi.Bsend
