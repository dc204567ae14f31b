import PsMpi.Lib.Trans
import Mathlib.Algebra.BigOperators.Group.List.Basic

/-!
# The creation of windows

See `mpich2/src/mpid/psp/src/mpid_rma.c`.
-/

open List Option PsMpi.Lib

namespace PsMpi.Rma

/-- `rma_pscom_socket` (`mpid_rma.c:128`). -/
structure RmaSocket where
  refCnt : Nat
  pscomSocket : Nat
  req : Bool

/-! ## The list of sockets -/

/-- `rma_pscom_sockets_find` (:141). -/
def rmaPscomSocketsFind (socket : Nat) (l : List RmaSocket) : Option RmaSocket :=
  l.find? fun r => r.pscomSocket = socket

/-- `rma_pscom_sockets_create` (:154). -/
def rmaPscomSocketsCreate (socket : Nat) (l : List RmaSocket) : List RmaSocket :=
  ⟨0, socket, true⟩ :: l

/-- `:191`. -/
def incRef (socket : Nat) : List RmaSocket → List RmaSocket
  | [] => []
  | r :: l => if r.pscomSocket = socket then { r with refCnt := (r.refCnt + 1) % 2 ^ 32 } :: l
    else r :: incRef socket l

/-- `rma_pscom_socket_add_ref` (:185). -/
def addRef (socket : Nat) (l : List RmaSocket) : List RmaSocket :=
  incRef socket
    (if rmaPscomSocketsFind socket l = none then rmaPscomSocketsCreate socket l else l)

/-- Count down a 32-bit number. -/
def pred32 (n : Nat) : Nat := (n + (2 ^ 32 - 1)) % 2 ^ 32

/-- `rma_pscom_socket_del_ref` (:197). -/
def delRef (socket : Nat) : List RmaSocket → Option (List RmaSocket)
  | [] => none
  | r :: l =>
    if r.pscomSocket = socket then
      if pred32 r.refCnt = 0 then some l else some ({ r with refCnt := pred32 r.refCnt } :: l)
    else (delRef socket l).map (r :: ·)

/-- `MPID_PSP_rma_check_init` (:221). -/
def checkInit (comm : List Nat) (l : List RmaSocket) : List RmaSocket :=
  comm.foldl (fun l s => addRef s l) l

/-- `MPID_PSP_rma_check_fini` (:231). -/
def checkFini : List Nat → List RmaSocket → Option (List RmaSocket)
  | [], l => some l
  | s :: comm, l => (delRef s l).bind (checkFini comm)

/-! ## Creations -/

structure Held where
  win : Bool
  comm : Bool
  bufs : Nat

/-- How a creation ends: whether it succeeds, has taken references, has its remote keys, and has
read the pointer to a window that is not created. -/
structure WinOutcome where
  ok : Bool
  refs : Bool
  keys : Bool
  reads : Bool
  held : Held

/-- Which steps of `MPID_Win_create` succeed. -/
structure WinCreateEnv where
  winAlloc : Bool
  commDup : Bool
  mallocs : Bool
  allgather : Bool
  memRegister : Bool
  rkeySizes : Bool
  rkeyBuffers : Bool
  rkeyGenerate : Bool

/-- Seven buffers belong to a window, and an eighth one to its remote keys. `MPID_Win_create`
(:248). -/
def winCreate (haveRmaApi : Bool) (e : WinCreateEnv) : WinOutcome :=
  if e.winAlloc = false then ⟨false, true, false, false, ⟨false, false, 0⟩⟩
  else if e.commDup = false then ⟨false, true, false, false, ⟨true, false, 0⟩⟩
  else if e.mallocs = false ∨ e.allgather = false then
    ⟨false, true, false, false, ⟨true, true, 0⟩⟩
  else if haveRmaApi = false then ⟨true, true, true, false, ⟨true, true, 7⟩⟩
  else if e.memRegister = false then ⟨true, true, false, false, ⟨true, true, 7⟩⟩
  else if e.rkeySizes = false then ⟨false, true, false, false, ⟨true, true, 2⟩⟩
  else if e.rkeyBuffers = false then ⟨false, true, false, false, ⟨true, true, 4⟩⟩
  else if e.rkeyGenerate = false then ⟨true, true, false, false, ⟨true, true, 12⟩⟩
  else ⟨true, true, true, false, ⟨true, true, 8⟩⟩

def WinOutcome.keep (o : WinOutcome) (bufs : Nat) : WinOutcome :=
  { o with held := { o.held with bufs := o.held.bufs + bufs } }

def noCreation (bufs : Nat) : WinOutcome := ⟨false, false, false, false, ⟨false, false, bufs⟩⟩

/-- `MPID_Win_create_dynamic` (:686). -/
def winCreateDynamic (haveRmaApi : Bool) (e : WinCreateEnv) : WinOutcome :=
  { winCreate haveRmaApi e with reads := !(winCreate haveRmaApi e).ok }

/-- `MPID_Win_allocate` (:697). -/
def winAllocate (haveRmaApi : Bool) (size : Int) (malloc : Bool) (e : WinCreateEnv) : WinOutcome :=
  if size < 0 ∨ 0 < size ∧ malloc = false then noCreation 0
  else
    { (winCreate haveRmaApi e).keep (if 0 < size then 1 else 0) with
      reads := !(winCreate haveRmaApi e).ok }

/-- Which steps of an allocation of shared memory succeed. -/
structure ShmgetEnv where
  hostLocal : Bool
  gathers : Bool
  segments : Bool
  mutex : Bool

/-- `MPID_PSP_Win_allocate_shmget` (:891). -/
def winAllocateShmget (haveRmaApi : Bool) (size : Int) (m : ShmgetEnv) (e : WinCreateEnv) :
    WinOutcome :=
  if size < 0 then noCreation 0
  else if m.gathers = false ∨ m.segments = false then noCreation 4
  else
    let o := (winCreate haveRmaApi e).keep 4
    { o with ok := o.ok && m.mutex }

/-- `MPID_PSP_Win_allocate_shared` (:1119). -/
def winAllocateShared (haveRmaApi : Bool) (comm : List Nat) (size : Int) (malloc : Bool)
    (m : ShmgetEnv) (e : WinCreateEnv) : WinOutcome :=
  if comm.length = 1 then winAllocate haveRmaApi size malloc e
  else if m.hostLocal = false then noCreation 0
  else (winAllocateShmget haveRmaApi size m e).keep 1

inductive WinCreation
  | create
  | dynamic
  | allocate (size : Int) (malloc : Bool)
  | allocateShared (size : Int) (malloc : Bool) (m : ShmgetEnv)

def WinCreation.run (haveRmaApi : Bool) (comm : List Nat) (e : WinCreateEnv) :
    WinCreation → WinOutcome
  | .create => winCreate haveRmaApi e
  | .dynamic => winCreateDynamic haveRmaApi e
  | .allocate size malloc => winAllocate haveRmaApi size malloc e
  | .allocateShared size malloc m => winAllocateShared haveRmaApi comm size malloc m e

/-! ## Runs -/

/-- The sockets, the communicators of the live windows with whether they have their remote keys, and
what failed creations have kept and read. -/
structure WinSt where
  sockets : List RmaSocket
  live : List (List Nat × Bool)
  keptWins : Nat
  keptComms : Nat
  keptBufs : Nat
  badReads : Nat

inductive WinEvent
  | create (comm : List Nat) (c : WinCreation) (e : WinCreateEnv)
  | free (i : Nat) (epochOk : Bool)

namespace WinSt

/-- A window outside of an epoch is freed. Without its remote keys, what then happens is not
defined. `MPID_Win_free` (:526). -/
def step (haveRmaApi : Bool) (s : WinSt) : WinEvent → Option WinSt
  | .create comm c e =>
    let o := c.run haveRmaApi comm e
    let s' := { s with sockets := if o.refs then checkInit comm s.sockets else s.sockets }
    if o.ok then some { s' with live := (comm, o.keys) :: s.live }
    else some { s' with
      keptWins := s.keptWins + if o.held.win then 1 else 0
      keptComms := s.keptComms + if o.held.comm then 1 else 0
      keptBufs := s.keptBufs + o.held.bufs
      badReads := s.badReads + if o.reads then 1 else 0 }
  | .free i epochOk =>
    match s.live[i]? with
    | none => none
    | some w =>
      if epochOk = false then some s
      else if haveRmaApi = true ∧ w.2 = false ∧ 1 < w.1.length then none
      else (checkFini w.1 s.sockets).map fun l =>
        { s with sockets := l, live := s.live.eraseIdx i }

def ranks (s : WinSt) : List Nat := s.live.flatMap (·.1)

/-- The references are those of the live windows, the dummy receives are posted for them, and failed
creations have kept and read nothing. -/
structure NoTrace (s : WinSt) : Prop where
  refs : ∀ sock, ((rmaPscomSocketsFind sock s.sockets).map (·.refCnt)).getD 0 = s.ranks.count sock
  posted : ∀ sock, (∃ r ∈ s.sockets, r.pscomSocket = sock ∧ r.req = true) ↔ 0 < s.ranks.count sock
  reads : s.badReads = 0
  kept : s.keptWins = 0 ∧ s.keptComms = 0 ∧ s.keptBufs = 0

end WinSt

def winSys (haveRmaApi : Bool) : Sys WinSt WinEvent :=
  ⟨⟨[], [], 0, 0, 0, 0⟩, WinSt.step haveRmaApi⟩

def WinCreateEnv.Ok (haveRmaApi : Bool) (e : WinCreateEnv) : Prop :=
  e.winAlloc = true ∧ e.commDup = true ∧ e.mallocs = true ∧ e.allgather = true ∧
    (haveRmaApi = true → e.memRegister = true → e.rkeySizes = true ∧ e.rkeyBuffers = true)

def WinCreation.Early (haveRmaApi : Bool) (comm : List Nat) (e : WinCreateEnv) :
    WinCreation → Prop
  | .create | .dynamic => e.Ok haveRmaApi
  | .allocate size malloc => size < 0 ∨ 0 < size ∧ malloc = false ∨ e.Ok haveRmaApi
  | .allocateShared size malloc m =>
    if comm.length = 1 then size < 0 ∨ 0 < size ∧ malloc = false ∨ e.Ok haveRmaApi
    else m.hostLocal = false ∨ 0 ≤ size ∧ m.gathers = true ∧ m.segments = true ∧
      e.Ok haveRmaApi ∧ m.mutex = true

def EarlyFailures (haveRmaApi : Bool) (s : WinSt) : WinEvent → Prop
  | .create comm c e => c.Early haveRmaApi comm e ∧ s.ranks.length + comm.length < 2 ^ 32
  | .free .. => True

/-! ## The references -/

/-- The entries of the list are the sockets that are referred to, each with its number of
references. -/
structure SocksOk (refs : List Nat) (l : List RmaSocket) : Prop where
  nodup : (l.map (·.pscomSocket)).Nodup
  find : ∀ s, rmaPscomSocketsFind s l =
    if refs.count s = 0 then none else some ⟨refs.count s, s, true⟩

variable {refs comm : List Nat} {l : List RmaSocket} {s t : Nat} {r : RmaSocket}

theorem find_cons (r : RmaSocket) (l : List RmaSocket) (t : Nat) : rmaPscomSocketsFind t (r :: l) =
    if r.pscomSocket = t then some r else rmaPscomSocketsFind t l := by
  by_cases h : r.pscomSocket = t <;> simp [rmaPscomSocketsFind, h]

theorem find_incRef : rmaPscomSocketsFind t (incRef s l) =
    if t = s then
      (rmaPscomSocketsFind s l).map fun r => { r with refCnt := (r.refCnt + 1) % 2 ^ 32 }
    else rmaPscomSocketsFind t l := by
  induction l with
  | nil => simp [incRef, rmaPscomSocketsFind]
  | cons r l ih =>
    unfold incRef
    by_cases hr : r.pscomSocket = s
    · subst hr
      by_cases ht : t = r.pscomSocket
      · simp [find_cons, ht]
      · simp [find_cons, ht, Ne.symm ht]
    · by_cases ht : t = s
      · subst ht
        simp [find_cons, hr, ih]
      · simp [find_cons, hr, ih, ht]

theorem map_incRef : (incRef s l).map (·.pscomSocket) = l.map (·.pscomSocket) := by
  induction l with
  | nil => rfl
  | cons r l ih =>
    unfold incRef
    split <;> simp [ih]

theorem SocksOk.addRef (h : SocksOk refs l) (hlt : refs.length + 1 < 2 ^ 32) :
    SocksOk (s :: refs) (addRef s l) := by
  have hcount : refs.count s ≤ refs.length := count_le_length
  unfold PsMpi.Rma.addRef
  have hs := h.find s
  by_cases h0 : refs.count s = 0
  · rw [if_pos h0] at hs
    rw [if_pos hs]
    refine ⟨?_, fun t => ?_⟩
    · rw [map_incRef]
      refine nodup_cons.2 ⟨fun hm => ?_, h.nodup⟩
      obtain ⟨r, hr, hrs⟩ := mem_map.1 hm
      exact find?_eq_none.1 hs r hr (by simpa using hrs)
    · rw [find_incRef, rmaPscomSocketsCreate, find_cons, if_pos rfl, find_cons]
      by_cases ht : t = s
      · simp [ht, h0]
      · rw [if_neg ht, if_neg (Ne.symm ht), h.find, count_cons_of_ne (Ne.symm ht)]
  · rw [if_neg h0] at hs
    rw [if_neg (by simp [hs])]
    refine ⟨by rw [map_incRef]; exact h.nodup, fun t => ?_⟩
    rw [find_incRef]
    by_cases ht : t = s
    · have hmod : (refs.count s + 1) % 2 ^ 32 = refs.count s + 1 := by omega
      rw [if_pos ht, ht, hs, count_cons_self, if_neg (Nat.succ_ne_zero _), Option.map_some, hmod]
    · rw [if_neg ht, h.find, count_cons_of_ne (Ne.symm ht)]

theorem SocksOk.perm {refs' : List Nat} (h : SocksOk refs l) (hp : refs ~ refs') :
    SocksOk refs' l :=
  ⟨h.nodup, fun s => by rw [h.find, hp.count_eq]⟩

theorem SocksOk.checkInit (h : SocksOk refs l) (hlt : refs.length + comm.length < 2 ^ 32) :
    SocksOk (comm ++ refs) (checkInit comm l) := by
  induction comm generalizing refs l with
  | nil => exact h
  | cons s comm ih =>
    rw [length_cons] at hlt
    have hs := ih (h.addRef (s := s) (by omega)) (by rw [length_cons]; omega)
    exact hs.perm perm_middle

theorem delRef_find (hnd : (l.map (·.pscomSocket)).Nodup) (h : rmaPscomSocketsFind s l = some r) :
    ∃ l', delRef s l = some l' ∧ l'.map (·.pscomSocket) <+ l.map (·.pscomSocket) ∧
      ∀ t, rmaPscomSocketsFind t l' = if t = s then
        if pred32 r.refCnt = 0 then none else some { r with refCnt := pred32 r.refCnt }
      else rmaPscomSocketsFind t l := by
  induction l with
  | nil => cases h
  | cons q l ih =>
    obtain ⟨hq, hnd⟩ := nodup_cons.1 hnd
    unfold delRef
    by_cases hs : q.pscomSocket = s
    · subst hs
      obtain rfl : q = r := by simpa [find_cons] using h
      have hnone : rmaPscomSocketsFind q.pscomSocket l = none := by
        refine find?_eq_none.2 fun r hr hrq => hq ?_
        exact mem_map.2 ⟨r, hr, by simpa using hrq⟩
      rw [if_pos rfl]
      split
      · refine ⟨l, rfl, sublist_cons_self _ _, fun t => ?_⟩
        by_cases ht : t = q.pscomSocket
        · rw [ht, if_pos rfl, hnone]
        · rw [if_neg ht, find_cons, if_neg (Ne.symm ht)]
      · refine ⟨_, rfl, by simp, fun t => ?_⟩
        by_cases ht : t = q.pscomSocket
        · simp [find_cons, ht]
        · simp [find_cons, ht, Ne.symm ht]
    · rw [if_neg hs]
      rw [find_cons, if_neg hs] at h
      obtain ⟨l', hl', hsub, hfind⟩ := ih hnd h
      refine ⟨q :: l', by rw [hl']; rfl, hsub.cons_cons _, fun t => ?_⟩
      rw [find_cons, hfind, find_cons]
      by_cases ht : t = s
      · simp [ht, hs]
      · simp [ht]

theorem SocksOk.delRef (h : SocksOk (s :: refs) l) (hlt : refs.length + 1 < 2 ^ 32) :
    ∃ l', delRef s l = some l' ∧ SocksOk refs l' := by
  have hs : rmaPscomSocketsFind s l = some ⟨refs.count s + 1, s, true⟩ := by
    rw [h.find, count_cons_self, if_neg (Nat.succ_ne_zero _)]
  obtain ⟨l', hl', hsub, hfind⟩ := delRef_find h.nodup hs
  have hcount : refs.count s ≤ refs.length := count_le_length
  have hdec : pred32 (refs.count s + 1) = refs.count s := by
    unfold pred32
    omega
  refine ⟨l', hl', h.nodup.sublist hsub, fun t => ?_⟩
  rw [hfind]
  dsimp only
  rw [hdec]
  by_cases ht : t = s
  · rw [if_pos ht, ht]
  · rw [if_neg ht, h.find, count_cons_of_ne (Ne.symm ht)]

theorem SocksOk.checkFini (h : SocksOk (comm ++ refs) l)
    (hlt : (comm ++ refs).length < 2 ^ 32) :
    ∃ l', checkFini comm l = some l' ∧ SocksOk refs l' := by
  induction comm generalizing l with
  | nil => exact ⟨l, rfl, h⟩
  | cons s comm ih =>
    obtain ⟨l₁, h1, hok⟩ := h.delRef (by simpa using hlt)
    obtain ⟨l', hl', hok'⟩ := ih hok (by rw [cons_append, length_cons] at hlt; omega)
    exact ⟨l', by rw [PsMpi.Rma.checkFini, h1]; exact hl', hok'⟩

/-! ## The creations -/

theorem winCreate_ok {haveRmaApi : Bool} {e : WinCreateEnv} (h : e.Ok haveRmaApi) :
    (winCreate haveRmaApi e).ok = true ∧ (winCreate haveRmaApi e).refs = true := by
  obtain ⟨h1, h2, h3, h4, h5⟩ := h
  unfold winCreate
  cases haveRmaApi <;> cases hm : e.memRegister <;> cases hg : e.rkeyGenerate <;> simp_all

theorem winAllocate_early {haveRmaApi : Bool} {e : WinCreateEnv} {size : Int} {malloc : Bool}
    (h : size < 0 ∨ 0 < size ∧ malloc = false ∨ e.Ok haveRmaApi) :
    (winAllocate haveRmaApi size malloc e).ok = true ∧
        (winAllocate haveRmaApi size malloc e).refs = true ∨
      winAllocate haveRmaApi size malloc e = noCreation 0 := by
  unfold winAllocate
  split
  · exact .inr rfl
  · rename_i hn
    have h := h.resolve_left fun hs => hn (.inl hs)
    exact .inl (winCreate_ok (h.resolve_left fun hs => hn (.inr hs)))

theorem run_early {haveRmaApi : Bool} {e : WinCreateEnv} {c : WinCreation}
    (h : c.Early haveRmaApi comm e) :
    (c.run haveRmaApi comm e).ok = true ∧ (c.run haveRmaApi comm e).refs = true ∨
      c.run haveRmaApi comm e = noCreation 0 := by
  cases c with
  | create | dynamic => exact .inl (winCreate_ok h)
  | allocate size malloc => exact winAllocate_early h
  | allocateShared size malloc m =>
    simp only [WinCreation.Early] at h
    simp only [WinCreation.run, winAllocateShared]
    split
    · rename_i hone
      rw [if_pos hone] at h
      exact winAllocate_early h
    · rename_i hone
      rw [if_neg hone] at h
      split
      · exact .inr rfl
      · rename_i hlocal
        obtain ⟨hsize, hgathers, hsegments, hok, hmutex⟩ := h.resolve_left hlocal
        have hc := winCreate_ok hok
        left
        simp [winAllocateShmget, WinOutcome.keep, Int.not_lt.2 hsize, hgathers, hsegments, hmutex,
          hc]

namespace WinSt

/-- The invariant of the runs. -/
structure Ok (s : WinSt) : Prop where
  socks : SocksOk s.ranks s.sockets
  length : s.ranks.length < 2 ^ 32
  reads : s.badReads = 0
  kept : s.keptWins = 0 ∧ s.keptComms = 0 ∧ s.keptBufs = 0

theorem Ok.noTrace {s : WinSt} (h : s.Ok) : s.NoTrace := by
  refine ⟨fun sock => ?_, fun sock => ?_, h.reads, h.kept⟩
  · rw [h.socks.find]
    by_cases h0 : s.ranks.count sock = 0
    · simp [h0]
    · simp [h0]
  · have hfind := h.socks.find sock
    constructor
    · rintro ⟨r, hr, hrs, -⟩
      refine Nat.pos_of_ne_zero fun h0 => ?_
      rw [if_pos h0] at hfind
      exact find?_eq_none.1 hfind r hr (by simpa using hrs)
    · intro hpos
      rw [if_neg (Nat.pos_iff_ne_zero.1 hpos)] at hfind
      exact ⟨_, mem_of_find?_eq_some hfind, rfl, rfl⟩

theorem Ok.step {haveRmaApi : Bool} {s s' : WinSt} {ev : WinEvent} (h : s.Ok)
    (hc : EarlyFailures haveRmaApi s ev) (hst : s.step haveRmaApi ev = some s') : s'.Ok := by
  cases ev with
  | create comm c e =>
    obtain ⟨hearly, hlt⟩ : c.Early haveRmaApi comm e ∧ s.ranks.length + comm.length < 2 ^ 32 := hc
    simp only [WinSt.step] at hst
    rcases run_early hearly with ⟨hok, hrefs⟩ | ho
    · simp only [hok, hrefs, if_true, some.injEq] at hst
      subst hst
      refine ⟨h.socks.checkInit hlt, ?_, h.reads, h.kept⟩
      change (comm ++ s.ranks).length < _
      rw [length_append]
      omega
    · simp only [ho, noCreation, Bool.false_eq_true, if_false, Nat.add_zero, some.injEq] at hst
      subst hst
      exact { h with }
  | free i epochOk =>
    simp only [WinSt.step] at hst
    split at hst
    · cases hst
    · rename_i w hw
      split at hst
      · cases hst
        exact h
      · split at hst
        · cases hst
        · have hp : w.1 ++ (s.live.eraseIdx i).flatMap (·.1) ~ s.ranks := by
            obtain ⟨hlt, rfl⟩ := List.getElem?_eq_some_iff.1 hw
            exact (getElem_cons_eraseIdx_perm hlt).flatMap_right _
          have hlen := hp.length_eq
          obtain ⟨l', hl', hok⟩ := (h.socks.perm hp.symm).checkFini (hlen ▸ h.length)
          simp only [hl', Option.map_some, some.injEq] at hst
          subst hst
          refine ⟨hok, ?_, h.reads, h.kept⟩
          have := h.length
          rw [length_append] at hlen
          change ((s.live.eraseIdx i).flatMap _).length < _
          omega

end WinSt

/-- In every run in which each creation succeeds or fails early, failed creations leave no trace. -/
theorem win_create_no_trace (haveRmaApi : Bool) {s : WinSt}
    (h : (winSys haveRmaApi).ReachWhen (EarlyFailures haveRmaApi) s) : s.NoTrace := by
  have hinit : (winSys haveRmaApi).init.Ok :=
    ⟨⟨.nil, fun _ => rfl⟩, Nat.two_pow_pos _, rfl, rfl, rfl, rfl⟩
  exact WinSt.Ok.noTrace (h.inv hinit fun _ h hc hst => h.step hc hst)

def allOk : WinCreateEnv := ⟨true, true, true, true, true, true, true, true⟩

/-- A window is created, there is no memory for a second one, and a third one is freed. -/
theorem win_create_no_trace_three : ∃ s, (winSys true).exec (winSys true).init
    [.create [0, 0, 1] .create allOk, .create [0, 1] (.allocate 8 false) allOk,
      .create [0, 1] .dynamic allOk, .free 0 true] = some s ∧
    s.sockets = [⟨1, 1, true⟩, ⟨2, 0, true⟩] ∧ s.NoTrace := by
  refine ⟨_, rfl, rfl, win_create_no_trace true ?_⟩
  refine .step (a := .free 0 true) (.step (a := .create [0, 1] .dynamic allOk)
    (.step (a := .create [0, 1] (.allocate 8 false) allOk)
      (.step (a := .create [0, 0, 1] .create allOk) .init ?_ rfl) ?_ rfl) ?_ rfl) trivial rfl
  · exact ⟨⟨rfl, rfl, rfl, rfl, fun _ _ => ⟨rfl, rfl⟩⟩, by decide⟩
  · exact ⟨.inr (.inl ⟨by decide, rfl⟩), by decide⟩
  · exact ⟨⟨rfl, rfl, rfl, rfl, fun _ _ => ⟨rfl, rfl⟩⟩, by decide⟩

/-- The communicator of a window cannot be made: the references and the window are kept, and its
pointer is read. -/
theorem win_create_leaves_trace : ∃ s, (winSys true).exec (winSys true).init
    [.create [0, 0] .dynamic { allOk with commDup := false }] = some s ∧
    s.sockets = [⟨2, 0, true⟩] ∧ s.keptWins = 1 ∧ ¬ s.NoTrace :=
  ⟨_, rfl, rfl, rfl, fun h => absurd h.reads (by decide)⟩

end PsMpi.Rma
