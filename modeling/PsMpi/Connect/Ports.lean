import Mathlib.Data.List.Basic
import Mathlib.Data.List.Induction

/-!
# The open ports of a process

See `mpich2/src/mpid/psp/src/mpid_spawn.c`.
-/

open List

namespace PsMpi.Ports

/-- `inter_sockets` (`mpid_spawn.c:122-130`). -/
abbrev InterSockets := List (Option Nat)

structure EpStrs where
  abi5 : Bool
  epStr : Nat → Option String
  listenStr : Nat → String

/-- `inter_sockets_add` (:133). -/
def interSocketsAdd (socket : Nat) : InterSockets → Option InterSockets
  | [] => none
  | none :: t => some (some socket :: t)
  | some s :: t => (interSocketsAdd socket t).map (some s :: ·)

/-- `inter_sockets_get_by_ep_str` (:149). -/
def interSocketsGetByEpStr (eps : EpStrs) (port : String) :
    InterSockets → Except String (Option Nat)
  | [] => .ok none
  | none :: t => interSocketsGetByEpStr eps port t
  | some s :: t =>
    match eps.epStr s with
    | none => .error "**psp|nullendpoint"
    | some e =>
      if e = port ∨ eps.abi5 = false ∧ eps.listenStr s = port then .ok (some s)
      else interSocketsGetByEpStr eps port t

/-- `inter_sockets_del_by_socket` (:195). -/
def interSocketsDelBySocket (socket : Nat) : InterSockets → InterSockets
  | [] => []
  | s :: t => if s = some socket then none :: t else s :: interSocketsDelBySocket socket t

/-- `MPI_MAX_PORT_NAME` (`mpi.h.in:502`). -/
def mpiMaxPortName : Nat := 256

structure NewPort where
  socket : Option Nat
  listens : Bool
  epStr : Option String

/-- `MPID_Open_port` (:557). -/
def openPort (p : NewPort) (t : InterSockets) : Option (Except String String × InterSockets) :=
  match p.socket with
  | none => some (.error "**psp|opensocket", t)
  | some s =>
    if p.listens = false then none
    else
      match p.epStr with
      | none => some (.error "**psp|nullendpoint", t)
      | some e =>
        if mpiMaxPortName < e.length then some (.error "**psp|endpointlength", t)
        else (interSocketsAdd s t).map (.ok e, ·)

/-- `MPID_Close_port` (:632). -/
def closePort (eps : EpStrs) (port : String) (t : InterSockets) : InterSockets :=
  match interSocketsGetByEpStr eps port t with
  | .error _ | .ok none => t
  | .ok (some s) => interSocketsDelBySocket s t

/-- What a process meets in a spawn: whether it is the root, its memory, the result of the process
manager with an error code for each process, the broadcasts with the decision of the root, the steps
of the accept, and the strings of the sockets then and at the end. -/
structure SpawnCall where
  root : Bool
  port : NewPort
  mallocOk : Bool
  pmiOk : Bool
  pmiErrcodes : List Int
  received : Bool
  bcastsOk : Bool
  socketsOk : Bool
  pgInfoOk : Bool
  barrierOk : Bool
  epsAccept : EpStrs
  epsClose : EpStrs

namespace SpawnCall

variable (x : SpawnCall)

/-- `:1008-1040`. -/
def shouldAccept : Bool :=
  if x.root then x.pmiOk && !(x.pmiErrcodes.all (· ≠ 0)) else x.received

/-- `MPID_Comm_accept` (:767). -/
def commAccept (port : String) (t : InterSockets) : Except String Unit :=
  if x.socketsOk = false then .error "**psp|opensocket"
  else
    let found := if x.root then interSocketsGetByEpStr x.epsAccept port t else .ok (some 0)
    match found with
    | .error e => .error e
    | .ok none => .error "**psp|opensocket"
    | .ok (some _) =>
      if x.pgInfoOk = false then .error "**comm"
      else if x.barrierOk then .ok ()
      else .error "**fail"

/-- `MPID_Comm_spawn_multiple` (:969). -/
def commSpawnMultiple (t : InterSockets) : Option (Except String Unit × InterSockets) :=
  match openPort x.port t with
  | none => none
  | some (.error e, t) => some (.error e, t)
  | some (.ok port, t) =>
    if x.root = true ∧ x.mallocOk = false then some (.error "**nomem", t)
    else if x.bcastsOk = false then some (.error "**coll_fail", t)
    else if x.shouldAccept = false then some (.error "**spawn", t)
    else
      match x.commAccept port t with
      | .error e => some (.error e, t)
      | .ok () => some (.ok (), closePort x.epsClose port t)

def Opens (t : InterSockets) (s : Nat) (port : String) : Prop :=
  x.port.socket = some s ∧ x.port.listens = true ∧ x.port.epStr = some port ∧
    port.length ≤ mpiMaxPortName ∧ none ∈ t

def Succeeds (t : InterSockets) (s : Nat) (port : String) : Prop :=
  (x.root = true → x.mallocOk = true) ∧ x.bcastsOk = true ∧ x.shouldAccept = true ∧
    (∃ t', interSocketsAdd s t = some t' ∧ x.commAccept port t' = .ok () ∧
      interSocketsGetByEpStr x.epsClose port t' = .ok (some s))

end SpawnCall

/-! ## The table -/

theorem interSocketsAdd_isSome {s : Nat} {t : InterSockets} :
    (interSocketsAdd s t).isSome ↔ none ∈ t := by
  induction t with
  | nil => simp [interSocketsAdd]
  | cons a t ih => cases a <;> simp [interSocketsAdd, ih]

theorem mem_interSocketsAdd {s r : Nat} {t t' : InterSockets} (h : interSocketsAdd s t = some t') :
    some r ∈ t' ↔ r = s ∨ some r ∈ t := by
  induction t generalizing t' with
  | nil => cases h
  | cons a t ih =>
    cases a with
    | none =>
      cases h
      simp
    | some b =>
      obtain ⟨u, hu, rfl⟩ := Option.map_eq_some_iff.1 h
      simp only [mem_cons, Option.some.injEq, ih hu]
      tauto

theorem interSocketsDel_add {s : Nat} {t t' : InterSockets} (h : interSocketsAdd s t = some t')
    (hfresh : some s ∉ t) : interSocketsDelBySocket s t' = t := by
  induction t generalizing t' with
  | nil => cases h
  | cons a t ih =>
    cases a with
    | none =>
      cases h
      simp [interSocketsDelBySocket]
    | some b =>
      obtain ⟨u, hu, rfl⟩ := Option.map_eq_some_iff.1 h
      have hb : some b ≠ some s := fun he => hfresh (he ▸ mem_cons_self)
      rw [interSocketsDelBySocket, if_neg hb, ih hu fun hm => hfresh (mem_cons_of_mem _ hm)]

theorem mem_interSocketsDel {s r : Nat} {t : InterSockets} (hne : r ≠ s) :
    some r ∈ interSocketsDelBySocket s t ↔ some r ∈ t := by
  induction t with
  | nil => rfl
  | cons a t ih =>
    unfold interSocketsDelBySocket
    split
    · rename_i ha
      simp [ha, hne]
    · simp [ih]

theorem closePort_added {eps : EpStrs} {port : String} {s : Nat} {t t' : InterSockets}
    (h : interSocketsAdd s t = some t') (hfresh : some s ∉ t) :
    (∀ r, some r ∈ closePort eps port t' ↔ some r ∈ t) ↔
      interSocketsGetByEpStr eps port t' = .ok (some s) := by
  have hs : some s ∈ t' := (mem_interSocketsAdd h).2 (.inl rfl)
  unfold closePort
  cases hg : interSocketsGetByEpStr eps port t' with
  | error e => exact iff_of_false (fun hall => hfresh ((hall s).1 hs)) nofun
  | ok found =>
    cases found with
    | none => exact iff_of_false (fun hall => hfresh ((hall s).1 hs)) nofun
    | some r =>
      by_cases hr : s = r
      · subst hr
        refine iff_of_true (fun q => ?_) rfl
        simp only [interSocketsDel_add h hfresh]
      · refine iff_of_false (fun hall => hfresh ((hall s).1 ((mem_interSocketsDel hr).2 hs))) ?_
        exact fun he => hr (Option.some.inj (Except.ok.inj he)).symm

/-! ## Spawn -/

theorem openPort_of_opens {x : SpawnCall} {t : InterSockets} {s : Nat} {port : String}
    (h : x.Opens t s port) : ∃ t', interSocketsAdd s t = some t' ∧
      openPort x.port t = some (.ok port, t') := by
  obtain ⟨hs, hl, he, hlen, hfree⟩ := h
  obtain ⟨t', ht⟩ := Option.isSome_iff_exists.1 (interSocketsAdd_isSome.2 hfree)
  exact ⟨t', ht, by simp [openPort, hs, hl, he, ht, Nat.not_lt.2 hlen]⟩

theorem openPort_cases {x : SpawnCall} {t : InterSockets} :
    openPort x.port t = none ∨ (∃ e, openPort x.port t = some (.error e, t)) ∨
      ∃ s port, x.Opens t s port := by
  unfold openPort
  cases hs : x.port.socket with
  | none => exact .inr (.inl ⟨_, rfl⟩)
  | some s =>
    cases hl : x.port.listens with
    | false => exact .inl rfl
    | true =>
      cases he : x.port.epStr with
      | none => exact .inr (.inl ⟨_, rfl⟩)
      | some e =>
        by_cases hlen : mpiMaxPortName < e.length
        · exact .inr (.inl ⟨_, if_pos hlen⟩)
        · by_cases hfree : none ∈ t
          · exact .inr (.inr ⟨s, e, hs, hl, he, Nat.not_lt.1 hlen, hfree⟩)
          · have hfull : interSocketsAdd s t = none :=
              Option.not_isSome_iff_eq_none.1 fun h => hfree (interSocketsAdd_isSome.1 h)
            exact .inl (by simp [hlen, hfull])

theorem commSpawnMultiple_opened {x : SpawnCall} {t t' : InterSockets} {s : Nat} {port : String}
    (hopen : openPort x.port t = some (.ok port, t')) (hadd : interSocketsAdd s t = some t')
    (hfresh : some s ∉ t) :
    (∀ r ∈ x.commSpawnMultiple t, ∀ q, some q ∈ r.2 ↔ some q ∈ t) ↔ x.Succeeds t s port := by
  have hkept : ¬ ∀ q, some q ∈ t' ↔ some q ∈ t := fun h =>
    hfresh ((h s).1 ((mem_interSocketsAdd hadd).2 (.inl rfl)))
  unfold SpawnCall.commSpawnMultiple SpawnCall.Succeeds
  simp only [hopen]
  split
  · rename_i hm
    exact iff_of_false (fun h => hkept (h _ rfl)) fun h => by simp [h.1 hm.1] at hm
  · rename_i hm
    split
    · rename_i hb
      exact iff_of_false (fun h => hkept (h _ rfl)) fun h => by simp [h.2.1] at hb
    · rename_i hb
      split
      · rename_i ha
        exact iff_of_false (fun h => hkept (h _ rfl)) fun h => by simp [h.2.2.1] at ha
      · rename_i ha
        split
        · rename_i e he
          refine iff_of_false (fun h => hkept (h _ rfl)) ?_
          rintro ⟨-, -, -, u, hu, hacc, -⟩
          obtain rfl := Option.some.inj (hadd.symm.trans hu)
          cases he.symm.trans hacc
        · rename_i hacc
          have hclose : (∀ r, some r ∈ closePort x.epsClose port t' ↔ some r ∈ t) ↔ _ :=
            closePort_added hadd hfresh
          refine Iff.trans (by simp) (hclose.trans ⟨fun hget => ?_, ?_⟩)
          · refine ⟨fun hr => ?_, by simpa using hb, by simpa using ha, t', hadd, hacc, hget⟩
            simpa [hr] using hm
          · rintro ⟨-, -, -, u, hu, -, hget⟩
            obtain rfl := Option.some.inj (hadd.symm.trans hu)
            exact hget

/-- The open ports after a spawn are those before it if and only if no port has been opened, or the
spawn succeeds. -/
theorem spawn_keeps_ports_iff (x : SpawnCall) (t : InterSockets)
    (hfresh : ∀ s, x.port.socket = some s → some s ∉ t) :
    (∀ r ∈ x.commSpawnMultiple t, ∀ s, some s ∈ r.2 ↔ some s ∈ t) ↔
      ∀ s port, x.Opens t s port → x.Succeeds t s port := by
  rcases openPort_cases (x := x) (t := t) with h | ⟨e, h⟩ | ⟨s, port, ho⟩
  · refine iff_of_true (fun r hr => ?_) fun s port ho => ?_
    · simp [SpawnCall.commSpawnMultiple, h] at hr
    · obtain ⟨t', -, hopen⟩ := openPort_of_opens ho
      cases h.symm.trans hopen
  · refine iff_of_true (fun r hr s => ?_) fun s port ho => ?_
    · simp only [SpawnCall.commSpawnMultiple, h, Option.mem_def, Option.some.injEq] at hr
      rw [← hr]
    · obtain ⟨t', -, hopen⟩ := openPort_of_opens ho
      cases h.symm.trans hopen
  · obtain ⟨t', hadd, hopen⟩ := openPort_of_opens ho
    rw [commSpawnMultiple_opened hopen hadd (hfresh s ho.1)]
    refine ⟨fun h s' port' ho' => ?_, fun h => h s port ho⟩
    obtain rfl := Option.some.inj (ho.1.symm.trans ho'.1)
    obtain rfl := Option.some.inj (ho.2.2.1.symm.trans ho'.2.2.1)
    exact h

/-- A spawn of one process by the root. The process manager reports a failure or not. -/
def oneSpawn (pmiOk : Bool) : SpawnCall :=
  let eps : EpStrs := ⟨true, fun s => some (if s = 0 then "p" else "q"), fun _ => "r"⟩
  ⟨true, ⟨some 0, true, some "p"⟩, true, pmiOk, [0], true, true, true, true, true, eps, eps⟩

theorem spawn_keeps_ports_one : (oneSpawn true).commSpawnMultiple [none, some 1] ≠ none ∧
    ∀ r ∈ (oneSpawn true).commSpawnMultiple [none, some 1],
      ∀ s, some s ∈ r.2 ↔ some s ∈ [none, some 1] := by
  refine ⟨nofun, (spawn_keeps_ports_iff (oneSpawn true) [none, some 1] fun s hs => ?_).2
    fun s port ho => ?_⟩
  · cases hs
    decide
  · cases ho.1
    cases ho.2.2.1
    exact ⟨fun _ => rfl, rfl, rfl, _, rfl, rfl, rfl⟩

theorem spawn_leaves_port : ∃ r ∈ (oneSpawn false).commSpawnMultiple [none, some 1],
    some 0 ∈ r.2 ∧ some 0 ∉ [none, some 1] :=
  ⟨_, rfl, by decide, by decide⟩

end PsMpi.Ports
