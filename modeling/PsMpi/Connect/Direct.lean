import Mathlib.Data.List.Basic
import PsMpi.Lib.Trans

/-!
# Direct connect

In direct connect mode the processes of a group connect all pairs of them before they communicate.
-/

open PsMpi.Lib List

namespace PsMpi.Connect

/-- A group of processes that connect: their number and their ranks in the process group, where
`lpids` is `none` for the whole process group. -/
structure Group where
  size : Nat
  lpids : Option (Nat → Nat)
  inj : ∀ f, lpids = some f → ∀ r < size, ∀ d < size, f r = f d → r = d

/-- `connect_direct` (`mpid_psp_connect.c:449,481`). -/
def Group.grank (g : Group) (r : Nat) : Nat :=
  match g.lpids with
  | none => r
  | some f => f r

def Group.right (g : Group) (r i : Nat) : Nat := (r + i) % g.size

def Group.left (g : Group) (r i : Nat) : Nat := (r + g.size - i) % g.size

/-- What a process does next: connect to the right at distance `i`, accept from the left at distance
`i`, and wait for the connection with a process at the end. -/
inductive Act
  | connect (i : Nat)
  | accept (i : Nat)
  | await (x : Nat)

/-- `connect_direct` (:446-478). -/
def Group.round (g : Group) (r i : Nat) : List Act :=
  let dest := g.grank (g.right r i)
  let src := g.grank (g.left r i)
  if i = 0 ∨ r / i % 2 ≠ 0 then
    .connect i :: if i = 0 ∨ src ≠ dest then [.accept i] else []
  else
    .accept i :: if src ≠ dest then [.connect i] else []

/-- Lines 440-486. -/
def Group.connectDirect (g : Group) (r : Nat) : List Act :=
  (List.range (g.size / 2 + 1)).flatMap (g.round r) ++ (List.range g.size).map .await

/-- A connection, by the process that opened it and the process that it was opened to. -/
structure Conn where
  src : Nat
  dst : Nat
  deriving DecidableEq

/-- Where a process is: between two actions, in `pscom_connect` or sending the init message. -/
inductive Stage
  | run
  | connecting (i : Nat)
  | sending (i : Nat)
  deriving DecidableEq

structure Proc where
  todo : List Act
  stage : Stage
  grank2con : Nat → Option Conn

def Proc.Busy (p : Proc) : Prop := p.todo ≠ [] ∨ p.stage ≠ .run

instance (p : Proc) : Decidable p.Busy := inferInstanceAs (Decidable (_ ∨ _))

structure NetSt where
  proc : Nat → Proc
  inits : List Conn
  opened : List Conn
  rejected : List Conn

/-- The steps: a process continues, `pscom_connect` returns, an init message is received, and the
sender of an init message goes on. -/
inductive Step
  | next (r : Nat)
  | connected (r : Nat)
  | initMsg (c : Conn)
  | initSendDone (r : Nat)

namespace NetSt

def setProc (s : NetSt) (r : Nat) (p : Proc) : NetSt :=
  { s with proc := Function.update s.proc r p }

/-- A process continues: it skips what is connected already, enters `pscom_connect` or goes on
waiting. `connect_direct`, `do_wait` (`:359,446-486`). -/
def next (g : Group) (s : NetSt) (r : Nat) : Option NetSt :=
  let p := s.proc r
  match p.todo with
  | [] => none
  | .connect i :: rest =>
    if (p.grank2con (g.grank (g.right r i))).isSome then some (s.setProc r { p with todo := rest })
    else some (s.setProc r { p with todo := rest, stage := .connecting i })
  | .accept i :: rest =>
    if (p.grank2con (g.grank (g.left r i))).isSome then some (s.setProc r { p with todo := rest })
    else none
  | .await x :: rest =>
    if (p.grank2con (g.grank x)).isSome then some (s.setProc r { p with todo := rest })
    else none

/-- `do_connect`, `do_connect_direct` (`:379,413`). -/
def connected (g : Group) (s : NetSt) (r i : Nat) : NetSt :=
  let c : Conn := ⟨r, g.right r i⟩
  { s.setProc r { s.proc r with
      stage := .sending i
      grank2con := Function.update (s.proc r).grank2con (g.grank (g.right r i)) (some c) } with
    inits := s.inits ++ [c], opened := s.opened ++ [c] }

/-- `cb_io_done_init_msg` (:312). -/
def initMsg (g : Group) (s : NetSt) (c : Conn) : NetSt :=
  let p := s.proc c.dst
  match p.grank2con (g.grank c.src) with
  | some old =>
    if old = c then { s with inits := s.inits.erase c }
    else { s with inits := s.inits.erase c, rejected := s.rejected ++ [c] }
  | none =>
    { s.setProc c.dst { p with
        grank2con := Function.update p.grank2con (g.grank c.src) (some c) } with
      inits := s.inits.erase c }

end NetSt

def NetSt.step (g : Group) (eager : Nat → Nat → Bool) (s : NetSt) : Step → Option NetSt
  | .next r => if r < g.size ∧ (s.proc r).stage = .run then s.next g r else none
  | .connected r =>
    match (s.proc r).stage with
    | .connecting i =>
      if r < g.size ∧ (s.proc (g.right r i)).Busy then some (s.connected g r i) else none
    | _ => none
  | .initMsg c => if c ∈ s.inits ∧ (s.proc c.dst).Busy then some (s.initMsg g c) else none
  | .initSendDone r =>
    match (s.proc r).stage with
    | .sending i =>
      if r < g.size ∧ (eager r (g.right r i) = true ∨ ⟨r, g.right r i⟩ ∉ s.inits) then
        some (s.setProc r { s.proc r with stage := .run })
      else none
    | _ => none

def NetSt.init (g : Group) : NetSt :=
  ⟨fun r => ⟨g.connectDirect r, .run, fun _ => none⟩, [], [], []⟩

def directSys (g : Group) (eager : Nat → Nat → Bool) : Sys NetSt Step :=
  ⟨.init g, NetSt.step g eager⟩

/-! ## Who connects to whom -/

section
variable {g : Group} {r d i j : Nat}

theorem Group.grank_inj (hr : r < g.size) (hd : d < g.size) : g.grank r = g.grank d ↔ r = d := by
  unfold Group.grank
  split
  · rfl
  · next f hf => exact ⟨g.inj f hf r hr d hd, fun h => h ▸ rfl⟩

theorem Group.right_lt (hr : r < g.size) : g.right r i < g.size :=
  Nat.mod_lt _ (Nat.zero_lt_of_lt hr)

theorem Group.left_lt (hr : r < g.size) : g.left r i < g.size :=
  Nat.mod_lt _ (Nat.zero_lt_of_lt hr)

theorem Group.right_eq (hr : r < g.size) (hi : i ≤ g.size) :
    g.right r i = if r + i < g.size then r + i else r + i - g.size := by
  unfold Group.right
  split
  · next h => exact Nat.mod_eq_of_lt h
  · next h => rw [Nat.mod_eq_sub_mod (Nat.le_of_not_lt h), Nat.mod_eq_of_lt (by omega)]

theorem Group.left_eq (hr : r < g.size) (hi : i ≤ g.size) :
    g.left r i = if i ≤ r then r - i else r + g.size - i := by
  unfold Group.left
  split
  · next h =>
    rw [show r + g.size - i = r - i + g.size by omega, Nat.add_mod_right, Nat.mod_eq_of_lt (by omega)]
  · next h => exact Nat.mod_eq_of_lt (by omega)

theorem Group.right_left (hr : r < g.size) (hi : i ≤ g.size) : g.right (g.left r i) i = r := by
  rw [Group.right_eq (Group.left_lt hr) hi, Group.left_eq hr hi]
  split <;> split <;> omega

theorem Group.left_eq_right (hr : r < g.size) (hi : i ≤ g.size / 2) :
    g.left r i = g.right r i ↔ i = 0 ∨ 2 * i = g.size := by
  rw [Group.right_eq hr (by omega), Group.left_eq hr (by omega)]
  split <;> split <;> omega

theorem Group.src_ne_dest (hr : r < g.size) (hi : i ≤ g.size / 2) :
    g.grank (g.left r i) ≠ g.grank (g.right r i) ↔ ¬ (i = 0 ∨ 2 * i = g.size) := by
  rw [Ne, Group.grank_inj (Group.left_lt hr) (Group.right_lt hr), Group.left_eq_right hr hi]

theorem Group.connect_mem_round : .connect i ∈ g.round r j ↔
    i = j ∧ ((i = 0 ∨ r / i % 2 ≠ 0) ∨ g.grank (g.left r i) ≠ g.grank (g.right r i)) := by
  unfold Group.round
  by_cases h : j = 0 ∨ r / j % 2 ≠ 0
  · rw [if_pos h]
    constructor
    · intro hm
      obtain rfl : i = j := by
        rcases mem_cons.1 hm with heq | hm
        · exact Act.connect.inj heq
        · split at hm <;> simp at hm
      exact ⟨rfl, .inl h⟩
    · rintro ⟨rfl, -⟩
      exact mem_cons_self
  · rw [if_neg h]
    constructor
    · intro hm
      rcases mem_cons.1 hm with heq | hm
      · cases heq
      · split at hm
        · next hne =>
          obtain rfl : i = j := Act.connect.inj (mem_singleton.1 hm)
          exact ⟨rfl, .inr hne⟩
        · cases hm
    · rintro ⟨rfl, hor⟩
      rw [if_pos (hor.resolve_left h)]
      exact mem_cons_of_mem _ (mem_singleton_self _)

theorem Group.mem_connect (hr : r < g.size) : .connect i ∈ g.connectDirect r ↔
    i ≤ g.size / 2 ∧ (i = 0 ∨ 2 * i ≠ g.size ∨ i ≤ r) := by
  have hmem : .connect i ∈ g.connectDirect r ↔
      ∃ j < g.size / 2 + 1, Act.connect i ∈ g.round r j := by
    simp [Group.connectDirect]
  rw [hmem]
  constructor
  · rintro ⟨j, hj, hm⟩
    obtain ⟨rfl, hor⟩ := Group.connect_mem_round.1 hm
    have hi : i ≤ g.size / 2 := by omega
    refine ⟨hi, ?_⟩
    rcases hor with (h0 | hodd) | hne
    · exact .inl h0
    · refine .inr (.inr (Nat.le_of_not_lt fun hlt => hodd ?_))
      rw [Nat.div_eq_of_lt hlt]
    · have := (Group.src_ne_dest hr hi).1 hne
      omega
  · rintro ⟨hi, hor⟩
    refine ⟨i, by omega, Group.connect_mem_round.2 ⟨rfl, ?_⟩⟩
    by_cases h : i ≠ 0 ∧ 2 * i = g.size
    · have h1 : r / i = 1 := Nat.div_eq_of_lt_le (by omega) (by omega)
      exact .inl (.inr (by rw [h1]; decide))
    · by_cases h0 : i = 0
      · exact .inl (.inl h0)
      · exact .inr ((Group.src_ne_dest hr hi).2 (by omega))

def Group.Opens (g : Group) (r d : Nat) : Prop :=
  ∃ i, .connect i ∈ g.connectDirect r ∧ g.right r i = d

theorem Group.right_inj (hr : r < g.size) (hi : i ≤ g.size / 2) (hj : j ≤ g.size / 2)
    (h : g.right r i = g.right r j) : i = j := by
  rw [Group.right_eq hr (by omega), Group.right_eq hr (by omega)] at h
  split at h <;> split at h <;> omega

theorem Group.opens_or (hr : r < g.size) (hd : d < g.size) : g.Opens r d ∨ g.Opens d r := by
  by_cases hle : r ≤ d
  · by_cases hlt : 2 * (d - r) < g.size
    · refine .inl ⟨d - r, (Group.mem_connect hr).2 ⟨by omega, by omega⟩, ?_⟩
      rw [Group.right_eq hr (by omega), if_pos (by omega)]
      omega
    · refine .inr ⟨g.size - (d - r), (Group.mem_connect hd).2 ⟨by omega, by omega⟩, ?_⟩
      rw [Group.right_eq hd (by omega), if_neg (by omega)]
      omega
  · by_cases hlt : 2 * (r - d) < g.size
    · refine .inr ⟨r - d, (Group.mem_connect hd).2 ⟨by omega, by omega⟩, ?_⟩
      rw [Group.right_eq hd (by omega), if_pos (by omega)]
      omega
    · refine .inl ⟨g.size - (r - d), (Group.mem_connect hr).2 ⟨by omega, by omega⟩, ?_⟩
      rw [Group.right_eq hr (by omega), if_neg (by omega)]
      omega

theorem Group.Opens.antisymm (hr : r < g.size) (hd : d < g.size) (h₁ : g.Opens r d)
    (h₂ : g.Opens d r) : r = d := by
  obtain ⟨i, hi, hri⟩ := h₁
  obtain ⟨j, hj, hrj⟩ := h₂
  obtain ⟨hi, hi'⟩ := (Group.mem_connect hr).1 hi
  obtain ⟨hj, hj'⟩ := (Group.mem_connect hd).1 hj
  rw [Group.right_eq hr (by omega)] at hri
  rw [Group.right_eq hd (by omega)] at hrj
  split at hri <;> split at hrj <;> omega

/-! ## The order of the actions -/

/-- The distance of an action; the actions at the end come after all distances. -/
def Act.round (n : Nat) : Act → Nat
  | .connect i => i
  | .accept i => i
  | .await _ => n

structure Before (g : Group) (r : Nat) (a b : Act) : Prop where
  round : a.round g.size ≤ b.round g.size
  connect : ∀ i, a = .connect i → b ≠ .connect i
  accept : ∀ i, a = .accept i → b = .connect i → i ≠ 0 ∧ r / i % 2 = 0

theorem Group.round_of_mem {n : Nat} {a : Act} (h : a ∈ g.round r i) : a.round n = i := by
  unfold Group.round at h
  split at h
  · rcases mem_cons.1 h with rfl | h
    · rfl
    · split at h
      · rw [mem_singleton.1 h]
        rfl
      · cases h
  · rcases mem_cons.1 h with rfl | h
    · rfl
    · split at h
      · rw [mem_singleton.1 h]
        rfl
      · cases h

theorem Group.round_no_await (g : Group) (r i x : Nat) : .await x ∉ g.round r i := by
  intro hm
  unfold Group.round at hm
  split at hm
  · rcases mem_cons.1 hm with heq | hm
    · cases heq
    · split at hm <;> simp at hm
  · rcases mem_cons.1 hm with heq | hm
    · cases heq
    · split at hm <;> simp at hm

theorem Group.accept_le (h : .accept i ∈ g.connectDirect r) : i ≤ g.size / 2 := by
  rcases mem_append.1 h with h | h
  · obtain ⟨j, hj, hm⟩ := mem_flatMap.1 h
    have hij : i = j := Group.round_of_mem (n := 0) hm
    have := mem_range.1 hj
    omega
  · simp at h

theorem Group.round_pairwise (g : Group) (r i : Nat) : (g.round r i).Pairwise (Before g r) := by
  unfold Group.round
  split
  · next h =>
    refine pairwise_cons.2 ⟨fun b hb => ?_, ?_⟩
    · split at hb
      · rw [mem_singleton.1 hb]
        exact ⟨Nat.le_refl _, nofun, nofun⟩
      · cases hb
    · split <;> simp
  · next h =>
    obtain ⟨h0, heven⟩ := not_or.1 h
    refine pairwise_cons.2 ⟨fun b hb => ?_, ?_⟩
    · split at hb
      · rw [mem_singleton.1 hb]
        refine ⟨Nat.le_refl _, nofun, fun j hj _ => ?_⟩
        cases hj
        exact ⟨h0, by omega⟩
      · cases hb
    · split <;> simp

theorem Group.connectDirect_pairwise (g : Group) (r : Nat) :
    (g.connectDirect r).Pairwise (Before g r) := by
  refine pairwise_append.2 ⟨pairwise_flatMap.2 ⟨fun i _ => g.round_pairwise r i, ?_⟩,
    ?_, ?_⟩
  · refine List.Pairwise.imp (fun {i j} hij a ha b hb => ?_) pairwise_lt_range
    have hai : a.round g.size = i := Group.round_of_mem ha
    have hbj : b.round g.size = j := Group.round_of_mem hb
    refine ⟨by omega, ?_, ?_⟩
    · rintro k rfl rfl
      exact Nat.lt_irrefl _ (hai ▸ hbj ▸ hij)
    · rintro k rfl rfl
      exact absurd hij (hai ▸ hbj ▸ Nat.lt_irrefl k)
  · refine pairwise_map.2 (List.Pairwise.imp (fun _ => ?_) pairwise_lt_range)
    exact ⟨Nat.le_refl _, nofun, nofun⟩
  · intro a ha b hb
    obtain ⟨i, hi, ha⟩ := mem_flatMap.1 ha
    obtain ⟨x, -, rfl⟩ := mem_map.1 hb
    have hai : a.round g.size = i := Group.round_of_mem ha
    have hi := mem_range.1 hi
    refine ⟨?_, nofun, nofun⟩
    rw [hai]
    show i ≤ g.size
    omega

end

end PsMpi.Connect
