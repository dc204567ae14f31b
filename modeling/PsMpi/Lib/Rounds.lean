import PsMpi.Lib.Trans
import Mathlib.Data.List.Range
import Mathlib.Algebra.Order.BigOperators.Group.List
import Mathlib.Algebra.Order.Group.Nat
import Mathlib.Order.Nat

/-!
# Communication in rounds

Processes run programs of communication actions over FIFO channels, each at its own pace.
-/

open List Option

namespace PsMpi.Lib.Rounds

/-- What a process does in a round. An exchange is a send and a receive with the same process. -/
inductive Action (ι σ μ : Type*) where
  | idle
  | send (dst : ι) (msg : σ → μ)
  | recv (src : ι) (upd : σ → μ → σ)
  | exchange (peer : ι) (msg : σ → μ) (upd : σ → μ → σ)

namespace Action

variable {ι σ μ : Type*}

def dst? : Action ι σ μ → Option ι
  | send dst _ => some dst
  | exchange peer _ _ => some peer
  | _ => none

def src? : Action ι σ μ → Option ι
  | recv src _ => some src
  | exchange peer _ _ => some peer
  | _ => none

def msg? (a : Action ι σ μ) (s : σ) : Option μ :=
  match a with
  | send _ msg => some (msg s)
  | exchange _ msg _ => some (msg s)
  | _ => none

def update (a : Action ι σ μ) (s : σ) (m : μ) : σ :=
  match a with
  | recv _ upd => upd s m
  | exchange _ _ upd => upd s m
  | _ => s

end Action

variable {ι σ μ : Type*}

abbrev Round (ι σ μ : Type*) := ι → Action ι σ μ

def Matched (a : Round ι σ μ) : Prop := ∀ p q, (a p).dst? = some q ↔ (a q).src? = some p

def round (a : Round ι σ μ) (S : ι → σ) (p : ι) : σ :=
  match (a p).src? with
  | some q => (((a q).msg? (S q)).map ((a p).update (S p))).getD (S p)
  | none => S p

def sync (sched : List (Round ι σ μ)) (init : ι → σ) (k : Nat) : ι → σ :=
  (sched.take k).foldl (fun S a => round a S) init

section rounds

variable {sched : List (Round ι σ μ)} {init : ι → σ} {S : ι → σ} {p q : ι} {k : Nat}
  {a : Round ι σ μ}

theorem sync_succ (ha : sched[k]? = some a) :
    sync sched init (k + 1) = round a (sync sched init k) := by
  obtain ⟨hk, rfl⟩ := List.getElem?_eq_some_iff.1 ha
  rw [sync, take_succ_eq_append_getElem hk, foldl_append]
  rfl

theorem round_of_src_none (h : (a p).src? = none) : round a S p = S p := by
  unfold round
  rw [h]

theorem round_of_msg {m : μ} (h : (a p).src? = some q) (hm : (a q).msg? (S q) = some m) :
    round a S p = (a p).update (S p) m := by
  unfold round
  rw [h]
  simp only [hm, map_some, getD_some]

end rounds

/-! ## Programs and names -/

section names

variable {κ : Type*}

/-- The rounds of programs: what the processes do at each place of their programs. -/
def rounds (len : Nat) (prog : ι → List (Action ι σ μ)) : List (Round ι σ μ) :=
  (List.range len).map fun k p => ((prog p)[k]?).getD .idle

def Action.rename (f : ι → κ) : Action ι σ μ → Action κ σ μ
  | .idle => .idle
  | .send dst msg => .send (f dst) msg
  | .recv src upd => .recv (f src) upd
  | .exchange peer msg upd => .exchange (f peer) msg upd

@[simp] theorem Action.rename_dst (f : ι → κ) (a : Action ι σ μ) :
    (a.rename f).dst? = a.dst?.map f := by cases a <;> rfl

@[simp] theorem Action.rename_src (f : ι → κ) (a : Action ι σ μ) :
    (a.rename f).src? = a.src?.map f := by cases a <;> rfl

@[simp] theorem Action.rename_msg (f : ι → κ) (a : Action ι σ μ) :
    (a.rename f).msg? = a.msg? := by cases a <;> rfl

@[simp] theorem Action.rename_update (f : ι → κ) (a : Action ι σ μ) :
    (a.rename f).update = a.update := by cases a <;> rfl

/-- A round among the processes of `mem` under other names, where no one else takes part. -/
structure Renames (mem : ι → Prop) (f : ι → κ) (a : Round ι σ μ) (b : Round κ σ μ) : Prop where
  act : ∀ p, mem p → b (f p) = (a p).rename f
  idle : ∀ q, (∀ p, mem p → f p ≠ q) → b q = .idle
  dst : ∀ p q, mem p → (a p).dst? = some q → mem q
  src : ∀ p q, mem p → (a p).src? = some q → mem q

variable {mem : ι → Prop} {f : ι → κ} {a : Round ι σ μ} {b : Round κ σ μ}

theorem Renames.of_dst (h : Renames mem f a b) {q r : κ} (hd : (b q).dst? = some r) :
    ∃ p p', mem p ∧ mem p' ∧ f p = q ∧ f p' = r ∧ (a p).dst? = some p' := by
  by_cases hq : ∃ p, mem p ∧ f p = q
  · obtain ⟨p, hp, rfl⟩ := hq
    rw [h.act p hp, Action.rename_dst] at hd
    obtain ⟨p', hp', rfl⟩ := map_eq_some_iff.1 hd
    exact ⟨p, p', hp, h.dst p p' hp hp', rfl, rfl, hp'⟩
  · rw [h.idle q fun p hp hf => hq ⟨p, hp, hf⟩] at hd
    cases hd

theorem Renames.of_src (h : Renames mem f a b) {q r : κ} (hs : (b q).src? = some r) :
    ∃ p p', mem p ∧ mem p' ∧ f p = q ∧ f p' = r ∧ (a p).src? = some p' := by
  by_cases hq : ∃ p, mem p ∧ f p = q
  · obtain ⟨p, hp, rfl⟩ := hq
    rw [h.act p hp, Action.rename_src] at hs
    obtain ⟨p', hp', rfl⟩ := map_eq_some_iff.1 hs
    exact ⟨p, p', hp, h.src p p' hp hp', rfl, rfl, hp'⟩
  · rw [h.idle q fun p hp hf => hq ⟨p, hp, hf⟩] at hs
    cases hs

theorem Renames.matched (h : Renames mem f a b) (hm : Matched a) : Matched b := by
  intro q r
  constructor
  · intro hd
    obtain ⟨p, p', -, hp', rfl, rfl, had⟩ := h.of_dst hd
    rw [h.act p' hp', Action.rename_src, (hm p p').1 had]
    rfl
  · intro hs
    obtain ⟨p, p', -, hp', rfl, rfl, has⟩ := h.of_src hs
    rw [h.act p' hp', Action.rename_dst, (hm p' p).2 has]
    rfl

theorem Renames.round (h : Renames mem f a b) {S : ι → σ} {T : κ → σ}
    (hST : ∀ p, mem p → T (f p) = S p) {p : ι} (hp : mem p) :
    Rounds.round b T (f p) = Rounds.round a S p := by
  unfold Rounds.round
  rw [h.act p hp, Action.rename_src, Action.rename_update, hST p hp]
  cases hs : (a p).src? with
  | none => rfl
  | some q =>
    have hq := h.src p q hp hs
    simp only [map_some]
    rw [h.act q hq, Action.rename_msg, hST q hq]

end names

/-! ## The asynchronous system -/

/-- The processes and the channels: `pc` is the round of a process, and `sub` says how much of its
action is done. -/
structure Net (ι σ μ : Type*) where
  pc : ι → Nat
  sub : ι → Nat
  st : ι → σ
  chan : ι → ι → List μ

section system

variable [DecidableEq ι]

def setAt {α : Type*} (f : ι → α) (p : ι) (x : α) : ι → α := fun q => if q = p then x else f q

def setChan (chan : ι → ι → List μ) (p q : ι) (l : List μ) : ι → ι → List μ :=
  fun a b => if a = p ∧ b = q then l else chan a b

def Net.next (n : Net ι σ μ) (p : ι) : Net ι σ μ :=
  { n with pc := setAt n.pc p (n.pc p + 1), sub := setAt n.sub p 0 }

def Net.post (n : Net ι σ μ) (p q : ι) (m : μ) : Net ι σ μ :=
  { n with sub := setAt n.sub p 1, chan := setChan n.chan p q (n.chan p q ++ [m]) }

def Net.take (n : Net ι σ μ) (p q : ι) (rest : List μ) (s : σ) : Net ι σ μ :=
  { n with sub := setAt n.sub q 2, st := setAt n.st q s, chan := setChan n.chan p q rest }

def Net.released (n : Net ι σ μ) (eager : ι → Nat → Bool) (p q : ι) : Bool :=
  eager p (n.pc p) || (n.chan p q).isEmpty

def Net.action (sched : List (Round ι σ μ)) (n : Net ι σ μ) (p : ι) : Option (Action ι σ μ) :=
  (sched[n.pc p]?).map fun a => a p

def step (sched : List (Round ι σ μ)) (procs : List ι) (eager : ι → Nat → Bool) (n : Net ι σ μ)
    (p : ι) : Option (Net ι σ μ) :=
  if p ∈ procs then
    match n.action sched p with
    | none => none
    | some .idle => some (n.next p)
    | some (.send dst msg) =>
      if n.sub p = 0 then some (n.post p dst (msg (n.st p)))
      else if n.released eager p dst then some (n.next p)
      else none
    | some (.recv src upd) =>
      match n.chan src p with
      | [] => none
      | m :: rest => some ((n.take src p rest (upd (n.st p) m)).next p)
    | some (.exchange peer msg upd) =>
      if n.sub p = 0 then some (n.post p peer (msg (n.st p)))
      else if n.sub p = 1 then
        match n.chan peer p with
        | [] => none
        | m :: rest => some (n.take peer p rest (upd (n.st p) m))
      else if n.released eager p peer then some (n.next p)
      else none
  else none

def sys (sched : List (Round ι σ μ)) (procs : List ι) (eager : ι → Nat → Bool) (init : ι → σ) :
    Sys (Net ι σ μ) ι := ⟨⟨fun _ => 0, fun _ => 0, init, fun _ _ => []⟩, step sched procs eager⟩

end system

/-! ## Messages in flight -/

section flow

variable (sched : List (Round ι σ μ)) (init : ι → σ)

variable [DecidableEq ι]

def msgAt (p q : ι) (j : Nat) : Option μ :=
  (sched[j]?).bind fun a => if (a p).dst? = some q then (a p).msg? (sync sched init j p) else none

def inFlight (p q : ι) (lo hi : Nat) : List μ :=
  (List.range' lo (hi - lo)).filterMap (msgAt sched init p q)

/-- The channels hold what has been posted and not been taken, and no receive is ahead of its send. -/
structure Flow (posted taken : ι → Nat) (chan : ι → ι → List μ) : Prop where
  chan : ∀ p q, chan p q = inFlight sched init p q (taken q) (posted p)
  order : ∀ p q j, (msgAt sched init p q j).isSome = true → posted p ≤ j → taken q ≤ j

variable {sched init} {p q : ι} {k lo hi : Nat} {m : μ} {posted taken : ι → Nat}
  {chan : ι → ι → List μ}

theorem inFlight_post (h : msgAt sched init p q k = some m) (hle : lo ≤ k) :
    inFlight sched init p q lo (k + 1) = inFlight sched init p q lo k ++ [m] := by
  have hlen : k + 1 - lo = (k - lo) + 1 := by omega
  have hlast : lo + 1 * (k - lo) = k := by omega
  rw [inFlight, hlen, range'_concat, hlast, filterMap_append]
  simp [h, inFlight]

theorem inFlight_skip_post (h : msgAt sched init p q k = none) :
    inFlight sched init p q lo (k + 1) = inFlight sched init p q lo k := by
  by_cases hle : lo ≤ k
  · have hlen : k + 1 - lo = (k - lo) + 1 := by omega
    have hlast : lo + 1 * (k - lo) = k := by omega
    rw [inFlight, hlen, range'_concat, hlast, filterMap_append]
    simp [h, inFlight]
  · have hlen : k + 1 - lo = 0 := by omega
    have hlen' : k - lo = 0 := by omega
    rw [inFlight, inFlight, hlen, hlen']

theorem inFlight_take (h : msgAt sched init p q k = some m) (hlt : k < hi) :
    inFlight sched init p q k hi = m :: inFlight sched init p q (k + 1) hi := by
  have hlen : hi - k = (hi - (k + 1)) + 1 := by omega
  rw [inFlight, hlen, range'_succ, filterMap_cons, h]
  rfl

theorem inFlight_skip_take (h : msgAt sched init p q k = none) :
    inFlight sched init p q k hi = inFlight sched init p q (k + 1) hi := by
  by_cases hlt : k < hi
  · have hlen : hi - k = (hi - (k + 1)) + 1 := by omega
    rw [inFlight, hlen, range'_succ, filterMap_cons, h]
    rfl
  · have hlen : hi - k = 0 := by omega
    have hlen' : hi - (k + 1) = 0 := by omega
    rw [inFlight, inFlight, hlen, hlen']
    rfl

theorem inFlight_of_le (h : hi ≤ lo) : inFlight sched init p q lo hi = [] := by
  have hlen : hi - lo = 0 := by omega
  rw [inFlight, hlen]
  rfl

@[simp] theorem setAt_self {α : Type*} (f : ι → α) (p : ι) (x : α) : setAt f p x p = x := if_pos rfl

theorem setAt_of_ne {α : Type*} (f : ι → α) (x : α) (h : q ≠ p) : setAt f p x q = f q := if_neg h

theorem Flow.post (h : Flow sched init posted taken chan) (hk : posted p = k)
    (hm : msgAt sched init p q k = some m) (hother : ∀ q' ≠ q, msgAt sched init p q' k = none) :
    Flow sched init (setAt posted p (k + 1)) taken (setChan chan p q (chan p q ++ [m])) := by
  refine ⟨fun a b => ?_, fun a b j hj hle => ?_⟩
  · unfold setChan
    by_cases ha : a = p
    · subst ha
      rw [setAt_self]
      by_cases hb : b = q
      · subst hb
        have hle := h.order a b k (by rw [hm]; rfl) (Nat.le_of_eq hk)
        rw [if_pos ⟨rfl, rfl⟩, inFlight_post hm hle, h.chan, hk]
      · rw [if_neg fun hno => hb hno.2, inFlight_skip_post (hother b hb), h.chan, hk]
    · rw [if_neg fun hno => ha hno.1, setAt_of_ne _ _ ha, h.chan]
  · by_cases ha : a = p
    · subst ha
      rw [setAt_self] at hle
      exact h.order a b j hj (by omega)
    · rw [setAt_of_ne _ _ ha] at hle
      exact h.order a b j hj hle

theorem Flow.skipPost (h : Flow sched init posted taken chan) (hk : posted p = k)
    (hm : ∀ q, msgAt sched init p q k = none) :
    Flow sched init (setAt posted p (k + 1)) taken chan := by
  refine ⟨fun a b => ?_, fun a b j hj hle => ?_⟩
  · by_cases ha : a = p
    · subst ha
      rw [setAt_self, inFlight_skip_post (hm b), h.chan, hk]
    · rw [setAt_of_ne _ _ ha, h.chan]
  · by_cases ha : a = p
    · subst ha
      rw [setAt_self] at hle
      exact h.order a b j hj (by omega)
    · rw [setAt_of_ne _ _ ha] at hle
      exact h.order a b j hj hle

theorem Flow.take {rest : List μ} (h : Flow sched init posted taken chan) (hk : taken q = k)
    (hsome : (msgAt sched init p q k).isSome = true) (hother : ∀ p' ≠ p, msgAt sched init p' q k = none)
    (hchan : chan p q = m :: rest) :
    msgAt sched init p q k = some m ∧
      Flow sched init posted (setAt taken q (k + 1)) (setChan chan p q rest) := by
  obtain ⟨m', hm'⟩ := isSome_iff_exists.1 hsome
  have hlt : k < posted p := by
    by_contra hno
    rw [h.chan, hk, inFlight_of_le (Nat.le_of_not_lt hno)] at hchan
    cases hchan
  have hhead := hchan
  rw [h.chan, hk, inFlight_take hm' hlt] at hhead
  obtain ⟨rfl, hrest⟩ := List.cons.inj hhead
  refine ⟨hm', fun a b => ?_, fun a b j hj hle => ?_⟩
  · unfold setChan
    by_cases hb : b = q
    · subst hb
      rw [setAt_self]
      by_cases ha : a = p
      · subst ha
        rw [if_pos ⟨rfl, rfl⟩, hrest]
      · rw [if_neg fun hno => ha hno.1, h.chan, hk, inFlight_skip_take (hother a ha)]
    · rw [if_neg fun hno => hb hno.2, setAt_of_ne _ _ hb, h.chan]
  · by_cases hb : b = q
    · subst hb
      rw [setAt_self]
      have hle' := h.order a b j hj hle
      -- the round `k` itself has been posted
      have hne : j ≠ k := by
        rintro rfl
        by_cases ha : a = p
        · subst ha
          omega
        · rw [hother a ha] at hj
          cases hj
      omega
    · rw [setAt_of_ne _ _ hb]
      exact h.order a b j hj hle

theorem Flow.skipTake (h : Flow sched init posted taken chan) (hk : taken q = k)
    (hm : ∀ p, msgAt sched init p q k = none) :
    Flow sched init posted (setAt taken q (k + 1)) chan := by
  refine ⟨fun a b => ?_, fun a b j hj hle => ?_⟩
  · by_cases hb : b = q
    · subst hb
      rw [setAt_self, h.chan, hk, inFlight_skip_take (hm a)]
    · rw [setAt_of_ne _ _ hb, h.chan]
  · by_cases hb : b = q
    · subst hb
      rw [setAt_self]
      have hle' := h.order a b j hj hle
      have hne : j ≠ k := by
        rintro rfl
        rw [hm a] at hj
        cases hj
      omega
    · rw [setAt_of_ne _ _ hb]
      exact h.order a b j hj hle

end flow

/-! ## The invariant -/

def posted (n : Net ι σ μ) (p : ι) : Nat := n.pc p + if n.sub p = 0 then 0 else 1

def taken (n : Net ι σ μ) (p : ι) : Nat := n.pc p + if n.sub p = 2 then 1 else 0

def SubOk (a : Action ι σ μ) (sub : Nat) : Prop :=
  match a with
  | .send _ _ => sub ≤ 1
  | .exchange _ _ _ => sub ≤ 2
  | _ => sub = 0

section inv

variable [DecidableEq ι] {sched : List (Round ι σ μ)} {init : ι → σ} {procs : List ι}
  {eager : ι → Nat → Bool} {n n' : Net ι σ μ} {p q : ι} {k : Nat} {a : Round ι σ μ}

/-- Every process has the state of the round it is at, and the channels hold what is in flight. -/
structure Inv (sched : List (Round ι σ μ)) (init : ι → σ) (n : Net ι σ μ) : Prop where
  pc_le : ∀ p, n.pc p ≤ sched.length
  sub : ∀ p, n.sub p = 0 ∨ ∃ a, sched[n.pc p]? = some a ∧ SubOk (a p) (n.sub p)
  st : ∀ p, n.st p = sync sched init (taken n p) p
  flow : Flow sched init (posted n) (taken n) n.chan

theorem msgAt_eq (ha : sched[k]? = some a) :
    msgAt sched init p q k =
      if (a p).dst? = some q then (a p).msg? (sync sched init k p) else none := by
  rw [msgAt, ha]
  rfl

theorem msgAt_of_dst (ha : sched[k]? = some a) (h : (a p).dst? ≠ some q) :
    msgAt sched init p q k = none := by
  rw [msgAt_eq ha, if_neg h]

theorem msgAt_of_src (ha : sched[k]? = some a) (hm : Matched a) (h : (a q).src? ≠ some p) :
    msgAt sched init p q k = none := by
  rw [msgAt_eq ha, if_neg fun hno => h ((hm p q).1 hno)]

theorem setAt_eq_self {α : Type*} (f : ι → α) (p : ι) {x : α} (h : f p = x) : setAt f p x = f := by
  funext q
  unfold setAt
  split
  · next hq => rw [hq, h]
  · rfl

theorem posted_next : posted (n.next p) = setAt (posted n) p (n.pc p + 1) := by
  funext q
  by_cases hq : q = p
  · subst hq
    simp [posted, Net.next]
  · simp [posted, Net.next, setAt_of_ne _ _ hq]

theorem taken_next : taken (n.next p) = setAt (taken n) p (n.pc p + 1) := by
  funext q
  by_cases hq : q = p
  · subst hq
    simp [taken, Net.next]
  · simp [taken, Net.next, setAt_of_ne _ _ hq]

theorem posted_post (m : μ) : posted (n.post p q m) = setAt (posted n) p (n.pc p + 1) := by
  funext r
  by_cases hr : r = p
  · subst hr
    simp [posted, Net.post]
  · simp [posted, Net.post, setAt_of_ne _ _ hr]

theorem taken_post (m : μ) (h : n.sub p = 0) : taken (n.post p q m) = taken n := by
  funext r
  by_cases hr : r = p
  · subst hr
    simp [taken, Net.post, h]
  · simp [taken, Net.post, setAt_of_ne _ _ hr]

theorem posted_take (rest : List μ) (s : σ) :
    posted (n.take p q rest s) = setAt (posted n) q (n.pc q + 1) := by
  funext r
  by_cases hr : r = q
  · subst hr
    simp [posted, Net.take]
  · simp [posted, Net.take, setAt_of_ne _ _ hr]

theorem taken_take (rest : List μ) (s : σ) :
    taken (n.take p q rest s) = setAt (taken n) q (n.pc q + 1) := by
  funext r
  by_cases hr : r = q
  · subst hr
    simp [taken, Net.take]
  · simp [taken, Net.take, setAt_of_ne _ _ hr]

theorem round_of_msgAt {m : μ} (ha : sched[k]? = some a) (hmatch : Matched a)
    (hsrc : (a q).src? = some p) (hm : msgAt sched init p q k = some m) :
    sync sched init (k + 1) q = (a q).update (sync sched init k q) m := by
  rw [msgAt_eq ha, if_pos ((hmatch p q).2 hsrc)] at hm
  rw [sync_succ ha]
  exact round_of_msg hsrc hm

theorem Inv.sub_of_eq {n' : Net ι σ μ} (h : Inv sched init n) {r : ι} (hsub : n'.sub r = n.sub r)
    (hpc : n'.pc r = n.pc r) :
    n'.sub r = 0 ∨ ∃ a, sched[n'.pc r]? = some a ∧ SubOk (a r) (n'.sub r) := by
  rw [hsub, hpc]
  exact h.sub r

theorem Inv.next (h : Inv sched init n) (ha : sched[n.pc p]? = some a)
    (hflow : Flow sched init (setAt (posted n) p (n.pc p + 1)) (setAt (taken n) p (n.pc p + 1)) n.chan)
    (hst : n.st p = sync sched init (n.pc p + 1) p) : Inv sched init (n.next p) := by
  have hk := (List.getElem?_eq_some_iff.1 ha).1
  refine ⟨fun r => ?_, fun r => ?_, fun r => ?_, ?_⟩
  · by_cases hr : r = p
    · subst hr
      show setAt n.pc r (n.pc r + 1) r ≤ _
      rw [setAt_self]
      exact hk
    · simpa [Net.next, setAt_of_ne _ _ hr] using h.pc_le r
  · by_cases hr : r = p
    · subst hr
      exact .inl (setAt_self _ _ _)
    · exact h.sub_of_eq (setAt_of_ne _ _ hr) (setAt_of_ne _ _ hr)
  · rw [taken_next]
    by_cases hr : r = p
    · subst hr
      rw [setAt_self]
      exact hst
    · rw [setAt_of_ne _ _ hr]
      exact h.st r
  · rw [posted_next, taken_next]
    exact hflow

theorem Inv.post (h : Inv sched init n) (ha : sched[n.pc p]? = some a) (hsub : n.sub p = 0)
    (hdst : (a p).dst? = some q) {m : μ} (hm : (a p).msg? (n.st p) = some m) (hok : SubOk (a p) 1) :
    Inv sched init (n.post p q m) := by
  have hpost : posted n p = n.pc p := by simp [posted, hsub]
  have htaken : taken n p = n.pc p := by simp [taken, hsub]
  refine ⟨h.pc_le, fun r => ?_, fun r => ?_, ?_⟩
  · by_cases hr : r = p
    · subst hr
      refine .inr ⟨a, ha, ?_⟩
      simpa [Net.post] using hok
    · exact h.sub_of_eq (setAt_of_ne _ _ hr) rfl
  · rw [taken_post m hsub]
    exact h.st r
  · rw [posted_post, taken_post m hsub]
    refine h.flow.post hpost ?_ fun q' hq' => ?_
    · rw [msgAt_eq ha, if_pos hdst, ← htaken, ← h.st p]
      exact hm
    · exact msgAt_of_dst ha fun hno => hq' (Option.some.inj (hno.symm.trans hdst))

theorem Inv.take (h : Inv sched init n) (ha : sched[n.pc q]? = some a) (hmatch : Matched a)
    (hsub : n.sub q ≠ 2) (hsrc : (a q).src? = some p) {m : μ} {rest : List μ}
    (hchan : n.chan p q = m :: rest) :
    (a q).update (n.st q) m = sync sched init (n.pc q + 1) q ∧
      Flow sched init (posted n) (setAt (taken n) q (n.pc q + 1)) (setChan n.chan p q rest) := by
  have htaken : taken n q = n.pc q := by simp [taken, hsub]
  have hsome : (msgAt sched init p q (n.pc q)).isSome = true := by
    rw [msgAt_eq ha, if_pos ((hmatch p q).2 hsrc)]
    have hdst := (hmatch p q).2 hsrc
    cases hact : a p with
    | idle => rw [hact] at hdst; cases hdst
    | recv src upd => rw [hact] at hdst; cases hdst
    | send dst msg => rfl
    | exchange peer msg upd => rfl
  obtain ⟨hmsg, hflow⟩ := h.flow.take htaken hsome
    (fun p' hp' => msgAt_of_src ha hmatch fun hno => hp' (Option.some.inj (hno.symm.trans hsrc))) hchan
  refine ⟨?_, hflow⟩
  rw [round_of_msgAt ha hmatch hsrc hmsg, h.st q, htaken]

theorem Inv.step (hmatch : ∀ a ∈ sched, Matched a) (h : Inv sched init n)
    (hs : step sched procs eager n p = some n') : Inv sched init n' := by
  obtain ⟨-, hs⟩ := ite_none_right_eq_some.1 hs
  cases ha : sched[n.pc p]? with
  | none =>
    rw [Net.action, ha] at hs
    cases hs
  | some a =>
    have hm := hmatch a (mem_of_getElem? ha)
    have hsub := h.sub p
    have hok : n.sub p = 0 ∨ SubOk (a p) (n.sub p) := by
      rcases hsub with h0 | ⟨b, hb, hok⟩
      · exact .inl h0
      · obtain rfl := Option.some.inj (ha.symm.trans hb)
        exact .inr hok
    rw [Net.action, ha, map_some] at hs
    -- an action without a send, and one without a receive
    have hnopost : (a p).dst? = none → n.sub p = 0 → ∀ {taken' chan'},
        Flow sched init (posted n) taken' chan' →
        Flow sched init (setAt (posted n) p (n.pc p + 1)) taken' chan' :=
      fun hnone h0 _ _ hf => hf.skipPost (by simp [posted, h0])
        fun q => msgAt_of_dst ha (by rw [hnone]; exact nofun)
    have hnotake : (a p).src? = none → n.sub p ≠ 2 → ∀ {posted' chan'},
        Flow sched init posted' (taken n) chan' →
        Flow sched init posted' (setAt (taken n) p (n.pc p + 1)) chan' :=
      fun hnone h2 _ _ hf => hf.skipTake (by simp [taken, h2])
        fun q => msgAt_of_src ha hm (by rw [hnone]; exact nofun)
    have hpostedSub : n.sub p ≠ 0 → setAt (posted n) p (n.pc p + 1) = posted n :=
      fun h0 => setAt_eq_self _ _ (by simp [posted, h0])
    have hstSub : n.sub p ≠ 2 → n.st p = sync sched init (n.pc p) p := fun h2 => by
      rw [h.st p]
      simp [taken, h2]
    cases hact : a p with
    | idle =>
      rw [hact] at hs hok
      have h0 : n.sub p = 0 := hok.elim id id
      cases hs
      refine h.next ha (hnopost (by rw [hact]; rfl) h0 (hnotake (by rw [hact]; rfl) (by omega) h.flow)) ?_
      rw [sync_succ ha, round_of_src_none (by rw [hact]; rfl)]
      exact hstSub (by omega)
    | send dst msg =>
      rw [hact] at hs hok
      simp only at hs
      split at hs
      · next h0 =>
        cases hs
        exact h.post ha h0 (by rw [hact]; rfl) (by rw [hact]; rfl) (by rw [hact]; exact Nat.le_refl 1)
      · next h0 =>
        have hle : n.sub p ≤ 1 := hok.resolve_left h0
        obtain ⟨-, hs⟩ := ite_none_right_eq_some.1 hs
        cases hs
        refine h.next ha ?_ ?_
        · rw [hpostedSub h0]
          exact hnotake (by rw [hact]; rfl) (by omega) h.flow
        · rw [sync_succ ha, round_of_src_none (by rw [hact]; rfl)]
          exact hstSub (by omega)
    | recv src upd =>
      rw [hact] at hs hok
      have h0 : n.sub p = 0 := hok.elim id id
      simp only at hs
      split at hs
      · cases hs
      · next m rest hchan =>
        cases hs
        obtain ⟨hst, hflow⟩ := h.take ha hm (by omega) (by rw [hact]; rfl) hchan
        rw [hact] at hst
        have hst : upd (n.st p) m = sync sched init (n.pc p + 1) p := hst
        have hposted := hnopost (by rw [hact]; rfl) h0 hflow
        -- the two parts of the step in one
        refine ⟨fun r => ?_, fun r => ?_, fun r => ?_, ?_⟩
        · have hk := (List.getElem?_eq_some_iff.1 ha).1
          by_cases hr : r = p
          · subst hr
            show setAt n.pc r (n.pc r + 1) r ≤ _
            rw [setAt_self]
            exact hk
          · simpa [Net.next, Net.take, setAt_of_ne _ _ hr] using h.pc_le r
        · by_cases hr : r = p
          · subst hr
            exact .inl (setAt_self _ _ _)
          · exact h.sub_of_eq ((setAt_of_ne _ _ hr).trans (setAt_of_ne _ _ hr)) (setAt_of_ne _ _ hr)
        · rw [taken_next, taken_take]
          by_cases hr : r = p
          · subst hr
            simpa [Net.next, Net.take] using hst
          · simpa [Net.next, Net.take, setAt_of_ne _ _ hr] using h.st r
        · rw [posted_next, taken_next, posted_take, taken_take]
          have hset : ∀ f : ι → Nat, setAt (setAt f p (n.pc p + 1)) p (n.pc p + 1) =
              setAt f p (n.pc p + 1) := fun f => setAt_eq_self _ _ (setAt_self _ _ _)
          show Flow sched init (setAt (setAt (posted n) p (n.pc p + 1)) p (n.pc p + 1))
            (setAt (setAt (taken n) p (n.pc p + 1)) p (n.pc p + 1)) (setChan n.chan src p rest)
          rw [hset, hset]
          exact hposted
    | exchange peer msg upd =>
      rw [hact] at hs hok
      simp only at hs
      split at hs
      · next h0 =>
        cases hs
        exact h.post ha h0 (by rw [hact]; rfl) (by rw [hact]; rfl)
          (by rw [hact]; exact Nat.le_succ 1)
      · next h0 =>
        split at hs
        · next h1 =>
          split at hs
          · cases hs
          · next m rest hchan =>
            cases hs
            obtain ⟨hst, hflow⟩ := h.take ha hm (by omega) (by rw [hact]; rfl) hchan
            rw [hact] at hst
            have hst : upd (n.st p) m = sync sched init (n.pc p + 1) p := hst
            refine ⟨h.pc_le, fun r => ?_, fun r => ?_, ?_⟩
            · by_cases hr : r = p
              · subst hr
                refine .inr ⟨a, ha, ?_⟩
                rw [hact]
                simp [Net.take, SubOk]
              · exact h.sub_of_eq (setAt_of_ne _ _ hr) rfl
            · rw [taken_take]
              by_cases hr : r = p
              · subst hr
                simpa [Net.take] using hst
              · simpa [Net.take, setAt_of_ne _ _ hr] using h.st r
            · rw [posted_take, taken_take, hpostedSub h0]
              exact hflow
        · next h1 =>
          have hle : n.sub p ≤ 2 := hok.resolve_left h0
          have h2 : n.sub p = 2 := by omega
          obtain ⟨-, hs⟩ := ite_none_right_eq_some.1 hs
          cases hs
          have htaken : taken n p = n.pc p + 1 := by simp [taken, h2]
          refine h.next ha ?_ ?_
          · rw [hpostedSub h0, setAt_eq_self _ _ htaken]
            exact h.flow
          · rw [h.st p, htaken]

theorem inv_of_reach (hmatch : ∀ a ∈ sched, Matched a) (h : (sys sched procs eager init).Reach n) :
    Inv sched init n := by
  refine Sys.Reach.inv (M := sys sched procs eager init) (I := Inv sched init) ?_
    (fun hi hs => hi.step hmatch hs) h
  refine ⟨fun p => Nat.zero_le _, fun p => .inl rfl, fun p => rfl, fun p q => ?_, fun p q j _ _ => ?_⟩
  · exact (inFlight_of_le (Nat.le_refl _)).symm
  · exact Nat.zero_le _

/-! ## Results -/

theorem final (hmatch : ∀ a ∈ sched, Matched a) (hidle : ∀ a ∈ sched, ∀ p, p ∉ procs → a p = .idle)
    (h : (sys sched procs eager init).Reach n) (hdone : ∀ p ∈ procs, n.pc p = sched.length) :
    (∀ p ∈ procs, n.st p = sync sched init sched.length p) ∧ ∀ p q, n.chan p q = [] := by
  have hinv := inv_of_reach hmatch h
  have hsub : ∀ p ∈ procs, n.sub p = 0 := by
    intro p hp
    rcases hinv.sub p with h0 | ⟨a, ha, -⟩
    · exact h0
    · have := (List.getElem?_eq_some_iff.1 ha).1
      have := hdone p hp
      omega
  refine ⟨fun p hp => ?_, fun p q => ?_⟩
  · rw [hinv.st p]
    simp [taken, hsub p hp, hdone p hp]
  · rw [hinv.flow.chan, inFlight, filterMap_eq_nil_iff]
    intro j hj
    have hlo := (mem_range'_1.1 hj).1
    cases ha : sched[j]? with
    | none => rw [msgAt, ha]; rfl
    | some a =>
      have hmem := mem_of_getElem? ha
      by_cases hq : q ∈ procs
      · -- the receiver has done all rounds
        have hlt := (List.getElem?_eq_some_iff.1 ha).1
        have htaken : taken n q = sched.length := by simp [taken, hsub q hq, hdone q hq]
        omega
      · exact msgAt_of_src ha (hmatch a hmem) (by rw [hidle a hmem q hq]; exact nofun)

theorem progress (hmatch : ∀ a ∈ sched, Matched a) (hidle : ∀ a ∈ sched, ∀ p, p ∉ procs → a p = .idle)
    (h : (sys sched procs eager init).Reach n) (hopen : ∃ p ∈ procs, n.pc p ≠ sched.length) :
    ∃ p ∈ procs, ∃ n', step sched procs eager n p = some n' := by
  have hinv := inv_of_reach hmatch h
  -- the earliest round
  have hmin : ∃ p ∈ procs, n.pc p < sched.length ∧ ∀ q ∈ procs, n.pc p ≤ n.pc q := by
    obtain ⟨p₀, hp₀, hne⟩ := hopen
    have hex : ∃ k, ∃ p ∈ procs, n.pc p = k := ⟨_, p₀, hp₀, rfl⟩
    classical
    obtain ⟨p, hp, hk⟩ := Nat.find_spec hex
    have hle : ∀ q ∈ procs, n.pc p ≤ n.pc q := fun q hq => by
      rw [hk]
      exact Nat.find_min' hex ⟨q, hq, rfl⟩
    have h₁ := hle p₀ hp₀
    have h₂ := hinv.pc_le p₀
    exact ⟨p, hp, by omega, hle⟩
  obtain ⟨p, hp, hlt, hle⟩ := hmin
  have ha := List.getElem?_eq_getElem hlt
  generalize sched[n.pc p] = a at ha
  have hmem := mem_of_getElem? ha
  have hm := hmatch a hmem
  have hmembers : ∀ q, (a q).dst? ≠ none ∨ (a q).src? ≠ none → q ∈ procs := by
    intro q hq
    by_contra hno
    rw [hidle a hmem q hno] at hq
    exact hq.elim (fun h => h rfl) fun h => h rfl
  have hact : ∀ q, n.pc q = n.pc p → n.action sched q = some (a q) := by
    intro q hq
    rw [Net.action, hq, ha]
    rfl
  -- a process at this round whose message has not been posted can post it
  have hpost : ∀ q r, q ∈ procs → n.pc q = n.pc p → n.sub q = 0 → (a q).dst? = some r →
      ∃ n', step sched procs eager n q = some n' := by
    intro q r hq hpc h0 hdst
    unfold step
    rw [if_pos hq, hact q hpc]
    cases haq : a q with
    | idle => rw [haq] at hdst; cases hdst
    | recv src upd => rw [haq] at hdst; cases hdst
    | send dst msg => exact ⟨_, if_pos h0⟩
    | exchange peer msg upd => exact ⟨_, if_pos h0⟩
  -- a receiver at this round: its message is there, or its sender can post it
  have htake : ∀ q r, q ∈ procs → n.pc q = n.pc p → n.sub q ≠ 2 → (a q).src? = some r →
      (∃ m rest, n.chan r q = m :: rest) ∨ ∃ p ∈ procs, ∃ n', step sched procs eager n p = some n' := by
    intro q r hq hpc h2 hsrc
    have hdst := (hm r q).2 hsrc
    have hr := hmembers r (.inl (by rw [hdst]; exact nofun))
    by_cases hposted : posted n r ≤ n.pc p
    · refine .inr ⟨r, hr, ?_⟩
      have hge := hle r hr
      unfold posted at hposted
      split at hposted
      · next h0 => exact hpost r q hr (by omega) h0 hdst
      · omega
    · refine .inl ?_
      have htaken : taken n q = n.pc p := by simp [taken, h2, hpc]
      have hsome : ∃ m, msgAt sched init r q (n.pc p) = some m := by
        rw [msgAt_eq ha, if_pos hdst]
        cases har : a r with
        | idle => rw [har] at hdst; cases hdst
        | recv src upd => rw [har] at hdst; cases hdst
        | send dst msg => exact ⟨_, rfl⟩
        | exchange peer msg upd => exact ⟨_, rfl⟩
      obtain ⟨m, hmsg⟩ := hsome
      exact ⟨m, _, by rw [hinv.flow.chan, htaken, inFlight_take hmsg (by omega)]⟩
  -- a sender at this round that has posted: it is released, or its receiver can go on
  have hwait : ∀ r, (a p).dst? = some r → n.sub p ≠ 0 →
      n.released eager p r = true ∨ ∃ p ∈ procs, ∃ n', step sched procs eager n p = some n' := by
    intro r hdst h0
    by_cases hrel : n.released eager p r = true
    · exact .inl hrel
    · refine .inr ?_
      have hsrc := (hm p r).1 hdst
      have hr := hmembers r (.inr (by rw [hsrc]; exact nofun))
      have hne : n.chan p r ≠ [] := by
        intro hnil
        rw [Net.released, hnil] at hrel
        simp at hrel
      -- the message is still in the channel, so the receiver is at this round
      have htaken : taken n r ≤ n.pc p := by
        by_contra hno
        refine hne ?_
        rw [hinv.flow.chan, inFlight_of_le]
        have : posted n p = n.pc p + 1 := by simp [posted, h0]
        omega
      have hge := hle r hr
      have hpc : n.pc r = n.pc p := by
        unfold taken at htaken
        omega
      have h2 : n.sub r ≠ 2 := by
        intro h2
        simp only [taken, h2, if_true] at htaken
        omega
      obtain ⟨m, rest, hchan⟩ := exists_cons_of_ne_nil hne
      refine ⟨r, hr, ?_⟩
      unfold step
      rw [if_pos hr, hact r hpc]
      cases har : a r with
      | idle => rw [har] at hsrc; cases hsrc
      | send dst msg => rw [har] at hsrc; cases hsrc
      | recv src upd =>
        rw [har] at hsrc
        obtain rfl : src = p := Option.some.inj hsrc
        simp only [hchan]
        exact ⟨_, rfl⟩
      | exchange peer msg upd =>
        rw [har] at hsrc
        obtain rfl : peer = p := Option.some.inj hsrc
        simp only
        by_cases h0r : n.sub r = 0
        · exact ⟨_, if_pos h0r⟩
        · have h1 : n.sub r = 1 := by
            rcases hinv.sub r with h0' | ⟨b, hb, hok⟩
            · exact absurd h0' h0r
            · rw [hpc] at hb
              obtain rfl := Option.some.inj (ha.symm.trans hb)
              rw [har] at hok
              have : n.sub r ≤ 2 := hok
              omega
          rw [if_neg h0r, if_pos h1, hchan]
          exact ⟨_, rfl⟩
  have hok : n.sub p = 0 ∨ SubOk (a p) (n.sub p) := by
    rcases hinv.sub p with h0 | ⟨b, hb, hok⟩
    · exact .inl h0
    · obtain rfl := Option.some.inj (ha.symm.trans hb)
      exact .inr hok
  cases hap : a p with
  | idle =>
    refine ⟨p, hp, n.next p, ?_⟩
    rw [step, if_pos hp, hact p rfl, hap]
  | send dst msg =>
    by_cases h0 : n.sub p = 0
    · exact ⟨p, hp, hpost p dst hp rfl h0 (by rw [hap]; rfl)⟩
    · rcases hwait dst (by rw [hap]; rfl) h0 with hrel | hstep
      · refine ⟨p, hp, n.next p, ?_⟩
        rw [step, if_pos hp, hact p rfl, hap]
        simp only [if_neg h0, hrel, if_true]
      · exact hstep
  | recv src upd =>
    rw [hap] at hok
    have h0 : n.sub p = 0 := hok.elim id id
    rcases htake p src hp rfl (by omega) (by rw [hap]; rfl) with ⟨m, rest, hchan⟩ | hstep
    · refine ⟨p, hp, (n.take src p rest (upd (n.st p) m)).next p, ?_⟩
      rw [step, if_pos hp, hact p rfl, hap]
      simp only [hchan]
    · exact hstep
  | exchange peer msg upd =>
    by_cases h0 : n.sub p = 0
    · exact ⟨p, hp, hpost p peer hp rfl h0 (by rw [hap]; rfl)⟩
    · by_cases h2 : n.sub p = 2
      · rcases hwait peer (by rw [hap]; rfl) h0 with hrel | hstep
        · refine ⟨p, hp, n.next p, ?_⟩
          rw [step, if_pos hp, hact p rfl, hap]
          simp only [h2, hrel, if_true]
          rfl
        · exact hstep
      · have h1 : n.sub p = 1 := by
          rw [hap] at hok
          have : n.sub p ≤ 2 := hok.resolve_left h0
          omega
        rcases htake p peer hp rfl h2 (by rw [hap]; rfl) with ⟨m, rest, hchan⟩ | hstep
        · refine ⟨p, hp, n.take peer p rest (upd (n.st p) m), ?_⟩
          rw [step, if_pos hp, hact p rfl, hap]
          simp only [if_neg h0, if_pos h1, hchan]
        · exact hstep

end inv

end PsMpi.Lib.Rounds
