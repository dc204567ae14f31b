import PsMpi.Lib.Trans
import Mathlib.Data.List.Nodup

/-!
# Networks of processes
-/

open List Option Function

namespace PsMpi.Lib

/-! ## Steps that commute -/

namespace Sys

variable {S A : Type*}

/-- Steps with different labels do not hinder each other, and their order does not matter. -/
def Commutes (M : Sys S A) : Prop := ∀ ⦃s a b s₁ s₂⦄, a ≠ b → M.step s a = some s₁ →
  M.step s b = some s₂ → ∃ t, M.step s₁ b = some t ∧ M.step s₂ a = some t

variable {M : Sys S A} {s f : S}

theorem Commutes.step [DecidableEq A] (hM : M.Commutes) {as : List A} {b : A} {s₁ : S}
    (hf : ∀ a, M.step f a = none) (h : M.exec s as = some f) (hb : M.step s b = some s₁) :
    b ∈ as ∧ M.exec s₁ (as.erase b) = some f := by
  induction as generalizing s s₁ with
  | nil =>
    cases h
    rw [hf b] at hb
    cases hb
  | cons a as ih =>
    obtain ⟨t, ha, hrest⟩ := bind_eq_some_iff.1 h
    by_cases hab : b = a
    · subst hab
      obtain rfl := Option.some.inj (hb.symm.trans ha)
      exact ⟨mem_cons_self, by rwa [erase_cons_head]⟩
    · obtain ⟨u, hu₁, hu₂⟩ := hM hab hb ha
      obtain ⟨hmem, hex⟩ := ih hrest hu₂
      refine ⟨mem_cons_of_mem _ hmem, ?_⟩
      rw [erase_cons_tail (by simpa using Ne.symm hab), exec, hu₁]
      exact hex

theorem Commutes.exec [DecidableEq A] (hM : M.Commutes) {as bs : List A} {n : S}
    (hf : ∀ a, M.step f a = none) (h : M.exec s as = some f) (hb : M.exec s bs = some n) :
    ∃ cs, M.exec n cs = some f ∧ bs.length + cs.length = as.length := by
  induction bs generalizing s as with
  | nil =>
    cases hb
    exact ⟨as, h, Nat.zero_add _⟩
  | cons b bs ih =>
    obtain ⟨s₁, hstep, hrest⟩ := bind_eq_some_iff.1 hb
    obtain ⟨hmem, hex⟩ := hM.step hf h hstep
    obtain ⟨cs, hcs, hlen⟩ := ih hex hrest
    have herase := length_erase_of_mem hmem
    have hpos := length_pos_of_mem hmem
    refine ⟨cs, hcs, ?_⟩
    rw [length_cons]
    omega

theorem Reach.exists_exec (h : M.Reach s) : ∃ as, M.exec M.init as = some s := by
  induction h with
  | init => exact ⟨[], rfl⟩
  | step _ _ hst ih =>
    obtain ⟨as, has⟩ := ih
    exact ⟨as ++ [_], exec_append.2 ⟨_, has, hst⟩⟩

/-- Where one run ends, each state is its end or can go on. -/
theorem Commutes.ends [DecidableEq A] (hM : M.Commutes) {as : List A}
    (hf : ∀ a, M.step f a = none) (h : M.exec M.init as = some f) (hs : M.Reach s) :
    s = f ∨ ∃ a t, M.step s a = some t := by
  obtain ⟨bs, hbs⟩ := hs.exists_exec
  obtain ⟨cs, hcs, -⟩ := hM.exec hf h hbs
  cases cs with
  | nil => exact .inl (Option.some.inj hcs)
  | cons a cs =>
    obtain ⟨t, hstep, -⟩ := bind_eq_some_iff.1 hcs
    exact .inr ⟨a, t, hstep⟩

theorem exec_trans {as bs : List A} {s' s'' : S} (h : M.exec s as = some s')
    (h' : M.exec s' bs = some s'') : M.exec s (as ++ bs) = some s'' := by
  induction as generalizing s with
  | nil =>
    cases h
    exact h'
  | cons a as ih =>
    obtain ⟨t, ha, hrest⟩ := bind_eq_some_iff.1 h
    rw [cons_append, exec, ha]
    exact ih hrest

end Sys

namespace Network

/-! ## Networks -/

/-- An instruction of a process: compute, post a message, take a message, or wait until the messages
to another process have been taken. -/
inductive Instr (ι σ μ : Type*) where
  | compute (f : σ → σ)
  | post (dst : ι) (msg : σ → μ)
  | take (src : ι) (upd : σ → μ → σ)
  | flush (dst : ι)

/-- The channels: the messages from one process to another that have not been taken. -/
abbrev Chans (ι μ : Type*) := ι → ι → List μ

structure Net (ι σ μ : Type*) where
  prog : ι → List (Instr ι σ μ)
  st : ι → σ
  chan : Chans ι μ

variable {ι σ μ : Type*}

def start (prog : ι → List (Instr ι σ μ)) (init : ι → σ) : Net ι σ μ := ⟨prog, init, fun _ _ => []⟩

variable [DecidableEq ι]

def setChan (chan : Chans ι μ) (p q : ι) (l : List μ) : Chans ι μ :=
  fun a b => if a = p ∧ b = q then l else chan a b

/-- What an instruction does to the state of its process and to the channels. A message that need not
be waited for is `eager`. -/
def Instr.run (eager : Bool) (p : ι) (s : σ) (chan : Chans ι μ) :
    Instr ι σ μ → Option (σ × Chans ι μ)
  | .compute f => some (f s, chan)
  | .post dst msg => some (s, setChan chan p dst (chan p dst ++ [msg s]))
  | .take src upd =>
    match chan src p with
    | [] => none
    | m :: rest => some (upd s m, setChan chan src p rest)
  | .flush dst => if eager || (chan p dst).isEmpty then some (s, chan) else none

def step (eager : ι → Nat → Bool) (n : Net ι σ μ) (p : ι) : Option (Net ι σ μ) :=
  match n.prog p with
  | [] => none
  | i :: r => (i.run (eager p r.length) p (n.st p) n.chan).map fun x =>
    ⟨Function.update n.prog p r, Function.update n.st p x.1, x.2⟩

def sys (eager : ι → Nat → Bool) (prog : ι → List (Instr ι σ μ)) (init : ι → σ) :
    Sys (Net ι σ μ) ι := ⟨start prog init, step eager⟩

section channels

variable {chan : Chans ι μ} {p q a b : ι} {l l' : List μ}

@[simp] theorem setChan_self : setChan chan p q l p q = l := if_pos ⟨rfl, rfl⟩

theorem setChan_of_ne (h : ¬ (a = p ∧ b = q)) : setChan chan p q l a b = chan a b := if_neg h

theorem setChan_comm (h : ¬ (a = p ∧ b = q)) :
    setChan (setChan chan p q l) a b l' = setChan (setChan chan a b l') p q l := by
  funext x y
  unfold setChan
  split
  · next hx =>
    obtain ⟨rfl, rfl⟩ := hx
    rw [if_neg h]
  · rfl

theorem setChan_eq_self (h : chan p q = l) : setChan chan p q l = chan := by
  funext x y
  unfold setChan
  split
  · next hx => rw [hx.1, hx.2, h]
  · rfl

@[simp] theorem setChan_setChan : setChan (setChan chan p q l) p q l' = setChan chan p q l' := by
  funext x y
  unfold setChan
  split <;> rfl

end channels

section commute

variable {eager : ι → Nat → Bool} {n n' : Net ι σ μ} {p q : ι} {s s' t t' : σ}
  {chan chan₁ chan₂ : Chans ι μ} {i j : Instr ι σ μ} {e e' : Bool}

def Instr.channel (p : ι) : Instr ι σ μ → ι × ι
  | .compute _ => (p, p)
  | .post dst _ => (p, dst)
  | .take src _ => (src, p)
  | .flush dst => (p, dst)

theorem run_frame {a b : ι} (hch : i.channel p = (a, b))
    (h : i.run e p s chan = some (s', chan₁)) : ∃ l, chan₁ = setChan chan a b l ∧
      ∀ c : Chans ι μ, c a b = chan a b → i.run e p s c = some (s', setChan c a b l) := by
  cases i with
  | compute f =>
    obtain ⟨rfl, rfl⟩ := Prod.mk.inj hch
    cases h
    refine ⟨_, (setChan_eq_self rfl).symm, fun c hc => ?_⟩
    rw [Instr.run, setChan_eq_self hc]
  | post dst msg =>
    obtain ⟨rfl, rfl⟩ := Prod.mk.inj hch
    cases h
    refine ⟨_, rfl, fun c hc => ?_⟩
    rw [Instr.run, hc]
  | take src upd =>
    obtain ⟨rfl, rfl⟩ := Prod.mk.inj hch
    simp only [Instr.run] at h
    split at h
    · cases h
    · next m rest hm =>
      cases h
      refine ⟨_, rfl, fun c hc => ?_⟩
      simp only [Instr.run, hc, hm]
  | flush dst =>
    obtain ⟨rfl, rfl⟩ := Prod.mk.inj hch
    simp only [Instr.run] at h
    split at h
    · next hwait =>
      cases h
      refine ⟨_, (setChan_eq_self rfl).symm, fun c hc => ?_⟩
      simp only [Instr.run, hc, if_pos hwait, setChan_eq_self hc]
    · cases h

theorem run_take_comm {src : ι} {upd : σ → μ → σ} (hpq : p ≠ q)
    (hch : (src, p) = j.channel q) (hi : (Instr.take src upd).run e p s chan = some (s', chan₁))
    (hj : j.run e' q t chan = some (t', chan₂)) :
    ∃ chan', j.run e' q t chan₁ = some (t', chan') ∧
      (Instr.take src upd).run e p s chan₂ = some (s', chan') := by
  simp only [Instr.run] at hi
  split at hi
  · cases hi
  · next m rest hm =>
    cases hi
    cases j with
    | compute f => exact absurd (Prod.mk.inj hch).2 hpq
    | take src' upd' => exact absurd (Prod.mk.inj hch).2 hpq
    | post dst msg =>
      obtain ⟨rfl, rfl⟩ := Prod.mk.inj hch
      cases hj
      refine ⟨_, rfl, ?_⟩
      simp only [Instr.run, setChan_self, hm, cons_append, setChan_setChan]
    | flush dst =>
      obtain ⟨rfl, rfl⟩ := Prod.mk.inj hch
      simp only [Instr.run, hm, isEmpty_cons, Bool.or_false] at hj
      split at hj
      · next hwait =>
        cases hj
        refine ⟨setChan chan src p rest, ?_, ?_⟩
        · simp only [Instr.run, hwait, Bool.true_or, if_true]
        · simp only [Instr.run, hm]
      · cases hj

theorem run_comm (hpq : p ≠ q) (hi : i.run e p s chan = some (s', chan₁))
    (hj : j.run e' q t chan = some (t', chan₂)) :
    ∃ chan', j.run e' q t chan₁ = some (t', chan') ∧ i.run e p s chan₂ = some (s', chan') := by
  by_cases hch : i.channel p = j.channel q
  · -- the process at one end of the channel takes a message
    cases i with
    | take src upd => exact run_take_comm hpq hch hi hj
    | compute f =>
      cases j with
      | take src upd =>
        obtain ⟨c, hc₁, hc₂⟩ := run_take_comm hpq.symm hch.symm hj hi
        exact ⟨c, hc₂, hc₁⟩
      | _ => exact absurd (Prod.mk.inj hch).1 hpq
    | post dst msg =>
      cases j with
      | take src upd =>
        obtain ⟨c, hc₁, hc₂⟩ := run_take_comm hpq.symm hch.symm hj hi
        exact ⟨c, hc₂, hc₁⟩
      | _ => exact absurd (Prod.mk.inj hch).1 hpq
    | flush dst =>
      cases j with
      | take src upd =>
        obtain ⟨c, hc₁, hc₂⟩ := run_take_comm hpq.symm hch.symm hj hi
        exact ⟨c, hc₂, hc₁⟩
      | _ => exact absurd (Prod.mk.inj hch).1 hpq
  · obtain ⟨a, b, hab⟩ : ∃ a b, i.channel p = (a, b) := ⟨_, _, rfl⟩
    obtain ⟨x, y, hxy⟩ : ∃ x y, j.channel q = (x, y) := ⟨_, _, rfl⟩
    obtain ⟨l, rfl, hi'⟩ := run_frame hab hi
    obtain ⟨l', rfl, hj'⟩ := run_frame hxy hj
    have hne : ¬ (a = x ∧ b = y) := fun h => hch (by rw [hab, hxy, h.1, h.2])
    have hne' : ¬ (x = a ∧ y = b) := fun h => hne ⟨h.1.symm, h.2.symm⟩
    exact ⟨_, hj' _ (setChan_of_ne hne'), by rw [setChan_comm hne', hi' _ (setChan_of_ne hne)]⟩

theorem step_of_prog {r : List (Instr ι σ μ)} {c : Chans ι μ} (hp : n.prog p = i :: r)
    (hi : i.run (eager p r.length) p (n.st p) n.chan = some (s', c)) :
    step eager n p =
      some ⟨Function.update n.prog p r, Function.update n.st p s', c⟩ := by
  rw [step, hp]
  simp only [hi, map_some]

theorem of_step (h : step eager n p = some n') : ∃ i r s' c, n.prog p = i :: r ∧
    i.run (eager p r.length) p (n.st p) n.chan = some (s', c) ∧
    n' = ⟨Function.update n.prog p r, Function.update n.st p s', c⟩ := by
  unfold step at h
  split at h
  · cases h
  · next i r hp =>
    obtain ⟨⟨s', c⟩, hi, rfl⟩ := map_eq_some_iff.1 h
    exact ⟨i, r, s', c, hp, hi, rfl⟩

theorem sys_commutes (eager : ι → Nat → Bool) (prog : ι → List (Instr ι σ μ)) (init : ι → σ) :
    (sys eager prog init).Commutes := by
  intro n p q n₁ n₂ hpq h₁ h₂
  obtain ⟨i, r, s', c₁, hp, hi, rfl⟩ := of_step h₁
  obtain ⟨j, r', t', c₂, hq, hj, rfl⟩ := of_step h₂
  obtain ⟨c, hj', hi'⟩ := run_comm hpq hi hj
  refine ⟨⟨Function.update (Function.update n.prog p r) q r',
    Function.update (Function.update n.st p s') q t', c⟩,
    step_of_prog (i := j) (r := r') ?_ ?_, ?_⟩
  · exact (update_of_ne hpq.symm _ _).trans hq
  · rw [← hj']
    exact congrArg (fun x => j.run _ q x c₁) (update_of_ne hpq.symm _ _)
  · rw [update_comm hpq, update_comm hpq]
    refine step_of_prog (i := i) (r := r) ?_ ?_
    · exact (update_of_ne hpq _ _).trans hp
    · rw [← hi']
      exact congrArg (fun x => i.run _ p x c₂) (update_of_ne hpq _ _)

end commute

/-! ## Phases -/

/-- What the processes do in a phase: the messages that they post, those that they take, and what
they compute then. -/
structure Phase (ι σ μ : Type*) where
  sends : ι → List (ι × (σ → μ))
  recvs : ι → List (ι × (σ → μ → σ))
  calcs : ι → List (σ → σ)

namespace Phase

def instrs (a : Phase ι σ μ) (p : ι) : List (Instr ι σ μ) :=
  (a.sends p).map (fun x => Instr.post x.1 x.2) ++ (a.recvs p).map (fun x => Instr.take x.1 x.2) ++
    (a.sends p).map (fun x => Instr.flush x.1) ++ (a.calcs p).map Instr.compute

def msg (a : Phase ι σ μ) (S : ι → σ) (q p : ι) : Option μ :=
  ((a.sends q).find? fun x => x.1 = p).map fun x => x.2 (S q)

def received (a : Phase ι σ μ) (S : ι → σ) (p : ι) : σ :=
  (a.recvs p).foldl (fun s x => ((a.msg S x.1 p).map (x.2 s)).getD s) (S p)

def after (a : Phase ι σ μ) (S : ι → σ) (p : ι) : σ :=
  (a.calcs p).foldl (fun s f => f s) (a.received S p)

/-- The sends and the receives of a phase match each other. -/
structure Matched (a : Phase ι σ μ) : Prop where
  sends_nodup : ∀ p, ((a.sends p).map Prod.fst).Nodup
  recvs_nodup : ∀ p, ((a.recvs p).map Prod.fst).Nodup
  mem_iff : ∀ p q, q ∈ (a.sends p).map Prod.fst ↔ p ∈ (a.recvs q).map Prod.fst

end Phase

def sendTo (dst : ι) (msg : σ → μ) : List (Instr ι σ μ) := [.post dst msg, .flush dst]

def recvFrom (src : ι) (upd : σ → μ → σ) : List (Instr ι σ μ) := [.take src upd]

def sendRecv (dst : ι) (msg : σ → μ) (src : ι) (upd : σ → μ → σ) : List (Instr ι σ μ) :=
  [.post dst msg, .take src upd, .flush dst]

/-- A phase in which a process sends one message at most and takes one at most. -/
def Phase.single (dst : ι → Option (ι × (σ → μ))) (src : ι → Option (ι × (σ → μ → σ))) :
    Phase ι σ μ := ⟨fun p => (dst p).toList, fun p => (src p).toList, fun _ => []⟩

def Phase.calc (f : ι → List (σ → σ)) : Phase ι σ μ := ⟨fun _ => [], fun _ => [], f⟩

def afterAll (phases : List (Phase ι σ μ)) (S : ι → σ) : ι → σ :=
  phases.foldl (fun S a => a.after S) S

section runs

variable {eager : ι → Nat → Bool} {n : Net ι σ μ} {p q : ι} {s s' : σ}
  {chan chan' : Chans ι μ} {is r : List (Instr ι σ μ)}

def runList (p : ι) : List (Instr ι σ μ) → σ → Chans ι μ → Option (σ × Chans ι μ)
  | [], s, chan => some (s, chan)
  | i :: is, s, chan => (i.run false p s chan).bind fun x => runList p is x.1 x.2

theorem runList_append {is' : List (Instr ι σ μ)} (h : runList p is s chan = some (s', chan')) :
    runList p (is ++ is') s chan = runList p is' s' chan' := by
  induction is generalizing s chan with
  | nil =>
    cases h
    rfl
  | cons i is ih =>
    obtain ⟨x, hi, hrest⟩ := bind_eq_some_iff.1 h
    rw [cons_append, runList, hi]
    exact ih hrest

theorem run_of_not_eager {i : Instr ι σ μ} {x : σ × Chans ι μ} (e : Bool)
    (h : i.run false p s chan = some x) : i.run e p s chan = some x := by
  cases i with
  | flush dst =>
    simp only [Instr.run, Bool.false_or] at h ⊢
    split at h
    · next hempty => rw [if_pos (by rw [hempty, Bool.or_true]), h]
    · cases h
  | _ => exact h

theorem exec_runList {M : Sys (Net ι σ μ) ι} (hM : M.step = step eager) (hp : n.prog p = is ++ r)
    (h : runList p is (n.st p) n.chan = some (s', chan')) :
    M.exec n (List.replicate is.length p) =
      some ⟨Function.update n.prog p r, Function.update n.st p s', chan'⟩ := by
  induction is generalizing n with
  | nil =>
    cases h
    rw [nil_append] at hp
    rw [← hp, update_eq_self, update_eq_self]
    rfl
  | cons i is ih =>
    obtain ⟨x, hi, hrest⟩ := bind_eq_some_iff.1 h
    have hstep : step eager n p = some _ := step_of_prog hp (run_of_not_eager _ hi)
    rw [length_cons, replicate_succ, Sys.exec, hM, hstep, bind_some]
    rw [ih (update_self _ _ _)
      ((congrArg (fun t => runList p is t x.2) (update_self p x.1 n.st)).trans hrest)]
    simp only [update_idem]

def outgoing (l : List (ι × (σ → μ))) (s : σ) (q : ι) : List μ :=
  (l.filter fun x => x.1 = q).map fun x => x.2 s

theorem runList_posts (l : List (ι × (σ → μ))) :
    runList p (l.map fun x => .post x.1 x.2) s chan =
      some (s, fun a b => chan a b ++ if a = p then outgoing l s b else []) := by
  induction l generalizing chan with
  | nil =>
    simp [runList, outgoing]
  | cons x l ih =>
    rw [map_cons, runList, Instr.run, bind_some, ih]
    congr 2
    funext a b
    show (if a = p ∧ b = x.1 then chan p x.1 ++ [x.2 s] else chan a b) ++ _ = _
    by_cases ha : a = p
    · subst ha
      by_cases hb : x.1 = b
      · subst hb
        simp [outgoing]
      · have hne : ¬ (a = a ∧ b = x.1) := fun h => hb h.2.symm
        rw [if_neg hne]
        simp [outgoing, hb]
    · have hne : ¬ (a = p ∧ b = x.1) := fun h => ha h.1
      rw [if_neg hne, if_neg ha, if_neg ha]

theorem runList_takes {l : List (ι × (σ → μ → σ))} {m : ι → Option μ}
    (hnd : (l.map Prod.fst).Nodup) (hm : ∀ q ∈ l.map Prod.fst, chan q p = (m q).toList)
    (hsome : ∀ q ∈ l.map Prod.fst, (m q).isSome) :
    runList p (l.map fun x => .take x.1 x.2) s chan =
      some (l.foldl (fun s x => ((m x.1).map (x.2 s)).getD s) s,
        fun a b => if b = p ∧ a ∈ l.map Prod.fst then [] else chan a b) := by
  induction l generalizing s chan with
  | nil => simp [runList]
  | cons x l ih =>
    rw [map_cons, nodup_cons] at hnd
    obtain ⟨v, hv⟩ := isSome_iff_exists.1 (hsome x.1 mem_cons_self)
    have hx : chan x.1 p = [v] := by
      rw [hm x.1 mem_cons_self, hv]
      rfl
    have hne : ∀ q ∈ l.map Prod.fst, q ≠ x.1 := fun q hq h => hnd.1 (h ▸ hq)
    rw [map_cons, runList]
    simp only [Instr.run, hx, bind_some]
    rw [ih hnd.2 (fun q hq => ?_) fun q hq => hsome q (mem_cons_of_mem _ hq)]
    · simp only [foldl_cons, hv, map_some, getD_some, map_cons,
        mem_cons]
      congr 2
      funext a b
      unfold setChan
      by_cases hb : b = p
      · by_cases ha : a = x.1
        · simp [ha, hb]
        · by_cases hl : a ∈ l.map Prod.fst
          · rw [if_pos ⟨hb, hl⟩, if_pos ⟨hb, .inr hl⟩]
          · rw [if_neg fun h => hl h.2, if_neg fun h => ha h.1, if_neg fun h => h.2.elim ha hl]
      · rw [if_neg fun h => hb h.1, if_neg fun h => hb h.2, if_neg fun h => hb h.1]
    · rw [setChan_of_ne fun h => hne q hq h.1]
      exact hm q (mem_cons_of_mem _ hq)

theorem runList_flushes (l : List (ι × (σ → μ))) (h : ∀ q, chan p q = []) :
    runList p (l.map fun x => .flush x.1) s chan = some (s, chan) := by
  induction l with
  | nil => rfl
  | cons x l ih =>
    rw [map_cons, runList, Instr.run, h, isEmpty_nil, Bool.or_true, if_pos rfl,
      bind_some, ih]

theorem runList_computes (l : List (σ → σ)) :
    runList p (l.map Instr.compute) s chan = some (l.foldl (fun s f => f s) s, chan) := by
  induction l generalizing s with
  | nil => rfl
  | cons f l ih =>
    rw [map_cons, runList, Instr.run, bind_some, ih]
    rfl

theorem update_ite {β : Type*} (f g : ι → β) (p : ι) (done : List ι) :
    Function.update (fun q => if q ∈ done then f q else g q) p (f p) =
      fun q => if q ∈ p :: done then f q else g q := by
  funext q
  by_cases hq : q = p
  · subst hq
    rw [update_self, if_pos mem_cons_self]
  · rw [update_of_ne hq]
    by_cases hd : q ∈ done
    · rw [if_pos hd, if_pos (mem_cons_of_mem _ hd)]
    · rw [if_neg hd, if_neg fun h => (mem_cons.1 h).elim hq hd]

theorem exec_sweep {M : Sys (Net ι σ μ) ι} (hM : M.step = step eager)
    (part rest : ι → List (Instr ι σ μ)) (T : ι → σ) (C : List ι → Chans ι μ) {procs : List ι}
    (hnd : procs.Nodup)
    (hrun : ∀ done p, p ∈ procs → p ∉ done →
      runList p (part p) (n.st p) (C done) = some (T p, C (p :: done)))
    (hprog : ∀ p ∈ procs, n.prog p = part p ++ rest p) (hchan : n.chan = C []) :
    ∃ as done, (∀ p, p ∈ done ↔ p ∈ procs) ∧ M.exec n as =
      some ⟨fun p => if p ∈ procs then rest p else n.prog p,
        fun p => if p ∈ procs then T p else n.st p, C done⟩ := by
  suffices h : ∀ l done : List ι, l.Nodup → (∀ p ∈ l, p ∈ procs ∧ p ∉ done) →
      (∀ p ∈ done, p ∈ procs) →
      ∃ as done', (∀ p, p ∈ done' ↔ p ∈ done ∨ p ∈ l) ∧
        M.exec ⟨fun p => if p ∈ done then rest p else n.prog p,
          fun p => if p ∈ done then T p else n.st p, C done⟩ as =
        some ⟨fun p => if p ∈ done' then rest p else n.prog p,
          fun p => if p ∈ done' then T p else n.st p, C done'⟩ by
    obtain ⟨as, done', hmem, hex⟩ := h procs [] hnd (fun p hp => ⟨hp, not_mem_nil⟩) nofun
    have hiff : ∀ p, p ∈ done' ↔ p ∈ procs := fun p => by simpa using hmem p
    refine ⟨as, done', hiff, ?_⟩
    simp only [not_mem_nil, if_false, hiff] at hex
    rw [← hchan] at hex
    exact hex
  intro l
  induction l with
  | nil => exact fun done _ _ _ => ⟨[], done, fun p => by simp, rfl⟩
  | cons p l ih =>
    intro done hl hin hdone
    obtain ⟨hp, hnot⟩ := hin p mem_cons_self
    rw [nodup_cons] at hl
    obtain ⟨as, done', hmem, hex⟩ := ih (p :: done) hl.2
      (fun q hq => ⟨(hin q (mem_cons_of_mem _ hq)).1, fun h => by
        rcases mem_cons.1 h with rfl | h
        · exact hl.1 hq
        · exact (hin q (mem_cons_of_mem _ hq)).2 h⟩)
      (fun q hq => by
        rcases mem_cons.1 hq with rfl | hq
        · exact hp
        · exact hdone q hq)
    have hone := @exec_runList ι σ μ _ eager
      ⟨fun p => if p ∈ done then rest p else n.prog p, fun p => if p ∈ done then T p else n.st p,
        C done⟩ p (T p) (C (p :: done)) (part p) (rest p) M hM
      ((if_neg hnot).trans (hprog p hp)) (by simp only [if_neg hnot]; exact hrun done p hp hnot)
    rw [update_ite, update_ite] at hone
    refine ⟨_, done', fun q => ?_, Sys.exec_trans hone hex⟩
    rw [hmem, mem_cons, mem_cons]
    tauto

end runs

section phases

variable {eager : ι → Nat → Bool} {n : Net ι σ μ} {M : Sys (Net ι σ μ) ι} {a : Phase ι σ μ}
  {phases : List (Phase ι σ μ)} {procs : List ι} {prog rest : ι → List (Instr ι σ μ)} {init : ι → σ}

theorem outgoing_eq (hm : a.Matched) (S : ι → σ) (p q : ι) :
    outgoing (a.sends p) (S p) q = (a.msg S p q).toList := by
  have hnd := hm.sends_nodup p
  unfold Phase.msg
  generalize a.sends p = l at hnd
  induction l with
  | nil => rfl
  | cons x l ih =>
    rw [map_cons, nodup_cons] at hnd
    by_cases hx : x.1 = q
    · have hnone : l.filter (fun x => x.1 = q) = [] := by
        rw [filter_eq_nil_iff]
        intro y hy hyq
        refine hnd.1 ?_
        rw [hx, ← of_decide_eq_true hyq]
        exact mem_map_of_mem hy
      rw [outgoing, filter_cons_of_pos (by simpa using hx), hnone,
        List.find?_cons_of_pos (by simpa using hx)]
      rfl
    · rw [outgoing, filter_cons_of_neg (by simpa using hx),
        List.find?_cons_of_neg (by simpa using hx)]
      exact ih hnd.2

theorem Phase.Matched.isSome_msg (hm : a.Matched) (S : ι → σ) {p q : ι}
    (h : p ∈ (a.recvs q).map Prod.fst) : (a.msg S p q).isSome := by
  obtain ⟨x, hx, hxq⟩ := mem_map.1 ((hm.mem_iff p q).2 h)
  rw [Phase.msg, isSome_map, List.find?_isSome]
  exact ⟨x, hx, by simpa using hxq⟩

theorem Phase.Matched.msg_eq_none (hm : a.Matched) (S : ι → σ) {p q : ι}
    (h : p ∉ (a.recvs q).map Prod.fst) : a.msg S p q = none := by
  rw [Phase.msg, map_eq_none_iff, List.find?_eq_none]
  intro x hx hxq
  refine h ((hm.mem_iff p q).1 ?_)
  rw [← of_decide_eq_true hxq]
  exact mem_map_of_mem hx

omit [DecidableEq ι] in
theorem Phase.instrs_eq_nil {p : ι} (h : a.instrs p = []) :
    a.sends p = [] ∧ a.recvs p = [] ∧ a.calcs p = [] := by
  simp only [Phase.instrs, append_eq_nil_iff, map_eq_nil_iff] at h
  exact ⟨h.1.2, h.1.1.2, h.2⟩

def Phase.afterPosts (a : Phase ι σ μ) (p : ι) : List (Instr ι σ μ) :=
  (a.recvs p).map (fun x => Instr.take x.1 x.2) ++
    ((a.sends p).map (fun x => Instr.flush x.1) ++ (a.calcs p).map Instr.compute)

theorem exec_posts (hM : M.step = step eager) (hm : a.Matched) (hnd : procs.Nodup)
    (hout : ∀ p, p ∉ procs → a.instrs p = []) (hprog : ∀ p, n.prog p = a.instrs p ++ rest p)
    (hchan : n.chan = fun _ _ => []) : ∃ as, M.exec n as =
      some ⟨fun p => a.afterPosts p ++ rest p, n.st, fun p q => (a.msg n.st p q).toList⟩ := by
  obtain ⟨as, done, hdone, hex⟩ := exec_sweep (n := n) hM
    (fun p => (a.sends p).map fun x => .post x.1 x.2) (fun p => a.afterPosts p ++ rest p) n.st
    (fun done x b => if x ∈ done then outgoing (a.sends x) (n.st x) b else []) hnd
    (fun done p _ hp => by
      rw [runList_posts]
      congr 2
      funext x b
      by_cases hx : x = p
      · subst hx
        rw [if_neg hp, if_pos rfl, if_pos mem_cons_self, nil_append]
      · simp only [mem_cons, hx, false_or, if_false, append_nil])
    (fun p _ => by
      rw [hprog, Phase.instrs, Phase.afterPosts]
      simp only [append_assoc]) hchan
  refine ⟨as, hex.trans (congrArg some ?_)⟩
  congr 1
  · funext p
    by_cases hp : p ∈ procs
    · exact if_pos hp
    · obtain ⟨hs, hr, hc⟩ := Phase.instrs_eq_nil (hout p hp)
      rw [if_neg hp, hprog, hout p hp, Phase.afterPosts, hs, hr, hc]
      rfl
  · funext p
    exact ite_self _
  · funext p q
    by_cases hp : p ∈ procs
    · rw [if_pos ((hdone p).2 hp), outgoing_eq hm]
    · rw [if_neg fun h => hp ((hdone p).1 h), Phase.msg, (Phase.instrs_eq_nil (hout p hp)).1]
      rfl

theorem exec_takes (hM : M.step = step eager) (hm : a.Matched) (hnd : procs.Nodup)
    (hout : ∀ p, p ∉ procs → a.instrs p = []) (hprog : ∀ p, n.prog p = a.afterPosts p ++ rest p)
    (hchan : n.chan = fun p q => (a.msg n.st p q).toList) : ∃ as, M.exec n as =
      some ⟨fun p => (a.sends p).map (fun x => Instr.flush x.1) ++ (a.calcs p).map Instr.compute ++ rest p,
        a.received n.st, fun _ _ => []⟩ := by
  obtain ⟨as, done, hdone, hex⟩ := exec_sweep (n := n) hM
    (fun p => (a.recvs p).map fun x => .take x.1 x.2)
    (fun p => (a.sends p).map (fun x => Instr.flush x.1) ++ (a.calcs p).map Instr.compute ++ rest p)
    (a.received n.st)
    (fun done x b => if b ∈ done then [] else (a.msg n.st x b).toList) hnd
    (fun done p _ hp => by
      rw [runList_takes (m := fun q => a.msg n.st q p) (hm.recvs_nodup p)
        (fun q _ => if_neg hp) fun q hq => hm.isSome_msg n.st hq]
      congr 2
      funext x b
      by_cases hb : b = p
      · subst hb
        rw [if_pos mem_cons_self, if_neg hp]
        by_cases hx : x ∈ (a.recvs b).map Prod.fst
        · rw [if_pos ⟨rfl, hx⟩]
        · rw [if_neg fun h => hx h.2, hm.msg_eq_none n.st hx]
          rfl
      · rw [if_neg fun h => hb h.1]
        simp only [mem_cons, hb, false_or])
    (fun p _ => by
      rw [hprog, Phase.afterPosts]
      simp only [append_assoc]) (by simpa using hchan)
  refine ⟨as, hex.trans (congrArg some ?_)⟩
  congr 1
  · funext p
    by_cases hp : p ∈ procs
    · exact if_pos hp
    · rw [if_neg hp, hprog, Phase.afterPosts, (Phase.instrs_eq_nil (hout p hp)).2.1]
      rfl
  · funext p
    by_cases hp : p ∈ procs
    · exact if_pos hp
    · rw [if_neg hp, Phase.received, (Phase.instrs_eq_nil (hout p hp)).2.1]
      rfl
  · funext p q
    by_cases hq : q ∈ procs
    · exact if_pos ((hdone q).2 hq)
    · rw [if_neg fun h => hq ((hdone q).1 h), hm.msg_eq_none n.st]
      · rfl
      · rw [(Phase.instrs_eq_nil (hout q hq)).2.1]
        exact not_mem_nil

theorem exec_phase (hM : M.step = step eager) (hm : a.Matched) (hnd : procs.Nodup)
    (hout : ∀ p, p ∉ procs → a.instrs p = []) (hprog : ∀ p, n.prog p = a.instrs p ++ rest p)
    (hchan : n.chan = fun _ _ => []) :
    ∃ as, M.exec n as = some ⟨rest, a.after n.st, fun _ _ => []⟩ := by
  obtain ⟨as₁, hex₁⟩ := exec_posts hM hm hnd hout hprog hchan
  obtain ⟨as₂, hex₂⟩ := exec_takes (n := ⟨fun p => a.afterPosts p ++ rest p, n.st,
    fun p q => (a.msg n.st p q).toList⟩) hM hm hnd hout (fun _ => rfl) rfl
  obtain ⟨as₃, done, hdone, hex₃⟩ := exec_sweep hM
    (n := ⟨fun p => (a.sends p).map (fun x => Instr.flush x.1) ++ (a.calcs p).map Instr.compute ++ rest p,
      a.received n.st, fun _ _ => []⟩)
    (fun p => (a.sends p).map (fun x => Instr.flush x.1) ++ (a.calcs p).map Instr.compute) rest
    (a.after n.st) (fun _ _ _ => []) hnd
    (fun done p _ _ => by
      rw [runList_append (runList_flushes _ fun _ => rfl), runList_computes]
      rfl)
    (fun _ _ => rfl) rfl
  refine ⟨_, Sys.exec_trans hex₁ (Sys.exec_trans hex₂ (hex₃.trans (congrArg some ?_)))⟩
  congr 1
  · funext p
    by_cases hp : p ∈ procs
    · exact if_pos hp
    · obtain ⟨hs, -, hc⟩ := Phase.instrs_eq_nil (hout p hp)
      rw [if_neg hp]
      simp only [hs, hc, map_nil, nil_append]
  · funext p
    by_cases hp : p ∈ procs
    · exact if_pos hp
    · rw [if_neg hp, Phase.after, (Phase.instrs_eq_nil (hout p hp)).2.2]
      rfl

theorem exec_phases (hM : M.step = step eager) (hm : ∀ a ∈ phases, a.Matched) (hnd : procs.Nodup)
    (hout : ∀ a ∈ phases, ∀ p, p ∉ procs → a.instrs p = [])
    (hprog : ∀ p, n.prog p = phases.flatMap fun a => a.instrs p) (hchan : n.chan = fun _ _ => []) :
    ∃ as, M.exec n as = some ⟨fun _ => [], afterAll phases n.st, fun _ _ => []⟩ := by
  induction phases generalizing n with
  | nil =>
    refine ⟨[], congrArg some ?_⟩
    obtain ⟨prog, st, chan⟩ := n
    obtain rfl := hchan
    obtain rfl : prog = fun _ => [] := funext hprog
    rfl
  | cons a phases ih =>
    obtain ⟨as₁, hex₁⟩ := exec_phase (a := a) hM (hm a mem_cons_self) hnd
      (hout a mem_cons_self)
      (fun p => (hprog p).trans flatMap_cons) hchan
    obtain ⟨as₂, hex₂⟩ := @ih ⟨fun p => phases.flatMap fun a => a.instrs p, a.after n.st,
      fun _ _ => []⟩ (fun b hb => hm b (mem_cons_of_mem _ hb))
      (fun b hb => hout b (mem_cons_of_mem _ hb)) (fun _ => rfl) rfl
    exact ⟨_, Sys.exec_trans hex₁ hex₂⟩

end phases

/-! ## Phases with one message -/

section single

variable {dst : ι → Option (ι × (σ → μ))} {src : ι → Option (ι × (σ → μ → σ))} {S : ι → σ}
  {p q : ι} {msg : σ → μ} {upd : σ → μ → σ}

omit [DecidableEq ι] in
theorem single_matched (h : ∀ p q, (dst p).map Prod.fst = some q ↔ (src q).map Prod.fst = some p) :
    (Phase.single dst src).Matched := by
  refine ⟨fun p => ?_, fun p => ?_, fun p q => ?_⟩
  · show ((dst p).toList.map Prod.fst).Nodup
    cases dst p with
    | none => exact nodup_nil
    | some x => exact nodup_singleton _
  · show ((src p).toList.map Prod.fst).Nodup
    cases src p with
    | none => exact nodup_nil
    | some x => exact nodup_singleton _
  · show q ∈ (dst p).toList.map Prod.fst ↔ p ∈ (src q).toList.map Prod.fst
    rw [← toList_map, ← toList_map, mem_toList, mem_toList]
    exact h p q

omit [DecidableEq ι] in
theorem single_ite_matched {c d : ι → Prop} [DecidablePred c] [DecidablePred d]
    {x : ι → ι × (σ → μ)} {y : ι → ι × (σ → μ → σ)}
    (h : ∀ p q, c p ∧ (x p).1 = q ↔ d q ∧ (y q).1 = p) :
    (Phase.single (fun p => if c p then some (x p) else none)
      fun q => if d q then some (y q) else none).Matched := by
  refine single_matched fun p q => ?_
  have hdst : (if c p then some (x p) else none).map Prod.fst = some q ↔ c p ∧ (x p).1 = q := by
    split <;> simp [*]
  have hsrc : (if d q then some (y q) else none).map Prod.fst = some p ↔ d q ∧ (y q).1 = p := by
    split <;> simp [*]
  exact hdst.trans ((h p q).trans hsrc.symm)

theorem single_after_none (h : src p = none) : (Phase.single dst src).after S p = S p := by
  simp only [Phase.after, Phase.received, Phase.single, h, toList_none, foldl_nil]

theorem single_after (hs : src p = some (q, upd)) (hd : dst q = some (p, msg)) :
    (Phase.single dst src).after S p = upd (S p) (msg (S q)) := by
  have hmsg : (Phase.single dst src).msg S q p = some (msg (S q)) := by
    simp only [Phase.msg, Phase.single, hd, toList_some, List.find?_singleton,
      decide_true, if_true, map_some]
  simp only [Phase.after, Phase.received]
  simp only [Phase.single, hs, toList_some, foldl_nil, foldl_cons]
  have := hmsg
  simp only [Phase.single] at this
  rw [this]
  rfl

omit [DecidableEq ι] in
theorem single_instrs_none (hd : dst p = none) (hs : src p = none) :
    (Phase.single dst src).instrs p = [] := by
  simp only [Phase.instrs, Phase.single, hd, hs, toList_none, map_nil, append_nil]

omit [DecidableEq ι] in
theorem single_instrs_send (hd : dst p = some (q, msg)) (hs : src p = none) :
    (Phase.single dst src).instrs p = sendTo q msg := by
  simp only [Phase.instrs, Phase.single, hd, hs, toList_none, toList_some,
    map_nil, map_cons, append_nil]
  rfl

omit [DecidableEq ι] in
theorem single_instrs_recv (hd : dst p = none) (hs : src p = some (q, upd)) :
    (Phase.single dst src).instrs p = recvFrom q upd := by
  simp only [Phase.instrs, Phase.single, hd, hs, toList_none, toList_some,
    map_nil, map_cons, append_nil, nil_append]
  rfl

omit [DecidableEq ι] in
theorem single_instrs {q' : ι} (hd : dst p = some (q, msg)) (hs : src p = some (q', upd)) :
    (Phase.single dst src).instrs p = sendRecv q msg q' upd := by
  simp only [Phase.instrs, Phase.single, hd, hs, toList_some, map_nil,
    map_cons, append_nil]
  rfl

omit [DecidableEq ι] in
theorem calc_matched (f : ι → List (σ → σ)) : (Phase.calc f : Phase ι σ μ).Matched :=
  ⟨fun _ => nodup_nil, fun _ => nodup_nil, fun _ _ => iff_of_false nofun nofun⟩

omit [DecidableEq ι] in
theorem calc_instrs (f : ι → List (σ → σ)) (p : ι) :
    (Phase.calc f : Phase ι σ μ).instrs p = (f p).map Instr.compute := rfl

theorem calc_after (f : ι → List (σ → σ)) (S : ι → σ) (p : ι) :
    (Phase.calc f : Phase ι σ μ).after S p = (f p).foldl (fun s f => f s) (S p) := rfl

end single

/-! ## All runs -/

section all

variable {eager : ι → Nat → Bool} {n n' : Net ι σ μ} {phases : List (Phase ι σ μ)} {procs : List ι}
  {prog : ι → List (Instr ι σ μ)} {init : ι → σ}

theorem exec_count {as : List ι} (h : (sys eager prog init).exec n as = some n') (p : ι) :
    as.count p + (n'.prog p).length = (n.prog p).length := by
  induction as generalizing n with
  | nil =>
    cases h
    exact Nat.zero_add _
  | cons q as ih =>
    obtain ⟨n₁, hstep, hrest⟩ := bind_eq_some_iff.1 h
    obtain ⟨i, r, s', c, hq, -, rfl⟩ := of_step hstep
    have := ih hrest
    rw [count_cons]
    by_cases hpq : p = q
    · subst hpq
      simp only [update_self] at this
      rw [beq_self_eq_true, if_pos rfl, hq, length_cons]
      omega
    · simp only [update_of_ne hpq] at this
      rw [if_neg (by simpa using Ne.symm hpq)]
      exact this

theorem step_of_nil (h : ∀ p, n.prog p = []) (p : ι) : (sys eager prog init).step n p = none := by
  show step eager n p = none
  rw [step, h p]

/-- Whatever the pace of the processes and whichever messages need not be waited for: a process takes
no more steps than it has instructions; as long as a program is not at its end, some process can go
on; and when all are at their ends, all messages have been taken, and the states are as they should
be. -/
structure Computes (prog : ι → List (Instr ι σ μ)) (init : ι → σ) (P : (ι → σ) → Prop) : Prop where
  bounded : ∀ eager as n, (sys eager prog init).exec (start prog init) as = some n →
    ∀ p, as.count p ≤ (prog p).length
  progress : ∀ eager n, (sys eager prog init).Reach n → (∃ p, n.prog p ≠ []) →
    ∃ p n', (sys eager prog init).step n p = some n'
  final : ∀ eager n, (sys eager prog init).Reach n → (∀ p, n.prog p = []) →
    (∀ p q, n.chan p q = []) ∧ P n.st

theorem Computes.mono {P Q : (ι → σ) → Prop} (h : Computes prog init P) (hPQ : ∀ S, P S → Q S) :
    Computes prog init Q :=
  ⟨h.bounded, h.progress, fun eager n hn hdone =>
    ⟨(h.final eager n hn hdone).1, hPQ _ (h.final eager n hn hdone).2⟩⟩

theorem computes_iff {P : (ι → σ) → Prop} (hm : ∀ a ∈ phases, a.Matched) (hnd : procs.Nodup)
    (hout : ∀ a ∈ phases, ∀ p, p ∉ procs → a.instrs p = [])
    (hprog : ∀ p, prog p = phases.flatMap fun a => a.instrs p) :
    Computes prog init P ↔ P (afterAll phases init) := by
  have hrun : ∀ eager, ∃ as, (sys eager prog init).exec (start prog init) as =
      some ⟨fun _ => [], afterAll phases init, fun _ _ => []⟩ := fun eager =>
    exec_phases (n := start prog init) rfl hm hnd hout hprog rfl
  constructor
  · intro h
    obtain ⟨as, has⟩ := hrun fun _ _ => true
    exact (h.final (fun _ _ => true) _ (Sys.exec_reach .init has) fun _ => rfl).2
  · intro hP
    have hends : ∀ eager n, (sys eager prog init).Reach n →
        n = ⟨fun _ => [], afterAll phases init, fun _ _ => []⟩ ∨
          ∃ p n', (sys eager prog init).step n p = some n' := by
      intro eager n hn
      obtain ⟨as, has⟩ := hrun eager
      exact (sys_commutes eager prog init).ends (step_of_nil fun _ => rfl) has hn
    refine ⟨fun eager as n he p => ?_, fun eager n hn hopen => ?_, fun eager n hn hdone => ?_⟩
    · have := exec_count he p
      exact Nat.le_of_add_right_le (Nat.le_of_eq this)
    · rcases hends eager n hn with rfl | h
      · obtain ⟨p, hp⟩ := hopen
        exact absurd rfl hp
      · exact h
    · rcases hends eager n hn with rfl | ⟨p, n', hstep⟩
      · exact ⟨fun _ _ => rfl, hP⟩
      · rw [step_of_nil hdone] at hstep
        cases hstep

end all

/-! ## What has happened before -/

section before

variable {eager : ι → Nat → Bool} {n n' : Net ι σ μ} {prog : ι → List (Instr ι σ μ)} {init : ι → σ}
  {p q : ι}

theorem run_chan_nil {i : Instr ι σ μ} {e : Bool} {c : ι} {s s' : σ} {chan chan' : Chans ι μ}
    (h : i.run e c s chan = some (s', chan')) (hchan : chan p q = [])
    (hpost : p = c → ∀ msg, i ≠ .post q msg) :
    chan' p q = [] ∧ (q = c → ∀ upd, i ≠ .take p upd) := by
  cases i with
  | compute f =>
    cases h
    exact ⟨hchan, fun _ _ heq => by cases heq⟩
  | post dst msg =>
    cases h
    have hne : ¬ (p = c ∧ q = dst) := fun hx => hpost hx.1 msg (by rw [hx.2])
    exact ⟨by rw [setChan_of_ne hne, hchan], fun _ _ heq => by cases heq⟩
  | take src upd =>
    simp only [Instr.run] at h
    split at h
    · cases h
    · next m rest hm =>
      cases h
      have hne : ¬ (p = src ∧ q = c) := fun hx => by
        rw [← hx.1, ← hx.2, hchan] at hm
        cases hm
      exact ⟨by rw [setChan_of_ne hne, hchan], fun hq _ heq => hne ⟨by cases heq; rfl, hq⟩⟩
  | flush dst =>
    simp only [Instr.run] at h
    split at h
    · cases h
      exact ⟨hchan, fun _ _ heq => by cases heq⟩
    · cases h

/-- A message that has been taken was posted before. -/
theorem exists_post {as : List ι} {upd : σ → μ → σ}
    (h : (sys eager prog init).exec n as = some n') (hchan : n.chan p q = [])
    (htake : .take p upd ∈ (n.prog q).take (as.count q)) :
    ∃ msg, .post q msg ∈ (n.prog p).take (as.count p) := by
  by_contra hnone
  have hpost : ∀ msg, .post q msg ∉ (n.prog p).take (as.count p) := fun msg hmem =>
    hnone ⟨msg, hmem⟩
  clear hnone
  induction as generalizing n with
  | nil => exact absurd htake not_mem_nil
  | cons c as ih =>
    obtain ⟨n₁, hstep, hrest⟩ := bind_eq_some_iff.1 h
    obtain ⟨i, r, s', chan', hc, hrun, rfl⟩ := of_step hstep
    have hdone : ∀ x, (n.prog x).take ((c :: as).count x) =
        (if x = c then [i] else []) ++ (update n.prog c r x).take (as.count x) := fun x => by
      by_cases hx : x = c
      · subst hx
        rw [if_pos rfl, update_self, count_cons_self, hc]
        rfl
      · rw [if_neg hx, update_of_ne hx, count_cons_of_ne (Ne.symm hx), nil_append]
    rw [hdone] at htake
    simp only [hdone, mem_append, not_or] at hpost
    obtain ⟨hchan', hnot⟩ := run_chan_nil hrun hchan fun hp msg heq =>
      (hpost msg).1 (by rw [if_pos hp, heq]; exact mem_singleton_self _)
    rcases mem_append.1 htake with hmem | hmem
    · split at hmem
      · next hq => exact hnot hq upd (mem_singleton.1 hmem).symm
      · cases hmem
    · exact ih hrest hchan' hmem fun msg => (hpost msg).2

end before

end Network

end PsMpi.Lib
