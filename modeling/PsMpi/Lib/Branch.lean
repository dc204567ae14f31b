import PsMpi.Lib.Cube

/-!
# Networks of processes whose programs branch
-/

open List Option Function

namespace PsMpi.Lib.Network

inductive Code (ι σ μ : Type*) where
  | done
  | instr (i : Instr ι σ μ) (rest : Code ι σ μ)
  | branch (c : σ → Bool) (yes no : Code ι σ μ)

namespace Code

variable {ι σ μ : Type*}

def ofList (l : List (Instr ι σ μ)) (rest : Code ι σ μ) : Code ι σ μ := l.foldr .instr rest

@[simp] theorem ofList_nil (rest : Code ι σ μ) : ofList [] rest = rest := rfl

@[simp] theorem ofList_cons (i : Instr ι σ μ) (l : List (Instr ι σ μ)) (rest : Code ι σ μ) :
    ofList (i :: l) rest = .instr i (ofList l rest) := rfl

theorem ofList_append (l l' : List (Instr ι σ μ)) (rest : Code ι σ μ) :
    ofList (l ++ l') rest = ofList l (ofList l' rest) := foldr_append

def append : Code ι σ μ → Code ι σ μ → Code ι σ μ
  | .done, code => code
  | .instr i rest, code => .instr i (rest.append code)
  | .branch c yes no, code => .branch c (yes.append code) (no.append code)

def height : Code ι σ μ → Nat
  | .done => 0
  | .instr _ rest => rest.height + 1
  | .branch _ yes no => max yes.height no.height + 1

/-- The next instruction of a process and the rest of its program; at a branch it computes
nothing. -/
def next (s : σ) : Code ι σ μ → Option (Instr ι σ μ × Code ι σ μ)
  | .done => none
  | .instr i rest => some (i, rest)
  | .branch c yes no => some (.compute id, if c s then yes else no)

def settle (s : σ) : Code ι σ μ → Code ι σ μ
  | .branch c yes no => if c s then yes.settle s else no.settle s
  | code => code

theorem height_next {s : σ} {code rest : Code ι σ μ} {i : Instr ι σ μ}
    (h : code.next s = some (i, rest)) : rest.height < code.height := by
  cases code with
  | done => cases h
  | instr j r =>
    obtain ⟨-, rfl⟩ := Prod.mk.inj (Option.some.inj h)
    exact Nat.lt_succ_self _
  | branch c yes no =>
    obtain ⟨-, rfl⟩ := Prod.mk.inj (Option.some.inj h)
    rw [height]
    split <;> omega

theorem settle_settle (s : σ) (code : Code ι σ μ) : (code.settle s).settle s = code.settle s := by
  induction code with
  | branch c yes no ihy ihn =>
    rw [settle]
    split
    · exact ihy
    · exact ihn
  | _ => rfl

theorem settle_append (s : σ) (code code' : Code ι σ μ) :
    (code.append code').settle s = ((code.settle s).append code').settle s := by
  induction code with
  | branch c yes no ihy ihn =>
    rw [append, settle, settle]
    split
    · exact ihy
    · exact ihn
  | _ => rfl

theorem append_ofList (l : List (Instr ι σ μ)) (rest code : Code ι σ μ) :
    (ofList l rest).append code = ofList l (rest.append code) := by
  induction l with
  | nil => rfl
  | cons i l ih => rw [ofList_cons, append, ih, ofList_cons]

end Code

structure CodeNet (ι σ μ : Type*) where
  code : ι → Code ι σ μ
  st : ι → σ
  chan : Chans ι μ

variable {ι σ μ : Type*} [DecidableEq ι]

def codeStart (code : ι → Code ι σ μ) (init : ι → σ) : CodeNet ι σ μ := ⟨code, init, fun _ _ => []⟩

def codeStep (eager : ι → Nat → Bool) (n : CodeNet ι σ μ) (p : ι) : Option (CodeNet ι σ μ) :=
  match (n.code p).next (n.st p) with
  | none => none
  | some (i, r) => (i.run (eager p r.height) p (n.st p) n.chan).map fun x =>
    ⟨Function.update n.code p r, Function.update n.st p x.1, x.2⟩

def codeSys (eager : ι → Nat → Bool) (code : ι → Code ι σ μ) (init : ι → σ) :
    Sys (CodeNet ι σ μ) ι := ⟨codeStart code init, codeStep eager⟩

section commute

variable {eager : ι → Nat → Bool} {n n' : CodeNet ι σ μ} {p : ι} {s' : σ} {i : Instr ι σ μ}

theorem codeStep_of_next {r : Code ι σ μ} {c : Chans ι μ}
    (hp : (n.code p).next (n.st p) = some (i, r))
    (hi : i.run (eager p r.height) p (n.st p) n.chan = some (s', c)) :
    codeStep eager n p =
      some ⟨Function.update n.code p r, Function.update n.st p s', c⟩ := by
  simp only [codeStep, hp, hi, map_some]

theorem of_codeStep (h : codeStep eager n p = some n') :
    ∃ i r s' c, (n.code p).next (n.st p) = some (i, r) ∧
      i.run (eager p r.height) p (n.st p) n.chan = some (s', c) ∧
      n' = ⟨Function.update n.code p r, Function.update n.st p s', c⟩ := by
  unfold codeStep at h
  split at h
  · cases h
  · next i r hp =>
    obtain ⟨⟨s', c⟩, hi, rfl⟩ := map_eq_some_iff.1 h
    exact ⟨i, r, s', c, hp, hi, rfl⟩

theorem codeSys_commutes (eager : ι → Nat → Bool) (code : ι → Code ι σ μ) (init : ι → σ) :
    (codeSys eager code init).Commutes := by
  intro n p q n₁ n₂ hpq h₁ h₂
  obtain ⟨i, r, s', c₁, hp, hi, rfl⟩ := of_codeStep h₁
  obtain ⟨j, r', t', c₂, hq, hj, rfl⟩ := of_codeStep h₂
  obtain ⟨c, hj', hi'⟩ := run_comm hpq hi hj
  refine ⟨⟨Function.update (Function.update n.code p r) q r',
    Function.update (Function.update n.st p s') q t', c⟩,
    codeStep_of_next (i := j) (r := r') ?_ ?_, ?_⟩
  · simp only [update_of_ne hpq.symm, hq]
  · rw [← hj']
    exact congrArg (fun x => j.run _ q x c₁) (update_of_ne hpq.symm _ _)
  · rw [update_comm hpq, update_comm hpq]
    refine codeStep_of_next (i := i) (r := r) ?_ ?_
    · simp only [update_of_ne hpq, hp]
    · rw [← hi']
      exact congrArg (fun x => i.run _ p x c₂) (update_of_ne hpq _ _)

end commute

/-! ## Running phases -/

namespace Code

/-- A process follows phases: once it has taken its branches, it has the instructions of each phase
before it, and none at the end. -/
def Follows (p : ι) : List (Phase ι σ μ) → (ι → σ) → Code ι σ μ → Prop
  | [], S, code => code.settle (S p) = .done
  | a :: as, S, code => ∃ rest, code.settle (S p) = ofList (a.instrs p) rest ∧
      Follows p as (a.after S) rest

variable {p : ι} {a : Phase ι σ μ} {as bs : List (Phase ι σ μ)} {S S' : ι → σ}
  {code code' : Code ι σ μ}

theorem follows_settle : Follows p as S (code.settle (S p)) ↔ Follows p as S code := by
  cases as with
  | nil => rw [Follows, Follows, settle_settle]
  | cons a as => rw [Follows, Follows, settle_settle]

theorem follows_branch {c : σ → Bool} {yes no : Code ι σ μ}
    (h : Follows p as S (if c (S p) then yes else no)) : Follows p as S (.branch c yes no) := by
  rw [← follows_settle, settle]
  rw [← follows_settle] at h
  split
  · next hc => rwa [if_pos hc] at h
  · next hc => rwa [if_neg hc] at h

theorem follows_idle (h : a.instrs p = []) (hf : Follows p as (a.after S) code) :
    Follows p (a :: as) S code := by
  have hst : a.after S p = S p := by
    obtain ⟨-, hr, hc⟩ := Phase.instrs_eq_nil h
    rw [Phase.after, Phase.received, hc, hr]
    rfl
  refine ⟨code.settle (S p), by rw [h, ofList_nil], ?_⟩
  rw [← hst]
  exact follows_settle.2 hf

theorem follows_cons (hf : Follows p as (a.after S) code) :
    Follows p (a :: as) S (ofList (a.instrs p) code) := by
  cases hi : a.instrs p with
  | nil => exact follows_idle hi hf
  | cons i l => exact ⟨code, by rw [hi]; rfl, hf⟩

theorem follows_ofList (hf : Follows p bs (afterAll as S) code) :
    Follows p (as ++ bs) S (ofList (as.flatMap fun a => a.instrs p) code) := by
  induction as generalizing S with
  | nil => exact hf
  | cons a as ih =>
    rw [flatMap_cons, ofList_append]
    exact follows_cons (ih hf)

theorem follows_append (h : Follows p as S code) (h' : Follows p bs (afterAll as S) code') :
    Follows p (as ++ bs) S (code.append code') := by
  induction as generalizing S code with
  | nil =>
    rw [← follows_settle] at h' ⊢
    rw [nil_append, settle_append, show code.settle (S p) = .done from h]
    exact h'
  | cons a as ih =>
    obtain ⟨rest, hset, hrest⟩ := h
    refine follows_settle.1 ?_
    rw [settle_append, hset, append_ofList]
    exact follows_settle.2 (follows_cons (ih hrest h'))

end Code

section runs

variable {eager : ι → Nat → Bool} {procs : List ι} {phases : List (Phase ι σ μ)}
  {code : ι → Code ι σ μ} {init : ι → σ}

theorem exec_settle {M : Sys (CodeNet ι σ μ) ι} (hM : M.step = codeStep eager) (n : CodeNet ι σ μ)
    (p : ι) : ∃ as, M.exec n as =
      some { n with code := Function.update n.code p ((n.code p).settle (n.st p)) } := by
  generalize hcode : n.code p = code
  induction code generalizing n with
  | branch c yes no ihy ihn =>
    have hstep : codeStep eager n p = some { n with
        code := Function.update n.code p (if c (n.st p) then yes else no) } := by
      rw [codeStep_of_next (by rw [hcode]; rfl) rfl]
      simp only [id_eq, update_eq_self]
    have key : ∃ as, M.exec { n with
        code := Function.update n.code p (if c (n.st p) then yes else no) } as = some { n with
          code := Function.update n.code p ((Code.branch c yes no).settle (n.st p)) } := by
      rw [Code.settle]
      split
      · obtain ⟨as, has⟩ := ihy { n with code := Function.update n.code p yes }
          (update_self ..)
        simp only [update_idem] at has
        exact ⟨as, has⟩
      · obtain ⟨as, has⟩ := ihn { n with code := Function.update n.code p no }
          (update_self ..)
        simp only [update_idem] at has
        exact ⟨as, has⟩
    obtain ⟨as, has⟩ := key
    refine ⟨p :: as, ?_⟩
    rw [Sys.exec, hM, hstep, bind_some, has]
  | done =>
    refine ⟨[], congrArg some ?_⟩
    change n = { n with code := Function.update n.code p .done }
    rw [← hcode, update_eq_self]
  | instr i rest =>
    refine ⟨[], congrArg some ?_⟩
    change n = { n with code := Function.update n.code p (.instr i rest) }
    rw [← hcode, update_eq_self]

theorem exec_settles {M : Sys (CodeNet ι σ μ) ι} (hM : M.step = codeStep eager)
    (n : CodeNet ι σ μ) (l : List ι) : ∃ as, M.exec n as =
      some { n with code := fun p => if p ∈ l then (n.code p).settle (n.st p) else n.code p } := by
  induction l with
  | nil => exact ⟨[], congrArg some (by simp only [not_mem_nil, if_false])⟩
  | cons p l ih =>
    obtain ⟨as, has⟩ := ih
    obtain ⟨bs, hbs⟩ := exec_settle hM
      { n with code := fun p => if p ∈ l then (n.code p).settle (n.st p) else n.code p } p
    refine ⟨as ++ bs, (Sys.exec_trans has hbs).trans (congrArg some ?_)⟩
    congr 1
    funext q
    by_cases hq : q = p
    · subst hq
      rw [update_self, if_pos mem_cons_self]
      by_cases hl : q ∈ l
      · simp only [if_pos hl, Code.settle_settle]
      · simp only [if_neg hl]
    · rw [update_of_ne hq]
      simp only [mem_cons, hq, false_or]

theorem exec_ofList {M : Sys (CodeNet ι σ μ) ι} (hM : M.step = codeStep eager)
    {prog prog' : ι → List (Instr ι σ μ)} {st st' : ι → σ} {chan chan' : Chans ι μ} {as : List ι}
    {N : Sys (Net ι σ μ) ι} (hN : N.step = step fun _ _ => false)
    (h : N.exec ⟨prog, st, chan⟩ as = some ⟨prog', st', chan'⟩) :
    M.exec ⟨fun p => .ofList (prog p) (code p), st, chan⟩ as =
      some ⟨fun p => .ofList (prog' p) (code p), st', chan'⟩ := by
  induction as generalizing prog st chan with
  | nil =>
    cases h
    rfl
  | cons p as ih =>
    rw [Sys.exec, hN] at h
    obtain ⟨n₁, hstep, hrest⟩ := bind_eq_some_iff.1 h
    obtain ⟨i, r, s', c, hp, hi, rfl⟩ := of_step hstep
    have hnext : (Code.ofList (prog p) (code p)).next (st p) = some (i, .ofList r (code p)) := by
      rw [show prog p = i :: r from hp]
      rfl
    have hcode : codeStep eager ⟨fun p => .ofList (prog p) (code p), st, chan⟩ p = _ :=
      codeStep_of_next hnext (run_of_not_eager _ hi)
    have hupd : Function.update (fun p => Code.ofList (prog p) (code p)) p (.ofList r (code p)) =
        fun q => .ofList (Function.update prog p r q) (code q) := by
      funext q
      by_cases hq : q = p
      · subst hq
        rw [update_self, update_self]
      · rw [update_of_ne hq, update_of_ne hq]
    rw [Sys.exec, hM, hcode, bind_some, hupd]
    exact ih hrest

theorem exec_follows {M : Sys (CodeNet ι σ μ) ι} (hM : M.step = codeStep eager)
    (hm : ∀ a ∈ phases, a.Matched) (hnd : procs.Nodup) (hout : ∀ p, p ∉ procs → code p = .done)
    (hf : ∀ p, (code p).Follows p phases init) :
    ∃ as, M.exec ⟨code, init, fun _ _ => []⟩ as =
      some ⟨fun _ => .done, afterAll phases init, fun _ _ => []⟩ := by
  induction phases generalizing code init with
  | nil =>
    obtain ⟨as, has⟩ := exec_settles hM ⟨code, init, fun _ _ => []⟩ procs
    refine ⟨as, has.trans (congrArg some ?_)⟩
    congr 1
    funext p
    by_cases hp : p ∈ procs
    · exact (if_pos hp).trans (hf p)
    · exact (if_neg hp).trans (hout p hp)
  | cons a phases ih =>
    choose rest hrest hfollow using hf
    have hdone : ∀ p, p ∉ procs → a.instrs p = [] ∧ rest p = .done := by
      intro p hp
      have h := hrest p
      rw [hout p hp] at h
      cases hi : a.instrs p with
      | nil =>
        rw [hi] at h
        exact ⟨rfl, h.symm⟩
      | cons i l =>
        rw [hi] at h
        cases h
    obtain ⟨as, has⟩ := exec_settles hM ⟨code, init, fun _ _ => []⟩ procs
    have hset : (fun p => if p ∈ procs then (code p).settle (init p) else code p) =
        fun p => .ofList (a.instrs p) (rest p) := by
      funext p
      by_cases hp : p ∈ procs
      · exact (if_pos hp).trans (hrest p)
      · rw [if_neg hp, hout p hp, (hdone p hp).1, (hdone p hp).2]
        rfl
    simp only [hset] at has
    let N : Sys (Net ι σ μ) ι := ⟨start (fun _ => []) init, step fun _ _ => false⟩
    have hN : N.step = step fun _ _ => false := rfl
    obtain ⟨bs, hbs⟩ : ∃ bs, N.exec ⟨fun p => a.instrs p, init, fun _ _ => []⟩ bs =
        some ⟨fun _ => [], a.after init, fun _ _ => []⟩ :=
      exec_phase hN (hm a mem_cons_self) hnd (fun p hp => (hdone p hp).1)
        (fun p => (append_nil _).symm) rfl
    obtain ⟨cs, hcs⟩ := ih (fun b hb => hm b (mem_cons_of_mem _ hb))
      (fun p hp => (hdone p hp).2) hfollow
    exact ⟨_, Sys.exec_trans has (Sys.exec_trans (exec_ofList hM hN hbs) hcs)⟩

end runs

/-! ## All runs -/

section all

variable {eager : ι → Nat → Bool} {n n' : CodeNet ι σ μ} {phases : List (Phase ι σ μ)}
  {procs : List ι} {code : ι → Code ι σ μ} {init : ι → σ}

theorem exec_height {as : List ι} (h : (codeSys eager code init).exec n as = some n') (p : ι) :
    as.count p + (n'.code p).height ≤ (n.code p).height := by
  induction as generalizing n with
  | nil =>
    cases h
    exact (Nat.zero_add _).le
  | cons q as ih =>
    obtain ⟨n₁, hstep, hrest⟩ := bind_eq_some_iff.1 h
    obtain ⟨i, r, s', c, hq, -, rfl⟩ := of_codeStep hstep
    have := ih hrest
    rw [count_cons]
    by_cases hpq : p = q
    · subst hpq
      have hlt := Code.height_next hq
      simp only [update_self] at this
      rw [beq_self_eq_true, if_pos rfl]
      omega
    · simp only [update_of_ne hpq] at this
      rw [if_neg (by simpa using Ne.symm hpq)]
      exact this

theorem codeStep_of_done (h : ∀ p, n.code p = .done) (p : ι) :
    (codeSys eager code init).step n p = none := by
  show codeStep eager n p = none
  rw [codeStep, h p]
  rfl

/-- Whatever the pace of the processes and whichever messages need not be waited for: a process
takes no more steps than its program is high; as long as a program is not at its end, some process
can go on; and when all are at their ends, all messages have been taken, and the states are as they
should be. -/
structure CodeComputes (code : ι → Code ι σ μ) (init : ι → σ) (P : (ι → σ) → Prop) : Prop where
  bounded : ∀ eager as n, (codeSys eager code init).exec (codeStart code init) as = some n →
    ∀ p, as.count p ≤ (code p).height
  progress : ∀ eager n, (codeSys eager code init).Reach n → (∃ p, n.code p ≠ .done) →
    ∃ p n', (codeSys eager code init).step n p = some n'
  final : ∀ eager n, (codeSys eager code init).Reach n → (∀ p, n.code p = .done) →
    (∀ p q, n.chan p q = []) ∧ P n.st

theorem codeComputes_iff {P : (ι → σ) → Prop} (hm : ∀ a ∈ phases, a.Matched) (hnd : procs.Nodup)
    (hout : ∀ p, p ∉ procs → code p = .done) (hf : ∀ p, (code p).Follows p phases init) :
    CodeComputes code init P ↔ P (afterAll phases init) := by
  have hrun : ∀ eager, ∃ as, (codeSys eager code init).exec (codeStart code init) as =
      some ⟨fun _ => .done, afterAll phases init, fun _ _ => []⟩ := fun eager =>
    exec_follows rfl hm hnd hout hf
  constructor
  · intro h
    obtain ⟨as, has⟩ := hrun fun _ _ => true
    exact (h.final (fun _ _ => true) _ (Sys.exec_reach .init has) fun _ => rfl).2
  · intro hP
    have hends : ∀ eager n, (codeSys eager code init).Reach n →
        n = ⟨fun _ => .done, afterAll phases init, fun _ _ => []⟩ ∨
          ∃ p n', (codeSys eager code init).step n p = some n' := by
      intro eager n hn
      obtain ⟨as, has⟩ := hrun eager
      exact (codeSys_commutes eager code init).ends (codeStep_of_done fun _ => rfl) has hn
    refine ⟨fun eager as n he p => ?_, fun eager n hn hopen => ?_, fun eager n hn hdone => ?_⟩
    · have := exec_height he p
      exact (Nat.le_add_right _ _).trans this
    · rcases hends eager n hn with rfl | h
      · obtain ⟨p, hp⟩ := hopen
        exact absurd rfl hp
      · exact h
    · rcases hends eager n hn with rfl | ⟨p, n', hstep⟩
      · exact ⟨fun _ _ => rfl, hP⟩
      · rw [codeStep_of_done hdone] at hstep
        cases hstep

end all

end PsMpi.Lib.Network
