import Mathlib.Data.List.Induction

/-!
# Executable transition systems

A system is an initial state and a partial step function on labels.
-/

open List Option

namespace PsMpi.Lib

/-- An initial state and a step function that is undefined on the labels that are not enabled. -/
structure Sys (S : Type*) (A : Type*) where
  init : S
  step : S → A → Option S

namespace Sys

variable {S A : Type*}

inductive ReachWhen (M : Sys S A) (C : S → A → Prop) : S → Prop
  | init : ReachWhen M C M.init
  | step {s s' : S} {a : A} :
      ReachWhen M C s → C s a → M.step s a = some s' → ReachWhen M C s'

def Reach (M : Sys S A) : S → Prop := ReachWhen M fun _ _ => True

def exec (M : Sys S A) : S → List A → Option S
  | s, [] => some s
  | s, a :: as => (M.step s a).bind fun s' => exec M s' as

variable {M : Sys S A} {C : S → A → Prop} {s s' : S}

theorem ReachWhen.inv {I : S → Prop} (h₀ : I M.init)
    (hs : ∀ {s a s'}, ReachWhen M C s → I s → C s a → M.step s a = some s' → I s')
    (h : ReachWhen M C s) : I s := by
  induction h with
  | init => exact h₀
  | step hr hc hst ih => exact hs hr ih hc hst

theorem ReachWhen.reach (h : ReachWhen M C s) : Reach M s := by
  induction h with
  | init => exact .init
  | step _ _ hst ih => exact .step ih trivial hst

theorem Reach.inv {I : S → Prop} (h₀ : I M.init)
    (hs : ∀ {s a s'}, I s → M.step s a = some s' → I s') (h : Reach M s) : I s :=
  ReachWhen.inv h₀ (fun _ hi _ hst => hs hi hst) h

/-- A property of a state and a label holds at every step of the run of a list of labels. -/
def Along (M : Sys S A) (P : S → A → Prop) (as : List A) : Prop :=
  ∀ pre a s, pre ++ [a] <+: as → M.exec M.init pre = some s → P s a

/-- A property of states holds in every state that the run of a list of labels goes through. -/
def AlongStates (M : Sys S A) (P : S → Prop) (as : List A) : Prop :=
  ∀ pre s, pre <+: as → M.exec M.init pre = some s → P s

def checked (M : Sys S A) (C : S → A → Prop) [∀ s a, Decidable (C s a)] : Sys S A :=
  ⟨M.init, fun s a => if C s a then M.step s a else none⟩

theorem exec_append {s s'' : S} {as : List A} {a : A} :
    M.exec s (as ++ [a]) = some s'' ↔ ∃ s', M.exec s as = some s' ∧ M.step s' a = some s'' := by
  induction as generalizing s with
  | nil => simp [exec]
  | cons b as ih =>
    simp only [cons_append, exec, bind_eq_some_iff, ih]
    constructor
    · rintro ⟨s₁, h1, s', h2, h3⟩
      exact ⟨s', ⟨s₁, h1, h2⟩, h3⟩
    · rintro ⟨s', ⟨s₁, h1, h2⟩, h3⟩
      exact ⟨s₁, h1, s', h2, h3⟩

theorem exec_reachWhen {as bs : List A} (hr : ReachWhen M C s) (he : M.exec M.init bs = some s)
    (hc : Along M C (bs ++ as)) (h : M.exec s as = some s') : ReachWhen M C s' := by
  induction as generalizing s bs with
  | nil => cases h; exact hr
  | cons a as ih =>
    obtain ⟨s₁, h1, h2⟩ := bind_eq_some_iff.1 h
    have hp : bs ++ [a] <+: bs ++ a :: as := ⟨as, by simp⟩
    exact ih (.step hr (hc bs a s hp he) h1) (exec_append.2 ⟨s, he, h1⟩) (by simpa using hc) h2

theorem alongStates_of_reachWhen {P : S → Prop} {as : List A}
    (hP : ∀ {s}, ReachWhen M C s → P s) (hc : Along M C as) : AlongStates M P as := by
  intro pre s hpre he
  refine hP (@exec_reachWhen _ _ M C _ _ pre [] .init rfl ?_ he)
  exact fun p a s hp hs => hc p a s (hp.trans hpre) hs

theorem along_of_along {P : S → A → Prop} {as : List A} (he : M.exec M.init as = some s)
    (hP : Along M P as)
    (hstep : ∀ {s a s'}, ReachWhen M C s → P s a → M.step s a = some s' → C s a) :
    Along M C as := by
  induction as using List.reverseRecOn generalizing s with
  | nil =>
    intro pre a s hpre
    simp at hpre
  | append_singleton bs b ih =>
    obtain ⟨t, ht, hb⟩ := exec_append.1 he
    have hC : Along M C bs :=
      ih ht fun pre a s hpre => hP pre a s (hpre.trans (prefix_append bs [b]))
    intro pre a s hpre hs
    rcases prefix_concat_iff.1 hpre with heq | hpre
    · obtain ⟨rfl, hab⟩ := append_inj' heq rfl
      obtain rfl : a = b := by simpa using hab
      obtain rfl : t = s := Option.some.inj (ht.symm.trans hs)
      exact hstep (@exec_reachWhen _ _ M C _ _ pre [] .init rfl hC ht) (hP pre a t hpre ht) hb
    · exact hC pre a s hpre hs

theorem checked_along [∀ s a, Decidable (C s a)] {as : List A}
    (h : (M.checked C).exec M.init as = some s) : M.exec M.init as = some s ∧ M.Along C as := by
  induction as using List.reverseRecOn generalizing s with
  | nil =>
    refine ⟨h, fun pre a s hpre => ?_⟩
    simp at hpre
  | append_singleton bs b ih =>
    obtain ⟨t, ht, hb⟩ := exec_append.1 h
    obtain ⟨hbs, hC⟩ := ih ht
    obtain ⟨hc, hst⟩ := ite_none_right_eq_some.1 hb
    refine ⟨exec_append.2 ⟨t, hbs, hst⟩, fun pre a s' hpre hs' => ?_⟩
    rcases prefix_concat_iff.1 hpre with heq | hpre
    · obtain ⟨rfl, hab⟩ := append_inj' heq rfl
      obtain rfl : a = b := by simpa using hab
      obtain rfl : t = s' := Option.some.inj (hbs.symm.trans hs')
      exact hc
    · exact hC pre a s' hpre hs'

theorem exec_length_add_le {μ : S → Nat} (hμ : ∀ {s a s'}, M.step s a = some s' → μ s' < μ s)
    {as : List A} (he : M.exec s as = some s') : as.length + μ s' ≤ μ s := by
  induction as generalizing s with
  | nil => cases he; simp
  | cons a as ih =>
    obtain ⟨s₁, h1, h2⟩ := bind_eq_some_iff.1 he
    have hlt := hμ h1
    have hle := ih h2
    rw [length_cons]
    omega

theorem exec_reach {as : List A} (h : Reach M s) (he : M.exec s as = some s') : Reach M s' := by
  induction as generalizing s with
  | nil => cases he; exact h
  | cons a as ih =>
    obtain ⟨s₁, h1, h2⟩ := bind_eq_some_iff.1 he
    exact ih (.step h trivial h1) h2

end Sys

end PsMpi.Lib
