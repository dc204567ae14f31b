import Mathlib.Logic.Relation
import Mathlib.Data.List.Nodup

/-!
# Runs of a graph of tasks
-/

open List

namespace PsMpi.Lib.Tasks

variable {α : Type*}

inductive Ev (α : Type*) where
  | issue (a : α)
  | complete (a : α)
deriving DecidableEq

def Before (log : List (Ev α)) (e e' : Ev α) : Prop :=
  ∀ pre post, log = pre ++ e' :: post → e ∈ pre

structure Sound (edge : α → α → Prop) (log : List (Ev α)) : Prop where
  nodup : log.Nodup
  order : ∀ u v, edge u v → Before log (.complete u) (.issue v)
  issued : ∀ v, Before log (.issue v) (.complete v)

variable {edge edge' : α → α → Prop} {log : List (Ev α)} {u v : α} {e e' : Ev α}

theorem Before.of_notMem (h : e' ∉ log) : Before log e e' := by
  rintro pre post rfl
  exact absurd (mem_append_right pre mem_cons_self) h

theorem Before.concat {x : Ev α} (h : Before log e e') (hx : x = e' → e ∈ log) :
    Before (log ++ [x]) e e' := by
  intro pre post heq
  rcases eq_nil_or_concat post with rfl | ⟨post, y, rfl⟩
  · obtain ⟨rfl, hlast⟩ := append_inj' heq rfl
    exact hx (List.cons.inj hlast).1
  · have heq : log ++ [x] = (pre ++ e' :: post) ++ [y] := by simpa using heq
    obtain ⟨rfl, -⟩ := append_inj' heq rfl
    exact h pre post rfl

theorem Before.mem (h : Before log e e') (he : e' ∈ log) : e ∈ log := by
  obtain ⟨pre, post, rfl⟩ := append_of_mem he
  exact mem_append_left _ (h pre post rfl)

theorem Before.initial {pre post : List (Ev α)} (h : Before (pre ++ post) e e') :
    Before pre e e' := by
  rintro p q rfl
  exact h p (q ++ post) (by simp)

namespace Sound

theorem nil : Sound edge [] :=
  ⟨.nil, fun _ _ _ => .of_notMem not_mem_nil, fun _ => .of_notMem not_mem_nil⟩

theorem issue (h : Sound edge log) (hnew : Ev.issue v ∉ log)
    (hdone : ∀ u, edge u v → Ev.complete u ∈ log) : Sound edge (log ++ [Ev.issue v]) := by
  refine ⟨?_, fun u w huw => ?_, fun w => (h.issued w).concat nofun⟩
  · refine nodup_append.2 ⟨h.nodup, nodup_singleton _, fun a ha b hb => ?_⟩
    rw [mem_singleton.1 hb]
    rintro rfl
    exact hnew ha
  · refine (h.order u w huw).concat fun heq => ?_
    obtain rfl : v = w := Ev.issue.inj heq
    exact hdone u huw

theorem complete (h : Sound edge log) (hissued : Ev.issue v ∈ log) (hnew : Ev.complete v ∉ log) :
    Sound edge (log ++ [Ev.complete v]) := by
  refine ⟨?_, fun u w huw => (h.order u w huw).concat nofun, fun w => ?_⟩
  · refine nodup_append.2 ⟨h.nodup, nodup_singleton _, fun a ha b hb => ?_⟩
    rw [mem_singleton.1 hb]
    rintro rfl
    exact hnew ha
  · refine (h.issued w).concat fun heq => ?_
    obtain rfl : v = w := Ev.complete.inj heq
    exact hissued

theorem ancestor (h : Sound edge log) (hanc : Relation.TransGen edge u v) :
    Before log (.complete u) (.issue v) := by
  induction hanc with
  | single huv => exact h.order _ _ huv
  | @tail w v _ hwv ih =>
    -- `w` is complete before `v` is issued, and was issued after `u` was complete
    rintro pre post rfl
    have hw := h.order w v hwv pre post rfl
    have hissue : Ev.issue w ∈ pre := (h.issued w).initial.mem hw
    exact ih.initial.mem hissue

end Sound

end PsMpi.Lib.Tasks
