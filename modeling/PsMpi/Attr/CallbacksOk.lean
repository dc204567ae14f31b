import PsMpi.Attr.Callbacks
import Mathlib.Data.List.Perm.Basic
import Mathlib.Data.List.Nodup
import Mathlib.Order.Nat

/-!
# Delete callbacks that leave what is being deleted
-/

open List Option

namespace PsMpi.Attr

variable {V : Type} {kind : Kind} {hasDelete : Int → Bool} {m m' : Mem V} {e p : Entry V}
  {l l₁ l₂ : List (Entry V)} {cb : Mem V → Res V (Mem V × Bool)} {o : Op V}

/-! ## Consistent lists -/

/-- No entry of the list has been freed, and it has the values that have been stored and have not
been removed; and no value has been removed twice. -/
structure Consistent (m : Mem V) : Prop where
  addrs_nodup : (m.chain.map Entry.addr).Nodup
  addrs_lt : ∀ e ∈ m.chain, e.addr < m.addrs
  live : ∀ e ∈ m.chain, e.addr ∉ m.freed
  freed_lt : ∀ a ∈ m.freed, a < m.addrs
  insts_nodup : (m.chain.map Entry.inst).Nodup
  insts : ∀ i, i ∈ m.chain.map Entry.inst ↔ i < m.insts ∧ i ∉ m.removed
  removed_nodup : m.removed.Nodup
  removed_lt : ∀ i ∈ m.removed, i < m.insts

def Good : Res V (Mem V × Bool) → Prop
  | .fault => False
  | .halted m => Consistent m
  | .ok x => Consistent x.1

def Bad : Res V (Mem V × Bool) → Prop
  | .fault => True
  | .halted m => ¬ m.removed.Nodup
  | .ok x => ¬ x.1.removed.Nodup

theorem Good.not_bad {r : Res V (Mem V × Bool)} (h : Good r) : ¬ Bad r := by
  cases r with
  | fault => exact h.elim
  | halted m => exact fun hb => hb h.removed_nodup
  | ok x => exact fun hb => hb h.removed_nodup

structure Later (m m' : Mem V) : Prop where
  insts : m.insts ≤ m'.insts
  removed : m.removed <+: m'.removed
  old : ∀ e ∈ m'.chain, e.inst < m.insts → e ∈ m.chain

theorem Later.refl (m : Mem V) : Later m m := ⟨le_rfl, prefix_rfl, fun _ h _ => h⟩

theorem Later.trans {m'' : Mem V} (h : Later m m') (h' : Later m' m'') : Later m m'' where
  insts := h.insts.trans h'.insts
  removed := h.removed.trans h'.removed
  old := fun e he hlt => h.old e (h'.old e he (hlt.trans_le h.insts)) hlt

theorem Later.not_nodup (h : Later m m') (hnot : ¬ m.removed.Nodup) : ¬ m'.removed.Nodup :=
  fun hnd => hnot (hnd.sublist h.removed.sublist)

def After (m : Mem V) : Res V (Mem V × Bool) → Prop
  | .fault => True
  | .halted m' => Later m m'
  | .ok x => Later m x.1

/-! ## Pieces of the traversals -/

section pieces

variable {freed : List Nat} {a : Nat} {stop : Entry V → Bool}

theorem walk_eq (h : ∀ e ∈ l, e.addr ∉ freed) : walk freed stop l = .ok (l.find? stop) := by
  induction l with
  | nil => rfl
  | cons e l ih =>
    rw [walk, if_neg (h e mem_cons_self), List.find?_cons]
    cases hs : stop e with
    | true => rfl
    | false => exact ih fun e he => h e (mem_cons_of_mem _ he)

theorem walk_cases (freed : List Nat) (stop : Entry V → Bool) (l : List (Entry V)) :
    walk freed stop l = .fault ∨ walk freed stop l = .ok (l.find? stop) := by
  induction l with
  | nil => exact .inr rfl
  | cons e l ih =>
    rw [walk, List.find?_cons]
    split
    · exact .inl rfl
    · cases hs : stop e with
      | true => exact .inr rfl
      | false => exact ih

theorem deleteEntry_eq (hlive : ∀ e ∈ l₁ ++ p :: l₂, e.addr ∉ freed)
    (hne : ∀ e ∈ l₁, e.addr ≠ p.addr) :
    deleteEntry freed p.addr (l₁ ++ p :: l₂) = .ok (l₁ ++ l₂) := by
  induction l₁ with
  | nil => rw [nil_append, deleteEntry, if_neg (hlive p mem_cons_self), if_pos rfl]; rfl
  | cons e l₁ ih =>
    rw [cons_append, deleteEntry, if_neg (hlive e mem_cons_self),
      if_neg (hne e mem_cons_self),
      ih (fun e he => hlive e (mem_cons_of_mem _ he))
        fun e he => hne e (mem_cons_of_mem _ he)]
    rfl

theorem deleteEntry_sub {l' : List (Entry V)} (h : deleteEntry freed a l = .ok l') :
    ∀ e ∈ l', e ∈ l := by
  induction l generalizing l' with
  | nil =>
    cases h
    exact fun e he => he
  | cons e l ih =>
    rw [deleteEntry] at h
    split at h
    · cases h
    · split at h
      · cases h
        exact fun e he => mem_cons_of_mem _ he
      · cases hr : deleteEntry freed a l with
        | fault => rw [hr] at h; cases h
        | halted _ => rw [hr] at h; cases h
        | ok l'' =>
          rw [hr] at h
          cases h
          intro e' he'
          rcases mem_cons.1 he' with rfl | he'
          · exact mem_cons_self
          · exact mem_cons_of_mem _ (ih hr e' he')

theorem deleteEntry_ne_halted (l : List (Entry V)) : deleteEntry freed a l ≠ .halted m := by
  induction l with
  | nil => exact nofun
  | cons e l ih =>
    rw [deleteEntry]
    split
    · exact nofun
    · split
      · exact nofun
      · cases hr : deleteEntry freed a l with
        | halted m' => exact fun h => ih (by rw [hr]; exact h)
        | fault | ok l' => exact nofun

theorem writeValue_eq {v : V} {i : Nat} (hne : ∀ e ∈ l₁ ++ l₂, e.addr ≠ p.addr) :
    writeValue p.addr v i (l₁ ++ p :: l₂) = l₁ ++ { p with value := v, inst := i } :: l₂ := by
  have hsame : ∀ l' : List (Entry V), (∀ e ∈ l', e.addr ≠ p.addr) →
      writeValue p.addr v i l' = l' := fun l' h => by
    refine (map_congr_left fun e he => if_neg (h e he)).trans (map_id' l')
  have hp : writeValue p.addr v i [p] = [{ p with value := v, inst := i }] := by
    rw [writeValue, map_singleton, if_pos rfl]
  have happ : ∀ x y : List (Entry V), writeValue p.addr v i (x ++ y) =
      writeValue p.addr v i x ++ writeValue p.addr v i y := fun x y => map_append
  rw [happ, ← singleton_append, happ, hp,
    hsame _ fun e he => hne e (mem_append_left _ he),
    hsame _ fun e he => hne e (mem_append_right _ he), singleton_append]

theorem mem_insertAfter {q : Entry V} (h : q ∈ insertAfter a e l) : q = e ∨ q ∈ l := by
  induction l with
  | nil => cases h
  | cons p l ih =>
    rw [insertAfter] at h
    split at h
    · simp only [mem_cons] at h ⊢
      rcases h with h | h | h
      · exact .inr (.inl h)
      · exact .inl h
      · exact .inr (.inr h)
    · rcases mem_cons.1 h with h | h
      · exact .inr (mem_cons.2 (.inl h))
      · exact (ih h).imp id (mem_cons_of_mem p)

theorem insertAfter_perm {q : Entry V} (h : q ∈ l) : (insertAfter q.addr e l).Perm (e :: l) := by
  induction l with
  | nil => cases h
  | cons p l ih =>
    rw [insertAfter]
    split
    · exact .swap e p l
    · next hne =>
      rcases mem_cons.1 h with rfl | h
      · exact absurd rfl hne
      · exact (List.Perm.cons p (ih h)).trans (.swap e p l)

end pieces

/-! ## Steps -/

namespace Consistent

theorem eq_of_inst (h : Consistent m) (he : e ∈ m.chain) (hp : p ∈ m.chain)
    (heq : e.inst = p.inst) : e = p :=
  inj_on_of_nodup_map h.insts_nodup he hp heq

theorem inst_lt (h : Consistent m) (he : e ∈ m.chain) : e.inst < m.insts :=
  ((h.insts e.inst).1 (mem_map_of_mem he)).1

theorem add (h : Consistent m) {k : Int} {v : V} {chain : List (Entry V)}
    (hperm : chain.Perm (⟨m.addrs, k, v, m.insts⟩ :: m.chain)) :
    Consistent { m with chain, addrs := m.addrs + 1, insts := m.insts + 1 } := by
  have hmem : ∀ e, e ∈ chain ↔ e = ⟨m.addrs, k, v, m.insts⟩ ∨ e ∈ m.chain := fun e => by
    rw [hperm.mem_iff, mem_cons]
  constructor
  · refine (hperm.map Entry.addr).nodup_iff.2 (nodup_cons.2 ⟨fun hin => ?_, h.addrs_nodup⟩)
    obtain ⟨e, he, heq⟩ := mem_map.1 hin
    have := h.addrs_lt e he
    simp only at heq
    omega
  · intro e he
    rcases (hmem e).1 he with rfl | he
    · exact Nat.lt_succ_self _
    · exact Nat.lt_succ_of_lt (h.addrs_lt e he)
  · intro e he
    rcases (hmem e).1 he with rfl | he
    · exact fun hf => Nat.lt_irrefl _ (h.freed_lt _ hf)
    · exact h.live e he
  · exact fun a ha => Nat.lt_succ_of_lt (h.freed_lt a ha)
  · refine (hperm.map Entry.inst).nodup_iff.2 (nodup_cons.2 ⟨fun hin => ?_, h.insts_nodup⟩)
    exact Nat.lt_irrefl _ ((h.insts _).1 hin).1
  · intro i
    rw [(hperm.map Entry.inst).mem_iff, map_cons, mem_cons, h.insts]
    constructor
    · rintro (rfl | ⟨hlt, hnot⟩)
      · exact ⟨Nat.lt_succ_self _, fun hin => Nat.lt_irrefl _ (h.removed_lt _ hin)⟩
      · exact ⟨Nat.lt_succ_of_lt hlt, hnot⟩
    · rintro ⟨hlt, hnot⟩
      rcases Nat.lt_succ_iff_lt_or_eq.1 hlt with hlt | rfl
      · exact .inr ⟨hlt, hnot⟩
      · exact .inl rfl
  · exact h.removed_nodup
  · exact fun i hi => Nat.lt_succ_of_lt (h.removed_lt i hi)

theorem split (h : Consistent m) (hc : m.chain = l₁ ++ p :: l₂) :
    (∀ e ∈ l₁ ++ l₂, e.addr ≠ p.addr) ∧ ((l₁ ++ l₂).map Entry.addr).Nodup ∧
      ((l₁ ++ l₂).map Entry.inst).Nodup ∧ p.inst < m.insts ∧ p.inst ∉ m.removed ∧
      ∀ i, i ∈ (l₁ ++ l₂).map Entry.inst ↔ i < m.insts ∧ i ∉ m.removed ∧ i ≠ p.inst := by
  have hperm : m.chain.Perm (p :: (l₁ ++ l₂)) := hc ▸ perm_middle
  have haddr := (hperm.map Entry.addr).nodup_iff.1 h.addrs_nodup
  have hinst := (hperm.map Entry.inst).nodup_iff.1 h.insts_nodup
  rw [map_cons, nodup_cons] at haddr hinst
  have hp := (h.insts p.inst).1 ((hperm.map Entry.inst).mem_iff.2 mem_cons_self)
  refine ⟨fun e he heq => haddr.1 (heq ▸ mem_map_of_mem he), haddr.2, hinst.2, hp.1, hp.2,
    fun i => ?_⟩
  have hi := h.insts i
  rw [(hperm.map Entry.inst).mem_iff, map_cons, mem_cons] at hi
  constructor
  · intro hin
    have := hi.1 (.inr hin)
    exact ⟨this.1, this.2, fun heq => hinst.1 (heq ▸ hin)⟩
  · rintro ⟨hlt, hnot, hne⟩
    exact (hi.2 ⟨hlt, hnot⟩).resolve_left hne

theorem removed_snoc (h : Consistent m) (hnot : p.inst ∉ m.removed) :
    (m.removed ++ [p.inst]).Nodup :=
  nodup_append.2 ⟨h.removed_nodup, nodup_singleton _, fun a ha b hb heq =>
    hnot (by rwa [← mem_singleton.1 hb, ← heq])⟩

theorem drop (h : Consistent m) (hc : m.chain = l₁ ++ p :: l₂) :
    Consistent { m with
      chain := l₁ ++ l₂, freed := p.addr :: m.freed, removed := m.removed ++ [p.inst] } := by
  obtain ⟨hne, haddr, hinst, hlt, hnot, hinsts⟩ := h.split hc
  have hsub : ∀ e ∈ l₁ ++ l₂, e ∈ m.chain := fun e he => by
    rw [hc]
    exact (sublist_cons_self p l₂).append_left l₁ |>.subset he
  refine ⟨haddr, fun e he => h.addrs_lt e (hsub e he), fun e he hf => ?_, fun a ha => ?_, hinst,
    fun i => ?_, h.removed_snoc hnot, fun i hi => ?_⟩
  · rcases mem_cons.1 hf with hf | hf
    · exact hne e he hf
    · exact h.live e (hsub e he) hf
  · rcases mem_cons.1 ha with rfl | ha
    · exact h.addrs_lt p (hc ▸ mem_append_right _ mem_cons_self)
    · exact h.freed_lt a ha
  · rw [hinsts, mem_append, mem_singleton, not_or]
  · rcases mem_append.1 hi with hi | hi
    · exact h.removed_lt i hi
    · rwa [mem_singleton.1 hi]

theorem write (h : Consistent m) (hc : m.chain = l₁ ++ p :: l₂) (v : V) :
    Consistent { m with
      chain := l₁ ++ { p with value := v, inst := m.insts } :: l₂
      insts := m.insts + 1
      removed := m.removed ++ [p.inst] } := by
  obtain ⟨hne, haddr, hinst, hlt, hnot, hinsts⟩ := h.split hc
  have hp : p ∈ m.chain := hc ▸ mem_append_right _ mem_cons_self
  have haddrs : (l₁ ++ { p with value := v, inst := m.insts } :: l₂).map Entry.addr =
      m.chain.map Entry.addr := by
    rw [hc, map_append, map_append, map_cons, map_cons]
  have hmem : ∀ e ∈ l₁ ++ { p with value := v, inst := m.insts } :: l₂,
      e.addr ∈ m.chain.map Entry.addr := fun e he => haddrs ▸ mem_map_of_mem he
  have hperm : (l₁ ++ { p with value := v, inst := m.insts } :: l₂).Perm
      ({ p with value := v, inst := m.insts } :: (l₁ ++ l₂)) := perm_middle
  refine ⟨haddrs ▸ h.addrs_nodup, fun e he => ?_, fun e he => ?_, h.freed_lt, ?_, fun i => ?_,
    h.removed_snoc hnot, fun i hi => ?_⟩
  · obtain ⟨q, hq, heq⟩ := mem_map.1 (hmem e he)
    exact heq ▸ h.addrs_lt q hq
  · obtain ⟨q, hq, heq⟩ := mem_map.1 (hmem e he)
    exact heq ▸ h.live q hq
  · refine (hperm.map Entry.inst).nodup_iff.2 (nodup_cons.2 ⟨fun hin => ?_, hinst⟩)
    exact Nat.lt_irrefl _ ((hinsts _).1 hin).1
  · rw [(hperm.map Entry.inst).mem_iff, map_cons, mem_cons, hinsts, mem_append,
      mem_singleton, not_or]
    constructor
    · rintro (rfl | ⟨hi, hr, hne⟩)
      · exact ⟨Nat.lt_succ_self _, fun hin => Nat.lt_irrefl _ (h.removed_lt _ hin), hlt.ne'⟩
      · exact ⟨Nat.lt_succ_of_lt hi, hr, hne⟩
    · rintro ⟨hi, hr, hne⟩
      rcases Nat.lt_succ_iff_lt_or_eq.1 hi with hi | rfl
      · exact .inr ⟨hi, hr, hne⟩
      · exact .inl rfl
  · rcases mem_append.1 hi with hi | hi
    · exact Nat.lt_succ_of_lt (h.removed_lt i hi)
    · rw [mem_singleton.1 hi]
      exact Nat.lt_succ_of_lt hlt

end Consistent

/-! ## Operations -/

def target (kind : Kind) (o : Op V) (m : Mem V) : Option (Entry V) :=
  match o with
  | .delete h => m.chain.find? fun e => e.keyval == h
  | .set h _ => (m.chain.find? (stopsAt kind h)).filter fun p => p.keyval == h

/-- The callback of the entry that is found does no harm, and when it returns with success, the
value that it has been called for is still in the list. -/
def SafeOp (kind : Kind) (hasDelete : Int → Bool) (safe : Mem V → Prop)
    (cb : Mem V → Res V (Mem V × Bool)) (o : Op V) (m : Mem V) : Prop :=
  ∀ p, target kind o m = some p → hasDelete p.keyval = true →
    safe m ∧ ∀ m', cb m = .ok (m', true) → ∃ e ∈ m'.chain, e.inst = p.inst

def Beh.Safe (kind : Kind) (hasDelete : Int → Bool) : Beh V → Mem V → Prop
  | .done _, _ => True
  | .cut, _ => True
  | .op o inner rest, m =>
    SafeOp kind hasDelete (fun m => inner.Safe kind hasDelete m)
      (fun m => inner.run kind hasDelete m) o m ∧
    ∀ x, runOp kind hasDelete (fun m => inner.run kind hasDelete m) o m = .ok x →
      rest.Safe kind hasDelete x.1

def finish (o : Op V) (p : Entry V) (m : Mem V) : Res V (Mem V × Bool) :=
  match o with
  | .delete _ => (deleteEntry m.freed p.addr m.chain).bind fun chain =>
      .ok ({ m with chain, freed := p.addr :: m.freed, removed := m.removed ++ [p.inst] }, true)
  | .set _ v =>
    if p.addr ∈ m.freed then .fault
    else .ok ({ m with
      chain := writeValue p.addr v m.insts m.chain
      insts := m.insts + 1
      removed := m.removed ++ [p.inst] }, true)

section ops

theorem runOp_eq (h : Consistent m) : (∃ m', runOp kind hasDelete cb o m = .ok (m', true) ∧
      target kind o m = none ∧ Consistent m' ∧ Later m m') ∨
    ∃ p, target kind o m = some p ∧ p ∈ m.chain ∧ runOp kind hasDelete cb o m =
      (callAttrDelete hasDelete cb p m).bind fun x =>
        if x.2 then finish o p x.1 else .ok (x.1, false) := by
  cases o with
  | delete k =>
    simp only [runOp, deleteAttrMem, walk_eq h.live, target]
    cases hf : m.chain.find? fun e => e.keyval == k with
    | none => exact .inl ⟨m, rfl, rfl, h, .refl m⟩
    | some p => exact .inr ⟨p, rfl, mem_of_find?_eq_some hf, rfl⟩
  | set k v =>
    simp only [runOp, setAttrMem, walk_eq h.live, target, Res.bind]
    cases hf : (m.chain.find? (stopsAt kind k)).filter fun p => p.keyval == k with
    | some p =>
      obtain ⟨q, hq, hp⟩ : ∃ q, m.chain.find? (stopsAt kind k) = some q ∧ q = p := by
        cases hs : m.chain.find? (stopsAt kind k) with
        | none => rw [hs] at hf; cases hf
        | some q =>
          rw [hs, filter_some] at hf
          split at hf
          · exact ⟨q, rfl, Option.some.inj hf⟩
          · cases hf
      exact .inr ⟨p, rfl, hp ▸ mem_of_find?_eq_some hq, rfl⟩
    | none =>
      have hperm : (addEntry kind (m.chain.find? (stopsAt kind k)) k v m).chain.Perm
          (⟨m.addrs, k, v, m.insts⟩ :: m.chain) := by
        cases kind with
        | comm => exact .refl _
        | type | win =>
          cases hs : m.chain.find? (stopsAt _ k) with
          | none => exact perm_append_singleton _ _
          | some q => exact insertAfter_perm (mem_of_find?_eq_some hs)
      refine .inl ⟨_, rfl, rfl, h.add hperm, Nat.le_succ _, prefix_rfl, fun e he hlt => ?_⟩
      rcases mem_cons.1 (hperm.mem_iff.1 he) with rfl | he
      · exact absurd hlt (Nat.lt_irrefl _)
      · exact he

theorem finish_later : After m (finish o p m) := by
  cases o with
  | delete k =>
    simp only [finish]
    cases hd : deleteEntry m.freed p.addr m.chain with
    | fault => exact trivial
    | halted m' => exact absurd hd (deleteEntry_ne_halted _)
    | ok l' => exact ⟨le_rfl, prefix_append _ _, fun e he _ => deleteEntry_sub hd e he⟩
  | set k v =>
    simp only [finish]
    split
    · exact trivial
    · refine ⟨Nat.le_succ _, prefix_append _ _, fun e he hlt => ?_⟩
      obtain ⟨q, hq, rfl⟩ := mem_map.1 he
      split at hlt
      · exact absurd hlt (Nat.lt_irrefl _)
      · next hne => rwa [if_neg hne]

theorem finish_removed {x : Mem V × Bool} (h : finish o p m = .ok x) :
    x.1.removed = m.removed ++ [p.inst] := by
  cases o with
  | delete k =>
    simp only [finish] at h
    cases hd : deleteEntry m.freed p.addr m.chain with
    | fault => rw [hd] at h; cases h
    | halted m' => rw [hd] at h; cases h
    | ok l' => rw [hd] at h; cases h; rfl
  | set k v =>
    simp only [finish] at h
    split at h
    · cases h
    · cases h; rfl

theorem finish_ne_halted : finish o p m ≠ .halted m' := by
  cases o with
  | delete k =>
    simp only [finish]
    cases hd : deleteEntry m.freed p.addr m.chain with
    | halted m' => exact absurd hd (deleteEntry_ne_halted _)
    | fault | ok l' => exact nofun
  | set k v =>
    simp only [finish]
    split <;> exact nofun

theorem finish_good (h : Consistent m) (hp : p ∈ m.chain) : Good (finish o p m) := by
  obtain ⟨l₁, l₂, hc⟩ := append_of_mem hp
  have hne := (h.split hc).1
  cases o with
  | delete k =>
    have hd := deleteEntry_eq (fun e he => h.live e (hc ▸ he))
      fun e he => hne e (mem_append_left _ he)
    simp only [finish, hc, hd]
    exact h.drop hc
  | set k v =>
    simp only [finish, if_neg (h.live p hp), hc, writeValue_eq hne]
    exact h.write hc v

end ops

/-! ## Runs -/

section runs

theorem later_callAttrDelete (h : After m (cb m)) : After m (callAttrDelete hasDelete cb p m) := by
  unfold callAttrDelete
  split
  · exact h
  · exact .refl m

theorem After.bind {r : Res V (Mem V × Bool)} {f : Mem V × Bool → Res V (Mem V × Bool)}
    (h : After m r) (hf : ∀ x, After x.1 (f x)) : After m (r.bind f) := by
  cases r with
  | fault => exact trivial
  | halted m' => exact h
  | ok x =>
    have hx := hf x
    change After m (f x)
    cases hr : f x with
    | fault => exact trivial
    | halted m' => rw [hr] at hx; exact Later.trans h hx
    | ok y => rw [hr] at hx; exact Later.trans h hx

theorem later_called (h : ∀ m, After m (cb m)) : After m
    ((callAttrDelete hasDelete cb p m).bind fun x =>
      if x.2 then finish o p x.1 else .ok (x.1, false)) :=
  (later_callAttrDelete (h m)).bind fun x => by
    split
    · exact finish_later
    · exact .refl x.1

theorem later_addEntry (stopped : Option (Entry V)) (k : Int) (v : V) :
    Later m (addEntry kind stopped k v m) := by
  refine ⟨Nat.le_succ _, prefix_rfl, fun e he hlt => ?_⟩
  have hmem : e = ⟨m.addrs, k, v, m.insts⟩ ∨ e ∈ m.chain := by
    cases kind with
    | comm => exact mem_cons.1 he
    | type | win =>
      cases stopped with
      | some q => exact mem_insertAfter he
      | none => exact (mem_append.1 he).symm.imp mem_singleton.1 id
  refine hmem.resolve_left fun heq => ?_
  rw [heq] at hlt
  exact Nat.lt_irrefl _ hlt

theorem later_runOp (h : ∀ m, After m (cb m)) : After m (runOp kind hasDelete cb o m) := by
  cases o with
  | delete k =>
    rw [runOp, deleteAttrMem]
    rcases walk_cases m.freed (fun e => e.keyval == k) m.chain with hw | hw
    · rw [hw]
      exact trivial
    · rw [hw]
      cases m.chain.find? fun e => e.keyval == k with
      | none => exact .refl m
      | some p => exact later_called (o := .delete k) h
  | set k v =>
    rw [runOp, setAttrMem]
    rcases walk_cases m.freed (stopsAt kind k) m.chain with hw | hw
    · rw [hw]
      exact trivial
    · rw [hw]
      simp only [Res.bind]
      cases (m.chain.find? (stopsAt kind k)).filter fun p => p.keyval == k with
      | none => exact later_addEntry _ k v
      | some p => exact later_called (o := .set k v) h

theorem Beh.later (beh : Beh V) (m : Mem V) : After m (beh.run kind hasDelete m) := by
  induction beh generalizing m with
  | done ok => exact .refl m
  | cut => exact .refl m
  | op o inner rest ihi ihr => exact (later_runOp ihi).bind fun x => ihr x.1

theorem Bad.bind {r : Res V (Mem V × Bool)} {f : Mem V × Bool → Res V (Mem V × Bool)} (h : Bad r)
    (hf : ∀ x, After x.1 (f x)) : Bad (r.bind f) := by
  cases r with
  | fault => exact trivial
  | halted m' => exact h
  | ok x =>
    have hx := hf x
    change Bad (f x)
    cases hr : f x with
    | fault => exact trivial
    | halted m' => rw [hr] at hx; exact hx.not_nodup h
    | ok y => rw [hr] at hx; exact hx.not_nodup h

theorem runOp_good {safe : Mem V → Prop} (hm : Consistent m) (hlater : ∀ m, After m (cb m))
    (hgood : safe m → Good (cb m)) (hbad : ¬ safe m → Bad (cb m)) :
    (SafeOp kind hasDelete safe cb o m → Good (runOp kind hasDelete cb o m)) ∧
      (¬ SafeOp kind hasDelete safe cb o m → Bad (runOp kind hasDelete cb o m)) := by
  rcases @runOp_eq V kind hasDelete m cb o hm with ⟨m', hrun, htarget, hm', -⟩ |
    ⟨p, htarget, hp, hrun⟩
  · rw [hrun]
    refine ⟨fun _ => hm', fun hnot => absurd (fun p hp => ?_) hnot⟩
    rw [htarget] at hp
    cases hp
  · rw [hrun]
    by_cases hdel : hasDelete p.keyval = true
    · rw [callAttrDelete, if_pos hdel]
      have hafter := hlater m
      constructor
      · intro hsafe
        obtain ⟨hs, hstill⟩ := hsafe p htarget hdel
        have hg := hgood hs
        cases hcb : cb m with
        | fault => rw [hcb] at hg; exact hg
        | halted m' => rw [hcb] at hg; exact hg
        | ok x =>
          obtain ⟨m', ok⟩ := x
          rw [hcb] at hg hafter
          cases ok with
          | false => exact hg
          | true =>
            obtain ⟨e, he, heq⟩ := hstill m' hcb
            have hold := hafter.old e he (heq ▸ hm.inst_lt hp)
            obtain rfl := hm.eq_of_inst hold hp heq
            exact finish_good hg he
      · intro hnot
        by_cases hs : safe m
        · have hg := hgood hs
          have : ∃ m', cb m = .ok (m', true) ∧ ¬ ∃ e ∈ m'.chain, e.inst = p.inst := by
            by_contra hno
            refine hnot fun q hq _ => ?_
            rw [htarget] at hq
            cases hq
            exact ⟨hs, fun m' hm' => by_contra fun h => hno ⟨m', hm', h⟩⟩
          obtain ⟨m', hcb, hgone⟩ := this
          rw [hcb] at hg hafter ⊢
          change Bad (finish o p m')
          have hin : p.inst ∈ m'.removed := by
            by_contra hout
            have hlt := (hm.inst_lt hp).trans_le hafter.insts
            obtain ⟨e, he, heq⟩ := mem_map.1 ((hg.insts p.inst).2 ⟨hlt, hout⟩)
            exact hgone ⟨e, he, heq⟩
          cases hf : finish o p m' with
          | fault => exact trivial
          | halted m'' => exact absurd hf finish_ne_halted
          | ok x =>
            change ¬ x.1.removed.Nodup
            rw [finish_removed hf]
            exact fun hnd => (nodup_append.1 hnd).2.2 _ hin _ mem_cons_self rfl
        · refine (hbad hs).bind fun x => ?_
          split
          · exact finish_later
          · exact .refl x.1
    · rw [callAttrDelete, if_neg hdel]
      refine ⟨fun _ => finish_good hm hp, fun hnot => absurd (fun q hq hq' => ?_) hnot⟩
      rw [htarget] at hq
      cases hq
      exact absurd hq' hdel

theorem Beh.run_good (beh : Beh V) (m : Mem V) (hm : Consistent m) :
    (beh.Safe kind hasDelete m → Good (beh.run kind hasDelete m)) ∧
      (¬ beh.Safe kind hasDelete m → Bad (beh.run kind hasDelete m)) := by
  induction beh generalizing m with
  | done ok => exact ⟨fun _ => hm, fun hnot => absurd trivial hnot⟩
  | cut => exact ⟨fun _ => hm, fun hnot => absurd trivial hnot⟩
  | op o inner rest ihi ihr =>
    have hop := @runOp_good V kind hasDelete m _ o _ hm (fun m => inner.later m) (ihi m hm).1
      (ihi m hm).2
    rw [Beh.run, Beh.Safe]
    constructor
    · rintro ⟨hsafe, hrest⟩
      have hg := hop.1 hsafe
      cases hr : runOp kind hasDelete (fun m => inner.run kind hasDelete m) o m with
      | fault => rw [hr] at hg; exact hg
      | halted m' => rw [hr] at hg; exact hg
      | ok x => rw [hr] at hg; exact (ihr x.1 hg).1 (hrest x hr)
    · intro hnot
      by_cases hsafe : SafeOp kind hasDelete (fun m => inner.Safe kind hasDelete m)
          (fun m => inner.run kind hasDelete m) o m
      · have hg := hop.1 hsafe
        have hrest : ∃ x, runOp kind hasDelete (fun m => inner.run kind hasDelete m) o m = .ok x ∧
            ¬ rest.Safe kind hasDelete x.1 := by
          by_contra hno
          exact hnot ⟨hsafe, fun x hx => by_contra fun h => hno ⟨x, hx, h⟩⟩
        obtain ⟨x, hr, hx⟩ := hrest
        rw [hr] at hg ⊢
        exact (ihr x.1 hg).2 hx
      · exact (hop.2 hsafe).bind fun x => rest.later x.1

end runs

/-! ## Deleting a list -/

def Beh.Quiet : Beh V → Prop
  | .done _ => True
  | .cut => True
  | .op _ _ _ => False

def QuietLater (hasDelete : Int → Bool) : List (Entry V) → List (Beh V) → Prop
  | [], _ => True
  | _, [] => True
  | e :: l, beh :: behs =>
    (hasDelete e.keyval = true → beh.Quiet) ∧ QuietLater hasDelete l behs

/-- The callback of the first entry is harmless, and leaves the entry with its value at the front of
the list and the same entry behind it; the later callbacks do nothing. -/
def SafeList (kind : Kind) (hasDelete : Int → Bool) (behs : List (Beh V)) (m : Mem V) : Prop :=
  match m.chain, behs with
  | [], _ => True
  | _, [] => True
  | e :: l, beh :: behs =>
    (hasDelete e.keyval = true → beh.Safe kind hasDelete m) ∧
    ∀ x, callAttrDelete hasDelete (fun m => beh.run kind hasDelete m) e m = .ok x →
      ∃ l', x.1.chain = e :: l' ∧ l'.head?.map Entry.addr = l.head?.map Entry.addr ∧
        QuietLater hasDelete l' behs

/-- No entry that has been freed has been used, and no callback has been run twice for a value; at
the end the list is empty, and the callback of every value has been run. -/
def GoodList : Res V (Mem V) → Prop
  | .fault => False
  | .halted m => m.removed.Nodup
  | .ok m => m.chain = [] ∧ m.removed.Nodup ∧ ∀ i, i ∈ m.removed ↔ i < m.insts

structure Passed (dead alive : List (Entry V)) (m : Mem V) : Prop where
  chain : m.chain = dead ++ alive
  addrs_nodup : (m.chain.map Entry.addr).Nodup
  live : ∀ e ∈ alive, e.addr ∉ m.freed
  removed_nodup : (m.removed ++ alive.map Entry.inst).Nodup
  insts : ∀ i, i ∈ m.removed ++ alive.map Entry.inst ↔ i < m.insts

section lists

variable {dead alive : List (Entry V)} {behs : List (Beh V)}

theorem find_addr (hnd : ((dead ++ e :: alive).map Entry.addr).Nodup) :
    (dead ++ e :: alive).find? (fun q => q.addr == e.addr) = some e := by
  induction dead with
  | nil => simp
  | cons d dead ih =>
    rw [cons_append, map_cons, nodup_cons] at hnd
    have hne : d.addr ≠ e.addr := fun h =>
      hnd.1 (h ▸ mem_map_of_mem (mem_append_right _ mem_cons_self))
    rw [cons_append, List.find?_cons_of_neg (by simpa using hne)]
    exact ih hnd.2

theorem nextAddr_eq (hnd : ((dead ++ e :: alive).map Entry.addr).Nodup) :
    nextAddr e.addr (dead ++ e :: alive) = alive.head?.map Entry.addr := by
  induction dead with
  | nil => rw [nil_append, nextAddr, if_pos rfl]
  | cons d dead ih =>
    rw [cons_append, map_cons, nodup_cons] at hnd
    have hne : d.addr ≠ e.addr := fun h =>
      hnd.1 (h ▸ mem_map_of_mem (mem_append_right _ mem_cons_self))
    rw [cons_append, nextAddr, if_neg hne]
    exact ih hnd.2

theorem Passed.step (h : Passed dead (e :: alive) m) : Passed (dead ++ [e]) alive
    { m with freed := e.addr :: m.freed, removed := m.removed ++ [e.inst] } := by
  have hnd := h.addrs_nodup
  rw [h.chain, map_append, nodup_append, map_cons, nodup_cons] at hnd
  have hinsts : ∀ i, i ∈ m.removed ++ (e :: alive).map Entry.inst ↔
      i ∈ m.removed ++ [e.inst] ++ alive.map Entry.inst := fun i => by
    rw [append_assoc, singleton_append, map_cons]
  refine ⟨by rw [h.chain, append_assoc]; rfl, h.addrs_nodup, fun q hq hf => ?_, ?_,
    fun i => ?_⟩
  · rcases mem_cons.1 hf with hf | hf
    · exact hnd.2.1.1 (hf ▸ mem_map_of_mem hq)
    · exact h.live q (mem_cons_of_mem e hq) hf
  · have := h.removed_nodup
    rwa [map_cons, ← singleton_append, ← append_assoc] at this
  · rw [← hinsts]
    exact h.insts i

theorem deleteListLoop_good (h : Passed dead alive m) (hquiet : QuietLater hasDelete alive behs) :
    GoodList (deleteListLoop kind hasDelete behs (alive.head?.map Entry.addr) m) := by
  induction alive generalizing dead m behs with
  | nil =>
    have hnd := h.removed_nodup
    have hin := h.insts
    rw [map_nil, append_nil] at hnd
    simp only [map_nil, append_nil] at hin
    rw [List.head?_nil, map_none, deleteListLoop]
    exact ⟨rfl, hnd, hin⟩
  | cons e alive ih =>
    cases behs with
    | nil => exact (nodup_append.1 h.removed_nodup).1
    | cons beh behs =>
      have hlive : e.addr ∉ m.freed := h.live e mem_cons_self
      have hnd := h.addrs_nodup
      rw [h.chain] at hnd
      have hcall : callAttrDelete hasDelete (fun m => beh.run kind hasDelete m) e m = .halted m ∨
          ∃ ok, callAttrDelete hasDelete (fun m => beh.run kind hasDelete m) e m = .ok (m, ok) := by
        unfold callAttrDelete
        split
        · next hdel =>
          have hq := hquiet.1 hdel
          cases beh with
          | done ok => exact .inr ⟨ok, rfl⟩
          | cut => exact .inl rfl
          | op => exact hq.elim
        · exact .inr ⟨true, rfl⟩
      rw [List.head?_cons, map_some, deleteListLoop, h.chain, find_addr hnd]
      simp only [if_neg hlive, nextAddr_eq hnd]
      rcases hcall with hcall | ⟨ok, hcall⟩
      · rw [hcall]
        exact (nodup_append.1 h.removed_nodup).1
      · rw [hcall]
        simp only [Res.bind, if_neg hlive]
        exact ih h.step hquiet.2

theorem deleteList_good (hm : Consistent m) (hsafe : SafeList kind hasDelete behs m) :
    GoodList (deleteListMem kind hasDelete behs m) := by
  unfold deleteListMem
  unfold SafeList at hsafe
  cases hc : m.chain with
  | nil =>
    rw [List.head?_nil, map_none, deleteListLoop]
    refine ⟨rfl, hm.removed_nodup, fun i => ⟨hm.removed_lt i, fun hi => ?_⟩⟩
    by_contra hnot
    have := (hm.insts i).2 ⟨hi, hnot⟩
    rw [hc] at this
    cases this
  | cons e l =>
    cases behs with
    | nil => exact hm.removed_nodup
    | cons beh behs =>
      rw [hc] at hsafe
      obtain ⟨hbeh, hleft⟩ := hsafe
      have hmem : e ∈ m.chain := hc ▸ mem_cons_self
      have hlive := hm.live e hmem
      have hnd := hm.addrs_nodup
      rw [hc] at hnd
      have hfind : m.chain.find? (fun q => q.addr == e.addr) = some e := by
        rw [hc]
        exact @find_addr V e [] l hnd
      have hnext : nextAddr e.addr m.chain = l.head?.map Entry.addr := by
        rw [hc]
        exact @nextAddr_eq V e [] l hnd
      have hgood : Good (callAttrDelete hasDelete (fun m => beh.run kind hasDelete m) e m) := by
        unfold callAttrDelete
        split
        · next hdel => exact (beh.run_good m hm).1 (hbeh hdel)
        · exact hm
      rw [List.head?_cons, map_some, deleteListLoop, hfind]
      simp only [if_neg hlive, hnext]
      cases hcall : callAttrDelete hasDelete (fun m => beh.run kind hasDelete m) e m with
      | fault => rw [hcall] at hgood; exact hgood.elim
      | halted m' => rw [hcall] at hgood; exact hgood.removed_nodup
      | ok x =>
        obtain ⟨m', ok⟩ := x
        rw [hcall] at hgood
        obtain ⟨l', hc', hhead, hquiet⟩ := hleft _ hcall
        have hm' : Consistent m' := hgood
        have hlive' : e.addr ∉ m'.freed := hm'.live e (hc' ▸ mem_cons_self)
        have hpassed : Passed [] (e :: l') m' := by
          refine ⟨hc', hm'.addrs_nodup, fun q hq => hm'.live q (hc' ▸ hq), ?_, fun i => ?_⟩
          · rw [nodup_append]
            refine ⟨hm'.removed_nodup, hc' ▸ hm'.insts_nodup, fun a ha b hb heq => ?_⟩
            rw [← hc'] at hb
            exact ((hm'.insts b).1 hb).2 (heq ▸ ha)
          · rw [mem_append, ← hc', hm'.insts]
            constructor
            · rintro (hi | hi)
              · exact hm'.removed_lt i hi
              · exact hi.1
            · intro hi
              by_cases hr : i ∈ m'.removed
              · exact .inl hr
              · exact .inr ⟨hi, hr⟩
        simp only [Res.bind, if_neg hlive']
        rw [← hhead]
        exact deleteListLoop_good hpassed.step hquiet

end lists

/-! ## Main result -/

theorem consistent_ofList (l : List (Int × V)) : Consistent (Mem.ofList l) := by
  have haddr : (Mem.ofList l).chain.map Entry.addr = List.range l.length := by
    rw [Mem.ofList, List.map_map, List.range_eq_range']
    exact zipIdx_map_snd 0 l
  have hinst : (Mem.ofList l).chain.map Entry.inst = List.range l.length := by
    rw [Mem.ofList, List.map_map, List.range_eq_range']
    exact zipIdx_map_snd 0 l
  refine ⟨haddr ▸ nodup_range, fun e he => ?_, fun e _ => not_mem_nil, nofun,
    hinst ▸ nodup_range, fun i => ?_, nodup_nil, nofun⟩
  · exact mem_range.1 (haddr ▸ mem_map_of_mem he)
  · rw [hinst, mem_range]
    exact ⟨fun h => ⟨h, not_mem_nil⟩, fun h => h.1⟩

/-- Deleting an attribute and replacing a value tolerate what a callback does if and only if it is
harmless; deleting a list does so if the first callback leaves its entry and the next one, and the
later callbacks do nothing. -/
theorem callbacks_tolerated (kind : Kind) (hasDelete : Int → Bool) (l : List (Int × V)) :
    (∀ (o : Op V) (beh : Beh V),
      Good (runOp kind hasDelete (fun m => beh.run kind hasDelete m) o (Mem.ofList l)) ↔
        SafeOp kind hasDelete (fun m => beh.Safe kind hasDelete m)
          (fun m => beh.run kind hasDelete m) o (Mem.ofList l)) ∧
    ∀ behs : List (Beh V), SafeList kind hasDelete behs (Mem.ofList l) →
      GoodList (deleteListMem kind hasDelete behs (Mem.ofList l)) := by
  have hm := consistent_ofList l
  refine ⟨fun o beh => ?_, fun behs => deleteList_good hm⟩
  have hbeh := @Beh.run_good V kind hasDelete beh _ hm
  have hop := @runOp_good V kind hasDelete _ _ o _ hm (fun m => beh.later m) hbeh.1 hbeh.2
  exact ⟨fun hg => by_contra fun hnot => hg.not_bad (hop.2 hnot), hop.1⟩

theorem callbacks_tolerated_three :
    Good (runOp .comm (fun _ => true)
      (fun m => (Beh.op (.delete 3) (.done true) (.done true)).run .comm (fun _ => true) m)
      (.delete 1) (Mem.ofList [(1, ()), (2, ()), (3, ())])) ∧
    GoodList (deleteListMem .comm (fun _ => true)
      [.op (.delete 3) (.done true) (.done true), .done true]
      (Mem.ofList [(1, ()), (2, ()), (3, ())])) := by
  have h := callbacks_tolerated .comm (fun _ => true) [(1, ()), (2, ()), (3, ())]
  have hsafe : (Beh.op (.delete 3) (.done true) (.done true)).Safe .comm (fun _ => true)
      (Mem.ofList [(1, ()), (2, ()), (3, ())]) := by
    refine ⟨fun p hp _ => ⟨trivial, fun m' hm' => ?_⟩, fun _ _ => trivial⟩
    cases hp
    cases hm'
    exact ⟨_, mem_cons_of_mem _ (mem_cons_of_mem _ mem_cons_self), rfl⟩
  refine ⟨(h.1 _ _).2 fun p hp _ => ⟨hsafe, fun m' hm' => ?_⟩,
    h.2 _ ⟨fun _ => hsafe, fun x hx => ?_⟩⟩
  · cases hp
    cases hm'
    exact ⟨_, mem_cons_self, rfl⟩
  · cases hx
    exact ⟨_, rfl, rfl, fun _ => trivial, trivial⟩

/-- A callback that deletes the next attribute: the loop goes on with the entry that has been freed.
-/
theorem callbacks_next_deleted :
    ¬ GoodList (deleteListMem .comm (fun _ => true)
      [.op (.delete 2) (.done true) (.done true), .done true]
      (Mem.ofList [(1, ()), (2, ())])) ∧
    ¬ Good (runOp .comm (fun _ => true)
      (fun m => (Beh.op (.delete 1) (.done true) (.done true)).run .comm (fun _ => true) m)
      (.delete 1) (Mem.ofList [(1, ())])) := by
  refine ⟨fun h => h, fun h => ?_⟩
  exact absurd h.removed_nodup (by decide)

end PsMpi.Attr
