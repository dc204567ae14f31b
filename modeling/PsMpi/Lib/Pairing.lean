import Mathlib.Data.List.Perm.Basic

/-!
# Queues that are searched from the front

`pick?` takes the first element with a property out of a list.
-/

open List

namespace PsMpi.Lib

section
variable {α : Type*} {p : α → Bool} {a : α} {l rest : List α}

def pick? (p : α → Bool) : List α → Option (α × List α)
  | [] => none
  | a :: l =>
    if p a then some (a, l)
    else (pick? p l).map fun r => (r.1, a :: r.2)

theorem pick?_some (h : pick? p l = some (a, rest)) :
    ∃ l₁ l₂, l = l₁ ++ a :: l₂ ∧ rest = l₁ ++ l₂ ∧ p a = true ∧ ∀ b ∈ l₁, p b = false := by
  induction l generalizing rest with
  | nil => cases h
  | cons b l ih =>
    unfold pick? at h
    split at h
    · rename_i hb
      obtain ⟨rfl, rfl⟩ := Prod.mk.inj (Option.some.inj h)
      exact ⟨[], l, rfl, rfl, hb, fun c hc => absurd hc not_mem_nil⟩
    · rename_i hb
      obtain ⟨⟨c, r⟩, hr, heq⟩ := Option.map_eq_some_iff.1 h
      obtain ⟨rfl, rfl⟩ := Prod.mk.inj heq
      obtain ⟨l₁, l₂, rfl, rfl, hp, hall⟩ := ih hr
      refine ⟨b :: l₁, l₂, rfl, rfl, hp, fun x hx => ?_⟩
      rcases mem_cons.1 hx with rfl | hx
      · exact Bool.eq_false_iff.2 hb
      · exact hall x hx

theorem pick?_none (h : pick? p l = none) : ∀ b ∈ l, p b = false := by
  induction l with
  | nil => exact fun b hb => absurd hb not_mem_nil
  | cons c l ih =>
    unfold pick? at h
    split at h
    · cases h
    · rename_i hc
      intro b hb
      rcases mem_cons.1 hb with rfl | hb
      · exact Bool.eq_false_iff.2 hc
      · exact ih (Option.map_eq_none_iff.1 h) b hb

theorem pick?_perm (h : pick? p l = some (a, rest)) : l.Perm (a :: rest) := by
  obtain ⟨l₁, l₂, rfl, rfl, -⟩ := pick?_some h
  exact perm_middle

theorem pick?_mem (h : pick? p l = some (a, rest)) : a ∈ l ∧ p a = true := by
  obtain ⟨l₁, l₂, rfl, -, hp, -⟩ := pick?_some h
  exact ⟨by simp, hp⟩

theorem pick?_sublist (h : pick? p l = some (a, rest)) : rest.Sublist l := by
  obtain ⟨l₁, l₂, rfl, rfl, -⟩ := pick?_some h
  exact List.Sublist.append_left (sublist_cons_self a l₂) l₁

theorem pick?_append (hb : ∃ b ∈ l, p b = true) (l' : List α) :
    ∃ a rest, pick? p (l ++ l') = some (a, rest) ∧ a ∈ l := by
  induction l with
  | nil => exact absurd hb (by simp)
  | cons c l ih =>
    by_cases hc : p c = true
    · exact ⟨c, l ++ l', by rw [cons_append, pick?, if_pos hc], mem_cons_self⟩
    · obtain ⟨b, hbl, hpb⟩ := hb
      have hbl : b ∈ l := (mem_cons.1 hbl).resolve_left fun heq => hc (heq ▸ hpb)
      obtain ⟨a, rest, hpick, ha⟩ := ih ⟨b, hbl, hpb⟩
      refine ⟨a, c :: rest, ?_, mem_cons_of_mem _ ha⟩
      rw [cons_append, pick?, if_neg hc, hpick]
      rfl

theorem pick?_filter {q : α → Bool} (h : pick? p l = some (a, rest))
    (hq : ∀ b, p b = true → q b = false) : rest.filter q = l.filter q := by
  obtain ⟨l₁, l₂, rfl, rfl, hp, -⟩ := pick?_some h
  simp [hq a hp]

theorem pick?_filter_self (h : pick? p l = some (a, rest)) :
    l.filter p = a :: rest.filter p := by
  obtain ⟨l₁, l₂, rfl, rfl, hp, hall⟩ := pick?_some h
  have hnil : l₁.filter p = [] := by simpa using hall
  simp [hnil, hp]

/-- What is picked is the first of its key, and the others of another key stay. -/
theorem pick?_filter_key {κ : Type*} [DecidableEq κ] {key : α → κ} {k₀ : κ}
    (h : pick? (fun b => decide (key b = k₀)) l = some (a, rest)) (k : κ) :
    l.filter (fun b => decide (key b = k)) =
      if k₀ = k then a :: rest.filter (fun b => decide (key b = k))
      else rest.filter fun b => decide (key b = k) := by
  split
  · rename_i hk
    subst hk
    exact pick?_filter_self h
  · rename_i hk
    refine (pick?_filter h fun c hc => ?_).symm
    simp only [decide_eq_true_eq] at hc
    simpa [hc] using hk

theorem getElem?_filter_concat {b : α} {n : Nat} (h : ((l ++ [a]).filter p)[n]? = some b) :
    (l.filter p)[n]? = some b ∨ p a = true ∧ n = (l.filter p).length ∧ b = a := by
  rw [filter_append] at h
  rcases Nat.lt_or_ge n (l.filter p).length with hlt | hge
  · rw [List.getElem?_append_left hlt] at h
    exact .inl h
  · rw [List.getElem?_append_right hge] at h
    by_cases hp : p a = true
    · obtain ⟨hn, rfl⟩ : n - (l.filter p).length = 0 ∧ a = b := by
        simpa [hp, List.getElem?_singleton] using h
      exact .inr ⟨hp, by omega, rfl⟩
    · simp [hp] at h

end

/-- Requests and answers that are paired by equal keys. `reqs` and `anss` are all that have come, in
their orders. -/
structure Pairing (α β : Type*) where
  reqs : List α
  anss : List β
  waiting : List α
  kept : List β
  pairs : List (α × β)

namespace Pairing

variable {κ α β : Type*} [DecidableEq κ] (kα : α → κ) (kβ : β → κ)

def init : Pairing α β := ⟨[], [], [], [], []⟩

def request (s : Pairing α β) (a : α) : Pairing α β :=
  match pick? (fun b => decide (kβ b = kα a)) s.kept with
  | some (b, rest) =>
    { s with reqs := s.reqs ++ [a], kept := rest, pairs := s.pairs ++ [(a, b)] }
  | none => { s with reqs := s.reqs ++ [a], waiting := s.waiting ++ [a] }

def answer (s : Pairing α β) (b : β) : Pairing α β :=
  match pick? (fun a => decide (kα a = kβ b)) s.waiting with
  | some (a, rest) =>
    { s with anss := s.anss ++ [b], waiting := rest, pairs := s.pairs ++ [(a, b)] }
  | none => { s with anss := s.anss ++ [b], kept := s.kept ++ [b] }

@[simp] theorem request_reqs (s : Pairing α β) (a : α) :
    (s.request kα kβ a).reqs = s.reqs ++ [a] := by
  unfold request; split <;> rfl

@[simp] theorem request_anss (s : Pairing α β) (a : α) : (s.request kα kβ a).anss = s.anss := by
  unfold request; split <;> rfl

@[simp] theorem answer_reqs (s : Pairing α β) (b : β) : (s.answer kα kβ b).reqs = s.reqs := by
  unfold answer; split <;> rfl

@[simp] theorem answer_anss (s : Pairing α β) (b : β) :
    (s.answer kα kβ b).anss = s.anss ++ [b] := by
  unfold answer; split <;> rfl

def ofReq (k : κ) (l : List α) : List α := l.filter fun a => decide (kα a = k)

def ofAns (k : κ) (l : List β) : List β := l.filter fun b => decide (kβ b = k)

def ofPair (k : κ) (l : List (α × β)) : List (α × β) := l.filter fun p => decide (kα p.1 = k)

/-- For each key, the requests and the answers are paired in their orders, and what is left over is
left over on one side only. -/
structure Fifo (s : Pairing α β) : Prop where
  keys : ∀ p ∈ s.pairs, kα p.1 = kβ p.2
  reqs : ∀ k, ofReq kα k s.reqs = (ofPair kα k s.pairs).map Prod.fst ++ ofReq kα k s.waiting
  anss : ∀ k, ofAns kβ k s.anss = (ofPair kα k s.pairs).map Prod.snd ++ ofAns kβ k s.kept
  left : ∀ k, ofReq kα k s.waiting = [] ∨ ofAns kβ k s.kept = []

variable {kα kβ} {s : Pairing α β}

theorem init_fifo : Fifo kα kβ (init : Pairing α β) :=
  ⟨fun _ h => absurd h not_mem_nil, fun _ => rfl, fun _ => rfl, fun _ => .inl rfl⟩

theorem ofPair_concat (k : κ) (a : α) (b : β) : ofPair kα k (s.pairs ++ [(a, b)]) =
    ofPair kα k s.pairs ++ if kα a = k then [(a, b)] else [] := by
  simp only [ofPair, filter_append]
  split <;> simp_all

theorem request_fifo (h : Fifo kα kβ s) (a : α) : Fifo kα kβ (s.request kα kβ a) := by
  unfold request
  cases hk : pick? (fun b => decide (kβ b = kα a)) s.kept with
  | none =>
    have hno := pick?_none hk
    refine ⟨h.keys, fun k => ?_, h.anss, fun k => ?_⟩
    · simp only [ofReq, filter_append]
      rw [← append_assoc]
      exact congrArg (· ++ _) (h.reqs k)
    · by_cases hka : kα a = k
      · refine .inr ?_
        subst hka
        simpa [ofAns] using hno
      · refine (h.left k).imp_left fun hw => ?_
        simpa [ofReq, hka] using hw
  | some r =>
    obtain ⟨b, rest⟩ := r
    obtain ⟨-, hb⟩ := pick?_mem hk
    have hb : kβ b = kα a := by simpa using hb
    have hkept : ∀ k, ofAns kβ k s.kept = if kα a = k then b :: ofAns kβ k rest
        else ofAns kβ k rest := pick?_filter_key hk
    have hwait : ofReq kα (kα a) s.waiting = [] := by
      refine (h.left (kα a)).resolve_right fun hnil => ?_
      rw [hkept, if_pos rfl] at hnil
      cases hnil
    refine ⟨fun p hp => ?_, fun k => ?_, fun k => ?_, fun k => ?_⟩
    · rcases mem_append.1 hp with hp | hp
      · exact h.keys p hp
      · rw [mem_singleton.1 hp]; exact hb.symm
    · have hr := h.reqs k
      simp only [ofPair_concat]
      rw [ofReq, filter_append, ← ofReq, hr]
      split
      · rename_i hka; subst hka
        simp [hwait]
      · rename_i hka
        simp [hka]
    · have ha := h.anss k
      rw [hkept] at ha
      simp only [ofPair_concat]
      rw [ha]
      split <;> simp
    · rcases h.left k with hl | hl
      · exact .inl hl
      · rw [hkept] at hl
        split at hl
        · cases hl
        · exact .inr hl

/-- The pairing in which the answers are the requests. -/
def swap (s : Pairing α β) : Pairing β α :=
  ⟨s.anss, s.reqs, s.kept, s.waiting, s.pairs.map Prod.swap⟩

theorem swap_swap : s.swap.swap = s := by
  simp [swap]

theorem answer_swap (s : Pairing α β) (b : β) :
    (s.answer kα kβ b).swap = s.swap.request kβ kα b := by
  unfold answer request swap
  dsimp only
  split <;> simp

theorem Fifo.swap (h : Fifo kα kβ s) : Fifo kβ kα s.swap := by
  have hpair : ∀ k, ofPair kβ k s.swap.pairs = (ofPair kα k s.pairs).map Prod.swap := by
    intro k
    rw [ofPair, Pairing.swap, filter_map, ofPair]
    exact congrArg _ (filter_congr fun p hp => by simp [h.keys p hp])
  refine ⟨fun p hp => ?_, fun k => ?_, fun k => ?_, fun k => (h.left k).symm⟩
  · obtain ⟨q, hq, rfl⟩ := mem_map.1 hp
    exact (h.keys q hq).symm
  · rw [hpair, map_map]
    exact h.anss k
  · rw [hpair, map_map]
    exact h.reqs k

theorem answer_fifo (h : Fifo kα kβ s) (b : β) : Fifo kα kβ (s.answer kα kβ b) := by
  have hfifo := (request_fifo h.swap b).swap
  rwa [← answer_swap, swap_swap] at hfifo

theorem Fifo.ofPair_eq_zip (h : Fifo kα kβ s) (k : κ) :
    ofPair kα k s.pairs = (ofReq kα k s.reqs).zip (ofAns kβ k s.anss) := by
  have hself : ∀ l : List (α × β), (l.map Prod.fst).zip (l.map Prod.snd) = l := by
    intro l
    rw [zip_map', map_id']
  have hrest : (ofReq kα k s.waiting).zip (ofAns kβ k s.kept) = [] := by
    rcases h.left k with hl | hl <;> simp [hl]
  rw [h.reqs, h.anss, zip_append (by simp), hself, hrest, append_nil]

section
variable {ι : Type*} {idα : α → ι} {idβ : β → ι}

/-- The requests and the answers with one key come in the same order, as far as both have come. -/
def Agree (kα : α → κ) (kβ : β → κ) (idα : α → ι) (idβ : β → ι) (reqs : List α) (anss : List β) :
    Prop :=
  ∀ (k : κ) (n : Nat) (a : α) (b : β),
    (ofReq kα k reqs)[n]? = some a → (ofAns kβ k anss)[n]? = some b → idα a = idβ b

/-- The answer that takes the place of a new request has its identity, if it has come. -/
def ReqInTurn (kα : α → κ) (kβ : β → κ) (idα : α → ι) (idβ : β → ι) (reqs : List α)
    (anss : List β) (a : α) : Prop :=
  ∀ b ∈ (ofAns kβ (kα a) anss)[(ofReq kα (kα a) reqs).length]?, idα a = idβ b

/-- The request that takes the place of a new answer has its identity, if it has come. -/
def AnsInTurn (kα : α → κ) (kβ : β → κ) (idα : α → ι) (idβ : β → ι) (reqs : List α)
    (anss : List β) (b : β) : Prop :=
  ∀ a ∈ (ofReq kα (kβ b) reqs)[(ofAns kβ (kβ b) anss).length]?, idα a = idβ b

instance [DecidableEq ι] {reqs : List α} {anss : List β} {a : α} :
    Decidable (ReqInTurn kα kβ idα idβ reqs anss a) :=
  inferInstanceAs (Decidable (∀ b ∈ (ofAns kβ (kα a) anss)[(ofReq kα (kα a) reqs).length]?,
    idα a = idβ b))

instance [DecidableEq ι] {reqs : List α} {anss : List β} {b : β} :
    Decidable (AnsInTurn kα kβ idα idβ reqs anss b) :=
  inferInstanceAs (Decidable (∀ a ∈ (ofReq kα (kβ b) reqs)[(ofAns kβ (kβ b) anss).length]?,
    idα a = idβ b))

theorem Agree.nil : Agree kα kβ idα idβ [] [] := by
  intro k n a b ha
  simp [ofReq] at ha

theorem Agree.request {reqs : List α} {anss : List β} {a : α}
    (h : Agree kα kβ idα idβ reqs anss) (ha : ReqInTurn kα kβ idα idβ reqs anss a) :
    Agree kα kβ idα idβ (reqs ++ [a]) anss := by
  intro k n a' b ha' hb
  rcases getElem?_filter_concat ha' with ha' | ⟨hk, hn, rfl⟩
  · exact h k n a' b ha' hb
  · obtain rfl : kα a' = k := by simpa using hk
    exact ha b (hn ▸ hb)

theorem Agree.answer {reqs : List α} {anss : List β} {b : β}
    (h : Agree kα kβ idα idβ reqs anss) (hb : AnsInTurn kα kβ idα idβ reqs anss b) :
    Agree kα kβ idα idβ reqs (anss ++ [b]) := by
  intro k n a b' ha hb'
  rcases getElem?_filter_concat hb' with hb' | ⟨hk, hn, rfl⟩
  · exact h k n a b' ha hb'
  · obtain rfl : kβ b' = k := by simpa using hk
    exact hb a (hn ▸ ha)

theorem Agree.of_prefix {reqs : List α} {anss anss' : List β}
    (h : Agree kα kβ idα idβ reqs anss) (hp : anss' <+: anss) :
    Agree kα kβ idα idβ reqs anss' := by
  intro k n a b ha hb
  refine h k n a b ha ?_
  obtain ⟨hlt, -⟩ := List.getElem?_eq_some_iff.1 hb
  obtain ⟨t, rfl⟩ := hp
  rw [ofAns, filter_append]
  exact (List.getElem?_append_left hlt).trans hb

theorem mem_ofReq {k : κ} {a : α} {l : List α} : a ∈ ofReq kα k l ↔ a ∈ l ∧ kα a = k := by
  simp [ofReq]

theorem mem_ofAns {k : κ} {b : β} {l : List β} : b ∈ ofAns kβ k l ↔ b ∈ l ∧ kβ b = k := by
  simp [ofAns]

theorem mem_ofPair {k : κ} {p : α × β} {l : List (α × β)} :
    p ∈ ofPair kα k l ↔ p ∈ l ∧ kα p.1 = k := by
  simp [ofPair]

theorem Fifo.agree (h : Fifo kα kβ s) (hag : Agree kα kβ idα idβ s.reqs s.anss) {p : α × β}
    (hp : p ∈ s.pairs) : idα p.1 = idβ p.2 := by
  obtain ⟨n, hn⟩ := List.getElem?_of_mem ((mem_ofPair (k := kα p.1)).2 ⟨hp, rfl⟩)
  obtain ⟨hlt, -⟩ := List.getElem?_eq_some_iff.1 hn
  refine hag (kα p.1) n p.1 p.2 ?_ ?_
  · rw [h.reqs, List.getElem?_append_left (by simpa using hlt), List.getElem?_map, hn]
    rfl
  · rw [h.anss, List.getElem?_append_left (by simpa using hlt), List.getElem?_map, hn]
    rfl

theorem Fifo.pairs_mem (h : Fifo kα kβ s) {p : α × β} (hp : p ∈ s.pairs) :
    p.1 ∈ s.reqs ∧ p.2 ∈ s.anss := by
  have hk : p ∈ ofPair kα (kα p.1) s.pairs := mem_ofPair.2 ⟨hp, rfl⟩
  constructor
  · have hreq : p.1 ∈ ofReq kα (kα p.1) s.reqs := by
      rw [h.reqs]
      exact mem_append_left _ (mem_map_of_mem hk)
    exact (mem_ofReq.1 hreq).1
  · have hans : p.2 ∈ ofAns kβ (kα p.1) s.anss := by
      rw [h.anss]
      exact mem_append_left _ (mem_map_of_mem hk)
    exact (mem_ofAns.1 hans).1

theorem Fifo.waiting_subset (h : Fifo kα kβ s) {a : α} (ha : a ∈ s.waiting) : a ∈ s.reqs := by
  have hmem : a ∈ ofReq kα (kα a) s.reqs := by
    rw [h.reqs]
    exact mem_append_right _ (mem_ofReq.2 ⟨ha, rfl⟩)
  exact (mem_ofReq.1 hmem).1

theorem Fifo.kept_subset (h : Fifo kα kβ s) {b : β} (hb : b ∈ s.kept) : b ∈ s.anss := by
  have hmem : b ∈ ofAns kβ (kβ b) s.anss := by
    rw [h.anss]
    exact mem_append_right _ (mem_ofAns.2 ⟨hb, rfl⟩)
  exact (mem_ofAns.1 hmem).1

theorem Fifo.kept_nil (h : Fifo kα kβ s) (hag : Agree kα kβ idα idβ s.reqs s.anss)
    (hnd : (s.anss.map idβ).Nodup)
    (hall : ∀ b ∈ s.anss, ∃ a ∈ s.reqs, kα a = kβ b ∧ idα a = idβ b) : s.kept = [] := by
  rw [eq_nil_iff_forall_not_mem]
  intro b hb
  have hbk : b ∈ ofAns kβ (kβ b) s.kept := mem_ofAns.2 ⟨hb, rfl⟩
  have hw : ofReq kα (kβ b) s.waiting = [] :=
    (h.left (kβ b)).resolve_right (ne_nil_of_mem hbk)
  obtain ⟨a, ha, hka, hid⟩ := hall b (h.kept_subset hb)
  -- the request of the answer has been paired, with another answer
  have hap : a ∈ (ofPair kα (kβ b) s.pairs).map Prod.fst := by
    have hreq := h.reqs (kβ b)
    rw [hw, append_nil] at hreq
    exact hreq ▸ mem_ofReq.2 ⟨ha, hka⟩
  obtain ⟨p, hp, rfl⟩ := mem_map.1 hap
  have hpid := h.agree hag (mem_ofPair.1 hp).1
  have hsub : (ofAns kβ (kβ b) s.anss).Sublist s.anss := filter_sublist
  have hnd' := (hsub.map idβ).nodup hnd
  rw [h.anss, map_append] at hnd'
  exact (nodup_append.1 hnd').2.2 _ (mem_map_of_mem (mem_map_of_mem hp)) _
    (mem_map_of_mem hbk) (hpid.symm.trans hid)

theorem ofAns_map {idβ : β → α} {anss : List β} (hk : ∀ b ∈ anss, kβ b = kα (idβ b)) (k : κ) :
    (ofAns kβ k anss).map idβ = ofReq kα k (anss.map idβ) := by
  rw [ofReq, filter_map, ofAns]
  refine congrArg _ (filter_congr fun b hb => ?_)
  simp [hk b hb]

section
variable {idβ : β → α} {reqs : List α} {anss : List β}

theorem Agree.of_map_prefix (hk : ∀ b ∈ anss, kβ b = kα (idβ b)) (hp : anss.map idβ <+: reqs) :
    Agree kα kβ id idβ reqs anss := by
  intro k n a b ha hb
  have hpre : ofReq kα k (anss.map idβ) <+: ofReq kα k reqs := hp.filter _
  rw [← ofAns_map hk] at hpre
  obtain ⟨t, ht⟩ := hpre
  have hb' : ((ofAns kβ k anss).map idβ)[n]? = some (idβ b) := by rw [List.getElem?_map, hb]; rfl
  obtain ⟨hlt, -⟩ := List.getElem?_eq_some_iff.1 hb'
  rw [← ht, List.getElem?_append_left hlt, hb'] at ha
  exact (Option.some.inj ha).symm

theorem Fifo.kept_nil_of_map_prefix (h : Fifo kα kβ s) (hk : ∀ b ∈ s.anss, kβ b = kα (idβ b))
    (hp : s.anss.map idβ <+: s.reqs) : s.kept = [] := by
  rw [eq_nil_iff_forall_not_mem]
  intro b hb
  have hbk : b ∈ ofAns kβ (kβ b) s.kept := mem_ofAns.2 ⟨hb, rfl⟩
  have hw := (h.left (kβ b)).resolve_right (ne_nil_of_mem hbk)
  have hpre : ofReq kα (kβ b) (s.anss.map idβ) <+: ofReq kα (kβ b) s.reqs := hp.filter _
  have hle := hpre.length_le
  rw [← ofAns_map hk, length_map, h.anss, h.reqs, hw] at hle
  simp only [length_append, length_map, length_nil] at hle
  have := length_pos_of_mem hbk
  omega

end

theorem Fifo.answered (h : Fifo kα kβ s) (hk : s.kept = []) {b : β} (hb : b ∈ s.anss) :
    ∃ a, (a, b) ∈ s.pairs := by
  have hmem : b ∈ ofAns kβ (kβ b) s.anss := mem_ofAns.2 ⟨hb, rfl⟩
  rw [h.anss, hk] at hmem
  simp only [ofAns, filter_nil, append_nil] at hmem
  obtain ⟨⟨a, b'⟩, hp, rfl⟩ := mem_map.1 hmem
  exact ⟨a, (mem_ofPair.1 hp).1⟩

end

end Pairing

end PsMpi.Lib
