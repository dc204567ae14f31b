import PsMpi.Info.Merge

/-!
# Merging and splitting info objects
-/

open List Option

namespace PsMpi.Infos

open PsMpi.Lib

variable {info info' : Info} {key k v : String}

/-! ## Values and arrays -/

section views

structure Info.WF (info : Info) : Prop where
  entries : Table.Distinct Entry.canon info.entries
  arrays : Table.Distinct ArrayEntry.canon info.arrayEntries
  marked : ∀ key values, array info key = some values →
    lookup info key = some arrayType ∧ values ≠ []

theorem lookup_congr (h : canon k = canon key) : lookup info k = lookup info key := by
  rw [lookup, lookup, h]

theorem array_congr (h : canon k = canon key) : array info k = array info key := by
  rw [array, array, h]

theorem lookup_eq_none : lookup info k = none ↔
    Table.find Entry.canon (canon k) info.entries = none := map_eq_none_iff

theorem lookup_push : lookup (push info k v) key =
    (lookup info key).or (if canon k = canon key then some v else none) := by
  rw [lookup, push, Table.find_append, map_or, lookup]
  congr 1
  show Option.map _ (if canon k = canon key then _ else _) = _
  split <;> rfl

theorem lookup_set : lookup (set info k v) key =
    if canon key = canon k then some v else lookup info key := by
  unfold set
  cases hk : lookup info k with
  | none =>
    simp only [lookup_push]
    by_cases h : canon key = canon k
    · rw [if_pos h, if_pos h.symm, lookup_congr h, hk]
      rfl
    · rw [if_neg h, if_neg (Ne.symm h), or_none]
  | some w =>
    obtain ⟨e, he, -⟩ := map_eq_some_iff.1 hk
    show Option.map Entry.value (Table.find _ _ (Table.updateFirst _ _ _ _)) = _
    rw [Table.find_updateFirst (f := fun e : Entry => { e with value := v }) fun _ => rfl]
    split
    · rw [he]
      rfl
    · rfl

theorem Info.WF.array_set (hw : info.WF) : array (set info k v) key =
    if canon key = canon k then none else array info key := by
  unfold set
  cases hk : lookup info k with
  | none =>
    show array info key = _
    split
    · next h =>
      cases ha : array info key with
      | none => rfl
      | some values =>
        have hm := (hw.marked key values ha).1
        rw [lookup_congr h, hk] at hm
        cases hm
    · rfl
  | some w =>
    show Option.map ArrayEntry.values (Table.find _ _ (Table.erase _ _ _)) = _
    rw [hw.arrays.find_erase]
    split
    · rfl
    · rfl

theorem Info.WF.set (hw : info.WF) (k v : String) : (set info k v).WF := by
  refine ⟨?_, ?_, fun key values ha => ?_⟩
  · unfold Infos.set
    cases hk : lookup info k with
    | none => exact hw.entries.append (lookup_eq_none.1 hk)
    | some w => exact hw.entries.updateFirst fun _ => rfl
  · unfold Infos.set
    cases hk : lookup info k with
    | none => exact hw.arrays
    | some w => exact hw.arrays.erase
  · rw [hw.array_set] at ha
    split at ha
    · cases ha
    · next h =>
      rw [lookup_set, if_neg h]
      exact hw.marked key values ha

structure HasArray (info : Info) (k : String) (values : List String) (info' : Info) : Prop where
  entries : info'.entries = info.entries
  arrays : Table.Distinct ArrayEntry.canon info'.arrayEntries
  array : ∀ key, array info' key = if canon key = canon k then some values else array info key

theorem HasArray.lookup {values : List String} (h : HasArray info k values info') (key : String) :
    lookup info' key = lookup info key := by
  rw [Infos.lookup, h.entries, Infos.lookup]

theorem HasArray.self {values : List String} (h : HasArray info k values info') :
    Infos.array info' k = some values := by rw [h.array, if_pos rfl]

theorem HasArray.trans {values values' : List String} {info'' : Info}
    (h : HasArray info k values info') (h' : HasArray info' k values' info'') :
    HasArray info k values' info'' := by
  refine ⟨h'.entries.trans h.entries, h'.arrays, fun key => ?_⟩
  rw [h'.array, h.array]
  split <;> rfl

theorem pushArray_spec (hd : Table.Distinct ArrayEntry.canon info.arrayEntries)
    (hnone : array info k = none) {index count : Nat} (hi : index < count) :
    ∃ info', pushArray info index count k v = .ok info' ∧
      HasArray info k ((List.replicate count noValue).set index v) info' := by
  have hfind : Table.find ArrayEntry.canon (canon k) info.arrayEntries = none :=
    map_eq_none_iff.1 hnone
  refine ⟨_, if_pos hi, rfl, hd.append hfind, fun key => ?_⟩
  show Option.map _ (Table.find _ _ (_ ++ [_])) = _
  rw [Table.find_append, map_or]
  show (array info key).or (Option.map _ (if canon k = canon key then _ else _)) = _
  by_cases h : canon key = canon k
  · rw [if_pos h, if_pos h.symm, array_congr h, hnone]
    rfl
  · rw [if_neg h, if_neg (Ne.symm h)]
    exact or_none

theorem setArray_spec (hd : Table.Distinct ArrayEntry.canon info.arrayEntries)
    {values : List String} (hsome : array info k = some values) {i : Nat}
    (hi : i < values.length) : ∃ info', setArray info i k v = .ok info' ∧
      HasArray info k (values.set i v) info' := by
  obtain ⟨e, he, hv⟩ := map_eq_some_iff.1 hsome
  have hcount : info.arrayEntries.countP (fun e => e.canon = canon k) = 1 := by
    rw [hd.countP, he]
    rfl
  refine ⟨_, if_pos ⟨hcount, values, hsome, hi⟩, rfl, hd.updateFirst fun _ => rfl, fun key => ?_⟩
  show Option.map _ (Table.find _ _ (Table.updateFirst _ _ _ _)) = _
  rw [Table.find_updateFirst (f := fun e : ArrayEntry => { e with values := e.values.set i v })
    fun _ => rfl]
  split
  · rw [he, map_some, map_some, hv]
  · rfl

theorem lookupArray_none (h : array info k = none) (index : Nat) :
    lookupArray info k index = .ok none := by
  rw [lookupArray, h]

theorem lookupArray_some {values : List String} (h : array info k = some values) {index : Nat}
    {value : String} (hi : values[index]? = some value) :
    lookupArray info k index = .ok (some (value, values.length)) := by
  rw [lookupArray, h]
  simp only [hi]

end views

/-! ## Copying -/

section copying

theorem setArrayFrom_spec {l rest w : List String} {index : Nat}
    (hd : Table.Distinct ArrayEntry.canon info.arrayEntries) (hw : array info k = some w)
    (hlen : w.length = l.length) (hrest : l.drop index = rest)
    (hpre : ∀ j < index, w[j]? = l[j]?) (hi : index ≤ l.length) :
    ∃ info', setArrayFrom k rest index info = .ok info' ∧ HasArray info k l info' := by
  induction rest generalizing info w index with
  | nil =>
    have hw' : w = l := by
      refine ext_getElem? fun j => ?_
      by_cases hj : j < index
      · exact hpre j hj
      · have hle : l.length ≤ index := drop_eq_nil_iff.1 hrest
        rw [List.getElem?_eq_none (by omega), List.getElem?_eq_none (by omega)]
    subst hw'
    refine ⟨info, rfl, rfl, hd, fun key => ?_⟩
    split
    · next h => rw [array_congr h, hw]
    · rfl
  | cons value rest ih =>
    have hlt : index < l.length := by
      by_contra hge
      rw [drop_eq_nil_of_le (Nat.le_of_not_lt hge)] at hrest
      cases hrest
    rw [drop_eq_getElem_cons hlt] at hrest
    obtain ⟨hval, hrest⟩ := List.cons.inj hrest
    obtain ⟨info₁, h₁, ha₁⟩ := setArray_spec (v := value) hd hw (hlen ▸ hlt)
    have hpre₁ : ∀ j < index + 1, (w.set index value)[j]? = l[j]? := by
      intro j hj
      by_cases hj' : j = index
      · rw [hj', List.getElem?_set_self (hlen ▸ hlt), ← hval, List.getElem?_eq_getElem hlt]
      · rw [List.getElem?_set_ne (Ne.symm hj')]
        exact hpre j (by omega)
    obtain ⟨info₂, h₂, ha₂⟩ := ih ha₁.arrays ha₁.self (length_set.trans hlen) hrest hpre₁ hlt
    refine ⟨info₂, ?_, ha₁.trans ha₂⟩
    rw [setArrayFrom, h₁]
    exact h₂

theorem replicate_set_zero {values : List String} {value : String} {rest : List String}
    (h : values = value :: rest) (j : Nat) (hj : j < 1) :
    ((List.replicate values.length noValue).set 0 value)[j]? = values[j]? := by
  obtain rfl : j = 0 := by omega
  rw [h, List.getElem?_set_self (by simp)]
  rfl

theorem dupArray_spec {e : ArrayEntry} (hd : Table.Distinct ArrayEntry.canon info.arrayEntries)
    (hnone : array info e.key = none) (hne : e.values ≠ []) :
    ∃ info', dupArray info e = .ok info' ∧ HasArray info e.key e.values info' := by
  unfold dupArray
  cases hv : e.values with
  | nil => exact absurd hv hne
  | cons value values =>
    have hlen : 0 < (value :: values).length := Nat.succ_pos _
    obtain ⟨info₁, h₁, ha₁⟩ := pushArray_spec (v := value) hd hnone hlen
    obtain ⟨info₂, h₂, ha₂⟩ := setArrayFrom_spec (l := value :: values) ha₁.arrays ha₁.self
      (by simp) (by rfl) (replicate_set_zero rfl) (by simp)
    refine ⟨info₂, ?_, ha₁.trans ha₂⟩
    simp only [h₁]
    exact h₂

theorem foldlM_dupArray {l : List ArrayEntry} (hd : Table.Distinct ArrayEntry.canon info.arrayEntries)
    (hl : Table.Distinct ArrayEntry.canon l) (hne : ∀ e ∈ l, e.values ≠ [])
    (hdis : ∀ e ∈ l, array info e.key = none) :
    ∃ info', l.foldlM dupArray info = .ok info' ∧ info'.entries = info.entries ∧
      Table.Distinct ArrayEntry.canon info'.arrayEntries ∧ ∀ key, array info' key =
        (array info key).or ((Table.find ArrayEntry.canon (canon key) l).map ArrayEntry.values) := by
  induction l generalizing info with
  | nil => exact ⟨info, rfl, rfl, hd, fun key => or_none.symm⟩
  | cons e l ih =>
    obtain ⟨info₁, h₁, ha₁⟩ := dupArray_spec hd (hdis e mem_cons_self)
      (hne e mem_cons_self)
    rw [Table.Distinct, map_cons, nodup_cons] at hl
    have hdis₁ : ∀ e' ∈ l, array info₁ e'.key = none := by
      intro e' he'
      rw [ha₁.array, if_neg, hdis e' (mem_cons_of_mem _ he')]
      intro heq
      exact hl.1 (mem_map.2 ⟨e', he', heq⟩)
    obtain ⟨info₂, h₂, hent, hd₂, harr⟩ := ih ha₁.arrays hl.2
      (fun e' he' => hne e' (mem_cons_of_mem _ he')) hdis₁
    refine ⟨info₂, ?_, hent.trans ha₁.entries, hd₂, fun key => ?_⟩
    · rw [foldlM_cons, h₁]
      exact h₂
    · rw [harr, ha₁.array, Table.find_cons]
      show _ = (array info key).or (Option.map _ (if canon e.key = canon key then _ else _))
      by_cases h : canon key = canon e.key
      · rw [if_pos h, if_pos h.symm, array_congr h, hdis e mem_cons_self]
        rfl
      · rw [if_neg h, if_neg (Ne.symm h)]

def Same (a b : Info) : Prop := ∀ key, lookup a key = lookup b key ∧ array a key = array b key

theorem Info.WF.of_same {b : Info} (hw : info.WF) (hs : Same b info)
    (he : Table.Distinct Entry.canon b.entries)
    (ha : Table.Distinct ArrayEntry.canon b.arrayEntries) : b.WF := by
  refine ⟨he, ha, fun key values harr => ?_⟩
  rw [(hs key).1]
  rw [(hs key).2] at harr
  exact hw.marked key values harr

theorem foldl_push (l : List Entry) (a : Info) :
    l.foldl (fun new e => push new e.key e.value) a = { a with entries := a.entries ++ l } := by
  induction l generalizing a with
  | nil =>
    rw [append_nil]
    rfl
  | cons e l ih =>
    rw [foldl_cons, ih, push]
    simp

theorem Info.WF.dup (hw : info.WF) : ∃ d, dup info = .ok d ∧ d.WF ∧ Same d info := by
  have hne : ∀ e ∈ info.arrayEntries, e.values ≠ [] := by
    intro e he
    refine (hw.marked e.key e.values ?_).2
    rw [array, show canon e.key = e.canon from rfl, hw.arrays.find_of_mem he]
    rfl
  let base : Info := { Info.empty with entries := Info.empty.entries ++ info.entries }
  have hbase : Table.Distinct ArrayEntry.canon base.arrayEntries := nodup_nil
  obtain ⟨d, hdup, hent, hd, harr⟩ := foldlM_dupArray hbase hw.arrays hne fun _ _ => rfl
  have hsame : Same d info := by
    intro key
    refine ⟨?_, harr key⟩
    rw [lookup, hent, lookup]
    rfl
  refine ⟨d, ?_, hw.of_same hsame ?_ hd, hsame⟩
  · rw [Infos.dup, foldl_push]
    exact hdup
  · rw [hent]
    exact hw.entries

theorem dupKeyLoop_spec {src : Info} {values w : List String} {n i : Nat}
    (hd : Table.Distinct ArrayEntry.canon info.arrayEntries) (hsrc : array src k = some values)
    (hw : array info k = some w) (hlen : w.length = values.length)
    (hpre : ∀ j < i, w[j]? = values[j]?) (hn : i + n = values.length) :
    ∃ info', dupKeyLoop src k n i info = .ok info' ∧ HasArray info k values info' := by
  induction n generalizing info w i with
  | zero =>
    obtain rfl : w = values := by
      refine ext_getElem? fun j => ?_
      by_cases hj : j < i
      · exact hpre j hj
      · rw [List.getElem?_eq_none (by omega), List.getElem?_eq_none (by omega)]
    refine ⟨info, rfl, rfl, hd, fun key => ?_⟩
    split
    · next h => rw [array_congr h, hw]
    · rfl
  | succ n ih =>
    have hlt : i < values.length := by omega
    have hget : values[i]? = some values[i] := List.getElem?_eq_getElem hlt
    obtain ⟨info₁, h₁, ha₁⟩ := setArray_spec (v := values[i]) hd hw (hlen ▸ hlt)
    have hpre₁ : ∀ j < i + 1, (w.set i values[i])[j]? = values[j]? := by
      intro j hj
      by_cases hj' : j = i
      · rw [hj', List.getElem?_set_self (hlen ▸ hlt), hget]
      · rw [List.getElem?_set_ne (Ne.symm hj')]
        exact hpre j (by omega)
    obtain ⟨info₂, h₂, ha₂⟩ := ih ha₁.arrays ha₁.self (length_set.trans hlen) hpre₁ (by omega)
    refine ⟨info₂, ?_, ha₁.trans ha₂⟩
    rw [dupKeyLoop, lookupArray_some hsrc hget]
    show (setArray info i k values[i]).bind _ = _
    rw [h₁]
    exact h₂

theorem dupKey_spec {src : Info} (hsrc : src.WF) (hw : info.WF) (hv : lookup src k = some v) :
    ∃ d, dupKey src k info = .ok d ∧ d.WF ∧
      ∀ key, lookup d key = (if canon key = canon k then some v else lookup info key) ∧
        array d key = if canon key = canon k then array src k else array info key := by
  have hset := hw.set k v
  unfold dupKey
  simp only [hv]
  cases ha : array src k with
  | none =>
    rw [lookupArray_none ha]
    exact ⟨_, rfl, hset, fun key => ⟨lookup_set, hw.array_set⟩⟩
  | some values =>
    obtain ⟨hmark, hne⟩ := hsrc.marked k values ha
    obtain ⟨value, rest, rfl⟩ := exists_cons_of_ne_nil hne
    rw [lookupArray_some ha (show (value :: rest)[0]? = some value from rfl)]
    have hnone : array (deleteArray (set info k v) k) k = none := by
      show Option.map _ (Table.find _ _ (Table.erase _ _ _)) = _
      rw [hset.arrays.find_erase, if_pos rfl]
      rfl
    have hother : ∀ key, canon key ≠ canon k →
        array (deleteArray (set info k v) k) key = array info key := by
      intro key hkey
      show Option.map _ (Table.find _ _ (Table.erase _ _ _)) = _
      rw [hset.arrays.find_erase, if_neg hkey]
      exact hw.array_set.trans (if_neg hkey)
    have hlen : 0 < (value :: rest).length := Nat.succ_pos _
    have herase : Table.Distinct ArrayEntry.canon
        (deleteArray (set info k v) k).arrayEntries := hset.arrays.erase
    obtain ⟨d₁, h₁, ha₁⟩ := pushArray_spec (v := value) herase hnone hlen
    obtain ⟨d₂, h₂, ha₂⟩ := dupKeyLoop_spec (n := (value :: rest).length - 1) (i := 1)
      ha₁.arrays ha ha₁.self (by simp) (replicate_set_zero rfl) (by simp; omega)
    have hd := ha₁.trans ha₂
    have hlook : ∀ key, lookup d₂ key =
        if canon key = canon k then some v else lookup info key := by
      intro key
      rw [hd.lookup]
      exact lookup_set
    have harr : ∀ key, array d₂ key =
        if canon key = canon k then some (value :: rest) else array info key := by
      intro key
      rw [hd.array]
      split
      · rfl
      · next h => exact hother key h
    refine ⟨d₂, ?_, ⟨?_, hd.arrays, fun key values' hkey => ?_⟩, fun key => ⟨hlook key, harr key⟩⟩
    · simp only [bind, Except.bind, h₁]
      exact h₂
    · rw [hd.entries]
      exact hset.entries
    · rw [harr] at hkey
      rw [hlook]
      split at hkey
      · next h =>
        rw [if_pos h, ← hv, hmark, ← Option.some.inj hkey]
        exact ⟨rfl, hne⟩
      · next h =>
        rw [if_neg h]
        exact hw.marked key values' hkey

end copying

/-! ## Info objects of users -/

section users

inductive Built : Info → Prop
  | create : Built Info.empty
  | set {info : Info} (key : String) {value : String} :
      Built info → value ≠ arrayType → Built (set info key value)
  | delete {info info' : Info} {key : String} :
      Built info → delete info key = .ok info' → Built info'
  | dup {info info' : Info} : Built info → dup info = .ok info' → Built info'
  | dupKey {src dest info' : Info} {key : String} :
      Built src → Built dest → dupKey src key dest = .ok info' → Built info'

structure Plain (info : Info) : Prop where
  entries : Table.Distinct Entry.canon info.entries
  arrays : info.arrayEntries = []
  values : ∀ key, lookup info key ≠ some arrayType

theorem Plain.array_none (hp : Plain info) (key : String) : array info key = none := by
  rw [array, hp.arrays]
  rfl

theorem Plain.wf (hp : Plain info) : info.WF := by
  refine ⟨hp.entries, ?_, fun key values ha => ?_⟩
  · rw [hp.arrays]
    exact nodup_nil
  · rw [hp.array_none] at ha
    cases ha

theorem Plain.set (hp : Plain info) (k : String) (hv : v ≠ arrayType) : Plain (set info k v) := by
  refine ⟨(hp.wf.set k v).entries, ?_, fun key => ?_⟩
  · unfold Infos.set
    cases lookup info k with
    | none => exact hp.arrays
    | some w =>
      show Table.erase _ _ info.arrayEntries = []
      rw [hp.arrays]
      rfl
  · rw [lookup_set]
    split
    · exact fun heq => hv (Option.some.inj heq)
    · exact hp.values key

theorem Built.plain (hb : Built info) : Plain info := by
  induction hb with
  | create => exact ⟨nodup_nil, rfl, fun _ h => by cases h⟩
  | set key _ hv ih => exact ih.set key hv
  | @delete info info' key _ h ih =>
    unfold Infos.delete at h
    split at h
    · cases h
    · obtain rfl := Except.ok.inj h
      refine ⟨ih.entries.erase, ?_, fun key' => ?_⟩
      · show Table.erase _ _ info.arrayEntries = []
        rw [ih.arrays]
        rfl
      · show Option.map _ (Table.find _ _ (Table.erase _ _ info.entries)) ≠ _
        rw [ih.entries.find_erase]
        split
        · exact fun h => by cases h
        · exact ih.values key'
  | @dup info info' _ h ih =>
    rw [Infos.dup, ih.arrays, foldl_push] at h
    obtain rfl := Except.ok.inj h
    exact ⟨ih.entries, rfl, ih.values⟩
  | @dupKey src dest info' key _ _ h ihs ihd =>
    unfold Infos.dupKey at h
    split at h
    · cases h
    · next value hv =>
      rw [lookupArray_none (ihs.array_none key)] at h
      obtain rfl := Except.ok.inj h
      exact ihd.set key fun heq => ihs.values key (heq ▸ hv)

end users

/-! ## All entries -/

section entries

variable {infos : List (Option Info)} {i j : Nat} {e : Entry}

def held (infos : List (Option Info)) (i : Nat) (key : String) : Option String :=
  (infos[i]?).join.bind fun info => lookup info key

def Shared (infos : List (Option Info)) (key : String) : Prop :=
  ∃ i j, i < j ∧ (held infos i key).isSome = true ∧ (held infos j key).isSome = true

theorem held_congr (h : canon k = canon key) : held infos i k = held infos i key := by
  unfold held
  simp only [lookup_congr h]

theorem shared_congr (h : canon k = canon key) : Shared infos k ↔ Shared infos key := by
  unfold Shared
  simp only [held_congr h]

theorem held_some (h : (held infos i key).isSome = true) :
    ∃ info, infos[i]? = some (some info) ∧ (lookup info key).isSome = true := by
  obtain ⟨v, hv⟩ := isSome_iff_exists.1 h
  obtain ⟨info, hi, hl⟩ := bind_eq_some_iff.1 hv
  refine ⟨info, ?_, isSome_iff_exists.2 ⟨v, hl⟩⟩
  rw [join_eq_some_iff] at hi
  exact hi

theorem mem_allEntries : (i, e) ∈ allEntries infos ↔
    ∃ info, infos[i]? = some (some info) ∧ e ∈ info.entries := by
  unfold allEntries
  rw [mem_flatMap]
  constructor
  · rintro ⟨⟨o, j⟩, hmem, he⟩
    cases o with
    | none => cases he
    | some info =>
      obtain ⟨e', he', heq⟩ := mem_map.1 he
      obtain ⟨rfl, rfl⟩ := Prod.mk.inj heq
      exact ⟨info, mem_zipIdx_iff_getElem?.1 hmem, he'⟩
  · rintro ⟨info, hi, he⟩
    exact ⟨(some info, i), mem_zipIdx_iff_getElem?.2 hi, mem_map.2 ⟨e, he, rfl⟩⟩

theorem held_iff : (held infos i key).isSome = true ↔
    ∃ e, (i, e) ∈ allEntries infos ∧ e.canon = canon key := by
  constructor
  · intro h
    obtain ⟨info, hi, hl⟩ := held_some h
    rw [lookup, isSome_map] at hl
    obtain ⟨e, he⟩ := isSome_iff_exists.1 hl
    obtain ⟨hmem, hkey⟩ := Table.find_some he
    exact ⟨e, mem_allEntries.2 ⟨info, hi, hmem⟩, hkey⟩
  · rintro ⟨e, hmem, hkey⟩
    obtain ⟨info, hi, he⟩ := mem_allEntries.1 hmem
    rw [held, hi, join_some, bind_some, lookup, isSome_map,
      ← ne_none_iff_isSome, Ne, Table.find_eq_none, not_not, ← hkey]
    exact mem_map_of_mem he

theorem held_of_mem (hp : ∀ info, some info ∈ infos → Plain info) (h : (i, e) ∈ allEntries infos) :
    held infos i e.key = some e.value := by
  obtain ⟨info, hi, he⟩ := mem_allEntries.1 h
  have hfind := (hp info (mem_of_getElem? hi)).entries.find_of_mem he
  rw [held, hi, join_some, bind_some, lookup]
  exact congrArg (Option.map Entry.value) hfind

theorem fst_of_mem_entries {o : Option Info} {n : Nat} {p : Nat × Entry}
    (hmem : p ∈ (match (o, n).1 with
      | none => []
      | some info => info.entries.map fun e => ((o, n).2, e))) : p.1 = n := by
  cases o with
  | none => cases hmem
  | some info =>
    obtain ⟨e', -, rfl⟩ := mem_map.1 hmem
    rfl

theorem pairwise_allEntries (hp : ∀ info, some info ∈ infos → Plain info) :
    (allEntries infos).Pairwise fun p q => p.1 < q.1 ∨ p.1 = q.1 ∧ p.2.canon ≠ q.2.canon := by
  unfold allEntries
  rw [pairwise_flatMap]
  constructor
  · rintro ⟨o, j⟩ hmem
    cases o with
    | none => exact List.Pairwise.nil
    | some info =>
      have hd := (hp info (mem_of_getElem? (mem_zipIdx_iff_getElem?.1 hmem))).entries
      rw [Table.Distinct, nodup_iff_pairwise_ne, pairwise_map] at hd
      exact pairwise_map.2 (hd.imp fun hne => .inr ⟨rfl, hne⟩)
  · rw [pairwise_iff_getElem]
    intro a b ha hb hab x hx y hy
    rw [getElem_zipIdx] at hx hy
    have hx := fst_of_mem_entries hx
    have hy := fst_of_mem_entries hy
    left
    omega

variable {seen rest : List (Nat × Entry)}

theorem held_none_of_split (hp : ∀ info, some info ∈ infos → Plain info)
    (hs : allEntries infos = seen ++ (i, e) :: rest)
    (hnew : ∀ p ∈ seen, p.2.canon ≠ e.canon) (hj : j < i) : held infos j e.key = none := by
  have hpw := pairwise_allEntries hp
  rw [hs, pairwise_append] at hpw
  rw [← not_isSome_iff_eq_none, held_iff]
  rintro ⟨e', hmem, hkey⟩
  rw [hs, mem_append, mem_cons] at hmem
  rcases hmem with hmem | hmem | hmem
  · exact hnew _ hmem hkey
  · have := (Prod.mk.inj hmem).1
    omega
  · have := (pairwise_cons.1 hpw.2.1).1 _ hmem
    simp only at this
    omega

theorem shared_of_split (hp : ∀ info, some info ∈ infos → Plain info)
    (hs : allEntries infos = seen ++ (i, e) :: rest) {p : Nat × Entry} (hmem : p ∈ seen)
    (hkey : p.2.canon = e.canon) : Shared infos e.key := by
  have hpw := pairwise_allEntries hp
  rw [hs, pairwise_append] at hpw
  have hlt : p.1 < i := by
    rcases hpw.2.2 p hmem (i, e) mem_cons_self with h | h
    · exact h
    · exact absurd hkey h.2
  refine ⟨p.1, i, hlt, held_iff.2 ⟨p.2, ?_, hkey⟩, held_iff.2 ⟨e, ?_, rfl⟩⟩
  · rw [hs]
    exact mem_append_left _ hmem
  · rw [hs]
    exact mem_append_right _ mem_cons_self

end entries

/-! ## Merging -/

section merging

open Classical

variable {infos : List (Option Info)} {i j : Nat} {e : Entry} {new : Info}

def column (n : Nat) (f : Nat → String) : List String := (List.range n).map f

theorem column_set {n : Nat} {f : Nat → String} {k : Nat} {v : String} :
    (column n f).set k v = column n fun j => if j = k then v else f j := by
  refine ext_getElem? fun j => ?_
  rw [List.getElem?_set, column, column, length_map, length_range, List.getElem?_map,
    List.getElem?_map]
  by_cases hjk : k = j
  · subst hjk
    rw [if_pos rfl]
    split
    · next h => rw [List.getElem?_range h, map_some, if_pos rfl]
    · next h => rw [List.getElem?_eq_none (by simpa using h), map_none]
  · rw [if_neg hjk]
    rcases Nat.lt_or_ge j n with h | h
    · rw [List.getElem?_range h, map_some, map_some, if_neg (Ne.symm hjk)]
    · rw [List.getElem?_eq_none (by simpa using h), map_none, map_none]

theorem column_congr {n : Nat} {f g : Nat → String} (h : ∀ j < n, f j = g j) :
    column n f = column n g :=
  map_congr_left fun j hj => h j (mem_range.1 hj)

theorem replicate_eq_column (n : Nat) : List.replicate n noValue = column n fun _ => noValue := by
  rw [column, map_const', length_range]

def heldOr (infos : List (Option Info)) (key : String) (j : Nat) : String :=
  (held infos j key).getD noValue

theorem held_of_le (h : infos.length ≤ j) : held infos j key = none := by
  rw [held, List.getElem?_eq_none h]
  rfl

theorem mergeRest_spec (hp : ∀ info, some info ∈ infos → Plain info) {m c : Nat} {found : Bool}
    (hm : c + m = infos.length) (hic : i < c)
    (hfound : found = true ↔ ∃ j, i < j ∧ j < c ∧ (held infos j k).isSome = true)
    (harr : array new k = if found then some (column infos.length fun j =>
      if i < j ∧ j < c then heldOr infos k j else noValue) else none)
    (hd : Table.Distinct ArrayEntry.canon new.arrayEntries) :
    ∃ new' found', mergeRest infos.length k (infos.zipIdx.drop c) new found = .ok (new', found') ∧
      (found' = true ↔ ∃ j, i < j ∧ (held infos j k).isSome = true) ∧
      new'.entries = new.entries ∧ Table.Distinct ArrayEntry.canon new'.arrayEntries ∧
      ∀ key, array new' key = if canon key = canon k then
        if found' then some (column infos.length fun j =>
          if i < j then heldOr infos k j else noValue) else none
        else array new key := by
  induction m generalizing new c found with
  | zero =>
    have hbound : ∀ j, (held infos j k).isSome = true → j < c := by
      intro j hj
      by_contra hge
      rw [held_of_le (by omega)] at hj
      cases hj
    refine ⟨new, found, ?_, ?_, rfl, hd, fun key => ?_⟩
    · rw [drop_eq_nil_of_le (by simp; omega)]
      rfl
    · rw [hfound]
      exact ⟨fun ⟨j, h₁, _, h₂⟩ => ⟨j, h₁, h₂⟩, fun ⟨j, h₁, h₂⟩ => ⟨j, h₁, hbound j h₂, h₂⟩⟩
    · split
      · next h =>
        rw [array_congr h, harr]
        split
        · refine congrArg some (column_congr fun j hj => ?_)
          have : j < c := by omega
          simp only [this, and_true]
        · rfl
      · rfl
  | succ m ih =>
    have hlt : c < infos.length := by omega
    have hdrop : infos.zipIdx.drop c = (infos[c], c) :: infos.zipIdx.drop (c + 1) := by
      rw [drop_eq_getElem_cons (by simpa using hlt), getElem_zipIdx, Nat.zero_add]
    have hheld : held infos c k = infos[c].bind fun info => lookup info k := by
      rw [held, List.getElem?_eq_getElem hlt, join_some]
    rw [hdrop]
    -- an info object without the key
    have hfoundSkip : held infos c k = none → (found = true ↔
        ∃ j, i < j ∧ j < c + 1 ∧ (held infos j k).isSome = true) := by
      intro hnone
      rw [hfound]
      constructor
      · rintro ⟨j, h₁, h₂, h₃⟩
        exact ⟨j, h₁, by omega, h₃⟩
      · rintro ⟨j, h₁, h₂, h₃⟩
        have hne : j ≠ c := fun heq => by rw [heq, hnone] at h₃; cases h₃
        exact ⟨j, h₁, by omega, h₃⟩
    have harrSkip : held infos c k = none → array new k = if found then
        some (column infos.length fun j =>
          if i < j ∧ j < c + 1 then heldOr infos k j else noValue) else none := by
      intro hnone
      rw [harr]
      split
      · refine congrArg some (column_congr fun j _ => ?_)
        by_cases hjc : j = c
        · rw [if_neg (by omega), hjc, heldOr, hnone]
          split <;> rfl
        · simp only [show j < c + 1 ↔ j < c by omega]
      · rfl
    have hskip : held infos c k = none → _ := fun hnone => ih (c := c + 1)
      (by omega) (by omega) (hfoundSkip hnone) (harrSkip hnone) hd
    cases hc : infos[c] with
    | none =>
      rw [hc] at hheld
      rw [mergeRest]
      exact hskip hheld
    | some info =>
      rw [hc] at hheld
      have hheld : held infos c k = lookup info k := hheld
      have hplain := hp info (hc ▸ getElem_mem hlt)
      rw [mergeRest]
      cases hl : lookup info k with
      | none => exact hskip (hheld.trans hl)
      | some value =>
        have hval : heldOr infos k c = value := by rw [heldOr, hheld, hl, getD_some]
        have hne : value ≠ arrayType := fun heq => hplain.values k (heq ▸ hl)
        have hfound' : true = true ↔ ∃ j, i < j ∧ j < c + 1 ∧ (held infos j k).isSome = true :=
          iff_of_true rfl ⟨c, hic, Nat.lt_succ_self c, by rw [hheld, hl]; rfl⟩
        simp only [if_neg hne]
        -- the value is put into the array, which is new or has been created before
        have hput : ∃ new₁, (if found = true then setArray new c k value
            else pushArray new c infos.length k value) = .ok new₁ ∧
            HasArray new k (column infos.length fun j =>
              if i < j ∧ j < c + 1 then heldOr infos k j else noValue) new₁ := by
          have hcol : ∀ f : Nat → String, (∀ j ≠ c, f j =
              if i < j ∧ j < c + 1 then heldOr infos k j else noValue) →
              (column infos.length fun j => if j = c then value else f j) =
                column infos.length fun j =>
                  if i < j ∧ j < c + 1 then heldOr infos k j else noValue := by
            intro f hf
            refine column_congr fun j _ => ?_
            by_cases hjc : j = c
            · rw [if_pos hjc, hjc, if_pos ⟨hic, Nat.lt_succ_self c⟩, hval]
            · rw [if_neg hjc, hf j hjc]
          cases found with
          | true =>
            have harr : array new k = some _ := harr
            obtain ⟨new₁, h₁, ha₁⟩ := setArray_spec (v := value) hd harr (i := c)
              (by simpa [column] using hlt)
            refine ⟨new₁, h₁, ?_⟩
            rw [column_set, hcol _ fun j hj => by simp only [show j < c + 1 ↔ j < c by omega]] at ha₁
            exact ha₁
          | false =>
            have harr : array new k = none := harr
            obtain ⟨new₁, h₁, ha₁⟩ := pushArray_spec (v := value) hd harr hlt
            refine ⟨new₁, h₁, ?_⟩
            rw [replicate_eq_column, column_set, hcol _ fun j hj => ?_] at ha₁
            · exact ha₁
            · refine (ite_eq_right_iff.2 fun hij => ?_).symm
              rw [heldOr, not_isSome_iff_eq_none.1 fun hsome => nomatch hfound.2
                ⟨j, hij.1, by omega, hsome⟩]
              rfl
        obtain ⟨new₁, h₁, ha₁⟩ := hput
        obtain ⟨new₂, found₂, h₂, hf₂, hent, hd₂, harr₂⟩ := ih (c := c + 1)
          (by omega) (by omega) hfound' ha₁.self ha₁.arrays
        refine ⟨new₂, found₂, ?_, hf₂, hent.trans ha₁.entries, hd₂, fun key => ?_⟩
        · cases found with
          | true =>
            rw [if_pos rfl] at h₁ ⊢
            rw [h₁]
            exact h₂
          | false =>
            rw [if_neg nofun] at h₁ ⊢
            rw [h₁]
            exact h₂
        · rw [harr₂]
          split
          · rfl
          · next h => rw [ha₁.array, if_neg h]

theorem foldlM_inv {α σ : Type} {f : σ → α → Except Error σ} {I : List α → σ → Prop} {l : List α}
    {s : σ} (h₀ : I [] s) (hstep : ∀ seen a rest s, l = seen ++ a :: rest → I seen s →
      ∃ s', f s a = .ok s' ∧ I (seen ++ [a]) s') : ∃ s', l.foldlM f s = .ok s' ∧ I l s' := by
  suffices h : ∀ seen rest s, l = seen ++ rest → I seen s → ∃ s', rest.foldlM f s = .ok s' ∧ I l s' from
    h [] l s rfl h₀
  intro seen rest
  induction rest generalizing seen with
  | nil =>
    rintro s rfl hi
    exact ⟨s, rfl, by rwa [append_nil]⟩
  | cons a rest ih =>
    intro s hl hi
    obtain ⟨s₁, h₁, hi₁⟩ := hstep seen a rest s hl hi
    obtain ⟨s₂, h₂, hi₂⟩ := ih (seen ++ [a]) s₁ (by rw [hl, append_assoc]; rfl) hi₁
    refine ⟨s₂, ?_, hi₂⟩
    rw [foldlM_cons, h₁]
    exact h₂

/-- After the first loop: the keys that several info objects have, of those that have been seen, have
their arrays. -/
structure Arrays (infos : List (Option Info)) (seen : List (Nat × Entry)) (new : Info) : Prop where
  entries : new.entries = []
  distinct : Table.Distinct ArrayEntry.canon new.arrayEntries
  array : ∀ key, array new key =
    if (∃ p ∈ seen, p.2.canon = canon key) ∧ Shared infos key then
      some (column infos.length (heldOr infos key)) else none

variable {seen rest : List (Nat × Entry)}

theorem ne_arrayType (hp : ∀ info, some info ∈ infos → Plain info)
    (h : (i, e) ∈ allEntries infos) : e.value ≠ arrayType := by
  obtain ⟨info, hi, he⟩ := mem_allEntries.1 h
  have hplain := hp info (mem_of_getElem? hi)
  intro heq
  refine hplain.values e.key ?_
  rw [lookup, show canon e.key = e.canon from rfl, hplain.entries.find_of_mem he, ← heq]
  rfl

theorem mergeKey_spec (hp : ∀ info, some info ∈ infos → Plain info)
    (hs : allEntries infos = seen ++ (i, e) :: rest) (ha : Arrays infos seen new) :
    ∃ new', mergeKey infos i new e = .ok new' ∧ Arrays infos (seen ++ [(i, e)]) new' := by
  have hmem : (i, e) ∈ allEntries infos := by
    rw [hs]
    exact mem_append_right _ mem_cons_self
  have hheld : held infos i e.key = some e.value := held_of_mem hp hmem
  have hi : i < infos.length := by
    by_contra hge
    rw [held_of_le (Nat.le_of_not_lt hge)] at hheld
    cases hheld
  have hcong : ∀ {key}, canon key = canon e.key →
      column infos.length (heldOr infos key) = column infos.length (heldOr infos e.key) :=
    fun h => column_congr fun j _ => by rw [heldOr, held_congr h, heldOr]
  have hsplit : ∀ key, (∃ p ∈ seen ++ [(i, e)], p.2.canon = canon key) ↔
      (∃ p ∈ seen, p.2.canon = canon key) ∨ canon e.key = canon key := by
    intro key
    simp only [mem_append, mem_singleton, or_and_right, exists_or, exists_eq_left]
    rfl
  unfold mergeKey
  rw [if_neg (ne_arrayType hp hmem)]
  by_cases hseen : ∃ p ∈ seen, p.2.canon = e.canon
  · -- the key has its array
    obtain ⟨p, hpm, hpk⟩ := hseen
    have hshared := shared_of_split hp hs hpm hpk
    have harr : array new e.key = some (column infos.length (heldOr infos e.key)) := by
      rw [ha.array, if_pos ⟨⟨p, hpm, hpk⟩, hshared⟩]
    have hzero : (column infos.length (heldOr infos e.key))[0]? = some (heldOr infos e.key 0) := by
      rw [column, List.getElem?_map, List.getElem?_range (by omega)]
      rfl
    rw [lookupArray_some harr hzero]
    refine ⟨new, rfl, ha.entries, ha.distinct, fun key => ?_⟩
    rw [ha.array]
    refine if_congr (and_congr_left fun _ => ?_) rfl rfl
    rw [hsplit]
    exact ⟨.inl, fun h => h.elim id fun h => ⟨p, hpm, hpk.trans h⟩⟩
  · have hnew : ∀ p ∈ seen, p.2.canon ≠ e.canon := fun p hpm hpk => hseen ⟨p, hpm, hpk⟩
    have hbefore : ∀ j < i, held infos j e.key = none :=
      fun j hj => held_none_of_split hp hs hnew hj
    have harr : array new e.key = none := by
      rw [ha.array, if_neg fun h => hseen h.1]
    have hfalse : false = true ↔ ∃ j, i < j ∧ j < i + 1 ∧ (held infos j e.key).isSome = true :=
      iff_of_false nofun fun ⟨j, h₁, h₂, _⟩ => by omega
    obtain ⟨new₁, found, hrun, hfound, hent, hd, harr₁⟩ := mergeRest_spec hp
      (m := infos.length - (i + 1)) (c := i + 1) (by omega) (Nat.lt_succ_self i) hfalse harr
      ha.distinct
    have hshared : Shared infos e.key ↔ found = true := by
      rw [hfound]
      constructor
      · rintro ⟨a, b, hab, haa, hbb⟩
        refine ⟨b, ?_, hbb⟩
        by_contra hge
        rw [hbefore a (by omega)] at haa
        cases haa
      · rintro ⟨b, hib, hbb⟩
        exact ⟨i, b, hib, by rw [hheld]; rfl, hbb⟩
    -- the arrays of the other keys are as before
    have hother : ∀ key, canon key ≠ canon e.key → array new₁ key =
        if (∃ p ∈ seen ++ [(i, e)], p.2.canon = canon key) ∧ Shared infos key then
          some (column infos.length (heldOr infos key)) else none := by
      intro key hkey
      rw [harr₁, if_neg hkey, ha.array]
      refine if_congr (and_congr_left fun _ => ?_) rfl rfl
      rw [hsplit]
      exact ⟨.inl, fun h => h.resolve_right (Ne.symm hkey)⟩
    rw [lookupArray_none harr]
    simp only [bind, Except.bind, hrun, isSome_none, Bool.false_eq_true, if_false]
    cases found with
    | false =>
      refine ⟨new₁, rfl, hent.trans ha.entries, hd, fun key => ?_⟩
      by_cases hkey : canon key = canon e.key
      · have hnot : ¬ Shared infos key := fun h => nomatch hshared.1 ((shared_congr hkey).1 h)
        rw [harr₁, if_pos hkey]
        exact (if_neg fun h => hnot h.2).symm
      · exact hother key hkey
    | true =>
      have harr₁' : array new₁ e.key = some _ := (harr₁ e.key).trans (if_pos rfl)
      obtain ⟨new₂, h₂, ha₂⟩ := setArray_spec (v := e.value) hd harr₁' (i := i)
        (by simpa [column] using hi)
      refine ⟨new₂, h₂, (ha₂.entries.trans hent).trans ha.entries, ha₂.arrays, fun key => ?_⟩
      rw [ha₂.array]
      by_cases hkey : canon key = canon e.key
      · have hcond : (∃ p ∈ seen ++ [(i, e)], p.2.canon = canon key) ∧ Shared infos key :=
          ⟨(hsplit key).2 (.inr hkey.symm), (shared_congr hkey).2 (hshared.2 rfl)⟩
        rw [if_pos hkey, if_pos hcond, column_set, hcong hkey]
        refine congrArg some (column_congr fun j _ => ?_)
        rcases Nat.lt_trichotomy j i with hj | hj | hj
        · rw [if_neg (by omega), if_neg (by omega), heldOr, hbefore j hj]
          rfl
        · rw [if_pos hj, hj, heldOr, hheld]
          rfl
        · rw [if_neg (by omega), if_pos hj]
      · rw [if_neg hkey]
        exact hother key hkey

structure Copies (a : Info) (seen : List (Nat × Entry)) (new : Info) : Prop where
  distinct : Table.Distinct Entry.canon new.entries
  arrays : new.arrayEntries = a.arrayEntries
  lookup : ∀ key, lookup new key =
    (Table.find Entry.canon (canon key) (seen.map Prod.snd)).map fun e =>
      if (array a key).isSome then arrayType else e.value

theorem copyKey_spec (hp : ∀ info, some info ∈ infos → Plain info) {a : Info}
    (ha : Arrays infos (allEntries infos) a)
    (hs : allEntries infos = seen ++ (i, e) :: rest) (hc : Copies a seen new) :
    ∃ new', copyKey new e = .ok new' ∧ Copies a (seen ++ [(i, e)]) new' := by
  have hmem : (i, e) ∈ allEntries infos := by
    rw [hs]
    exact mem_append_right _ mem_cons_self
  have harr : ∀ key, array new key = array a key := fun key => by rw [array, hc.arrays, array]
  have hfind : ∀ key, Table.find Entry.canon (canon key) ((seen ++ [(i, e)]).map Prod.snd) =
      (Table.find Entry.canon (canon key) (seen.map Prod.snd)).or
        (if canon e.key = canon key then some e else none) := by
    intro key
    rw [map_append]
    exact Table.find_append
  unfold copyKey
  rw [if_neg (ne_arrayType hp hmem)]
  cases hea : array a e.key with
  | none =>
    -- a key that has been seen would have an array
    have hnone : Infos.lookup new e.key = none := by
      rw [hc.lookup, map_eq_none_iff, Table.find_eq_none]
      intro hin
      obtain ⟨e', he', hkey⟩ := mem_map.1 hin
      obtain ⟨p, hpm, rfl⟩ := mem_map.1 he'
      have hshared := shared_of_split hp hs hpm hkey
      rw [ha.array, if_pos ⟨⟨(i, e), hmem, rfl⟩, hshared⟩] at hea
      cases hea
    rw [lookupArray_none ((harr e.key).trans hea)]
    refine ⟨_, rfl, hc.distinct.append (lookup_eq_none.1 hnone), hc.arrays, fun key => ?_⟩
    rw [lookup_push, hc.lookup, hfind, map_or]
    congr 1
    split
    · next h => rw [map_some, ← array_congr h, hea]; rfl
    · rfl
  | some values =>
    have hzero : ∃ value, values[0]? = some value := by
      rw [ha.array] at hea
      split at hea
      · next hcond =>
        cases hea
        have hi : i < infos.length := by
          by_contra hge
          have := held_of_mem hp hmem
          rw [held_of_le (Nat.le_of_not_lt hge)] at this
          cases this
        exact ⟨_, by rw [column, List.getElem?_map, List.getElem?_range (by omega)]; rfl⟩
      · cases hea
    obtain ⟨value, hvalue⟩ := hzero
    rw [lookupArray_some ((harr e.key).trans hea) hvalue]
    cases hl : Infos.lookup new e.key with
    | none =>
      simp only [bind, Except.bind]
      refine ⟨_, rfl, hc.distinct.append (lookup_eq_none.1 hl), hc.arrays, fun key => ?_⟩
      rw [lookup_push, hc.lookup, hfind, map_or]
      congr 1
      split
      · next h => rw [map_some, ← array_congr h, hea]; rfl
      · rfl
    | some w =>
      simp only [bind, Except.bind]
      refine ⟨new, rfl, hc.distinct, hc.arrays, fun key => ?_⟩
      rw [hc.lookup, hfind, map_or]
      by_cases h : canon e.key = canon key
      · rw [← hc.lookup, ← lookup_congr h, hl]
        rfl
      · rw [if_neg h, map_none, or_none]

/-- The info objects have been merged into one: the keys of two or more of them are marked and have
their arrays, and the others have their values. -/
structure Merged (infos : List (Option Info)) (m : Info) : Prop where
  wf : m.WF
  shared : ∀ key, Shared infos key →
    lookup m key = some arrayType ∧ array m key = some (column infos.length (heldOr infos key))
  single : ∀ key, ¬ Shared infos key → array m key = none ∧ lookup m key ≠ some arrayType ∧
    ∀ i v, held infos i key = some v → lookup m key = some v
  absent : ∀ key, (∀ i, held infos i key = none) → lookup m key = none

theorem mergeFromArray_spec (hp : ∀ info, some info ∈ infos → Plain info) :
    ∃ m, mergeFromArray infos = .ok m ∧ Merged infos m := by
  have h₀ : Arrays infos [] Info.empty :=
    ⟨rfl, nodup_nil, fun key => (if_neg fun h => nomatch h.1).symm⟩
  obtain ⟨a, hrun₁, ha⟩ := foldlM_inv (l := allEntries infos) h₀
    fun seen p rest new hs hi => mergeKey_spec hp hs hi
  have h₁ : Copies a [] a := by
    refine ⟨?_, rfl, fun key => ?_⟩
    · rw [ha.entries]
      exact nodup_nil
    · rw [lookup, ha.entries]
      rfl
  obtain ⟨m, hrun₂, hm⟩ := foldlM_inv (l := allEntries infos) h₁
    fun seen p rest new hs hi => copyKey_spec hp ha hs hi
  have harr : ∀ key, array m key = if Shared infos key then
      some (column infos.length (heldOr infos key)) else none := by
    intro key
    rw [array, hm.arrays, ← array, ha.array]
    refine if_congr ⟨And.right, fun h => ⟨?_, h⟩⟩ rfl rfl
    obtain ⟨i, -, -, hi, -⟩ := h
    obtain ⟨e, he, hkey⟩ := held_iff.1 hi
    exact ⟨(i, e), he, hkey⟩
  have harr' : ∀ key, array a key = array m key := fun key => by rw [array, ← hm.arrays, array]
  -- an info object with the key has an entry that is found
  have hfind : ∀ key i, (held infos i key).isSome = true → ∃ j e,
      (j, e) ∈ allEntries infos ∧ e.canon = canon key ∧
      Table.find Entry.canon (canon key) ((allEntries infos).map Prod.snd) = some e := by
    intro key i hi
    obtain ⟨e, he, hkey⟩ := held_iff.1 hi
    have hsome : Table.find Entry.canon (canon key) ((allEntries infos).map Prod.snd) ≠ none := by
      rw [Ne, Table.find_eq_none, not_not, ← hkey]
      exact mem_map_of_mem (mem_map_of_mem he)
    obtain ⟨e', he'⟩ := ne_none_iff_exists'.1 hsome
    obtain ⟨hmem, hkey'⟩ := Table.find_some he'
    obtain ⟨⟨j, e''⟩, hj, rfl⟩ := mem_map.1 hmem
    exact ⟨j, e'', hj, hkey', he'⟩
  have hshared : ∀ key, Shared infos key →
      lookup m key = some arrayType ∧ array m key = some (column infos.length (heldOr infos key)) := by
    intro key hsh
    have hm' : array m key = _ := (harr key).trans (if_pos hsh)
    obtain ⟨i, -, -, hi, -⟩ := hsh
    obtain ⟨j, e, -, -, hf⟩ := hfind key i hi
    refine ⟨?_, hm'⟩
    rw [hm.lookup, hf, map_some, harr', hm']
    rfl
  refine ⟨m, ?_, ⟨hm.distinct, ?_, fun key values hv => ?_⟩, hshared, fun key hns => ⟨?_, ?_, ?_⟩,
    fun key hnone => ?_⟩
  · rw [mergeFromArray]
    simp only [bind, Except.bind, hrun₁]
    exact hrun₂
  · rw [hm.arrays]
    exact ha.distinct
  · rw [harr] at hv
    split at hv
    · next hsh =>
      refine ⟨(hshared key hsh).1, ?_⟩
      obtain ⟨i, j, -, hi, -⟩ := hsh
      rw [← Option.some.inj hv, column, Ne, map_eq_nil_iff, range_eq_nil]
      intro h0
      rw [held_of_le (by omega)] at hi
      cases hi
    · cases hv
  · exact (harr key).trans (if_neg hns)
  · rw [hm.lookup, harr', harr, if_neg hns]
    intro hmark
    obtain ⟨e, he, hv⟩ := map_eq_some_iff.1 hmark
    obtain ⟨⟨j, e'⟩, hj, rfl⟩ := mem_map.1 (Table.find_some he).1
    exact ne_arrayType hp hj hv
  · intro i v hv
    obtain ⟨j, e, he, hkey, hf⟩ := hfind key i (by rw [hv]; rfl)
    have hj : held infos j key = some e.value := by
      rw [← held_congr (show canon e.key = canon key from hkey)]
      exact held_of_mem hp he
    have hji : j = i := by
      by_contra hne
      rcases Nat.lt_or_gt_of_ne hne with hlt | hlt
      · exact hns ⟨j, i, hlt, by rw [hj]; rfl, by rw [hv]; rfl⟩
      · exact hns ⟨i, j, hlt, by rw [hv]; rfl, by rw [hj]; rfl⟩
    rw [hji, hv] at hj
    rw [hm.lookup, hf, map_some, harr', harr, if_neg hns, Option.some.inj hj]
    rfl
  · rw [hm.lookup, map_eq_none_iff, Table.find_eq_none]
    intro hin
    obtain ⟨e, he, hkey⟩ := mem_map.1 hin
    obtain ⟨⟨j, e'⟩, hj, rfl⟩ := mem_map.1 he
    have := held_iff.2 ⟨e', hj, hkey⟩
    rw [hnone] at this
    cases this

end merging

/-! ## Splitting -/

section splitting

variable {infos : List (Option Info)} {m : Info}

theorem splitValues_spec {values : List String} (ha : array m k = some values)
    {targets : List Info} {j : Nat} (hlen : j + targets.length = values.length) :
    ∃ targets', splitValues m k values.length j targets = .ok targets' ∧
      targets'.length = targets.length ∧ ∀ i t, targets[i]? = some t → ∃ value,
        values[j + i]? = some value ∧ targets'[i]? = some (set t k value) := by
  induction targets generalizing j with
  | nil => exact ⟨[], rfl, rfl, nofun⟩
  | cons target targets ih =>
    rw [length_cons] at hlen
    have hj : j < values.length := by omega
    have hget : values[j]? = some values[j] := List.getElem?_eq_getElem hj
    obtain ⟨ts, hrun, hts, hval⟩ := ih (j := j + 1) (by omega)
    refine ⟨set target k values[j] :: ts, ?_, by rw [length_cons, hts, length_cons],
      fun i t hi => ?_⟩
    · rw [splitValues, if_pos hj, lookupArray_some ha hget]
      simp only [bind, Except.bind, hrun]
      rfl
    · cases i with
      | zero =>
        obtain rfl : target = t := Option.some.inj hi
        exact ⟨values[j], hget, rfl⟩
      | succ i =>
        obtain ⟨value, hv, ht⟩ := hval i t hi
        exact ⟨value, by rwa [Nat.add_right_comm] at hv, ht⟩

def part (m : Info) (j : Nat) (e : Entry) : Option String :=
  if e.value = arrayType then (array m e.key).bind fun values => values[j]? else some e.value

structure Parts (m : Info) (n : Nat) (seen : List Entry) (st : List Info × Nat) : Prop where
  length : st.1.length = n
  lookup : ∀ (j : Nat) (t : Info), st.1[j]? = some t → ∀ key,
    lookup t key = (Table.find Entry.canon (canon key) seen).bind (part m j)

theorem splitEntry_spec {n : Nat} (hw : m.WF)
    (hfull : ∀ key, lookup m key = some arrayType → ∃ values, array m key = some values ∧
      values.length = n) {seen rest : List Entry} {e : Entry} {st : List Info × Nat}
    (hs : m.entries = seen ++ e :: rest) (hi : Parts m n seen st) :
    ∃ st', splitEntry m st e = .ok st' ∧ Parts m n (seen ++ [e]) st' := by
  have hmem : e ∈ m.entries := by
    rw [hs]
    exact mem_append_right _ mem_cons_self
  have hnew : Table.find Entry.canon e.canon seen = none := by
    have hd := hw.entries
    rw [Table.Distinct, hs, map_append, nodup_append'] at hd
    rw [Table.find_eq_none]
    exact fun hin => hd.2.2 hin mem_cons_self
  have hlook : lookup m e.key = some e.value := by
    rw [lookup, show canon e.key = e.canon from rfl, hw.entries.find_of_mem hmem]
    rfl
  -- an info object in which the part of the entry has been set
  have hset : ∀ (j : Nat) (t : Info) (value : String), st.1[j]? = some t →
      part m j e = some value → ∀ key, Infos.lookup (set t e.key value) key =
        (Table.find Entry.canon (canon key) (seen ++ [e])).bind (part m j) := by
    intro j t value ht hpart key
    rw [lookup_set, Table.find_append]
    by_cases hkey : canon key = canon e.key
    · rw [if_pos hkey, hkey, show Table.find Entry.canon (canon e.key) seen = none from hnew,
        none_or, if_pos (show e.canon = canon e.key from rfl), bind_some, hpart]
    · rw [if_neg hkey, if_neg (show ¬ e.canon = canon key from Ne.symm hkey), or_none]
      exact hi.lookup j t ht key
  unfold splitEntry
  by_cases hv : e.value = arrayType
  · obtain ⟨values, ha, hlen⟩ := hfull e.key (hv ▸ hlook)
    have hne := (hw.marked e.key values ha).2
    obtain ⟨value, vs, rfl⟩ := exists_cons_of_ne_nil hne
    have hlen' : 0 + st.1.length = (value :: vs).length := by
      rw [hi.length, hlen, Nat.zero_add]
    obtain ⟨ts, hrun, hts, hval⟩ := splitValues_spec ha hlen'
    rw [if_pos hv, lookupArray_some ha (show (value :: vs)[0]? = some value from rfl)]
    simp only [bind, Except.bind, hrun]
    refine ⟨_, rfl, hts.trans hi.length, fun j t ht key => ?_⟩
    have hj : j < st.1.length := by
      have := (List.getElem?_eq_some_iff.1 ht).1
      rwa [hts] at this
    obtain ⟨w, hw', ht'⟩ := hval j _ (List.getElem?_eq_getElem hj)
    obtain rfl := Option.some.inj (ht.symm.trans ht')
    refine hset j _ w (List.getElem?_eq_getElem hj) ?_ key
    rw [part, if_pos hv, ha, bind_some]
    rwa [Nat.zero_add] at hw'
  · rw [if_neg hv]
    refine ⟨_, rfl, by rw [length_map]; exact hi.length, fun j t ht key => ?_⟩
    rw [List.getElem?_map] at ht
    obtain ⟨t₀, ht₀, rfl⟩ := map_eq_some_iff.1 ht
    exact hset j t₀ e.value ht₀ (if_neg hv) key

theorem Merged.split (hm : Merged infos m) : ∃ targets count,
    splitIntoArray (List.replicate infos.length Info.empty) m = .ok (targets, count) ∧
      targets.length = infos.length ∧ ∀ i t, targets[i]? = some t →
        (∀ key, Shared infos key → lookup t key = some (heldOr infos key i)) ∧
        (∀ key, ¬ Shared infos key → ∀ j v, held infos j key = some v → lookup t key = some v) ∧
        ∀ key, (∀ j, held infos j key = none) → lookup t key = none := by
  have hfull : ∀ key, lookup m key = some arrayType → ∃ values, array m key = some values ∧
      values.length = infos.length := by
    intro key hmark
    by_cases hsh : Shared infos key
    · exact ⟨_, (hm.shared key hsh).2, by rw [column, length_map, length_range]⟩
    · exact absurd hmark (hm.single key hsh).2.1
  have h₀ : Parts m infos.length [] (List.replicate infos.length Info.empty, 0) := by
    refine ⟨length_replicate, fun j t ht key => ?_⟩
    obtain rfl := eq_of_mem_replicate (mem_of_getElem? ht)
    rfl
  obtain ⟨⟨ts, count⟩, hrun, hparts⟩ := foldlM_inv (l := m.entries) h₀
    fun seen e rest st hs hi => splitEntry_spec hm.wf hfull hs hi
  refine ⟨ts, count, hrun, hparts.length, fun i t ht => ?_⟩
  have hi : i < infos.length := hparts.length ▸ (List.getElem?_eq_some_iff.1 ht).1
  -- a value of the merged info object is that of an entry
  have hentry : ∀ {key v}, lookup m key = some v → ∃ e,
      Table.find Entry.canon (canon key) m.entries = some e ∧ e.value = v ∧
        array m e.key = array m key := by
    intro key v hv
    obtain ⟨e, he, hval⟩ := map_eq_some_iff.1 hv
    exact ⟨e, he, hval, array_congr (Table.find_some he).2⟩
  refine ⟨fun key hsh => ?_, fun key hns j v hv => ?_, fun key hnone => ?_⟩
  · obtain ⟨hmark, harr⟩ := hm.shared key hsh
    obtain ⟨e, he, hval, hea⟩ := hentry hmark
    rw [hparts.lookup i t ht, he, bind_some, part, if_pos hval, hea, harr, bind_some,
      column, List.getElem?_map, List.getElem?_range hi]
    rfl
  · obtain ⟨e, he, hval, -⟩ := hentry ((hm.single key hns).2.2 j v hv)
    have hne : e.value ≠ arrayType := by
      rintro heq
      refine (hm.single key hns).2.1 ?_
      rw [lookup, he, map_some, heq]
    rw [hparts.lookup i t ht, he, bind_some, part, if_neg hne, hval]
  · have hfind := lookup_eq_none.1 (hm.absent key hnone)
    rw [hparts.lookup i t ht, hfind]
    rfl

theorem Merged.of_same (hm : Merged infos m) {d : Info} (hw : d.WF) (hs : Same d m) :
    Merged infos d := by
  refine ⟨hw, fun key hsh => ?_, fun key hns => ?_, fun key hnone => ?_⟩
  · rw [(hs key).1, (hs key).2]
    exact hm.shared key hsh
  · rw [(hs key).1, (hs key).2]
    exact hm.single key hns
  · rw [(hs key).1]
    exact hm.absent key hnone

def dupKeys (src : Info) (keys : List String) (dest : Info) : Except Error Info :=
  keys.foldlM (fun dest key => dupKey src key dest) dest

def Covers (info : Info) (keys : List String) : Prop :=
  ∀ key, (lookup info key).isSome = true ↔ ∃ k ∈ keys, canon k = canon key

theorem Info.WF.dupKeys (hw : info.WF) {keys : List String} (hk : Covers info keys) :
    ∃ d, dupKeys info keys Info.empty = .ok d ∧ d.WF ∧ Same d info := by
  have h₀ : Info.empty.WF := ⟨nodup_nil, nodup_nil, nofun⟩
  let I : List String → Info → Prop := fun seen d => d.WF ∧ ∀ key,
    (∃ k ∈ seen, canon k = canon key) ∧
      lookup d key = lookup info key ∧ array d key = array info key ∨
    (∀ k ∈ seen, canon k ≠ canon key) ∧ lookup d key = none ∧ array d key = none
  have hstep : ∀ seen k rest dest, keys = seen ++ k :: rest → I seen dest →
      ∃ d, dupKey info k dest = .ok d ∧ I (seen ++ [k]) d := by
    rintro seen k rest dest hs ⟨hdw, hdest⟩
    have hin : (lookup info k).isSome = true :=
      (hk k).2 ⟨k, by rw [hs]; exact mem_append_right _ mem_cons_self, rfl⟩
    obtain ⟨v, hv⟩ := isSome_iff_exists.1 hin
    obtain ⟨d, hrun, hdw', hval⟩ := dupKey_spec hw hdw hv
    refine ⟨d, hrun, hdw', fun key => ?_⟩
    rw [(hval key).1, (hval key).2]
    by_cases hkey : canon key = canon k
    · rw [if_pos hkey, if_pos hkey]
      refine .inl ⟨⟨k, mem_append_right _ mem_cons_self, hkey.symm⟩, ?_, ?_⟩
      · rw [lookup_congr hkey, hv]
      · rw [array_congr hkey]
    · rw [if_neg hkey, if_neg hkey]
      rcases hdest key with ⟨⟨k', hmem, heq⟩, h⟩ | ⟨hno, h⟩
      · exact .inl ⟨⟨k', mem_append_left _ hmem, heq⟩, h⟩
      · refine .inr ⟨fun k' hmem => ?_, h⟩
        rcases mem_append.1 hmem with hmem | hmem
        · exact hno k' hmem
        · rw [mem_singleton.1 hmem]
          exact Ne.symm hkey
  have hinit : I [] Info.empty := ⟨h₀, fun key => .inr ⟨nofun, rfl, rfl⟩⟩
  obtain ⟨d, hrun, hd, hsame⟩ := foldlM_inv hinit hstep
  refine ⟨d, hrun, hd, fun key => ?_⟩
  rcases hsame key with ⟨-, h⟩ | ⟨hno, hl, ha⟩
  · exact h
  · have hnone : lookup info key = none := by
      rw [← not_isSome_iff_eq_none, hk]
      exact fun ⟨k, hmem, heq⟩ => hno k hmem heq
    refine ⟨hl.trans hnone.symm, ha.trans ?_⟩
    cases hv : array info key with
    | none => rfl
    | some values =>
      have hmark := (hw.marked key values hv).1
      rw [hnone] at hmark
      cases hmark

inductive Copied (m : Info) : Info → Prop
  | refl : Copied m m
  | dup {a b : Info} : Copied m a → dup a = .ok b → Copied m b
  | dupKeys {a b : Info} {keys : List String} : Copied m a → Covers a keys →
      dupKeys a keys Info.empty = .ok b → Copied m b

theorem Merged.copied (hm : Merged infos m) {d : Info} (hc : Copied m d) : Merged infos d := by
  induction hc with
  | refl => exact hm
  | dup _ h ih =>
    obtain ⟨d, hd, hw, hs⟩ := ih.wf.dup
    obtain rfl := Except.ok.inj (h.symm.trans hd)
    exact ih.of_same hw hs
  | dupKeys _ hk h ih =>
    obtain ⟨d, hd, hw, hs⟩ := ih.wf.dupKeys hk
    obtain rfl := Except.ok.inj (h.symm.trans hd)
    exact ih.of_same hw hs

end splitting

/-- The info objects of users are merged into one, in which exactly the keys of two or more of them
have arrays. That one, and every copy of it, can be copied, and is split into as many info objects:
each gets its own values of the keys with arrays, or "none", and all other values. -/
theorem info_merge_split {infos : List (Option Info)}
    (hb : ∀ info, some info ∈ infos → Built info) : ∃ m, mergeFromArray infos = .ok m ∧
      ∀ d, Copied m d → Merged infos d ∧ (∃ d', dup d = .ok d') ∧
        (∀ keys, Covers d keys → ∃ d', dupKeys d keys Info.empty = .ok d') ∧
        ∃ targets count,
          splitIntoArray (List.replicate infos.length Info.empty) d = .ok (targets, count) ∧
            targets.length = infos.length ∧ ∀ i t, targets[i]? = some t →
              (∀ key, Shared infos key → lookup t key = some ((held infos i key).getD noValue)) ∧
              (∀ key, ¬ Shared infos key → ∀ j v, held infos j key = some v →
                lookup t key = some v) ∧
              ∀ key, (∀ j, held infos j key = none) → lookup t key = none := by
  obtain ⟨m, hrun, hm⟩ := mergeFromArray_spec fun info hmem => (hb info hmem).plain
  refine ⟨m, hrun, fun d hc => ?_⟩
  have hd := hm.copied hc
  obtain ⟨d₁, h₁, -⟩ := hd.wf.dup
  refine ⟨hd, ⟨d₁, h₁⟩, fun keys hk => ?_, hd.split⟩
  obtain ⟨d₂, h₂, -⟩ := hd.wf.dupKeys hk
  exact ⟨d₂, h₂⟩

def threeInfos : List (Option Info) :=
  [some (set (set Info.empty "x" "1") "y" "2"), none,
    some (set (set Info.empty "y" "3") "z" "4")]

/-- They are merged; after splitting, the second one has "none" for the common key, and the value of
a key that only the first one has. -/
theorem info_merge_split_three : ∃ m targets count, mergeFromArray threeInfos = .ok m ∧
    splitIntoArray (List.replicate 3 Info.empty) m = .ok (targets, count) ∧
      targets.length = 3 ∧ ∀ t, targets[1]? = some t →
        lookup t "y" = some "none" ∧ lookup t "x" = some "1" := by
  have hb : ∀ info, some info ∈ threeInfos → Built info := by
    intro info hmem
    simp only [threeInfos, mem_cons, Option.some.injEq, reduceCtorEq, not_mem_nil,
      or_false, false_or] at hmem
    rcases hmem with rfl | rfl
    · exact .set _ (.set _ .create (by decide)) (by decide)
    · exact .set _ (.set _ .create (by decide)) (by decide)
  obtain ⟨m, hrun, hall⟩ := info_merge_split hb
  obtain ⟨-, -, -, ts, count, hsplit, hlen, hts⟩ := hall m .refl
  refine ⟨m, ts, count, hrun, hsplit, hlen, fun t ht => ?_⟩
  obtain ⟨hshared, hsingle, -⟩ := hts 1 t ht
  have hx : ¬ Shared threeInfos "x" := by
    rintro ⟨i, j, hij, -, hj⟩
    match j with
    | 0 => omega
    | 1 => exact absurd hj (by decide)
    | 2 => exact absurd hj (by decide)
    | j + 3 => cases hj
  exact ⟨hshared "y" ⟨0, 2, by decide, by decide, by decide⟩, hsingle "x" hx 0 "1" (by decide)⟩

end PsMpi.Infos
