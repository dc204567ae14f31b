import PsMpi.Lib.MapM
import PsMpi.Pmi.Wire

/-!
# Commands come back from the wire
-/

open PsMpi.Lib List

namespace PsMpi.Pmi

def IsWord (key : Text) : Prop := key ≠ [] ∧ ∀ c ∈ key, isKey c = true

instance (key : Text) : Decidable (IsWord key) :=
  decidable_of_iff (key ≠ [] ∧ key.all isKey = true) (and_congr_right' all_eq_true)

def IsPlain (v : Text) : Prop := v ≠ [] ∧ '\n' ∉ v ∧ ' ' ∉ v ∧ '\\' ∉ v

abbrev Entry := Text × Option Text

def tokenOf (e : Entry) : Token := ⟨some e.1, e.2⟩

def cmdOf (name : Text) (es : List Entry) : Cmd := ⟨some name, es.map tokenOf⟩

/-! ## Entries -/

section entries

variable {f : Format} {key v w p rest : Text} {c : Char}

theorem isKey_eq_false : isKey c = false ↔ c = ' ' ∨ c = '\n' ∨ c = '=' := by
  rw [isKey, Bool.not_eq_false']
  simp only [Bool.or_eq_true, beq_iff_eq, or_assoc]

theorem IsWord.skipSpaces (h : IsWord key) : skipSpaces (key ++ rest) = key ++ rest := by
  obtain ⟨c, k, rfl⟩ := exists_cons_of_ne_nil h.1
  have hc : c ≠ ' ' := by
    rintro rfl
    exact absurd (h.2 ' ' mem_cons_self) (by decide)
  rw [cons_append, Pmi.skipSpaces, dropWhile_cons_of_neg (by simpa using hc)]

theorem IsWord.isEol (h : IsWord key) : isEol (key ++ rest) = false := by
  obtain ⟨c, k, rfl⟩ := exists_cons_of_ne_nil h.1
  have hc : c ≠ '\n' := by
    rintro rfl
    exact absurd (h.2 '\n' mem_cons_self) (by decide)
  simpa [Pmi.isEol] using hc

theorem parseKey_word (h : IsWord key) (hrest : ∀ c ∈ rest.head?, isKey c = false) :
    parseKey (key ++ rest) = .ok (key, rest) := by
  have htake := takeWhile_append_word h.2 hrest
  have hdrop := dropWhile_append_word h.2 hrest
  obtain ⟨c, k, rfl⟩ := exists_cons_of_ne_nil h.1
  rw [cons_append] at htake hdrop ⊢
  simp only [parseKey, h.2 c mem_cons_self, if_true, htake, hdrop]
  cases rest with
  | nil => rfl
  | cons d q =>
    have hd := isKey_eq_false.1 (hrest d rfl)
    simp only
    rw [if_neg (by tauto)]

theorem parseEntry_val (h : IsWord key) (hnonval : f.nonval p = false) (hskip : f.skip p = (w, rest)) :
    parseEntry f (key ++ '=' :: p) = .ok (key, some (f.unescape w), rest) := by
  have hkey : parseKey (key ++ '=' :: p) = .ok (key, '=' :: p) :=
    parseKey_word h (by rintro c ⟨⟩; decide)
  simp only [parseEntry, hkey, bind, Except.bind, hnonval, hskip]
  rfl

theorem parseEntry_key (h : IsWord key) (hrest : ∀ c ∈ rest.head?, c = ' ' ∨ c = '\n') :
    parseEntry f (key ++ rest) = .ok (key, none, rest) := by
  have hkey : parseKey (key ++ rest) = .ok (key, rest) :=
    parseKey_word h fun c hc => isKey_eq_false.2 ((hrest c hc).imp_right .inl)
  simp only [parseEntry, hkey, bind, Except.bind]
  split
  · exact absurd (hrest '=' rfl) (by decide)
  · rfl

theorem skipVal_cons (hspace : c ≠ ' ') (heol : c ≠ '\n') (hesc : c ≠ '\\') :
    skipVal (c :: p) = (c :: (skipVal p).1, (skipVal p).2) := by
  cases p with
  | nil => simp [skipVal, hspace, heol]
  | cons d p => simp [skipVal, hspace, heol, hesc]

theorem skipVal_end (hrest : isNonval rest = true) : skipVal rest = ([], rest) := by
  match rest with
  | [] => rfl
  | [c] =>
    have hc : c = ' ' ∨ c = '\n' := by simpa [isNonval, isEol, or_comm] using hrest
    simp [skipVal, hc]
  | c :: d :: p =>
    have hc : c = ' ' ∨ c = '\n' := by simpa [isNonval, isEol, or_comm] using hrest
    simp [skipVal, hc]

theorem skipVal_plain (hspace : ' ' ∉ v) (heol : '\n' ∉ v) (hesc : '\\' ∉ v)
    (hrest : isNonval rest = true) : skipVal (v ++ rest) = (v, rest) := by
  induction v with
  | nil => exact skipVal_end hrest
  | cons c v ih =>
    rw [mem_cons, not_or] at hspace heol hesc
    rw [cons_append, skipVal_cons (Ne.symm hspace.1) (Ne.symm heol.1) (Ne.symm hesc.1),
      ih hspace.2 heol.2 hesc.2]

theorem unescapeVal_plain (hesc : '\\' ∉ v) : unescapeVal v = v := by
  induction v using unescapeVal.induct with
  | case1 => rfl
  | case2 c => rfl
  | case3 d s ih => simp at hesc
  | case4 c d s hc ih =>
    rw [unescapeVal, if_neg hc, ih fun h => hesc (mem_cons_of_mem _ h)]

theorem IsPlain.parseEntry (hkey : IsWord key) (h : IsPlain v) (hrest : isNonval rest = true) :
    parseEntry format1 (key ++ '=' :: (v ++ rest)) = .ok (key, some v, rest) := by
  obtain ⟨hne, heol, hspace, hesc⟩ := h
  have hnonval : isNonval (v ++ rest) = false := by
    obtain ⟨c, u, rfl⟩ := exists_cons_of_ne_nil hne
    simp only [mem_cons, not_or] at heol hspace
    simp [isNonval, isEol, Ne.symm heol.1, Ne.symm hspace.1]
  rw [parseEntry_val (f := format1) hkey hnonval (skipVal_plain hspace heol hesc hrest)]
  exact congrArg (fun v => Except.ok (key, some v, rest)) (unescapeVal_plain hesc)

theorem parseEntry_semi (hkey : IsWord key) (hne : v ≠ []) (h : ';' ∉ v) :
    parseEntry format2 (key ++ '=' :: (v ++ ';' :: rest)) = .ok (key, some v, ';' :: rest) := by
  have hv : ∀ c ∈ v, (c != ';') = true := by
    intro c hc
    rw [bne_iff_ne]
    rintro rfl
    exact h hc
  have hend : ∀ c ∈ (';' :: rest).head?, (c != ';') = false := by
    rintro c ⟨⟩
    rfl
  have hnonval : isNonval2 (v ++ ';' :: rest) = false := by
    obtain ⟨c, u, rfl⟩ := exists_cons_of_ne_nil hne
    rw [mem_cons, not_or] at h
    simp [isNonval2, Ne.symm h.1]
  refine parseEntry_val (f := format2) hkey hnonval ?_
  exact Prod.ext (takeWhile_append_word hv hend) (dropWhile_append_word hv hend)

end entries

/-! ## Lines -/

def line1 : List Entry → Text
  | [] => []
  | [e] => outputEntry e.1 e.2 ++ ['\n']
  | e :: es => outputEntry e.1 e.2 ++ ' ' :: line1 es

def line2 (es : List Entry) : Text := es.flatMap fun e => outputEntry e.1 e.2 ++ [';']

section lines

variable {e : Entry} {l : List Entry} {rest : Text}

theorem parseEntry_plain (hkey : IsWord e.1) (hval : ∀ v ∈ e.2, IsPlain v)
    (hrest : rest.head? = some ' ' ∨ rest.head? = some '\n') :
    parseEntry format1 (outputEntry e.1 e.2 ++ rest) = .ok (e.1, e.2, rest) := by
  obtain ⟨key, val⟩ := e
  cases val with
  | none =>
    refine parseEntry_key hkey fun c hc => ?_
    rcases hrest with h | h
    · exact .inl (Option.some.inj (hc.symm.trans h))
    · exact .inr (Option.some.inj (hc.symm.trans h))
  | some v =>
    have hnonval : isNonval rest = true := by
      rcases hrest with h | h
      · simp [isNonval, h]
      · obtain ⟨q, rfl⟩ := List.head?_eq_some_iff.1 h
        rfl
    rw [outputEntry, append_assoc, cons_append]
    exact (hval v rfl).parseEntry hkey hnonval

theorem outputEntry_word (hkey : IsWord e.1) (rest : Text) :
    skipSpaces (outputEntry e.1 e.2 ++ rest) = outputEntry e.1 e.2 ++ rest ∧
      isEol (outputEntry e.1 e.2 ++ rest) = false := by
  obtain ⟨key, val⟩ := e
  cases val with
  | none => exact ⟨hkey.skipSpaces, hkey.isEol⟩
  | some v =>
    rw [outputEntry, append_assoc]
    exact ⟨hkey.skipSpaces, hkey.isEol⟩

theorem parseLoop_entry {f : Format} {p q key : Text} {val : Option Text} {todo : Nat} {c : Cmd}
    (hskip : f.skipFirst p = p) (hend : f.atEnd p = false)
    (h : parseEntry f p = .ok (key, val, q)) : parseLoop f (todo + 1) p c =
      f.add c key val >>= fun c' => if f.lastAt q then .ok c' else parseLoop f todo q.tail c' := by
  rw [parseLoop, hskip, hend, h]
  rfl

theorem parseLoop_line1 (hne : l ≠ []) (hkey : ∀ e ∈ l, IsWord e.1)
    (hval : ∀ e ∈ l, ∀ v ∈ e.2, IsPlain v) {todo : Nat} (htodo : l.length ≤ todo) (c : Cmd) :
    parseLoop format1 todo (line1 l) c = l.foldlM (fun c e => addEntry1 c e.1 e.2) c := by
  induction l generalizing todo c with
  | nil => exact absurd rfl hne
  | cons e l ih =>
    obtain ⟨todo, rfl⟩ := Nat.exists_eq_succ_of_ne_zero (Nat.ne_of_gt
      (Nat.lt_of_lt_of_le (Nat.succ_pos _) htodo))
    have he : IsWord e.1 := hkey e mem_cons_self
    have hplain := hval e mem_cons_self
    rw [foldlM_cons]
    cases l with
    | nil =>
      obtain ⟨hskip, heol⟩ := outputEntry_word he ['\n']
      rw [line1, parseLoop_entry hskip heol (parseEntry_plain he hplain (.inr rfl))]
      rfl
    | cons e' l =>
      obtain ⟨hskip, heol⟩ := outputEntry_word he (' ' :: line1 (e' :: l))
      have hline : line1 (e :: e' :: l) = outputEntry e.1 e.2 ++ ' ' :: line1 (e' :: l) := rfl
      rw [hline, parseLoop_entry hskip heol (parseEntry_plain he hplain (.inl rfl))]
      refine bind_congr fun c' => ?_
      rw [show format1.lastAt (' ' :: line1 (e' :: l)) = false from rfl, if_neg (by decide)]
      exact ih (cons_ne_nil _ _) (fun x hx => hkey x (mem_cons_of_mem _ hx))
        (fun x hx => hval x (mem_cons_of_mem _ hx)) (Nat.le_of_succ_le_succ htodo) c'

theorem parseLoop_line2 (hkey : ∀ e ∈ l, IsWord e.1)
    (hval : ∀ e ∈ l, ∃ v, e.2 = some v ∧ v ≠ [] ∧ ';' ∉ v) {todo : Nat} (htodo : l.length < todo)
    (c : Cmd) :
    parseLoop format2 todo (line2 l) c = l.foldlM (fun c e => addEntry2 c e.1 e.2) c := by
  induction l generalizing todo c with
  | nil =>
    obtain ⟨todo, rfl⟩ := Nat.exists_eq_succ_of_ne_zero (Nat.ne_of_gt htodo)
    rfl
  | cons e l ih =>
    obtain ⟨todo, rfl⟩ := Nat.exists_eq_succ_of_ne_zero (Nat.ne_of_gt
      (Nat.lt_of_le_of_lt (Nat.zero_le _) htodo))
    have he : IsWord e.1 := hkey e mem_cons_self
    obtain ⟨v, hv, hne, hsemi⟩ := hval e mem_cons_self
    obtain ⟨hskip, heol⟩ := outputEntry_word he (';' :: line2 l)
    have hline : line2 (e :: l) = outputEntry e.1 e.2 ++ ';' :: line2 l := by
      rw [line2, flatMap_cons, append_assoc]
      rfl
    have hentry : parseEntry format2 (outputEntry e.1 e.2 ++ ';' :: line2 l) =
        .ok (e.1, e.2, ';' :: line2 l) := by
      rw [hv, outputEntry, append_assoc, cons_append]
      exact parseEntry_semi he hne hsemi
    rw [foldlM_cons, hline, parseLoop_entry hskip heol hentry]
    refine bind_congr fun c' => ?_
    exact ih (fun x hx => hkey x (mem_cons_of_mem _ hx))
      (fun x hx => hval x (mem_cons_of_mem _ hx)) (Nat.lt_of_succ_lt_succ htodo) c'

end lines

/-! ## The tokens of a line -/

section tokens

variable {es : List Entry} {c c' : Cmd}

def tokens1 (e : Entry) : List Token := if e.1 = "cmd".toList then [] else [tokenOf e]

def tokens2 (e : Entry) : List Token :=
  if e.1 = "cmd".toList then []
  else if e.1 = "subcmd".toList then [⟨none, none⟩, tokenOf e] else [tokenOf e]

theorem addToken_ok {key val : Option Text} (h : addToken c key val = .ok c') :
    c'.tokens = c.tokens ++ [⟨key, val⟩] ∧ c'.tokens.length < maxPmiArgs := by
  unfold addToken at h
  dsimp only at h
  split at h
  · next hlt =>
    cases h
    exact ⟨rfl, hlt⟩
  · cases h

theorem addEntry1_ok {e : Entry} (h : addEntry1 c e.1 e.2 = .ok c') :
    c'.tokens = c.tokens ++ tokens1 e ∧
      (c.tokens.length < maxPmiArgs → c'.tokens.length < maxPmiArgs) := by
  unfold addEntry1 at h
  unfold tokens1
  split at h
  · next hcmd =>
    cases h
    rw [if_pos hcmd, append_nil]
    exact ⟨rfl, id⟩
  · next hcmd =>
    rw [if_neg hcmd]
    exact ⟨(addToken_ok h).1, fun _ => (addToken_ok h).2⟩

theorem addEntry2_ok {e : Entry} (h : addEntry2 c e.1 e.2 = .ok c') :
    c'.tokens = c.tokens ++ tokens2 e ∧
      (c.tokens.length < maxPmiArgs → c'.tokens.length < maxPmiArgs) := by
  unfold addEntry2 at h
  unfold tokens2
  split at h
  · next hcmd =>
    cases h
    rw [if_pos hcmd, append_nil]
    exact ⟨rfl, id⟩
  · next hcmd =>
    rw [if_neg hcmd]
    split at h
    · next hsub =>
      rw [if_pos hsub]
      -- the divider of the segments is one more token
      cases hadd : addToken c none none with
      | error x =>
        rw [hadd] at h
        cases h
      | ok c₁ =>
        rw [hadd] at h
        obtain ⟨h₁, -⟩ := addToken_ok hadd
        obtain ⟨h₂, hlt⟩ := addToken_ok (show addToken c₁ (some e.1) e.2 = .ok c' from h)
        refine ⟨?_, fun _ => hlt⟩
        rw [h₂, h₁, append_assoc]
        rfl
    · next hsub =>
      rw [if_neg hsub]
      exact ⟨(addToken_ok h).1, fun _ => (addToken_ok h).2⟩

theorem foldlM_tokens {add : Cmd → Entry → Except Fail Cmd} {t : Entry → List Token}
    (hadd : ∀ {c c' e}, add c e = .ok c' → c'.tokens = c.tokens ++ t e ∧
      (c.tokens.length < maxPmiArgs → c'.tokens.length < maxPmiArgs))
    (h : es.foldlM add c = .ok c') : c'.tokens = c.tokens ++ es.flatMap t ∧
      (c.tokens.length < maxPmiArgs → c'.tokens.length < maxPmiArgs) := by
  induction es generalizing c with
  | nil =>
    cases h
    rw [flatMap_nil, append_nil]
    exact ⟨rfl, id⟩
  | cons e es ih =>
    rw [foldlM_cons] at h
    cases hfirst : add c e with
    | error x =>
      rw [hfirst] at h
      cases h
    | ok c₁ =>
      rw [hfirst] at h
      obtain ⟨h₁, hlt₁⟩ := hadd hfirst
      obtain ⟨h₂, hlt₂⟩ := ih h
      refine ⟨?_, fun hc => hlt₂ (hlt₁ hc)⟩
      rw [h₂, h₁, flatMap_cons, append_assoc]

theorem foldlM_plain {add : Cmd → Entry → Except Fail Cmd}
    (hadd : ∀ c, ∀ e ∈ es, add c e = addToken c (some e.1) e.2)
    (hlen : c.tokens.length + es.length < maxPmiArgs) :
    es.foldlM add c = .ok { c with tokens := c.tokens ++ es.map tokenOf } := by
  induction es generalizing c with
  | nil =>
    rw [map_nil, append_nil]
    rfl
  | cons e es ih =>
    rw [length_cons] at hlen
    have hfirst : addToken c (some e.1) e.2 = .ok { c with tokens := c.tokens ++ [tokenOf e] } := by
      refine if_pos ?_
      rw [length_append, length_singleton]
      omega
    have hrest := ih (c := { c with tokens := c.tokens ++ [tokenOf e] })
      (fun c x hx => hadd c x (mem_cons_of_mem _ hx))
      (by simp only [length_append, length_singleton]; omega)
    rw [foldlM_cons, hadd c e mem_cons_self, hfirst]
    refine hrest.trans ?_
    rw [append_assoc]
    rfl

theorem flatMap_tokens1 (h : es.flatMap tokens1 = es.map tokenOf) :
    ∀ e ∈ es, e.1 ≠ "cmd".toList := by
  have hle : ∀ es : List Entry, (es.flatMap tokens1).length ≤ es.length := by
    intro es
    induction es with
    | nil => exact Nat.le_refl 0
    | cons e es ih =>
      rw [flatMap_cons, length_append, length_cons]
      unfold tokens1 at ih ⊢
      split <;> simp only [length_nil, length_singleton] <;> omega
  induction es with
  | nil => exact nofun
  | cons e es ih =>
    by_cases he : e.1 = "cmd".toList
    · have hlen := congrArg List.length h
      have := hle es
      rw [flatMap_cons, tokens1, if_pos he, nil_append, length_map,
        length_cons] at hlen
      omega
    · rw [flatMap_cons, tokens1, if_neg he, map_cons] at h
      exact forall_mem_cons.2 ⟨he, ih (List.cons.inj h).2⟩

theorem flatMap_tokens2 (h : es.flatMap tokens2 = es.map tokenOf) :
    ∀ e ∈ es, e.1 ≠ "cmd".toList ∧ e.1 ≠ "subcmd".toList := by
  have hsub : ∀ e ∈ es, e.1 ≠ "subcmd".toList := by
    intro e he hkey
    have hmem : (⟨none, none⟩ : Token) ∈ es.flatMap tokens2 := by
      refine mem_flatMap.2 ⟨e, he, ?_⟩
      rw [tokens2, hkey, if_neg (by decide), if_pos rfl]
      exact mem_cons_self
    rw [h] at hmem
    obtain ⟨e', -, he'⟩ := mem_map.1 hmem
    cases he'
  have heq : es.flatMap tokens2 = es.flatMap tokens1 := by
    refine flatMap_congr fun e he => ?_
    rw [tokens2, tokens1, if_neg (hsub e he)]
  rw [heq] at h
  exact fun e he => ⟨flatMap_tokens1 h e he, hsub e he⟩

end tokens

/-! ## Round trips -/

section roundTrip

variable {name : Text} {es : List Entry}

def output (pmicmd : Cmd) : WireVersion → Option Text
  | .v1 => outputV1 pmicmd
  | .v2 => outputV2 pmicmd

def RoundTrip (version : WireVersion) (name : Text) (es : List Entry) : Prop :=
  ∃ buf, output (cmdOf name es) version = some buf ∧ cmdParse buf version = .ok (cmdOf name es)

theorem mapM_outputToken :
    (cmdOf name es).tokens.mapM outputToken = some (es.map fun e => outputEntry e.1 e.2) := by
  rw [show (cmdOf name es).tokens = es.map tokenOf from rfl,
    mapM_eq_some (g := fun t : Token => outputEntry (t.key.getD []) t.val)]
  · rw [map_map]
    rfl
  · rintro t ht
    obtain ⟨e, -, rfl⟩ := mem_map.1 ht
    rfl

theorem line1_eq (e : Entry) : line1 (e :: es) =
    outputEntry e.1 e.2 ++ (es.map fun e => outputEntry e.1 e.2).flatMap (' ' :: ·) ++ ['\n'] := by
  induction es generalizing e with
  | nil => simp [line1]
  | cons e' es ih =>
    rw [line1, ih]
    · simp
    · exact cons_ne_nil _ _

def nameEntry (name : Text) : Entry := ("cmd".toList, some name)

theorem outputV1_eq : outputV1 (cmdOf name es) = some (line1 (nameEntry name :: es)) := by
  unfold outputV1
  rw [mapM_outputToken, line1_eq]
  rfl

theorem outputV2_eq : outputV2 (cmdOf name es) =
    some (lengthField (line2 (nameEntry name :: es)).length ++ line2 (nameEntry name :: es)) := by
  have hline : line2 (nameEntry name :: es) = "cmd=".toList ++ name ++ [';'] ++
      (es.map fun e => outputEntry e.1 e.2).flatMap (· ++ [';']) := by
    rw [flatMap_map]
    rfl
  unfold outputV2
  rw [mapM_outputToken, hline]
  rfl

theorem length_lengthField (n : Nat) : (lengthField n).length = 6 := by
  unfold lengthField
  dsimp only
  rw [length_take, length_append, length_replicate]
  omega

theorem isWord_cmd : IsWord "cmd".toList := by decide

theorem length_line1 (hne : es ≠ []) : es.length ≤ (line1 es).length := by
  induction es with
  | nil => exact absurd rfl hne
  | cons e es ih =>
    cases es with
    | nil => simp [line1]
    | cons e' es =>
      have := ih (cons_ne_nil _ _)
      change _ ≤ (outputEntry e.1 e.2 ++ ' ' :: line1 (e' :: es)).length
      simp only [length_append, length_cons] at this ⊢
      omega

theorem length_line2 : es.length ≤ (line2 es).length := by
  induction es with
  | nil => exact Nat.le_refl 0
  | cons e es ih =>
    rw [line2, flatMap_cons, length_append, length_append, length_cons,
      length_singleton]
    rw [line2] at ih
    omega

theorem cmdParse_line1 (hname : IsPlain name) (hkey : ∀ e ∈ es, IsWord e.1)
    (hval : ∀ e ∈ es, ∀ v ∈ e.2, IsPlain v) : cmdParse (line1 (nameEntry name :: es)) .v1 =
      es.foldlM (fun c e => addEntry1 c e.1 e.2) ⟨some name, []⟩ := by
  have hprefix : "cmd=".toList <+: line1 (nameEntry name :: es) := by
    rw [line1_eq, append_assoc]
    exact ⟨name ++ _, rfl⟩
  have hmcmd : ¬ "mcmd=".toList <+: line1 (nameEntry name :: es) := by
    rw [line1_eq, append_assoc]
    intro h
    exact absurd (cons_prefix_cons.1 h).1 (by decide)
  have hloop := parseLoop_line1 (l := nameEntry name :: es) (cons_ne_nil _ _)
    (forall_mem_cons.2 ⟨isWord_cmd, hkey⟩)
    (forall_mem_cons.2 ⟨by rintro v ⟨⟩; exact hname, hval⟩)
    (Nat.le_succ_of_le (length_line1 (cons_ne_nil _ _))) ⟨none, []⟩
  rw [cmdParse, if_neg hmcmd, parseV1, if_pos hprefix, hloop, foldlM_cons]
  rfl

theorem cmdParse_line2 (hne : name ≠ []) (hsemi : ';' ∉ name) (hkey : ∀ e ∈ es, IsWord e.1)
    (hval : ∀ e ∈ es, ∃ v, e.2 = some v ∧ v ≠ [] ∧ ';' ∉ v) (n : Nat) :
    cmdParse (lengthField n ++ line2 (nameEntry name :: es)) .v2 =
      es.foldlM (fun c e => addEntry2 c e.1 e.2) ⟨some name, []⟩ := by
  have hdrop : (lengthField n ++ line2 (nameEntry name :: es)).drop 6 =
      line2 (nameEntry name :: es) := drop_left' (length_lengthField n)
  have hprefix : "cmd=".toList <+: line2 (nameEntry name :: es) := by
    rw [line2, flatMap_cons, append_assoc]
    exact ⟨name ++ _, rfl⟩
  have hlen : (nameEntry name :: es).length <
      (lengthField n ++ line2 (nameEntry name :: es)).length + 1 := by
    rw [length_append]
    exact Nat.lt_succ_of_le (Nat.le_trans length_line2 (Nat.le_add_left _ _))
  have hloop := parseLoop_line2 (l := nameEntry name :: es)
    (forall_mem_cons.2 ⟨isWord_cmd, hkey⟩)
    (forall_mem_cons.2 ⟨⟨name, rfl, hne, hsemi⟩, hval⟩) hlen ⟨none, []⟩
  rw [cmdParse, parseV2, hdrop, if_pos hprefix, hloop, foldlM_cons]
  rfl

/-- Commands with plain names and values come back in the first wire version, and commands whose tokens
have values in the second one, if no key is one of the parser's own and there is room for the tokens;
no other ones do. -/
theorem cmd_round_trip (name : Text) (es : List Entry) (hkey : ∀ e ∈ es, IsWord e.1) :
    (IsPlain name → (∀ e ∈ es, ∀ v ∈ e.2, IsPlain v) →
      (RoundTrip .v1 name es ↔ (∀ e ∈ es, e.1 ≠ "cmd".toList) ∧ es.length < maxPmiArgs)) ∧
    (name ≠ [] → ';' ∉ name → (∀ e ∈ es, ∃ v, e.2 = some v ∧ v ≠ [] ∧ ';' ∉ v) →
      (RoundTrip .v2 name es ↔ (∀ e ∈ es, e.1 ≠ "cmd".toList ∧ e.1 ≠ "subcmd".toList) ∧
        es.length < maxPmiArgs)) := by
  have hpos : ([] : List Token).length < maxPmiArgs := by decide
  constructor
  · intro hname hval
    have hparse := cmdParse_line1 hname hkey hval
    constructor
    · rintro ⟨buf, hbuf, h⟩
      obtain rfl := Option.some.inj (hbuf.symm.trans outputV1_eq)
      obtain ⟨htokens, hlt⟩ := foldlM_tokens (t := tokens1) addEntry1_ok (hparse.symm.trans h)
      refine ⟨flatMap_tokens1 htokens.symm, ?_⟩
      have := hlt hpos
      rwa [show (cmdOf name es).tokens = es.map tokenOf from rfl, length_map] at this
    · rintro ⟨hcmd, hlt⟩
      refine ⟨_, outputV1_eq, hparse.trans (foldlM_plain (fun c e he => if_neg (hcmd e he)) ?_)⟩
      rwa [length_nil, Nat.zero_add]
  · intro hne hsemi hval
    have hparse := cmdParse_line2 hne hsemi hkey hval (line2 (nameEntry name :: es)).length
    constructor
    · rintro ⟨buf, hbuf, h⟩
      obtain rfl := Option.some.inj (hbuf.symm.trans outputV2_eq)
      obtain ⟨htokens, hlt⟩ := foldlM_tokens (t := tokens2) addEntry2_ok (hparse.symm.trans h)
      refine ⟨flatMap_tokens2 htokens.symm, ?_⟩
      have := hlt hpos
      rwa [show (cmdOf name es).tokens = es.map tokenOf from rfl, length_map] at this
    · rintro ⟨hcmd, hlt⟩
      refine ⟨_, outputV2_eq, hparse.trans (foldlM_plain (fun c e he => ?_) ?_)⟩
      · rw [addEntry2, if_neg (hcmd e he).1, if_neg (hcmd e he).2]
      · rwa [length_nil, Nat.zero_add]

/-- A command with a token without a value in the first wire version, and one with a value that has a
blank, a backslash and a newline in the second one. -/
theorem cmd_round_trip_two :
    RoundTrip .v1 "put".toList [("key".toList, some "a=b".toList), ("last".toList, none)] ∧
    RoundTrip .v2 "put".toList [("key".toList, some "a \\ b\n".toList)] := by
  have h₁ := cmd_round_trip "put".toList [("key".toList, some "a=b".toList), ("last".toList, none)]
    (by decide)
  have h₂ := cmd_round_trip "put".toList [("key".toList, some "a \\ b\n".toList)]
    (by decide)
  refine ⟨(h₁.1 (by unfold IsPlain; decide) (by unfold IsPlain; decide)).2 (by decide),
    (h₂.2 (by decide) (by decide) ?_).2 (by decide)⟩
  exact forall_mem_singleton.2 ⟨_, rfl, by decide, by decide⟩

/-- A value with a blank is split, a value loses its backslashes, a token without a value is joined with
the next one, and a token with the key `cmd` is lost. -/
theorem cmd_round_trip_fails :
    ¬ RoundTrip .v1 "put".toList [("key".toList, some "a b".toList)] ∧
    ¬ RoundTrip .v1 "put".toList [("key".toList, some "a\\b".toList)] ∧
    ¬ RoundTrip .v2 "put".toList [("flag".toList, none), ("key".toList, some "v".toList)] ∧
    ¬ RoundTrip .v1 "put".toList [("cmd".toList, some "get".toList)] := by
  refine ⟨?_, ?_, ?_, ?_⟩ <;>
  · rintro ⟨buf, hbuf, h⟩
    cases hbuf
    exact absurd h (by decide)

end roundTrip

end PsMpi.Pmi
