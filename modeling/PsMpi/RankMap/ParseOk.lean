import PsMpi.RankMap.Mapping

/-!
# The parser and the grammar

A list of a node map is played until its number of repetitions is used up.
-/

open PsMpi.Lib List Option

namespace PsMpi.RankMap

/-! ## Runs of the parser -/

section runs

variable {sz : Nat} {p q r : Parser} {ids ids' : List Int}

def Leads (sz : Nat) (p q : Parser) : Prop :=
  ∃ k, ∀ todo, parseLoop (k + todo) sz p = parseLoop todo sz q

theorem Leads.trans (h : Leads sz p q) (h' : Leads sz q r) : Leads sz p r := by
  obtain ⟨k, hk⟩ := h
  obtain ⟨k', hk'⟩ := h'
  refine ⟨k + k', fun todo => ?_⟩
  rw [Nat.add_assoc, hk, hk']

theorem Leads.of_round (h : parseRound sz p = .more q) : Leads sz p q := by
  refine ⟨1, fun todo => ?_⟩
  rw [Nat.add_comm, parseLoop, h]

/-- From a state on, the parser writes some ranks and comes to another state, or it stops as soon as
there is no more room. -/
structure Emits (sz : Nat) (p : Parser) (ids : List Int) (q : Parser) : Prop where
  out : q.out = p.out ++ ids
  leads : q.out.length < sz → Leads sz p q
  stops : p.out.length < sz → sz ≤ q.out.length →
    ∃ k, parseLoop k sz p = some (.success (q.out.take sz))

theorem Emits.refl : Emits sz p [] p :=
  ⟨(append_nil _).symm, fun _ => ⟨0, fun _ => by rw [Nat.zero_add]⟩, fun hp hq => by omega⟩

theorem Emits.trans (h : Emits sz p ids q) (h' : Emits sz q ids' r) :
    Emits sz p (ids ++ ids') r := by
  have hlen : q.out.length ≤ r.out.length := by
    rw [h'.out, length_append]
    omega
  refine ⟨?_, fun hr => ?_, fun hp hr => ?_⟩
  · rw [h'.out, h.out, append_assoc]
  · exact (h.leads (by omega)).trans (h'.leads hr)
  · by_cases hq : q.out.length < sz
    · obtain ⟨k, hk⟩ := h.leads hq
      obtain ⟨k', hk'⟩ := h'.stops hq hr
      exact ⟨k + k', by rw [hk, hk']⟩
    · obtain ⟨k, hk⟩ := h.stops hp (by omega)
      refine ⟨k, ?_⟩
      rw [hk, h'.out, take_append_of_le_length (by omega)]

theorem Emits.of_round (h : p.out.length < sz → parseRound sz p = .more q ∧ q.out.length ≤ sz)
    (hout : q.out = p.out ++ ids) : Emits sz p ids q := by
  have hlen : p.out.length ≤ q.out.length := by
    rw [hout, length_append]
    omega
  refine ⟨hout, fun hq => Leads.of_round (h (by omega)).1, fun hp hq => ⟨2, ?_⟩⟩
  obtain ⟨hround, hle⟩ := h hp
  have hend : parseRound sz q = .done (.success q.out) := by
    unfold parseRound
    rw [if_neg fun hroom => by omega]
  rw [parseLoop, hround]
  dsimp only
  rw [parseLoop, hend, take_of_length_le hle]

theorem Emits.of_step (h : p.out.length < sz → parseRound sz p = .more q) (hout : q.out = p.out) :
    Emits sz p [] q := by
  refine Emits.of_round (fun hp => ⟨h hp, ?_⟩) (by rw [hout, append_nil])
  rw [hout]
  omega

theorem parseLoop_add {k : Nat} {res : Outcome} (h : parseLoop k sz p = some res) (j : Nat) :
    parseLoop (k + j) sz p = some res := by
  induction k generalizing p with
  | zero => cases h
  | succ k ih =>
    rw [Nat.succ_add]
    rw [parseLoop] at h ⊢
    cases hround : parseRound sz p with
    | done res' =>
      rw [hround] at h
      exact h
    | more q =>
      rw [hround] at h
      exact ih h

theorem parseLoop_unique {k k' : Nat} {res res' : Outcome} (h : parseLoop k sz p = some res)
    (h' : parseLoop k' sz p = some res') : res = res' := by
  have hsome := parseLoop_add h k'
  rw [Nat.add_comm, parseLoop_add h' k] at hsome
  exact (Option.some.inj hsome).symm

theorem strToArray_unique {k k' : Nat} {mapping : Text} {res res' : Outcome}
    (h : strToArray k mapping sz = some res) (h' : strToArray k' mapping sz = some res') :
    res = res' := by
  unfold strToArray at h h'
  split at h
  · next hnil =>
    rw [if_pos hnil] at h'
    exact Option.some.inj (h.symm.trans h')
  · next hne =>
    rw [if_neg hne] at h'
    split at h
    · next s hs =>
      rw [hs] at h'
      exact parseLoop_unique h h'
    · next hs =>
      rw [hs] at h'
      exact Option.some.inj (h.symm.trans h')

end runs

/-! ## Numbers and blocks -/

section blocks

variable {sz : Nat} {p : Parser} {rest : Text}

def Stops (rest : Text) : Prop := ∀ c ∈ rest.head?, c.isAlphanum = false

theorem Stops.cons {c : Char} (h : c.isAlphanum = false) (rest : Text) : Stops (c :: rest) := by
  rintro d hd
  cases hd
  exact h

theorem skipSpace_cons {c : Char} (h : isspace c = false) (s : Text) :
    skipSpace (c :: s) = c :: s := dropWhile_cons_of_neg (by rw [h]; decide)

theorem Numeral.head (n : Numeral) : ∃ c s, n.digits = c :: s ∧ c.isDigit = true := by
  obtain ⟨c, s, h⟩ := exists_cons_of_ne_nil n.ne_nil
  exact ⟨c, s, h, n.isDigit c (h ▸ mem_cons_self)⟩

theorem Numeral.skipSpace (n : Numeral) (rest : Text) :
    skipSpace (n.digits ++ rest) = n.digits ++ rest := by
  obtain ⟨c, s, h, hc⟩ := n.head
  rw [h, cons_append, skipSpace_cons (isDigit_cases hc).2.1]

theorem Numeral.Plain.getInt {n : Numeral} (h : n.Plain) (hrest : Stops rest) :
    getInt (n.digits ++ rest) = ((n.value : Int), rest) := by
  obtain ⟨hv, hs⟩ := Prod.mk.inj h
  have := strtol_append n.isDigit n.ne_nil hrest (Prod.ext rfl hs)
  rw [RankMap.getInt, this]
  exact Prod.ext hv rfl

theorem getTriplet_text {x y z : Numeral} (hx : x.Plain) (hy : y.Plain) (hz : z.Plain)
    (rest : Text) :
    getTriplet (x.digits ++ ',' :: (y.digits ++ ',' :: (z.digits ++ ')' :: rest))) =
      some ((x.value : Int), (y.value : Int), (z.value : Int), rest) := by
  have hcomma : ∀ s, expectAndSkip ',' (skipSpace (',' :: s)) = some s := fun s => rfl
  have hparen : expectAndSkip ')' (skipSpace (')' :: rest)) = some rest := rfl
  unfold getTriplet
  rw [x.skipSpace, hx.getInt (Stops.cons (by decide) _)]
  dsimp only
  rw [hcomma, bind_eq_bind, bind_some, y.skipSpace,
    hy.getInt (Stops.cons (by decide) _)]
  dsimp only
  rw [hcomma, bind_some, z.skipSpace, hz.getInt (Stops.cons (by decide) _)]
  dsimp only
  rw [hparen]
  rfl

structure Passed (sz : Nat) (p : Parser) (ids : List Int) (q : Parser) (rest : Text) : Prop where
  emits : Emits sz p ids q
  s : q.s = rest
  comma : q.expectComma = true
  num : q.numRepeat = p.numRepeat
  cont : q.repeatCont = p.repeatCont
  start : ∀ t, p.repeatStart = some t → q.repeatStart = some t

theorem markZero_keeps (p : Parser) (id : Int) (s : Text) :
    (markZero p id s).s = p.s ∧ (markZero p id s).out = p.out ∧
      (markZero p id s).numRepeat = p.numRepeat ∧
      (markZero p id s).repeatCont = p.repeatCont ∧
        ∀ t, p.repeatStart = some t → (markZero p id s).repeatStart = some t := by
  unfold markZero
  split
  · next h =>
    refine ⟨rfl, rfl, rfl, rfl, fun t ht => ?_⟩
    rw [h.1] at ht
    cases ht
  · exact ⟨rfl, rfl, rfl, rfl, fun _ h => h⟩

theorem parseItem_num {n : Numeral} (h : n.Plain) (hs : p.s = n.digits ++ rest)
    (hrest : Stops rest) : parseItem sz p =
      .more { markZero { p with s := rest } n.value (n.digits ++ rest) with
        out := (markZero { p with s := rest } n.value (n.digits ++ rest)).out ++ [(n.value : Int)]
        expectComma := true } := by
  obtain ⟨c, t, hdigits, hc⟩ := n.head
  have hhead : ∀ d u, p.s = d :: u → d = c := by
    intro d u hd
    rw [hs, hdigits] at hd
    exact (List.cons.inj hd).1.symm
  unfold parseItem
  split
  · next u hu => exact absurd (hhead _ u hu ▸ hc) (by decide)
  · next u hu => exact absurd (hhead _ u hu ▸ hc) (by decide)
  · rw [hs, h.getInt hrest]

theorem parseItem_triple {x y z : Numeral} (h : (Block.triple x y z).Plain)
    (hs : p.s = (Block.triple x y z).text ++ rest) : parseItem sz p =
      writeBlock sz (markZero { p with s := rest } x.value p.s) (Block.triple x y z).ids := by
  have hs' : p.s = '(' :: (x.digits ++ ',' :: (y.digits ++ ',' :: (z.digits ++ ')' :: rest))) := by
    rw [hs]
    simp only [Block.text, cons_append, append_assoc, nil_append]
  obtain ⟨hx, hy, hz, -⟩ := h
  unfold parseItem
  split
  · next u hu =>
    rw [hs'] at hu
    exact absurd (List.cons.inj hu).1 (by decide)
  · next u hu =>
    rw [hs'] at hu
    obtain ⟨-, rfl⟩ := List.cons.inj hu
    rw [getTriplet_text hx hy hz]
    dsimp only
    rw [blockIds, Int.toNat_natCast, Int.toNat_natCast]
    rfl
  · next hnot => exact absurd hs' (hnot _)

theorem writeBlock_ok {ids : List Int} (h : ∀ id ∈ ids, id ≤ (intMax : Int))
    (hp : p.out.length < sz) :
    writeBlock sz p ids =
      if (p.out ++ ids).length < sz then .more { p with out := p.out ++ ids, expectComma := true }
      else .done (.success ((p.out ++ ids).take sz)) := by
  have hall : (ids.take (sz - p.out.length)).all (fun id => decide (id ≤ (intMax : Int))) = true := by
    rw [List.all_eq_true]
    exact fun id hid => decide_eq_true (h id (mem_of_mem_take hid))
  have htake : p.out ++ ids.take (sz - p.out.length) = (p.out ++ ids).take sz := by
    rw [take_append, take_of_length_le hp.le]
  unfold writeBlock
  dsimp only
  rw [if_pos hall, htake, length_take]
  split
  · rw [if_neg (by omega)]
  · rw [if_pos (by omega), take_of_length_le (by omega)]

variable (sz) in
theorem Block.passed {b : Block} (h : b.Plain) (hs : p.s = b.text ++ rest) (hrest : Stops rest)
    (hcomma : p.expectComma = false) : ∃ q, Passed sz p b.ids q rest := by
  have hround : ∀ {c : Char} {t : Text}, p.s = c :: t → isspace c = false →
      p.out.length < sz → parseRound sz p = parseItem sz p := by
    intro c t hc hspace hp
    have hskip : { p with s := skipSpace p.s } = p := by rw [hc, skipSpace_cons hspace, ← hc]
    unfold parseRound
    rw [if_pos ⟨by rw [hc]; exact cons_ne_nil _ _, hp⟩, hskip]
    dsimp only
    rw [hcomma]
    rfl
  cases b with
  | num n =>
    obtain ⟨c, t, hdigits, hc⟩ := n.head
    have hhead : p.s = c :: (t ++ rest) := by rw [hs, Block.text, hdigits, cons_append]
    obtain ⟨hks, hkout, hknum, hkcont, hkstart⟩ :=
      markZero_keeps { p with s := rest } n.value (n.digits ++ rest)
    refine ⟨{ markZero { p with s := rest } n.value (n.digits ++ rest) with
      out := p.out ++ (Block.num n).ids, expectComma := true },
      Emits.of_round (fun hp => ⟨?_, ?_⟩) rfl, hks, rfl, hknum, hkcont, hkstart⟩
    · rw [hround hhead (isDigit_cases hc).2.1 hp, parseItem_num h hs hrest, hkout]
      rfl
    · dsimp only
      rw [Block.ids, length_append, length_singleton]
      exact hp
  | triple x y z =>
    have hhead : ∃ t, p.s = '(' :: t := ⟨_, hs⟩
    obtain ⟨t, hhead⟩ := hhead
    obtain ⟨hks, hkout, hknum, hkcont, hkstart⟩ := markZero_keeps { p with s := rest } x.value p.s
    have hparse : p.out.length < sz → parseRound sz p = _ := fun hp => by
      rw [hround hhead (by decide) hp, parseItem_triple h hs,
        writeBlock_ok h.2.2.2 (by rw [hkout]; exact hp), hkout]
    refine ⟨{ markZero { p with s := rest } x.value p.s with
      out := p.out ++ (Block.triple x y z).ids, expectComma := true },
      ⟨rfl, fun hq => ?_, fun hp hq => ?_⟩, hks, rfl, hknum, hkcont, hkstart⟩
    · have hp : p.out.length < sz := by
        dsimp only at hq
        rw [length_append] at hq
        omega
      refine Leads.of_round ?_
      rw [hparse hp, if_pos hq]
    · refine ⟨1, ?_⟩
      rw [parseLoop, hparse hp, if_neg (Nat.not_lt.2 hq)]

end blocks

/-! ## Lists -/

section lists

variable {sz : Nat} {p : Parser} {rest : Text}

theorem parseRound_comma {c : Char} {t : Text} (hs : p.s = c :: t) (hspace : isspace c = false)
    (hcomma : p.expectComma = true) (hp : p.out.length < sz) :
    parseRound sz p = parseComma p := by
  have hskip : { p with s := skipSpace p.s } = p := by rw [hs, skipSpace_cons hspace, ← hs]
  unfold parseRound
  rw [if_pos ⟨by rw [hs]; exact cons_ne_nil _ _, hp⟩, hskip]
  dsimp only
  rw [hcomma]
  rfl

variable (sz) in
theorem Emits.comma {t : Text} (hs : p.s = ',' :: t) (hcomma : p.expectComma = true) :
    Emits sz p [] { p with s := t, expectComma := false } := by
  refine Emits.of_step (fun hp => ?_) rfl
  rw [parseRound_comma hs (by decide) hcomma hp]
  unfold parseComma
  split
  · next hs' => exact absurd (List.cons.inj (hs.symm.trans hs')).1 (by decide)
  · next hs' => exact absurd (List.cons.inj (hs.symm.trans hs')).1 (by decide)
  · rw [hs]
    rfl

variable (sz) in
theorem blocksText_passed {bs : List Block} (h : ∀ b ∈ bs, b.Plain)
    (hs : p.s = blocksText bs ++ rest) (hrest : Stops rest) (hcomma : p.expectComma = true) :
    ∃ q, Passed sz p (bs.flatMap Block.ids) q rest := by
  induction bs generalizing p with
  | nil => exact ⟨p, .refl, hs, hcomma, rfl, rfl, fun _ h => h⟩
  | cons b bs ih =>
    obtain ⟨hb, hbs⟩ := forall_mem_cons.1 h
    have hs' : p.s = ',' :: (b.text ++ (blocksText bs ++ rest)) := by
      rw [hs]
      simp only [blocksText, flatMap_cons, cons_append, append_assoc]
    have hstop : Stops (blocksText bs ++ rest) := by
      cases bs with
      | nil => exact hrest
      | cons _ _ => exact Stops.cons (by decide) _
    obtain ⟨q, hq⟩ := Block.passed sz
      (p := { p with s := b.text ++ (blocksText bs ++ rest), expectComma := false }) hb rfl hstop rfl
    obtain ⟨r, hr⟩ := ih hbs hq.s hq.comma
    refine ⟨r, ((Emits.comma sz hs' hcomma).trans hq.emits).trans hr.emits, hr.s, hr.comma,
      hr.num.trans hq.num,
      hr.cont.trans hq.cont, fun t ht => hr.start t (hq.start t ht)⟩

variable (sz) in
theorem list_passed {b : Block} {bs : List Block} (h : ∀ a ∈ b :: bs, a.Plain)
    (hs : p.s = b.text ++ (blocksText bs ++ rest)) (hrest : Stops rest)
    (hcomma : p.expectComma = false) :
    ∃ q, Passed sz p ((b :: bs).flatMap Block.ids) q rest := by
  obtain ⟨hb, hbs⟩ := forall_mem_cons.1 h
  have hstop : Stops (blocksText bs ++ rest) := by
    cases bs with
    | nil => exact hrest
    | cons _ _ => exact Stops.cons (by decide) _
  obtain ⟨q, hq⟩ := Block.passed sz hb hs hstop hcomma
  obtain ⟨r, hr⟩ := blocksText_passed sz hbs hq.s hrest hq.comma
  exact ⟨r, hq.emits.trans hr.emits, hr.s, hr.comma, hr.num.trans hq.num,
    hr.cont.trans hq.cont, fun t ht => hr.start t (hq.start t ht)⟩

def listText (b : Block) (bs : List Block) (n : Numeral) (rest : Text) : Text :=
  b.text ++ (blocksText bs ++ ']' :: 'x' :: (n.digits ++ rest))

variable {b : Block} {bs : List Block} {n : Numeral} {q : Parser}

theorem parseComma_endRepeat {start : Text} (hs : p.s = ']' :: 'x' :: (n.digits ++ rest))
    (hstart : p.repeatStart = some start) :
    parseComma p = endRepeat p start (n.digits ++ rest) := by
  obtain ⟨c, t, hdigits, hc⟩ := n.head
  unfold parseComma
  rw [hs, hstart]
  have hdigit : (n.digits ++ rest).head?.any Char.isDigit = true := by
    rw [hdigits]
    exact hc
  simp only [hdigit, if_true]

theorem endRepeat_eq (hn : n.Plain) (hrest : Stops rest) (start : Text) {todo : Nat}
    (hnum : (p.numRepeat = (todo + 1 : Nat) ∧ p.repeatCont = some rest) ∨
      (p.numRepeat = -1 ∧ n.value = todo + 1)) :
    endRepeat p start (n.digits ++ rest) =
      if todo = 0 then .more { p with s := rest, numRepeat := 0, repeatCont := some rest }
      else .more { p with
        s := start, expectComma := false, numRepeat := todo, repeatCont := some rest } := by
  have hread : (if p.numRepeat = -1 then { p with
        numRepeat := (getInt (n.digits ++ rest)).1, repeatCont := some (getInt (n.digits ++ rest)).2 }
      else p) = { p with numRepeat := (todo + 1 : Nat), repeatCont := some rest } := by
    rcases hnum with ⟨hnum, hcont⟩ | ⟨hnum, hvalue⟩
    · rw [if_neg (by rw [hnum]; omega), ← hnum, ← hcont]
    · rw [if_pos hnum, hn.getInt hrest, hvalue]
  unfold endRepeat
  simp only [hread]
  rw [if_neg (by omega)]
  by_cases htodo : todo = 0
  · subst htodo
    rfl
  · rw [if_neg htodo, if_neg (by omega)]
    congr
    omega

theorem endRepeat_used (h : p.numRepeat = 0) (start s : Text) :
    endRepeat p start s = .more { p with s := start, expectComma := false, numRepeat := -1 } := by
  cases p
  subst h
  rfl

variable (sz) in
theorem plays (h : ∀ a ∈ b :: bs, a.Plain) (hn : n.Plain) (hrest : Stops rest) {todo : Nat}
    (hs : p.s = listText b bs n rest) (hcomma : p.expectComma = false)
    (hstart : p.repeatStart = some p.s)
    (hnum : (p.numRepeat = (todo + 1 : Nat) ∧ p.repeatCont = some rest) ∨
      (p.numRepeat = -1 ∧ n.value = todo + 1)) :
    ∃ q, Emits sz p (repeated (todo + 1) ((b :: bs).flatMap Block.ids)) q ∧ q.s = rest ∧
      q.expectComma = true ∧ q.numRepeat = 0 := by
  induction todo generalizing p with
  | zero =>
    obtain ⟨q, hq⟩ := list_passed sz h hs (Stops.cons (by decide) _) hcomma
    rw [← hq.num, ← hq.cont] at hnum
    refine ⟨{ q with s := rest, numRepeat := 0, repeatCont := some rest },
      hq.emits.trans (Emits.of_step (fun hlt => ?_) rfl), rfl, hq.comma, rfl⟩
    rw [parseRound_comma hq.s (by decide) hq.comma hlt,
      parseComma_endRepeat hq.s (hq.start _ hstart), endRepeat_eq hn hrest p.s hnum, if_pos rfl]
  | succ todo ih =>
    obtain ⟨q, hq⟩ := list_passed sz h hs (Stops.cons (by decide) _) hcomma
    rw [← hq.num, ← hq.cont] at hnum
    obtain ⟨r, hr, hr'⟩ := ih (p := { q with
      s := p.s, expectComma := false, numRepeat := (todo + 1 : Nat), repeatCont := some rest })
      hs rfl (hq.start _ hstart) (.inl ⟨rfl, rfl⟩)
    have hend : Emits sz q [] { q with
        s := p.s, expectComma := false, numRepeat := (todo + 1 : Nat), repeatCont := some rest } := by
      refine Emits.of_step (fun hlt => ?_) rfl
      rw [parseRound_comma hq.s (by decide) hq.comma hlt,
        parseComma_endRepeat hq.s (hq.start _ hstart), endRepeat_eq hn hrest p.s hnum,
        if_neg (Nat.succ_ne_zero _)]
    exact ⟨r, hq.emits.trans (hend.trans hr), hr'⟩

variable (sz) in
theorem Emits.bracket {t : Text} (hs : p.s = '[' :: t) (hcomma : p.expectComma = false) :
    Emits sz p [] { p with s := t, repeatStart := some t } := by
  refine Emits.of_step (fun hp => ?_) rfl
  have hskip : { p with s := skipSpace p.s } = p := by
    rw [hs, skipSpace_cons (by decide), ← hs]
  unfold parseRound
  rw [if_pos ⟨by rw [hs]; exact cons_ne_nil _ _, hp⟩, hskip]
  dsimp only
  rw [if_neg (by rw [hcomma]; decide)]
  unfold parseItem
  rw [hs]
  rfl

end lists

/-! ## Node maps -/

section mappings

variable {sz : Nat} {p : Parser} {rest : Text}

/-- What is left in the counter of repetitions. It is only fresh before the first list. -/
def counter (seen : Bool) : Int := if seen then 0 else -1

variable (sz) in
theorem repeats_emits {b : Block} {bs : List Block} {n : Numeral} (seen : Bool)
    (h : (Item.repeats b bs n).Plain) (hs : p.s = '[' :: listText b bs n rest) (hrest : Stops rest)
    (hcomma : p.expectComma = false) (hnum : p.numRepeat = counter seen) :
    ∃ q, Emits sz p (repeated (if seen then n.value + 1 else n.value)
        ((b :: bs).flatMap Block.ids)) q ∧
      q.s = rest ∧ q.expectComma = true ∧ q.numRepeat = 0 := by
  obtain ⟨hblocks, hn, hpos⟩ := h
  obtain ⟨todo, htodo⟩ : ∃ todo, n.value = todo + 1 := ⟨n.value - 1, by omega⟩
  have hin := Emits.bracket sz hs hcomma
  cases seen with
  | false =>
    obtain ⟨q, hq, hq'⟩ := plays sz
      (p := { p with s := listText b bs n rest, repeatStart := some (listText b bs n rest) })
      hblocks hn hrest rfl hcomma rfl (.inr ⟨hnum, htodo⟩)
    rw [if_neg (by decide), htodo]
    exact ⟨q, hin.trans hq, hq'⟩
  | true =>
    -- the counter was not made fresh, so that the first play is not counted
    obtain ⟨q, hq⟩ := list_passed sz
      (p := { p with s := listText b bs n rest, repeatStart := some (listText b bs n rest) })
      hblocks rfl (Stops.cons (by decide) _) hcomma
    have hagain : Emits sz q [] { q with
        s := listText b bs n rest, expectComma := false, numRepeat := -1 } := by
      refine Emits.of_step (fun hlt => ?_) rfl
      have hzero : q.numRepeat = 0 := hq.num.trans hnum
      rw [parseRound_comma hq.s (by decide) hq.comma hlt,
        parseComma_endRepeat hq.s (hq.start _ rfl), endRepeat_used hzero]
    obtain ⟨r, hr, hr'⟩ := plays sz
      (p := { q with s := listText b bs n rest, expectComma := false, numRepeat := -1 })
      hblocks hn hrest rfl rfl (hq.start _ rfl) (.inr ⟨rfl, htodo⟩)
    rw [if_pos rfl, htodo]
    exact ⟨r, hin.trans (hq.emits.trans (hagain.trans hr)), hr'⟩

variable (sz) in
theorem items_emit {items : List Item} (seen : Bool) (h : ∀ i ∈ items, i.Plain)
    (hs : p.s = itemsText items ++ rest) (hrest : Stops rest) (hcomma : p.expectComma = true)
    (hnum : p.numRepeat = counter seen) :
    ∃ q, Emits sz p (expandMore seen items) q := by
  induction items generalizing p seen with
  | nil => exact ⟨p, .refl⟩
  | cons i items ih =>
    obtain ⟨hi, hitems⟩ := forall_mem_cons.1 h
    have hs' : p.s = ',' :: (i.text ++ (itemsText items ++ rest)) := by
      rw [hs]
      simp only [itemsText, flatMap_cons, cons_append, append_assoc]
    have hstop : Stops (itemsText items ++ rest) := by
      cases items with
      | nil => exact hrest
      | cons _ _ => exact Stops.cons (by decide) _
    have hin := Emits.comma sz hs' hcomma
    cases i with
    | block b =>
      obtain ⟨q, hq⟩ := Block.passed sz
        (p := { p with s := b.text ++ (itemsText items ++ rest), expectComma := false })
        hi rfl hstop rfl
      obtain ⟨r, hr⟩ := ih seen hitems hq.s hq.comma (hq.num.trans hnum)
      exact ⟨r, hin.trans (hq.emits.trans hr)⟩
    | repeats b bs n =>
      have hlist : (Item.repeats b bs n).text ++ (itemsText items ++ rest) =
          '[' :: listText b bs n (itemsText items ++ rest) := by
        simp only [Item.text, listText, cons_append, append_assoc]
      obtain ⟨q, hq, hqs, hqcomma, hqnum⟩ := repeats_emits sz seen
        (p := { p with
          s := (Item.repeats b bs n).text ++ (itemsText items ++ rest), expectComma := false })
        hi hlist hstop rfl hnum
      obtain ⟨r, hr⟩ := ih true hitems hqs hqcomma hqnum
      exact ⟨r, hin.trans (hq.trans hr)⟩

theorem strToArray_mapping (todo : Nat) (items : List Item) (sz : Nat) :
    strToArray todo (mappingText items) sz =
      parseLoop todo sz ⟨itemsText items ++ [')'], none, none, -1, true, []⟩ := by
  obtain ⟨c, t, ht, hc, hspace⟩ : ∃ c t, itemsText items ++ [')'] = c :: t ∧
      isIdent c = false ∧ isspace c = false := by
    cases items with
    | nil => exact ⟨_, _, rfl, rfl, rfl⟩
    | cons i items => exact ⟨_, _, rfl, rfl, rfl⟩
  have hword : expectWord "vector".toList ("vector".toList ++ c :: t) = some (c :: t) := by
    unfold expectWord
    rw [drop_left, if_pos ⟨prefix_append _ _, by
      rw [List.head?_cons, all_some, hc]; rfl⟩]
  have hopen : expectAndSkip '(' (skipSpace ("(vector".toList ++ c :: t)) =
      some ("vector".toList ++ c :: t) := rfl
  have hvector : skipSpace ("vector".toList ++ c :: t) = "vector".toList ++ c :: t := rfl
  unfold strToArray mappingText
  rw [ht, if_neg (append_ne_nil_of_right_ne_nil _ (cons_ne_nil _ _)), hopen, bind_some, hvector, hword]
  dsimp only
  rw [skipSpace_cons hspace]

theorem strToArray_emits {items : List Item} (rest : List Item) {sz : Nat}
    (hsz : sz ≤ (expand items).length) (h : ∀ i ∈ items, i.Plain) :
    ∃ todo, strToArray todo (mappingText (items ++ rest)) sz =
      some (.success ((expandMore false items).take sz)) := by
  have hstop : Stops (itemsText rest ++ [')']) := by
    cases rest with
    | nil => exact Stops.cons (by decide) _
    | cons _ _ => exact Stops.cons (by decide) _
  have htext : itemsText (items ++ rest) ++ [')'] =
      itemsText items ++ (itemsText rest ++ [')']) := by
    rw [itemsText, flatMap_append, append_assoc]
    rfl
  by_cases hpos : 0 < sz
  · obtain ⟨q, hq⟩ := items_emit sz false
      (p := ⟨itemsText items ++ (itemsText rest ++ [')']), none, none, -1, true, []⟩)
      h rfl hstop rfl rfl
    have hout : q.out = expandMore false items := hq.out
    have hle := expandMore_length false items
    obtain ⟨k, hk⟩ := hq.stops hpos (by rw [hout]; omega)
    refine ⟨k, ?_⟩
    rw [strToArray_mapping, htext, hk, hout]
  · obtain rfl : sz = 0 := by omega
    refine ⟨1, ?_⟩
    rw [strToArray_mapping, parseLoop, parseRound, if_neg fun h => absurd h.2 (Nat.lt_irrefl 0),
      take_zero]

end mappings

end PsMpi.RankMap
