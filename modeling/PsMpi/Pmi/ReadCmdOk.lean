import Mathlib.Data.List.Basic
import PsMpi.Pmi.ReadCmd

/-!
# Messages come whole and in order
-/

open PsMpi.Lib List Option Function

namespace PsMpi.Pmi

/-! ## Messages and streams -/

def IsMessage1 (m : Text) : Prop :=
  "cmd=".toList <+: m ∧ 6 < m.length ∧ ∃ l, m = l ++ ['\n'] ∧ '\n' ∉ l

/-- A message of the second wire version: six characters with the number of the bytes that follow, of
which there are at least five. -/
def IsMessage2 (m : Text) : Prop :=
  ∃ field payload, m = field ++ payload ∧ field.length = 6 ∧
    (∀ c ∈ field, c.isDigit = true ∨ c = ' ') ∧ atoi field = payload.length ∧ 5 ≤ payload.length

def IsMessage (m : Text) : Prop := IsMessage1 m ∨ IsMessage2 m

def Recv.bytes : Recv → Text
  | .data bytes => bytes
  | _ => []

def incoming (l : List Recv) : Text := l.flatMap Recv.bytes

def Delivers (l : List Recv) : Prop := ∀ e ∈ l, e ≠ .failed ∧ e ≠ .data []

def sizes (l : List Recv) : Nat := (l.map Recv.size).sum

def maxRest : Nat := maxReadline + 99

section streams

variable {l : List Recv} {size : Nat} {m b t : Text}

theorem read_ok (h : Delivers l) (hsize : 0 < size) : ∃ c l', read size l = some (c, l') ∧
    c ++ incoming l' = incoming l ∧ Delivers l' ∧ c.length ≤ size ∧ (c = [] → incoming l = []) ∧
      (c ≠ [] → sizes l' < sizes l) := by
  induction l with
  | nil => exact ⟨[], [], rfl, rfl, h, Nat.zero_le _, fun _ => rfl, fun hc => absurd rfl hc⟩
  | cons e l ih =>
    obtain ⟨he, hl⟩ := forall_mem_cons.1 h
    cases e with
    | failed => exact absurd rfl he.1
    | interrupted =>
      obtain ⟨c, l', hread, hbytes, hdel, hc, hend, hlt⟩ := ih hl
      refine ⟨c, l', hread, hbytes, hdel, hc, hend, fun hne => ?_⟩
      have := hlt hne
      simp only [sizes, map_cons, sum_cons, Recv.size] at this ⊢
      omega
    | data bytes =>
      have hne : bytes ≠ [] := fun hb => he.2 (congrArg Recv.data hb)
      have hpos : 0 < bytes.length := length_pos_iff.2 hne
      refine ⟨_, _, rfl, ?_, ?_, length_take_le _ _, fun hc => ?_, fun _ => ?_⟩
      · split
        · next hle =>
          rw [take_of_length_le hle]
          rfl
        · change bytes.take size ++ (bytes.drop size ++ incoming l) = bytes ++ incoming l
          rw [← append_assoc, take_append_drop]
      · split
        · exact hl
        · next hle =>
          refine forall_mem_cons.2 ⟨⟨nofun, fun hnil => ?_⟩, hl⟩
          have hdrop := congrArg List.length (Recv.data.inj hnil)
          rw [length_drop, length_nil] at hdrop
          omega
      · have hlen := congrArg List.length hc
        rw [length_take, length_nil] at hlen
        omega
      · split
        · simp only [sizes, map_cons, sum_cons, Recv.size]
          omega
        · simp only [sizes, map_cons, sum_cons, Recv.size, length_drop]
          omega

theorem IsMessage.length (h : IsMessage m) : 6 < m.length := by
  rcases h with ⟨-, h, -⟩ | ⟨field, payload, rfl, hlen, -, -, hpos⟩
  · exact h
  · rw [length_append, hlen]
    omega

theorem IsMessage2.not_cmd (h : IsMessage2 m) : ¬ "cmd=".toList <+: m := by
  obtain ⟨field, payload, rfl, hlen, hdigit, -, -⟩ := h
  obtain ⟨c, field, rfl⟩ := exists_cons_of_length_pos (by omega : 0 < field.length)
  intro hcmd
  obtain rfl : 'c' = c := (cons_prefix_cons.1 hcmd).1
  rcases hdigit 'c' mem_cons_self with h | h
  · exact absurd h (by decide)
  · exact absurd h (by decide)

theorem IsMessage2.length_eq (h : IsMessage2 m) : atoi (m.take 6) + 6 = m.length := by
  obtain ⟨field, payload, rfl, hlen, -, hatoi, -⟩ := h
  rw [take_left' hlen, hatoi, length_append, hlen]
  omega

end streams

/-! ## A message that is not whole -/

def Knows (r : Reader) (m : Text) : Prop :=
  if 6 < r.buf.length then
    (IsMessage1 m ∧ r.wireVersion = some .v1) ∨
      (IsMessage2 m ∧ r.wireVersion = some .v2 ∧ r.pmi2CmdLen = m.length)
  else r.wireVersion = none ∧ r.pmi2CmdLen = 0

structure Head (r : Reader) (m : Text) : Prop where
  lt : r.buf.length < m.length
  pre : r.buf <+: m
  room : r.buf.length < r.bufsize
  small : r.bufsize ≤ m.length + maxRest + 1
  knows : Knows r m

section head

variable {r : Reader} {m b c t more : Text} {st : Input} {fd : Nat}

theorem Head.start (h : IsMessage m) : Head ⟨[], maxReadline, none, 0⟩ m := by
  have := h.length
  refine ⟨?_, nil_prefix, by decide, ?_, ?_⟩
  · rw [length_nil]
    omega
  · show maxReadline ≤ m.length + maxRest + 1
    unfold maxRest
    omega
  · exact ⟨rfl, rfl⟩

theorem Head.grow (h : Head r m) : Head (r.grow (decide (r.room < 100))) m ∧
    0 < (r.grow (decide (r.room < 100))).room ∧
      (r.grow (decide (r.room < 100))).buf = r.buf := by
  obtain ⟨hlt, hpre, hroom, hsmall, hknows⟩ := h
  by_cases hfew : r.room < 100
  · rw [decide_eq_true hfew]
    unfold Reader.room at hfew
    refine ⟨⟨hlt, hpre, ?_, ?_, hknows⟩, ?_, rfl⟩
    · exact Nat.lt_add_right _ hroom
    · simp only [Reader.grow, if_true]
      unfold maxRest
      omega
    · simp only [Reader.room, Reader.grow, if_true, maxReadline]
      omega
  · rw [decide_eq_false hfew]
    refine ⟨⟨hlt, hpre, hroom, hsmall, hknows⟩, ?_, rfl⟩
    show 0 < r.room
    omega

theorem take_eq_of_stream {n : Nat} (h : b ++ more = m ++ t) (hb : n ≤ b.length)
    (hm : n ≤ m.length) : b.take n = m.take n := by
  calc b.take n = (b ++ more).take n := (take_append_of_le_length hb).symm
    _ = (m ++ t).take n := by rw [h]
    _ = m.take n := take_append_of_le_length hm

theorem checkWire_ok (hm : IsMessage m) (hold : Knows { r with buf := b } m)
    (hbuf : r.buf = b ++ c) (h : r.buf ++ more = m ++ t) :
    ∃ r', checkWire r = some r' ∧ r'.buf = r.buf ∧ Knows r' m ∧ r.bufsize ≤ r'.bufsize ∧
      r'.bufsize ≤ max r.bufsize (m.length + 1) := by
  unfold checkWire
  unfold Knows at hold
  dsimp only at hold
  have hmlen := hm.length
  have hble : b.length ≤ r.buf.length := by
    rw [hbuf, length_append]
    omega
  by_cases hlen : 6 < r.buf.length
  · by_cases hwire : r.wireVersion = none
    · -- the version is not known yet
      rw [if_pos ⟨hwire, hlen⟩]
      have h4 := take_eq_of_stream h (n := 4) (by omega) (by omega)
      have h6 := take_eq_of_stream h (n := 6) (by omega) (by omega)
      have hcmd : "cmd=".toList <+: r.buf ↔ "cmd=".toList <+: m := by
        rw [prefix_iff_eq_take, prefix_iff_eq_take]
        exact iff_of_eq (congrArg ("cmd=".toList = ·) h4)
      rcases hm with h1 | h2
      · rw [if_pos (hcmd.2 h1.1)]
        refine ⟨_, rfl, rfl, ?_, Nat.le_refl _, Nat.le_max_left _ _⟩
        unfold Knows
        rw [if_pos hlen]
        exact .inl ⟨h1, rfl⟩
      · have hlen2 := h2.length_eq
        rw [if_neg fun h => h2.not_cmd (hcmd.1 h), h6]
        dsimp only
        have hpos : 10 < atoi (m.take 6) + 6 := by
          obtain ⟨field, payload, rfl, hfield, -, -, hpayload⟩ := h2
          rw [hlen2, length_append, hfield]
          omega
        rw [if_pos hpos, hlen2]
        refine ⟨_, rfl, rfl, ?_, Nat.le_max_left _ _, Nat.le_refl _⟩
        unfold Knows
        rw [if_pos hlen]
        exact .inr ⟨h2, rfl, rfl⟩
    · rw [if_neg fun h => hwire h.1]
      refine ⟨r, rfl, rfl, ?_, Nat.le_refl _, Nat.le_max_left _ _⟩
      unfold Knows
      rw [if_pos hlen]
      split at hold
      · exact hold
      · exact absurd hold.1 hwire
  · rw [if_neg fun h => hlen h.2]
    refine ⟨r, rfl, rfl, ?_, Nat.le_refl _, Nat.le_max_left _ _⟩
    unfold Knows
    rw [if_neg hlen]
    rwa [if_neg (by omega)] at hold

theorem fullCmd_whole (hb : b <+: m) (hlt : b.length < m.length) (hk : Knows r m)
    (hbuf : r.buf = b ++ c) (hpre : m <+: r.buf) (hm : IsMessage m) :
    fullCmd r c.length = some m.length := by
  have hlen := hm.length
  have hle := hpre.length_le
  unfold Knows at hk
  rw [if_pos (by omega)] at hk
  unfold fullCmd
  rcases hk with ⟨⟨-, -, l, rfl, hnl⟩, hwire⟩ | ⟨-, hwire, hcmd⟩
  · rw [if_pos hwire]
    have hstart : r.buf.length - c.length = b.length := by rw [hbuf, length_append]; omega
    have hdrop : r.buf.drop (r.buf.length - c.length) = c := by
      rw [hstart, hbuf, drop_left]
    -- the bytes before the new ones are a part of the line
    obtain ⟨l', rfl⟩ : b <+: l := by
      refine prefix_of_prefix_length_le hb (prefix_append l ['\n']) ?_
      rw [length_append, length_singleton] at hlt
      omega
    obtain ⟨u, hu⟩ := hpre
    have hc : c = l' ++ '\n' :: u := by
      rw [hbuf, append_assoc, append_assoc, append_cancel_left_eq] at hu
      exact hu.symm
    have hnl' : '\n' ∉ l' := fun h => hnl (mem_append_right _ h)
    have hidx : c.idxOf '\n' = l'.length := by
      rw [hc, idxOf_append_of_notMem hnl', idxOf_cons_self, Nat.add_zero]
    dsimp only
    rw [hdrop, if_pos (by rw [hc]; simp), hidx, hstart]
    simp only [length_append, length_singleton]
  · rw [if_neg (by rw [hwire]; decide), hcmd, if_pos (by omega), Int.toNat_natCast]

theorem fullCmd_part (hk : Knows r m) (hpre : r.buf <+: m) (hlt : r.buf.length < m.length)
    (n : Nat) : fullCmd r n = none := by
  unfold Knows at hk
  unfold fullCmd
  split at hk
  · rcases hk with ⟨⟨-, -, l, rfl, hnl⟩, hwire⟩ | ⟨-, hwire, hcmd⟩
    · have hline : r.buf <+: l := by
        refine prefix_of_prefix_length_le hpre (prefix_append l ['\n']) ?_
        rw [length_append, length_singleton] at hlt
        omega
      rw [if_pos hwire]
      dsimp only
      exact if_neg fun h => hnl (hline.subset (mem_of_mem_drop h))
    · rw [if_neg (by rw [hwire]; decide), hcmd]
      exact if_neg (by omega)
  · rw [if_neg (by rw [hk.1]; decide), hk.2]
    exact if_neg (by omega)

theorem deliver_ok {q : Reader} (st : Input) (fd : Nat) (hm : IsMessage m) (hh : Head r m) (hbuf : q.buf = r.buf ++ c)
    (hwire : q.wireVersion = r.wireVersion ∧ q.pmi2CmdLen = r.pmi2CmdLen)
    (hroom : q.buf.length < q.bufsize)
    (hsmall : m.length ≤ q.buf.length ∨ q.bufsize ≤ m.length + maxRest + 1)
    (h : q.buf ++ more = m ++ t) :
    (∃ u, q.buf = m ++ u ∧ u ++ more = t ∧ deliver st fd q c.length = some (.done (.message m),
      { st with lastReadList := st.lastReadList ++ if u = [] then [] else [⟨fd, u⟩] })) ∨
    (∃ r'', Head r'' m ∧ r''.buf = q.buf ∧ deliver st fd q c.length = some (.more r'', st)) := by
  have hknows : Knows { q with buf := r.buf } m := by
    have := hh.knows
    unfold Knows at this ⊢
    rwa [hwire.1, hwire.2]
  obtain ⟨r'', hcheck, hbuf'', hk, hle, hmax⟩ := checkWire_ok hm hknows hbuf h
  unfold deliver
  rw [hcheck]
  simp only [bind, bind_some]
  rcases append_eq_append_iff.1 h with ⟨v, hv, rfl⟩ | ⟨u, hu, rfl⟩
  · -- the stream splits the message, perhaps at its end
    cases v with
    | nil =>
      rw [append_nil] at hv
      have heq : m = r''.buf := by rw [hbuf'', hv]
      have hpre : m <+: r''.buf := ⟨[], by rw [append_nil, heq]⟩
      have hfull := fullCmd_whole hh.pre hh.lt hk (hbuf''.trans hbuf) hpre hm
      have hlen : m.length = r''.buf.length := by rw [hbuf'', hv]
      refine .inl ⟨[], by rw [hv, append_nil], rfl, ?_⟩
      rw [hfull]
      dsimp only
      rw [if_pos (by rw [hlen, hbuf'']; omega), hlen, take_length, saveRest,
        if_neg (Nat.lt_irrefl _), if_pos rfl, append_nil, hbuf'', hv]
    | cons d v =>
      have hpart : r''.buf.length < m.length := by
        rw [hbuf'', hv, length_append, length_cons]
        omega
      have hpre : r''.buf <+: m := by
        rw [hbuf'', hv]
        exact prefix_append _ _
      refine .inr ⟨r'', ⟨hpart, hpre, ?_, ?_, hk⟩, hbuf'', ?_⟩
      · rw [hbuf'']
        exact Nat.lt_of_lt_of_le hroom hle
      · rw [hbuf''] at hpart
        rcases hsmall with hsmall | hsmall
        · omega
        · refine Nat.le_trans hmax (Nat.max_le.2 ⟨hsmall, ?_⟩)
          omega
      · rw [fullCmd_part hk hpre hpart]
  · have hpre : m <+: r''.buf := by
      rw [hbuf'', hu]
      exact prefix_append _ _
    have hfull := fullCmd_whole hh.pre hh.lt hk (hbuf''.trans hbuf) hpre hm
    refine .inl ⟨u, hu, rfl, ?_⟩
    have hlen : r''.buf.length = m.length + u.length := by rw [hbuf'', hu, length_append]
    have hlen' : q.buf.length = m.length + u.length := by rw [hu, length_append]
    rw [hfull]
    dsimp only
    rw [if_pos (by omega), hbuf'', hu, take_left, saveRest, hbuf'', hu]
    cases u with
    | nil => simp
    | cons d u =>
      rw [if_pos (by simp), if_neg (cons_ne_nil _ _), drop_left]

end head

/-! ## A call -/

def Input.left (st : Input) (fd : Nat) : Text :=
  ((st.lastReadList.find? (·.fd == fd)).map LastRead.buf).getD []

section call

variable {r : Reader} {m t : Text} {st : Input} {fd : Nat}

def Given (st : Input) (fd : Nat) (m t : Text) (res : Option (ReadResult × Input)) : Prop :=
  ∃ u l, res = some (.message m, ⟨st.lastReadList ++ if u = [] then [] else [⟨fd, u⟩],
      Function.update st.inbox fd l⟩) ∧
    u ++ incoming l = t ∧ u.length ≤ maxRest ∧ Delivers l

theorem readLoop_ok (hm : IsMessage m) {todo : Nat} (htodo : sizes (st.inbox fd) < todo)
    (hh : Head r m) (hnone : st.lastReadList.find? (·.fd == fd) = none)
    (hdel : Delivers (st.inbox fd)) (h : r.buf ++ incoming (st.inbox fd) = m ++ t) :
    Given st fd m t (readLoop todo st fd r) := by
  induction todo generalizing st r with
  | zero => omega
  | succ todo ih =>
    obtain ⟨hgrow, hpos, hbuf⟩ := hh.grow
    obtain ⟨g, hg⟩ : ∃ g, r.grow (decide (r.room < 100)) = g := ⟨_, rfl⟩
    rw [hg] at hgrow hpos hbuf
    obtain ⟨c, l, hread, hbytes, hdel', hc, hend, hlt⟩ := read_ok hdel hpos
    have hne : c ≠ [] := by
      intro hnil
      have hlen := congrArg List.length h
      have := hh.lt
      rw [hend hnil, append_nil, length_append] at hlen
      omega
    have hroom : (g.buf ++ c).length < g.bufsize := by
      have := hgrow.room
      unfold Reader.room at hc
      rw [length_append]
      omega
    have hround : readRound st fd r = deliver { st with inbox := Function.update st.inbox fd l } fd
        { g with buf := g.buf ++ c } c.length := by
      unfold readRound transfer
      rw [hnone]
      simp only [bind, bind_some, if_true, hg, receive, hread, if_neg hne]
    have hstream : g.buf ++ c ++ incoming l = m ++ t := by
      rw [hbuf, append_assoc, hbytes, h]
    rw [readLoop, hround]
    rcases deliver_ok (q := { g with buf := g.buf ++ c }) _ _ hm hgrow rfl ⟨rfl, rfl⟩ hroom
      (.inr hgrow.small) hstream with ⟨u, hu, rfl, hdeliver⟩ | ⟨r₂, hhead, hbuf₂, hdeliver⟩
    · rw [hdeliver]
      refine ⟨u, l, rfl, rfl, ?_, hdel'⟩
      have hlen := congrArg List.length (show g.buf ++ c = m ++ u from hu)
      have := hgrow.small
      simp only [length_append] at hlen hroom
      omega
    · rw [hdeliver]
      have hlast : (Function.update st.inbox fd l) fd = l := update_self ..
      have := @ih r₂ { st with inbox := Function.update st.inbox fd l }
        (by dsimp only; rw [hlast]; have := hlt hne; omega) hhead hnone
        (by dsimp only; rw [hlast]; exact hdel') (by dsimp only; rw [hlast, hbuf₂, hstream])
      obtain ⟨u, l', hres, hrest⟩ := this
      refine ⟨u, l', ?_, hrest⟩
      dsimp only at hres ⊢
      rw [hres, update_idem]

/-! ## The bytes that are kept -/

theorem find_eraseP_ne {l : List LastRead} {fd' : Nat} (hne : fd' ≠ fd) :
    (l.eraseP (·.fd == fd)).find? (·.fd == fd') = l.find? (·.fd == fd') := by
  induction l with
  | nil => rfl
  | cons p l ih =>
    rw [eraseP_cons]
    by_cases hp : p.fd = fd
    · have hp' : (p.fd == fd') = false := by rw [hp]; simpa using hne.symm
      rw [show (p.fd == fd) = true by simpa using hp, cond_true, List.find?_cons, hp']
    · rw [show (p.fd == fd) = false by simpa using hp, cond_false, List.find?_cons,
        List.find?_cons, ih]

theorem find_eraseP_self {l : List LastRead} (h : (l.map LastRead.fd).Nodup) :
    (l.eraseP (·.fd == fd)).find? (·.fd == fd) = none := by
  induction l with
  | nil => rfl
  | cons p l ih =>
    rw [map_cons, nodup_cons] at h
    rw [eraseP_cons]
    by_cases hp : p.fd = fd
    · rw [show (p.fd == fd) = true by simpa using hp, cond_true, List.find?_eq_none]
      intro q hq hfd
      refine h.1 (mem_map.2 ⟨q, hq, ?_⟩)
      rw [hp]
      simpa using hfd
    · have hp' : (p.fd == fd) = false := by simpa using hp
      rw [hp', cond_false, List.find?_cons, hp']
      exact ih h.2

structure Input.Ok (st : Input) (rest : Nat → List Text) : Prop where
  stream : ∀ fd, st.left fd ++ incoming (st.inbox fd) = (rest fd).flatten
  delivers : ∀ fd, Delivers (st.inbox fd)
  nodup : (st.lastReadList.map LastRead.fd).Nodup
  small : ∀ p ∈ st.lastReadList, p.buf ≠ [] ∧ p.buf.length ≤ maxRest

variable {rest : Nat → List Text} {ms : List Text}

theorem Input.Ok.of_given (h : st.Ok rest) (hrest : rest fd = m :: ms)
    (l₀ : List LastRead) (hl₀ : l₀.Sublist st.lastReadList)
    (hself : l₀.find? (·.fd == fd) = none)
    (hother : ∀ fd' ≠ fd, l₀.find? (·.fd == fd') = st.lastReadList.find? (·.fd == fd'))
    {res : Option (ReadResult × Input)}
    (hg : Given { st with lastReadList := l₀ } fd m ms.flatten res) :
    ∃ st', res = some (.message m, st') ∧ st'.Ok (Function.update rest fd ms) := by
  obtain ⟨u, l, rfl, hu, hlen, hdel⟩ := hg
  have hnot : fd ∉ l₀.map LastRead.fd := by
    intro hmem
    obtain ⟨p, hp, hfd⟩ := mem_map.1 hmem
    exact List.find?_eq_none.1 hself p hp (by simpa using hfd)
  refine ⟨_, rfl, ⟨fun fd' => ?_, fun fd' => ?_, ?_, ?_⟩⟩
  · by_cases hfd : fd' = fd
    · subst hfd
      rw [update_self]
      unfold Input.left
      dsimp only
      rw [update_self, List.find?_append, hself, none_or]
      cases u with
      | nil => simpa using hu
      | cons c u => simpa using hu
    · rw [update_of_ne hfd]
      unfold Input.left
      dsimp only
      rw [update_of_ne hfd, List.find?_append, hother fd' hfd, ← h.stream fd']
      have hnone : (if u = [] then [] else [(⟨fd, u⟩ : LastRead)]).find? (·.fd == fd') = none := by
        split
        · rfl
        · simpa using Ne.symm hfd
      rw [hnone, or_none]
      rfl
  · by_cases hfd : fd' = fd
    · subst hfd
      dsimp only
      rw [update_self]
      exact hdel
    · dsimp only
      rw [update_of_ne hfd]
      exact h.delivers fd'
  · dsimp only
    rw [map_append]
    split
    · rw [map_nil, append_nil]
      exact h.nodup.sublist (hl₀.map _)
    · rw [map_singleton]
      refine nodup_append.2 ⟨h.nodup.sublist (hl₀.map _), pairwise_singleton _ _, ?_⟩
      rintro a ha b hb rfl
      rw [mem_singleton.1 hb] at ha
      exact hnot ha
  · intro p hp
    rcases mem_append.1 hp with hp | hp
    · exact h.small p (hl₀.subset hp)
    · split at hp
      · cases hp
      · next hne =>
        obtain rfl := mem_singleton.1 hp
        exact ⟨hne, hlen⟩

theorem readCmd_message (h : st.Ok rest) (hrest : rest fd = m :: ms) (hm : IsMessage m) :
    ∃ st', readCmd st fd = some (.message m, st') ∧ st'.Ok (Function.update rest fd ms) := by
  have hstream := h.stream fd
  rw [hrest, flatten_cons] at hstream
  cases hfind : st.lastReadList.find? (·.fd == fd) with
  | none =>
    rw [Input.left, hfind] at hstream
    have hg := readLoop_ok hm (Nat.lt_add_of_pos_right (by decide : 0 < 2)) (Head.start hm) hfind
      (h.delivers fd) hstream
    exact h.of_given hrest st.lastReadList (List.Sublist.refl _) hfind (fun _ _ => rfl) hg
  | some p =>
    obtain ⟨hne, hsmall⟩ := h.small p (mem_of_find?_eq_some hfind)
    rw [Input.left, hfind] at hstream
    have hself : (st.lastReadList.eraseP (·.fd == fd)).find? (·.fd == fd) = none :=
      find_eraseP_self h.nodup
    refine h.of_given hrest (st.lastReadList.eraseP (·.fd == fd)) eraseP_sublist hself
      (fun fd' hfd => find_eraseP_ne hfd) ?_
    -- the reader with the bytes that were kept
    obtain ⟨g, hg⟩ : ∃ g, (⟨[], maxReadline, none, 0⟩ : Reader).grow
        (decide ((⟨[], maxReadline, none, 0⟩ : Reader).room < p.buf.length)) = g := ⟨_, rfl⟩
    have hgrow : g.buf = [] ∧ g.wireVersion = none ∧ g.pmi2CmdLen = 0 ∧
        p.buf.length < g.bufsize ∧ (m.length ≤ p.buf.length ∨ g.bufsize ≤ m.length + maxRest + 1) := by
      unfold maxRest maxReadline at hsmall ⊢
      subst hg
      unfold Reader.grow Reader.room maxReadline
      split
      · refine ⟨rfl, rfl, rfl, ?_, ?_⟩
        · dsimp only
          omega
        · next hlt =>
          simp only [decide_eq_true_eq, length_nil] at hlt
          dsimp only
          omega
      · refine ⟨rfl, rfl, rfl, ?_, ?_⟩
        · next hlt =>
          simp only [decide_eq_true_eq, length_nil] at hlt
          dsimp only
          omega
        · have := hm.length
          dsimp only
          omega
    obtain ⟨hgbuf, hgwire, hglen, hroom, hgsmall⟩ := hgrow
    have htransfer : transfer st fd ⟨[], maxReadline, none, 0⟩ =
        some ({ st with lastReadList := st.lastReadList.eraseP (·.fd == fd) },
          { g with buf := p.buf }, p.buf.length) := by
      unfold transfer
      rw [hfind]
      dsimp only
      rw [hg, hgbuf, if_pos (by rw [length_nil]; omega)]
      rfl
    have hround : readRound st fd ⟨[], maxReadline, none, 0⟩ =
        deliver { st with lastReadList := st.lastReadList.eraseP (·.fd == fd) } fd
          { g with buf := p.buf } p.buf.length := by
      unfold readRound
      rw [htransfer]
      simp only [bind, bind_some]
      rw [if_neg (by rw [length_eq_zero_iff]; exact hne)]
    unfold readCmd
    rw [readLoop, hround]
    rcases deliver_ok (q := { g with buf := p.buf })
      { st with lastReadList := st.lastReadList.eraseP (·.fd == fd) } fd hm (Head.start hm) (nil_append _).symm ⟨hgwire, hglen⟩ hroom hgsmall hstream with
      ⟨u, hu, hrest', hdeliver⟩ | ⟨r₂, hhead, hbuf₂, hdeliver⟩
    · rw [hdeliver]
      refine ⟨u, st.inbox fd, ?_, hrest', ?_, h.delivers fd⟩
      · rw [update_eq_self]
      · have hlen := congrArg List.length (show p.buf = m ++ u from hu)
        rw [length_append] at hlen
        omega
    · rw [hdeliver]
      refine readLoop_ok hm ?_ hhead hself (h.delivers fd) ?_
      · exact Nat.lt_succ_self _
      · rw [hbuf₂]
        exact hstream

theorem readCmd_eof (h : st.Ok rest) (hrest : rest fd = []) :
    ∃ st', readCmd st fd = some (.eof, st') ∧ st'.Ok rest := by
  have hstream := h.stream fd
  rw [hrest, flatten_nil, append_eq_nil_iff] at hstream
  have hfind : st.lastReadList.find? (·.fd == fd) = none := by
    cases hfind : st.lastReadList.find? (·.fd == fd) with
    | none => rfl
    | some p =>
      have hleft := hstream.1
      rw [Input.left, hfind] at hleft
      exact absurd hleft (h.small p (mem_of_find?_eq_some hfind)).1
  obtain ⟨c, l, hread, hbytes, hdel, -, -, -⟩ :=
    read_ok (h.delivers fd) (by decide : 0 < (⟨[], maxReadline, none, 0⟩ : Reader).room)
  rw [hstream.2, append_eq_nil_iff] at hbytes
  obtain ⟨rfl, hl⟩ := hbytes
  have hround : readRound st fd ⟨[], maxReadline, none, 0⟩ =
      some (.done .eof, { st with inbox := Function.update st.inbox fd l }) := by
    have hfew : decide ((⟨[], maxReadline, none, 0⟩ : Reader).room < 100) = false := by decide
    unfold readRound transfer
    rw [hfind]
    simp only [bind, bind_some, if_true, hfew, Reader.grow, Bool.false_eq_true, if_false,
      receive, hread]
  refine ⟨{ st with inbox := Function.update st.inbox fd l }, ?_, ⟨fun fd' => ?_, fun fd' => ?_,
    h.nodup, h.small⟩⟩
  · unfold readCmd
    rw [readLoop, hround]
  · show st.left fd' ++ incoming (Function.update st.inbox fd l fd') = _
    by_cases hfd : fd' = fd
    · subst hfd
      rw [update_self, hl, hstream.1, hrest]
      rfl
    · rw [update_of_ne hfd]
      exact h.stream fd'
  · show Delivers (Function.update st.inbox fd l fd')
    by_cases hfd : fd' = fd
    · subst hfd
      rw [update_self]
      exact hdel
    · rw [update_of_ne hfd]
      exact h.delivers fd'

end call

/-! ## All calls -/

def readCmds : Input → List Nat → Option (List ReadResult)
  | _, [] => some []
  | st, fd :: fds => do
    let (res, st) ← readCmd st fd
    return res :: (← readCmds st fds)

def readQueues : (Nat → List Text) → List Nat → List ReadResult
  | _, [] => []
  | rest, fd :: fds =>
    (match rest fd with
      | [] => .eof
      | m :: _ => .message m) :: readQueues (Function.update rest fd (rest fd).tail) fds

theorem Input.Ok.readCmds {rest : Nat → List Text} {fds : List Nat} {st : Input} (h : st.Ok rest)
    (hm : ∀ fd, ∀ m ∈ rest fd, IsMessage m) : readCmds st fds = some (readQueues rest fds) := by
  induction fds generalizing st rest with
  | nil => rfl
  | cons fd fds ih =>
    unfold Pmi.readCmds readQueues
    cases hrest : rest fd with
    | nil =>
      obtain ⟨st', hread, hok⟩ := readCmd_eof h hrest
      have hsame : Function.update rest fd [] = rest := by rw [← hrest, update_eq_self]
      rw [hread, tail_nil, hsame]
      simp only [bind, bind_some, ih hok hm]
      rfl
    | cons m ms =>
      obtain ⟨st', hread, hok⟩ :=
        readCmd_message h hrest (hm fd m (by rw [hrest]; exact mem_cons_self))
      have hm' : ∀ fd', ∀ x ∈ Function.update rest fd ms fd', IsMessage x := by
        intro fd' x hx
        by_cases hfd : fd' = fd
        · subst hfd
          rw [update_self] at hx
          exact hm fd' x (by rw [hrest]; exact mem_cons_of_mem _ hx)
        · rw [update_of_ne hfd] at hx
          exact hm fd' x hx
      rw [hread]
      simp only [bind, bind_some, ih hok hm']
      rfl

/-- Successive calls on several descriptors, in any order, give the messages of each descriptor in order,
however the streams are cut into reads. -/
theorem read_cmd_framing (msgs : Nat → List Text) (hmsgs : ∀ fd, ∀ m ∈ msgs fd, IsMessage m)
    (inbox : Nat → List Recv) (hinbox : ∀ fd, Delivers (inbox fd))
    (hstream : ∀ fd, incoming (inbox fd) = (msgs fd).flatten) (fds : List Nat) :
    readCmds ⟨[], inbox⟩ fds = some (readQueues msgs fds) := by
  refine Input.Ok.readCmds ⟨hstream, hinbox, nodup_nil, nofun⟩ hmsgs

/-- Messages of both wire versions on a descriptor, in reads that cut the lines and the length
field. -/
theorem read_cmd_framing_cut :
    readCmds ⟨[], fun fd => if fd = 3 then
        [.data "cmd=a".toList, .interrupted, .data " b=c\n".toList, .data "cmd=x y=z\n00".toList,
          .data "0005cmd=k".toList] else []⟩ [3, 4, 3, 3, 3] =
      some [.message "cmd=a b=c\n".toList, .eof, .message "cmd=x y=z\n".toList,
        .message "000005cmd=k".toList, .eof] := by
  have hrun := read_cmd_framing
    (fun fd => if fd = 3 then
      ["cmd=a b=c\n".toList, "cmd=x y=z\n".toList, "000005cmd=k".toList] else [])
    ?_
    (fun fd => if fd = 3 then
        [.data "cmd=a".toList, .interrupted, .data " b=c\n".toList, .data "cmd=x y=z\n00".toList,
          .data "0005cmd=k".toList] else [])
    ?_ ?_ [3, 4, 3, 3, 3]
  · rw [hrun]
    rfl
  · intro fd m hm
    by_cases hfd : fd = 3
    · rw [if_pos hfd] at hm
      simp only [mem_cons, not_mem_nil, or_false] at hm
      rcases hm with rfl | rfl | rfl
      · exact .inl ⟨by decide, by decide, "cmd=a b=c".toList, by decide, by decide⟩
      · exact .inl ⟨by decide, by decide, "cmd=x y=z".toList, by decide, by decide⟩
      · have hfield : "000005".toList.all fun c => c.isDigit || c == ' ' := by decide
        rw [List.all_eq_true] at hfield
        exact .inr ⟨"000005".toList, "cmd=k".toList, by decide, by decide,
          fun c hc => by simpa using hfield c hc, by decide, by decide⟩
    · rw [if_neg hfd] at hm
      cases hm
  · intro fd
    by_cases hfd : fd = 3
    · rw [if_pos hfd]
      intro e he
      simp only [mem_cons, not_mem_nil, or_false] at he
      rcases he with rfl | rfl | rfl | rfl | rfl
      · exact ⟨nofun, fun h => absurd (Recv.data.inj h) (by decide)⟩
      · exact ⟨nofun, nofun⟩
      · exact ⟨nofun, fun h => absurd (Recv.data.inj h) (by decide)⟩
      · exact ⟨nofun, fun h => absurd (Recv.data.inj h) (by decide)⟩
      · exact ⟨nofun, fun h => absurd (Recv.data.inj h) (by decide)⟩
    · rw [if_neg hfd]
      exact nofun
  · intro fd
    by_cases hfd : fd = 3
    · rw [if_pos hfd, if_pos hfd]
      decide
    · rw [if_neg hfd, if_neg hfd]
      rfl

/-- A message of the second wire version with four bytes behind the length field is refused. -/
theorem read_cmd_short :
    "000004".toList.length = 6 ∧ atoi "000004".toList = ("cmd=".toList.length : Int) ∧
      readCmds ⟨[], fun fd => if fd = 3 then [.data "000004cmd=".toList] else []⟩ [3] ≠
        some [.message "000004cmd=".toList] := by
  decide

end PsMpi.Pmi
