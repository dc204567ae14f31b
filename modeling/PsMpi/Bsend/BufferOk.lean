import PsMpi.Bsend.ArenaOk
import PsMpi.Bsend.Buffer

/-!
# The arena along the runs of buffered sends
-/

open List Function

namespace PsMpi.Bsend

open PsMpi.Lib

structure UserOk (u : User) (reqs : List Nat) : Prop where
  arena : ∃ av ac, Arena u av ac ∧ ac.map (fun b => (u.hdr b).request) = reqs
  start : u.buffer = u.origbuffer + User.alignShift u.origbuffer
  large : u.origbuffer % alignSz ≠ 0 → bsendOverhead ≤ u.origbufferSize
  packs : ∀ k ∈ u.packs, u.buffer ≤ k.1 ∧ k.1 + k.2 ≤ u.buffer + u.origbufferSize

section user

variable {u v : User} {q : Requests} {reqs reqs' : List Nat} {p : Nat}

theorem UserOk.empty (h1 : u.buffer = 0) (h2 : u.origbuffer = 0) (h3 : u.origbufferSize = 0)
    (h4 : u.avail = none) (h5 : u.active = none) (h6 : u.packs = []) : UserOk u [] where
  arena := by
    refine ⟨[], [], ⟨⟨h4 ▸ Links.isList_nil, h5 ▸ Links.isList_nil, nofun, ?_, .nil, nofun⟩,
      nofun⟩, rfl⟩
    rw [h1, h3, show {b | b ∈ ([] : List Nat) ∨ b ∈ ([] : List Nat)} = ∅ from
      Set.ext fun b => by simp]
    exact Tiling.empty
  start := by rw [h1, h2]; rfl
  large := fun hne => absurd (by rw [h2]; rfl) hne
  packs := fun k hk => by rw [h6] at hk; cases hk

theorem attachUser_arena (u : User) {buffer size : Nat} (hsize : bsendOverhead ≤ size) :
    Arena (u.attachUser buffer size).1 [buffer + User.alignShift buffer] [] := by
  have hover : headerTrueSize < bsendOverhead := by decide
  have hself : (u.attachUser buffer size).1.hdr (buffer + User.alignShift buffer) =
      { size := size - headerTrueSize
        totalSize := size
        request := (u.hdr (buffer + User.alignShift buffer)).request
        msgbuf := buffer + User.alignShift buffer + headerTrueSize
        count := (u.hdr (buffer + User.alignShift buffer)).count } := by
    rw [User.attachUser, if_neg (Nat.not_lt.2 hsize)]
    exact update_self ..
  have hpos :
      0 < ((u.attachUser buffer size).1.hdr (buffer + User.alignShift buffer)).totalSize := by
    rw [hself]
    exact Nat.lt_of_lt_of_le (by decide) hsize
  have htile := @Tiling.singleton (fun b => ((u.attachUser buffer size).1.hdr b).totalSize) _ hpos
  have hset : {b | b ∈ [buffer + User.alignShift buffer] ∨ b ∈ []} =
      {buffer + User.alignShift buffer} := Set.ext fun b => by simp
  simp only [hself] at htile
  refine ⟨⟨?_, ?_, fun _ _ => not_mem_nil, ?_, pairwise_singleton _ _, fun b hb => ?_⟩,
    fun b hb => ?_⟩
  · rw [User.attachUser, if_neg (Nat.not_lt.2 hsize)]
    refine ⟨rfl, .singleton _, ?_, ?_, nodup_singleton _⟩ <;>
    · rintro a ⟨⟩
      exact update_self ..
  · rw [User.attachUser, if_neg (Nat.not_lt.2 hsize)]
    exact Links.isList_nil
  · rw [hset]
    have hrange : (u.attachUser buffer size).1.buffer = buffer + User.alignShift buffer ∧
        (u.attachUser buffer size).1.origbufferSize = size := by
      rw [User.attachUser, if_neg (Nat.not_lt.2 hsize)]
      exact ⟨rfl, rfl⟩
    rw [hrange.1, hrange.2]
    exact htile
  · obtain rfl : b = buffer + User.alignShift buffer := by simpa using hb
    rw [hself]
    refine ⟨?_, rfl⟩
    show size = size - headerTrueSize + headerTrueSize
    omega
  · obtain rfl : b = buffer + User.alignShift buffer := by simpa using hb
    rw [hself, mem_singleton]
    show buffer + User.alignShift buffer + size ≠ _
    omega

theorem UserOk.attachUser (hu : UserOk u []) (buffer size : Nat) :
    UserOk (u.attachUser buffer size).1 [] := by
  by_cases hsize : size < bsendOverhead
  · rw [User.attachUser, if_pos hsize]
    exact hu
  · have hle : bsendOverhead ≤ size := Nat.le_of_not_lt hsize
    refine ⟨⟨_, [], attachUser_arena u hle, rfl⟩, ?_, ?_, ?_⟩ <;>
      rw [User.attachUser, if_neg hsize]
    · intro _
      exact hle
    · intro k hk
      cases hk

theorem UserOk.requests (h : UserOk u reqs) : u.requests = reqs := by
  obtain ⟨av, ac, ha, rfl⟩ := h.arena
  unfold User.requests
  rw [ha.active.head]
  exact requestsFrom_eq ha.active.isTail ha.toSegments.length_le.2

theorem UserOk.active_isSome (h : UserOk u reqs) : u.active.isSome = !reqs.isEmpty := by
  obtain ⟨av, ac, ha, rfl⟩ := h.arena
  rw [ha.active.head]
  cases ac <;> rfl

theorem UserOk.keeps (h : UserOk u reqs) (hk : Keeps u v)
    (ha : ∃ av ac, Arena v av ac ∧ ac.map (fun b => (v.hdr b).request) = reqs') :
    UserOk v reqs' := by
  refine ⟨ha, ?_, ?_, ?_⟩
  · rw [hk.buffer, hk.origbuffer]
    exact h.start
  · rw [hk.origbuffer, hk.origbufferSize]
    exact h.large
  · rw [hk.packs, hk.buffer, hk.origbufferSize]
    exact h.packs

theorem UserOk.progress (h : UserOk u reqs) (complete : List Nat) :
    UserOk (u.progress complete).1 (reqs.filter (· ∉ complete)) ∧
    (u.progress complete).2 = reqs.filter (· ∈ complete) := by
  obtain ⟨av, ac, ha, rfl⟩ := h.arena
  have ha' : Arena u av ([] ++ ac) := ha
  have hspec := progressFrom_spec complete ha' ha.toSegments.length_le.2
  unfold User.progress
  rw [ha.active.head]
  obtain ⟨⟨av', h1⟩, h2, h3⟩ := hspec
  refine ⟨h.keeps h2 ⟨av', _, h1, ?_⟩, h3⟩
  simp only [h2.request, nil_append, filter_map]
  rfl

/-! ## Sends -/

theorem Arena.findBuffer {av ac : List Nat} {size : Nat} (h : Arena u av ac)
    (hf : u.findBuffer size = some p) : p ∈ av ∧ size ≤ (u.hdr p).size := by
  unfold User.findBuffer at hf
  rw [h.avail.head, findFrom_eq h.avail.isTail h.toSegments.length_le.1] at hf
  exact ⟨mem_of_find?_eq_some hf, by simpa using List.find?_some hf⟩

theorem Arena.pack {av ac : List Nat} (h : Arena u av ac) (p packsize data : Nat) :
    Arena (u.pack p packsize data) av ac ∧
    ∀ b, ((u.pack p packsize data).hdr b).request = (u.hdr b).request := by
  have hset := @Arena.setHdr _ p _ _ { u.hdr p with count := min data packsize } h rfl rfl rfl
  exact ⟨⟨⟨hset.avail, hset.active, hset.layout⟩, hset.apart⟩, request_setHdr rfl⟩

theorem UserOk.pack (h : UserOk u reqs) {packsize : Nat} (data : Nat)
    (hf : u.findBuffer packsize = some p) : UserOk (u.pack p packsize data) reqs := by
  obtain ⟨av, ac, ha, rfl⟩ := h.arena
  obtain ⟨hp, hroom⟩ := ha.findBuffer hf
  obtain ⟨hpack, hreq⟩ := ha.pack p packsize data
  refine ⟨⟨av, ac, hpack, map_congr_left fun b _ => hreq b⟩, h.start, h.large, fun k hk => ?_⟩
  rcases mem_cons.1 hk with rfl | hk
  · have hin := ha.layout.tiles.inside p (.inl hp)
    have hshape := ha.layout.shaped p (.inl hp)
    have hsize := hshape.size
    have hcount : min data packsize ≤ (u.hdr p).size := (Nat.min_le_right ..).trans hroom
    show u.buffer ≤ (u.hdr p).msgbuf ∧
      (u.hdr p).msgbuf + min data packsize ≤ u.buffer + u.origbufferSize
    rw [hshape.msgbuf]
    omega
  · exact h.packs k hk

theorem UserOk.takeBuffer {av ac : List Nat} {hd : Header} (h : UserOk u reqs) (ha : Arena u av ac)
    (hreqs : ac.map (fun b => (u.hdr b).request) = reqs) (hp : p ∈ av)
    (h1 : hd.size = (u.hdr p).size) (h2 : hd.totalSize = (u.hdr p).totalSize)
    (h3 : hd.msgbuf = (u.hdr p).msgbuf) (size : Nat) :
    UserOk ((u.setHdr p hd).takeBuffer p size) (hd.request :: reqs) := by
  have hset := ha.setHdr h1 h2 h3
  obtain ⟨av', htake⟩ := hset.takeBuffer hp size
  have hkeep := takeBuffer_keeps (u.setHdr p hd) p size
  have hself : (u.setHdr p hd).hdr p = hd := update_self ..
  have hother : ∀ b ∈ ac, ((u.setHdr p hd).hdr b).request = (u.hdr b).request := by
    intro b hb
    have hne : b ≠ p := fun hbp => ha.layout.disj p hp (hbp ▸ hb)
    rw [show (u.setHdr p hd).hdr b = u.hdr b from update_of_ne hne ..]
  have hmap := (map_congr_left hother).trans hreqs
  have hbase : UserOk (u.setHdr p hd) reqs :=
    ⟨⟨av, ac, hset, hmap⟩, h.start, h.large, h.packs⟩
  refine hbase.keeps hkeep ⟨av', p :: ac, htake, ?_⟩
  simp only [hkeep.request, map_cons, hself]
  rw [hmap]

theorem UserOk.sendFrom (h : UserOk u reqs) {packsize : Nat} (data req : Nat)
    (hf : u.findBuffer packsize = some p) :
    UserOk (u.sendFrom p packsize data (some req)) (req :: reqs) := by
  obtain ⟨av, ac, ha, hreqs⟩ := h.arena
  obtain ⟨hv, hreq⟩ := ha.pack p packsize data
  have hmap := (map_congr_left fun b _ => hreq b).trans hreqs
  exact @UserOk.takeBuffer _ _ p av ac { (u.pack p packsize data).hdr p with request := req }
    (h.pack data hf) hv hmap (ha.findBuffer hf).1 rfl rfl rfl _

end user

/-! ## The account of the requests -/

/-- Every request that was issued is either held by the buffer or was released, once, and only when
it was complete. -/
structure Account (q : Requests) (held : List Nat) : Prop where
  perm : (q.released ++ held).Perm (List.range q.issued)
  done : ∀ r ∈ q.released, r ∈ q.complete

section account

variable {q : Requests} {held freed : List Nat}

theorem Account.progressTest (h : Account q held) (prog : List Nat) :
    Account (q.progressTest prog) held :=
  ⟨h.perm, fun r hr => mem_append_right _ (h.done r hr)⟩

theorem Account.wait (h : Account q held) (req : Nat) (prog : List Nat) :
    Account (q.wait req prog) held :=
  ⟨h.perm, fun r hr => mem_cons_of_mem _ ((h.progressTest prog).done r hr)⟩

theorem Account.release {rest : List Nat} (h : Account q held) (hp : held.Perm (freed ++ rest))
    (hc : ∀ r ∈ freed, r ∈ q.complete) : Account (q.release freed) rest := by
  refine ⟨?_, fun r hr => ?_⟩
  · have hmove : (freed ++ q.released ++ rest).Perm (q.released ++ (freed ++ rest)) := by
      rw [← append_assoc]
      exact perm_append_comm.append_right rest
    exact hmove.trans ((hp.symm.append_left _).trans h.perm)
  · rcases mem_append.1 hr with hr | hr
    · exact hc r hr
    · exact h.done r hr

theorem Account.release_filter (h : Account q held) :
    Account (q.release (held.filter (· ∈ q.complete))) (held.filter (· ∉ q.complete)) := by
  refine h.release ?_ fun r hr => by simpa using (mem_filter.1 hr).2
  have hperm := filter_append_perm (fun r => decide (r ∈ q.complete)) held
  simpa using hperm.symm

theorem Account.issue {held' : List Nat} (h : Account q held)
    (hp : held'.Perm (q.issued :: held)) : Account { q with issued := q.issued + 1 } held' := by
  refine ⟨?_, h.done⟩
  show (q.released ++ held').Perm (List.range (q.issued + 1))
  rw [range_succ]
  have hmove : (q.released ++ q.issued :: held).Perm (q.released ++ held ++ [q.issued]) := by
    rw [append_assoc]
    exact (@perm_append_comm _ [q.issued] held).append_left _
  exact ((hp.append_left _).trans hmove).trans (h.perm.append_right _)

theorem Account.all_done (h : Account q []) {r : Nat} (hr : r < q.issued) :
    r ∈ q.released ∧ r ∈ q.complete := by
  have hmem : r ∈ q.released := by
    have := h.perm.mem_iff.2 (mem_range.2 hr)
    rwa [append_nil] at this
  exact ⟨hmem, h.done r hmem⟩

end account

/-! ## The calls -/

section calls

variable {u : User} {q : Requests} {reqs : List Nat} {p : Nat} {a : Auto}

theorem UserOk.checkActive (h : UserOk u reqs) (prog : List Nat) (q : Requests) :
    ∃ reqs', UserOk (checkActive prog q u).2 reqs' ∧
      (Account q reqs → Account (checkActive prog q u).1 reqs') := by
  unfold Bsend.checkActive
  split
  · obtain ⟨h1, h2⟩ := h.progress (q.progressTest prog).complete
    refine ⟨_, h1, fun hq => ?_⟩
    have hacc := (hq.progressTest prog).release_filter
    rw [← h2] at hacc
    exact hacc
  · exact ⟨reqs, h, id⟩

theorem UserOk.sendUser (h : UserOk u reqs) (q : Requests) (m : Msg) (sent : Bool)
    (hf : u.findBuffer m.packsize = some p) :
    ∃ reqs', UserOk (sendUser q u p m sent).2 reqs' ∧
      (Account q reqs → Account (sendUser q u p m sent).1 reqs') := by
  unfold Bsend.sendUser
  split
  · exact ⟨_, h.sendFrom _ _ hf, fun hq => hq.issue (.refl _)⟩
  · exact ⟨reqs, h.pack _ hf, id⟩

theorem UserOk.isendUser (h : UserOk u reqs) (q : Requests) (prog₁ prog₂ : List Nat) (m : Msg)
    (sent : Bool) : ∃ reqs', UserOk (isendUser prog₁ prog₂ q u m sent).2 reqs' ∧
      (Account q reqs → Account (isendUser prog₁ prog₂ q u m sent).1 reqs') := by
  obtain ⟨reqs₁, h1, hq1⟩ := h.checkActive prog₁ q
  unfold Bsend.isendUser
  simp only
  split
  · next hf =>
    obtain ⟨reqs₂, h2, hq2⟩ := h1.sendUser (Bsend.checkActive prog₁ q u).1 m sent hf
    exact ⟨reqs₂, h2, fun hq => hq2 (hq1 hq)⟩
  · obtain ⟨reqs₂, h2, hq2⟩ := h1.checkActive prog₂ (Bsend.checkActive prog₁ q u).1
    split
    · next hf =>
      obtain ⟨reqs₃, h3, hq3⟩ := h2.sendUser _ m sent hf
      exact ⟨reqs₃, h3, fun hq => hq3 (hq2 (hq1 hq))⟩
    · exact ⟨reqs₂, h2, fun hq => hq2 (hq1 hq)⟩

theorem foldl_wait (prog : Nat → List Nat) (l held : List Nat) (q : Requests) :
    let q' := l.foldl (fun q req => q.wait req (prog req)) q
    (Account q held → Account q' held) ∧ ∀ r, r ∈ l ∨ r ∈ q.complete → r ∈ q'.complete := by
  induction l generalizing q with
  | nil => exact ⟨id, fun r hr => hr.resolve_left not_mem_nil⟩
  | cons b l ih =>
    obtain ⟨h1, h2⟩ := ih (q.wait b (prog b))
    refine ⟨fun hq => h1 (hq.wait b _), fun r hr => h2 r ?_⟩
    rcases hr with hr | hr
    · rcases mem_cons.1 hr with rfl | hr
      · exact .inr mem_cons_self
      · exact .inl hr
    · exact .inr (mem_cons_of_mem _ (mem_append_right _ hr))

theorem UserOk.detachUser (h : UserOk u reqs) (prog : Nat → List Nat) (q : Requests) :
    UserOk (detachUser prog q u).2 [] ∧ (Account q reqs → Account (detachUser prog q u).1 []) := by
  refine ⟨.empty rfl rfl rfl rfl rfl rfl, fun hq => ?_⟩
  obtain ⟨h1, h2⟩ := foldl_wait prog u.requests reqs q
  refine (h1 hq).release ?_ fun r hr => h2 r (.inl hr)
  rw [h.requests, append_nil]

theorem UserOk.flushUser (h : UserOk u reqs) (prog : Nat → List Nat) (q : Requests) :
    UserOk (flushUser prog q u).2 [] ∧ (Account q reqs → Account (flushUser prog q u).1 []) :=
  ⟨(h.detachUser prog q).1.attachUser _ _, (h.detachUser prog q).2⟩

theorem UserOk.pollUser (h : UserOk u reqs) (prog : List Nat) (q : Requests) :
    ∃ reqs', UserOk (pollUser prog q u).2.1 reqs' ∧
      (Account q reqs → Account (pollUser prog q u).1 reqs') ∧
      ((pollUser prog q u).2.2 = true → reqs' = []) := by
  obtain ⟨reqs', h1, h2⟩ := h.checkActive prog q
  refine ⟨reqs', h1, h2, fun hempty => ?_⟩
  have hsome := h1.active_isSome
  have hnone : (Bsend.checkActive prog q u).2.active.isNone = true := hempty
  rw [Option.isNone_iff_eq_none] at hnone
  rw [hnone] at hsome
  simpa using hsome

theorem autoReap_eq (q : Requests) (a : Auto) : autoReap q a =
    (q.release ((a.activeList.map AutoElem.req).filter (· ∈ q.complete)).reverse,
      { a with activeList := [] }) := by
  unfold autoReap
  generalize hl : a.activeList = l
  induction l generalizing q a with
  | nil =>
    obtain ⟨userSize, activeList⟩ := a
    obtain rfl : activeList = [] := hl
    rfl
  | cons e l ih =>
    have herase : ({ a with activeList := a.activeList.erase e } : Auto).activeList = l := by
      simp [hl]
    rw [foldl_cons, ih _ _ herase]
    by_cases he : e.req ∈ q.complete <;> simp [he, Requests.release]

theorem Account.autoReap (h : Account q (a.activeList.map AutoElem.req))
    (hc : ∀ e ∈ a.activeList, e.req ∈ q.complete) : Account (autoReap q a).1 [] := by
  rw [autoReap_eq]
  have hall : (a.activeList.map AutoElem.req).filter (· ∈ q.complete) =
      a.activeList.map AutoElem.req := by
    refine filter_eq_self.2 fun r hr => ?_
    obtain ⟨e, he, rfl⟩ := mem_map.1 hr
    simpa using hc e he
  rw [hall]
  refine h.release ?_ fun r hr => ?_
  · rw [append_nil]
    exact (reverse_perm _).symm
  · obtain ⟨e, he, rfl⟩ := mem_map.1 (mem_reverse.1 hr)
    exact hc e he

theorem flushAuto_ok (prog : Nat → List Nat) (q : Requests) (a : Auto) :
    (flushAuto prog q a).2.activeList = [] ∧
    (Account q (a.activeList.map AutoElem.req) →
      (∀ e₀, a.activeList.head? = some e₀ → ∀ e ∈ a.activeList,
        e.req ∈ (q.wait e₀.req (prog e₀.req)).complete) → Account (flushAuto prog q a).1 []) := by
  obtain ⟨userSize, activeList⟩ := a
  cases activeList with
  | nil => exact ⟨rfl, fun hq _ => hq⟩
  | cons e l =>
    have hloop : flushAuto prog q ⟨userSize, e :: l⟩ =
        autoReap (q.wait e.req (prog e.req)) ⟨userSize, e :: l⟩ := by
      show flushAutoFrom prog l.length (autoReap (q.wait e.req (prog e.req)) ⟨userSize, e :: l⟩).1
        (autoReap (q.wait e.req (prog e.req)) ⟨userSize, e :: l⟩).2 = _
      rw [autoReap_eq]
      cases l.length <;> rfl
    rw [hloop]
    refine ⟨by rw [autoReap_eq], fun hq hc => (hq.wait e.req (prog e.req)).autoReap (hc e rfl)⟩

end calls

/-! ## Runs -/

def Auto.AllComplete (a : Auto) (q : Requests) : Prop := ∀ e ∈ a.activeList, e.req ∈ q.complete

/-- When the automatic buffer goes over its list in a step, all sends in the list are complete:
at a send by then, at a poll after the progress engine ran, and at a flush or a detach after the
wait for the first one. -/
def ReapsComplete (s : St) (act : Act) : Prop :=
  match s.buffer, act with
  | some (.automatic a), .isend .. => a.AllComplete s.reqs
  | some (.automatic a), .poll prog => a.AllComplete (s.reqs.progressTest prog)
  | some (.automatic a), .flush prog =>
    ∀ e, a.activeList.head? = some e → a.AllComplete (s.reqs.wait e.req (prog e.req))
  | some (.automatic a), .detach prog =>
    ∀ e, a.activeList.head? = some e → a.AllComplete (s.reqs.wait e.req (prog e.req))
  | _, _ => True

def BufferOk : Option Buffer → List Nat → Prop
  | none, held => held = []
  | some (.user u), held => UserOk u held
  | some (.automatic a), held => a.activeList.map AutoElem.req = held

def Buffer.held : Buffer → List Nat
  | .user u => u.requests
  | .automatic a => a.activeList.map AutoElem.req

/-- What a step does to the held requests: the invariant is kept, and on the condition `C` also the
account, with nothing held when a flush or a detach returns or a poll reports that the buffer is
empty. -/
def StepOk (C : Prop) (s : St) (held : List Nat) (s' : St) : Prop :=
  ∃ held', BufferOk s'.buffer held' ∧ (C → Account s.reqs held → Account s'.reqs held' ∧
    (s'.last = .flushed ∨ s'.last = .polled true → held' = []))

section runs

variable {s s' : St} {act : Act} {held : List Nat}

theorem attach_ok (hb : BufferOk s.buffer held) (buffer : Option Nat) (size : Nat) (C : Prop) :
    StepOk C s held (attach s buffer size) := by
  obtain ⟨_ | b, q, last⟩ := s
  · obtain rfl : held = [] := hb
    cases buffer with
    | none => exact ⟨[], rfl, fun _ hq => ⟨hq, nofun⟩⟩
    | some addr =>
      have hzero : UserOk User.zero [] := .empty rfl rfl rfl rfl rfl rfl
      exact ⟨[], hzero.attachUser addr size, fun _ hq => ⟨hq, nofun⟩⟩
  · exact ⟨held, hb, fun _ hq => ⟨hq, nofun⟩⟩

theorem isend_ok (hb : BufferOk s.buffer held) (m : Msg) (prog₁ prog₂ : List Nat) (sent : Bool) :
    StepOk (ReapsComplete s (.isend m prog₁ prog₂ sent)) s held (isend s m prog₁ prog₂ sent) := by
  obtain ⟨_ | u | a, q, last⟩ := s
  · exact ⟨held, hb, fun _ hq => ⟨hq, nofun⟩⟩
  · obtain ⟨reqs', h1, h2⟩ := UserOk.isendUser hb q prog₁ prog₂ m sent
    exact ⟨reqs', h1, fun _ hq => ⟨h2 hq, nofun⟩⟩
  · obtain rfl : a.activeList.map AutoElem.req = held := hb
    refine ⟨_, rfl, fun hc hq => ⟨?_, nofun⟩⟩
    have hreap := hq.autoReap hc
    show Account (isendAuto q a m sent).1 ((isendAuto q a m sent).2.activeList.map AutoElem.req)
    unfold isendAuto
    rw [autoReap_eq] at hreap ⊢
    cases sent with
    | true => exact hreap.issue (.refl _)
    | false => exact hreap

theorem poll_ok (hb : BufferOk s.buffer held) (prog : List Nat) :
    StepOk (ReapsComplete s (.poll prog)) s held (poll s prog) := by
  obtain ⟨_ | u | a, q, last⟩ := s
  · exact ⟨held, hb, fun _ hq => ⟨hq, fun _ => hb⟩⟩
  · obtain ⟨reqs', h1, h2, h3⟩ := UserOk.pollUser hb prog q
    refine ⟨reqs', h1, fun _ hq => ⟨h2 hq, fun hlast => h3 ?_⟩⟩
    rcases hlast with hlast | hlast
    · cases hlast
    · exact Report.polled.inj hlast
  · obtain rfl : a.activeList.map AutoElem.req = held := hb
    have hnil : (autoReap (q.progressTest prog) a).2.activeList = [] := by rw [autoReap_eq]
    refine ⟨[], congrArg (List.map AutoElem.req) hnil, fun hc hq => ⟨?_, fun _ => rfl⟩⟩
    exact (hq.progressTest prog).autoReap hc

theorem flush_ok (hb : BufferOk s.buffer held) (prog : Nat → List Nat) :
    StepOk (ReapsComplete s (.flush prog)) s held (flush s prog) := by
  obtain ⟨_ | u | a, q, last⟩ := s
  · exact ⟨held, hb, fun _ hq => ⟨hq, fun _ => hb⟩⟩
  · obtain ⟨h1, h2⟩ := UserOk.flushUser hb prog q
    exact ⟨[], h1, fun _ hq => ⟨h2 hq, fun _ => rfl⟩⟩
  · obtain rfl : a.activeList.map AutoElem.req = held := hb
    obtain ⟨hnil, hacc⟩ := flushAuto_ok prog q a
    exact ⟨[], congrArg (List.map AutoElem.req) hnil, fun hc hq => ⟨hacc hq hc, fun _ => rfl⟩⟩

theorem detach_ok (hb : BufferOk s.buffer held) (prog : Nat → List Nat) :
    StepOk (ReapsComplete s (.detach prog)) s held (detach s prog) := by
  obtain ⟨_ | u | a, q, last⟩ := s
  · exact ⟨held, hb, fun _ hq => ⟨hq, fun _ => hb⟩⟩
  · exact ⟨[], rfl, fun _ hq => ⟨(UserOk.detachUser hb prog q).2 hq, fun _ => rfl⟩⟩
  · obtain rfl : a.activeList.map AutoElem.req = held := hb
    exact ⟨[], rfl, fun hc hq => ⟨(flushAuto_ok prog q a).2 hq hc, fun _ => rfl⟩⟩

theorem bsendStep_ok (hb : BufferOk s.buffer held) (hs : bsendStep s act = some s') :
    StepOk (ReapsComplete s act) s held s' := by
  cases act with
  | attach buffer size => cases hs; exact attach_ok hb buffer size _
  | isend m prog₁ prog₂ sent => cases hs; exact isend_ok hb m prog₁ prog₂ sent
  | progress prog => cases hs; exact ⟨held, hb, fun _ hq => ⟨hq.progressTest prog, nofun⟩⟩
  | poll prog => cases hs; exact poll_ok hb prog
  | flush prog => cases hs; exact flush_ok hb prog
  | detach prog => cases hs; exact detach_ok hb prog

theorem bufferOk (h : bsendSys.Reach s) : ∃ held, BufferOk s.buffer held := by
  refine Sys.Reach.inv (M := bsendSys) (I := fun s : St => ∃ held, BufferOk s.buffer held)
    ⟨[], rfl⟩ ?_ h
  rintro s act s' ⟨held, hb⟩ hs
  obtain ⟨held', hb', -⟩ := bsendStep_ok hb hs
  exact ⟨held', hb'⟩

end runs

/-! ## The arena -/

/-- The segments of the available list `av` and the active list `ac` tile the attached buffer from
its aligned start to its end, the available ones in order and not adjacent, each with a size that
leaves room for its header; and nothing was packed outside of the buffer. -/
structure ArenaOk (u : User) (av ac : List Nat) : Prop where
  avail : u.links.IsList u.avail av
  active : u.links.IsList u.active ac
  disj : ∀ b ∈ av, b ∉ ac
  tiles : Tiling (fun b => (u.hdr b).totalSize) u.buffer (u.origbuffer + u.origbufferSize)
    {b | b ∈ av ∨ b ∈ ac}
  sorted : av.Pairwise (· < ·)
  apart : ∀ b ∈ av, b + (u.hdr b).totalSize ∉ av
  size : ∀ b, b ∈ av ∨ b ∈ ac → (u.hdr b).totalSize = (u.hdr b).size + headerTrueSize
  packs : ∀ k ∈ u.packs, u.origbuffer ≤ k.1 ∧ k.1 + k.2 ≤ u.origbuffer + u.origbufferSize

section arena

variable {s : St} {u : User} {reqs : List Nat}

theorem alignShift_of_aligned {buffer : Nat} (h : buffer % alignSz = 0) :
    User.alignShift buffer = 0 := by
  simp [User.alignShift, h]

theorem alignShift_of_not_aligned {buffer : Nat} (h : buffer % alignSz ≠ 0) :
    User.alignShift buffer = alignSz - buffer % alignSz := by
  simp [User.alignShift, h]

theorem UserOk.arenaOk (h : UserOk u reqs) (ha : u.origbuffer % alignSz = 0) :
    ∃ av ac, ArenaOk u av ac := by
  obtain ⟨av, ac, harena, -⟩ := h.arena
  have hstart : u.buffer = u.origbuffer := by
    rw [h.start, alignShift_of_aligned ha, Nat.add_zero]
  have htiles := harena.layout.tiles
  have hpacks := h.packs
  rw [hstart] at htiles hpacks
  refine ⟨av, ac, harena.avail, harena.active, harena.layout.disj, ?_, harena.layout.sorted,
    harena.apart, fun b hb => (harena.layout.shaped b hb).size, hpacks⟩
  rw [hstart]
  exact htiles

theorem UserOk.not_arenaOk (h : UserOk u reqs) (ha : u.origbuffer % alignSz ≠ 0) :
    ¬ ∃ av ac, ArenaOk u av ac := by
  rintro ⟨av', ac', hok⟩
  obtain ⟨av, ac, harena, -⟩ := h.arena
  -- the lists are those of the invariant, which tile a range that ends behind the buffer
  obtain rfl := hok.avail.unique harena.avail
  obtain rfl := hok.active.unique harena.active
  have hstart := h.start
  rw [alignShift_of_not_aligned ha] at hstart
  have hmod : u.origbuffer % alignSz < alignSz := Nat.mod_lt _ (by decide)
  have hlarge := h.large ha
  have hover : alignSz ≤ bsendOverhead := by decide
  obtain ⟨b, hb, hx⟩ := harena.layout.tiles.cover (u.origbuffer + u.origbufferSize) (by omega)
    (by omega)
  have hin := (hok.tiles.inside b hb).2
  omega

end arena

/-- In every run, the segments of an attached user buffer tile it from its aligned start to its
end, in order and without adjacent free ones, and everything was packed inside of it, if and only if
the program attached it at an aligned address. -/
theorem bsend_arena_iff {s : St} {u : User} (h : bsendSys.Reach s)
    (hu : s.buffer = some (.user u)) :
    (∃ av ac, ArenaOk u av ac) ↔ u.origbuffer % alignSz = 0 := by
  obtain ⟨reqs, hb⟩ := bufferOk h
  rw [hu] at hb
  have hok : UserOk u reqs := hb
  constructor
  · intro harena
    by_contra ha
    exact hok.not_arenaOk ha harena
  · exact hok.arenaOk

theorem bsend_arena_aligned : ∃ s u, bsendSys.Reach s ∧ s.buffer = some (.user u) ∧
    u.packs = [(96, 10)] ∧ ∃ av ac, ArenaOk u av ac := by
  have hrun : bsendSys.Reach (isend (attach bsendSys.init (some 8) 200) (.packed 10) [] [] true) :=
    .step (a := Act.isend (.packed 10) [] [] true)
      (.step (a := Act.attach (some 8) 200) .init trivial rfl) trivial rfl
  exact ⟨_, _, hrun, rfl, rfl, (bsend_arena_iff hrun rfl).2 rfl⟩

/-- A buffer of 104 bytes at the address 1 is moved to the address 8 and keeps its size, so a
message of 16 bytes is packed into the bytes from 96 on, and the buffer ends at 105. -/
theorem bsend_arena_misaligned : ∃ s u, bsendSys.Reach s ∧ s.buffer = some (.user u) ∧
    u.origbuffer = 1 ∧ u.origbufferSize = 104 ∧ u.packs = [(96, 16)] ∧
    ¬ ∃ av ac, ArenaOk u av ac := by
  have hrun : bsendSys.Reach (isend (attach bsendSys.init (some 1) 104) (.packed 16) [] [] true) :=
    .step (a := Act.isend (.packed 16) [] [] true)
      (.step (a := Act.attach (some 1) 104) .init trivial rfl) trivial rfl
  refine ⟨_, _, hrun, rfl, rfl, rfl, rfl, ?_⟩
  rintro ⟨av, ac, hok⟩
  have hin := (hok.packs (96, 16) (mem_singleton_self _)).2
  exact absurd hin (by decide)

/-! ## Completion -/

/-- Every pack buffer is released at most once and only when its request is complete, and until it
is released the buffer holds its send; when a flush or a detach returns, all sends are complete and
released, and a poll reports that the buffer is empty only if all are complete. -/
structure CompletionOk (s : St) : Prop where
  once : s.reqs.released.Nodup
  done : ∀ r ∈ s.reqs.released, r ∈ s.reqs.complete
  kept : ∀ r < s.reqs.issued, r ∈ s.reqs.released ∨ ∃ b, s.buffer = some b ∧ r ∈ b.held
  held : ∀ b, s.buffer = some b → ∀ r ∈ b.held, r ∉ s.reqs.released
  flushed : s.last = .flushed → ∀ r < s.reqs.issued, r ∈ s.reqs.complete ∧ r ∈ s.reqs.released
  polled : s.last = .polled true → ∀ r < s.reqs.issued, r ∈ s.reqs.complete

theorem BufferOk.held_eq {b : Buffer} {held : List Nat} (h : BufferOk (some b) held) :
    b.held = held := by
  cases b with
  | user u => exact UserOk.requests h
  | automatic a => exact h

theorem Account.completionOk {s : St} {held : List Nat} (hq : Account s.reqs held)
    (hb : BufferOk s.buffer held)
    (hlast : s.last = .flushed ∨ s.last = .polled true → held = []) : CompletionOk s := by
  have hnodup : (s.reqs.released ++ held).Nodup := hq.perm.nodup_iff.2 nodup_range
  obtain ⟨hrel, -, hdis⟩ := nodup_append.1 hnodup
  have hall : held = [] → ∀ r < s.reqs.issued, r ∈ s.reqs.released ∧ r ∈ s.reqs.complete := by
    rintro rfl r hr
    exact hq.all_done hr
  refine ⟨hrel, hq.done, fun r hr => ?_, fun b hbuf r hr hrel => ?_, fun hl r hr => ?_,
    fun hl r hr => ?_⟩
  · rcases mem_append.1 (hq.perm.mem_iff.2 (mem_range.2 hr)) with hr | hr
    · exact .inl hr
    · cases hbuf : s.buffer with
      | none =>
        rw [hbuf] at hb
        obtain rfl : held = [] := hb
        cases hr
      | some b =>
        rw [hbuf] at hb
        exact .inr ⟨b, rfl, hb.held_eq ▸ hr⟩
  · rw [hbuf] at hb
    rw [hb.held_eq] at hr
    exact hdis r hrel r hr rfl
  · exact (hall (hlast (.inl hl)) r hr).symm
  · exact (hall (hlast (.inr hl)) r hr).2

/-- In every run in which the automatic buffer goes over its list only when all sends in it are
complete, pack buffers are released once and after their requests, and flush, detach and poll wait
for all sends. -/
theorem bsend_completion {s : St} (h : bsendSys.ReachWhen ReapsComplete s) : CompletionOk s := by
  suffices hinv : ∃ held, BufferOk s.buffer held ∧ Account s.reqs held ∧
      (s.last = .flushed ∨ s.last = .polled true → held = []) by
    obtain ⟨held, hb, hq, hlast⟩ := hinv
    exact hq.completionOk hb hlast
  refine Sys.ReachWhen.inv (I := fun s : St => ∃ held, BufferOk s.buffer held ∧
    Account s.reqs held ∧ (s.last = .flushed ∨ s.last = .polled true → held = [])) ?_ ?_ h
  · exact ⟨[], rfl, ⟨.nil, nofun⟩, nofun⟩
  · rintro s act s' - ⟨held, hb, hq, -⟩ hc hs
    obtain ⟨held', hb', hkeep⟩ := bsendStep_ok hb hs
    obtain ⟨hq', hlast⟩ := hkeep hc hq
    exact ⟨held', hb', hq', hlast⟩

/-- Two sends through the automatic buffer, the first of which is complete when the second one is
issued, and a flush. -/
theorem bsend_completion_two : ∃ s, bsendSys.ReachWhen ReapsComplete s ∧ s.last = .flushed ∧
    s.reqs.issued = 2 ∧ CompletionOk s := by
  have h1 : bsendSys.ReachWhen ReapsComplete (attach bsendSys.init none 0) :=
    .step (a := Act.attach none 0) .init trivial rfl
  have h2 := Sys.ReachWhen.step (a := Act.isend (.packed 1) [] [] true) h1
    (fun e he => absurd he not_mem_nil) rfl
  have h3 := Sys.ReachWhen.step (a := Act.progress [0]) h2 trivial rfl
  have h4 := Sys.ReachWhen.step (a := Act.isend (.packed 1) [] [] true) h3 (by
    intro e he
    cases he with
    | head => decide
    | tail _ he => cases he) rfl
  have h5 := Sys.ReachWhen.step (a := Act.flush fun _ => []) h4 (by
    rintro e ⟨⟩ e' he
    cases he with
    | head => decide
    | tail _ he => cases he) rfl
  exact ⟨_, h5, rfl, rfl, bsend_completion h5⟩

/-- The second send through the automatic buffer drops the first one, which is not complete; the
flush waits for the second one only. -/
theorem bsend_completion_dropped : ∃ s, bsendSys.Reach s ∧ s.last = .flushed ∧
    0 < s.reqs.issued ∧ 0 ∉ s.reqs.complete ∧ ¬ CompletionOk s := by
  have hrun : bsendSys.exec bsendSys.init [.attach none 0, .isend (.packed 1) [] [] true,
      .isend (.packed 1) [] [] true, .flush fun _ => []] =
      some ⟨some (.automatic ⟨0, []⟩), ⟨2, [1], [1]⟩, .flushed⟩ := rfl
  refine ⟨_, Sys.exec_reach .init hrun, rfl, by decide, by decide, fun hok => ?_⟩
  exact absurd (hok.flushed rfl 0 (by decide)).1 (by decide)

/-! ## Failed attaches -/

/-- The buffers of a communicator, its session and the process: an attach is to one of them.
`MPIR_Buffer_attach_impl`, `MPIR_Comm_attach_buffer_impl`,
`MPIR_Session_attach_buffer_impl` (`bsendutil.c:916`). -/
inductive Place where
  | comm
  | session
  | process
deriving DecidableEq

/-- Whether an attach returns an error: there is a buffer already, or the new one is too small.
`MPIR_Bsend_attach` (:53). -/
def attachFails (b : Option Buffer) (buffer : Option Nat) (size : Nat) : Bool :=
  match b, buffer with
  | some _, _ => true
  | none, none => false
  | none, some addr => !(User.zero.attachUser addr size).2

def attachAt (bs : Place → Option Buffer) (l : Place) (buffer : Option Nat) (size : Nat) :
    Place → Option Buffer :=
  Function.update bs l (attach ⟨bs l, ⟨0, [], []⟩, .none⟩ buffer size).buffer

/-- An attach that fails changes nothing, if and only if there is a buffer already, the automatic
buffer is asked for, or the buffer is not too small. -/
theorem failed_attach_iff (bs : Place → Option Buffer) (l : Place) (buffer : Option Nat)
    (size : Nat) :
    (attachFails (bs l) buffer size = true → attachAt bs l buffer size = bs) ↔
      (bs l).isSome = true ∨ buffer = none ∨ bsendOverhead ≤ size := by
  unfold attachFails attachAt
  cases hb : bs l with
  | some b =>
    refine iff_of_true (fun _ => ?_) (.inl rfl)
    have hsame : (attach ⟨some b, ⟨0, [], []⟩, .none⟩ buffer size).buffer = bs l := hb.symm
    rw [hsame, Function.update_eq_self]
  | none =>
    cases buffer with
    | none => exact iff_of_true (fun h => by cases h) (.inr (.inl rfl))
    | some addr =>
      by_cases hsize : size < bsendOverhead
      · refine iff_of_false (fun h => ?_) (by simpa using hsize)
        have hfail : (User.zero.attachUser addr size).2 = false := by
          rw [User.attachUser, if_pos hsize]
        have hsame := congrFun (h (by simp only [hfail, Bool.not_false])) l
        rw [Function.update_self, hb] at hsame
        cases hsame
      · have hok : (User.zero.attachUser addr size).2 = true := by
          rw [User.attachUser, if_neg hsize]
        exact iff_of_true (fun h => by simp [hok] at h) (.inr (.inr (Nat.le_of_not_lt hsize)))

/-- After an attach of a buffer without room, the process has a buffer, and an attach of a large one
fails. -/
theorem failed_attach_stays :
    ¬ ∀ (bs : Place → Option Buffer) (l : Place) (buffer : Option Nat) (size : Nat),
      attachFails (bs l) buffer size = true → attachAt bs l buffer size = bs ∧
        ∀ addr big, bs l = none → bsendOverhead ≤ big →
          attachFails (attachAt bs l buffer size l) (some addr) big = false := by
  intro h
  have hfails := (h (fun _ => none) .process (some 0) 0 rfl).2 0 bsendOverhead rfl le_rfl
  cases hfails

end PsMpi.Bsend
