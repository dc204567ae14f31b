import Mathlib.Data.List.Dedup
import PsMpi.Lib.Tiling
import PsMpi.Bsend.Arena

/-!
# The segments tile the buffer
-/

open List Function

namespace PsMpi.Bsend

open PsMpi.Lib

/-- The sizes and the room of a header at the address `b`. -/
structure Header.Shaped (h : Header) (b : Nat) : Prop where
  size : h.totalSize = h.size + headerTrueSize
  msgbuf : h.msgbuf = b + headerTrueSize

/-- The segments of the two lists tile the range from `lo` to `hi`, and the available ones are in
the order of their addresses. -/
structure Layout (hdr : Nat → Header) (lo hi : Nat) (av ac : List Nat) : Prop where
  disj : ∀ b ∈ av, b ∉ ac
  tiles : Tiling (fun b => (hdr b).totalSize) lo hi {b | b ∈ av ∨ b ∈ ac}
  sorted : av.Pairwise (· < ·)
  shaped : ∀ b, b ∈ av ∨ b ∈ ac → (hdr b).Shaped b

section layout

variable {hdr hdr' : Nat → Header} {lo hi p : Nat} {av ac l₁ l₂ c₁ c₂ : List Nat}

theorem mem_mid {b : Nat} : b ∈ l₁ ++ p :: l₂ ↔ b = p ∨ b ∈ l₁ ++ l₂ :=
  perm_middle.mem_iff.trans mem_cons

theorem Layout.around (h : Layout hdr lo hi (l₁ ++ p :: l₂) ac) :
    (∀ b ∈ l₁, b + (hdr b).totalSize ≤ p) ∧ ∀ b ∈ l₂, p + (hdr p).totalSize ≤ b := by
  obtain ⟨-, htail, hlt⟩ := pairwise_append.1 h.sorted
  have hp : p ∈ l₁ ++ p :: l₂ := mem_append_right _ mem_cons_self
  constructor
  · intro b hb
    exact h.tiles.disj b (.inl (mem_append_left _ hb)) p (.inl hp)
      (hlt b hb p mem_cons_self)
  · intro b hb
    have hb' : b ∈ l₁ ++ p :: l₂ := mem_append_right _ (mem_cons_of_mem _ hb)
    exact h.tiles.disj p (.inl hp) b (.inl hb') ((pairwise_cons.1 htail).1 b hb)

theorem Layout.nodup (h : Layout hdr lo hi av ac) : av.Nodup :=
  h.sorted.imp fun hlt => Nat.ne_of_lt hlt

theorem Layout.pos (h : Layout hdr lo hi av ac) {b : Nat} (hb : b ∈ av ∨ b ∈ ac) :
    0 < (hdr b).totalSize :=
  h.tiles.pos b hb

theorem Layout.activate (h : Layout hdr lo hi (l₁ ++ p :: l₂) ac) :
    Layout hdr lo hi (l₁ ++ l₂) (p :: ac) := by
  have hsub : (l₁ ++ l₂).Sublist (l₁ ++ p :: l₂) :=
    List.Sublist.append_left (sublist_cons_self p l₂) l₁
  have hmem : ∀ b, (b ∈ l₁ ++ l₂ ∨ b ∈ p :: ac) ↔ (b ∈ l₁ ++ p :: l₂ ∨ b ∈ ac) := fun b => by
    rw [mem_mid, mem_cons, or_assoc, or_left_comm]
  refine ⟨fun b hb hc => ?_, ?_, h.sorted.sublist hsub, fun b hb => h.shaped b ((hmem b).1 hb)⟩
  · rcases mem_cons.1 hc with rfl | hc
    · exact (nodup_middle.1 h.nodup).notMem hb
    · exact h.disj b (hsub.subset hb) hc
  · rw [show {b | b ∈ l₁ ++ l₂ ∨ b ∈ p :: ac} = {b | b ∈ l₁ ++ p :: l₂ ∨ b ∈ ac} from
      Set.ext hmem]
    exact h.tiles

theorem Layout.deactivate (h : Layout hdr lo hi (l₁ ++ l₂) (c₁ ++ p :: c₂))
    (hac : (c₁ ++ p :: c₂).Nodup) (hlt : ∀ b ∈ l₁, b < p) (hgt : ∀ b ∈ l₂, p < b) :
    Layout hdr lo hi (l₁ ++ p :: l₂) (c₁ ++ c₂) := by
  have hmem : ∀ b, (b ∈ l₁ ++ p :: l₂ ∨ b ∈ c₁ ++ c₂) ↔
      (b ∈ l₁ ++ l₂ ∨ b ∈ c₁ ++ p :: c₂) := fun b => by
    rw [mem_mid, mem_mid, or_assoc, or_left_comm]
  obtain ⟨hs₁, hs₂, hs⟩ := pairwise_append.1 h.sorted
  refine ⟨fun b hb hc => ?_, ?_, ?_, fun b hb => h.shaped b ((hmem b).1 hb)⟩
  · by_cases hbp : b = p
    · subst hbp
      exact (nodup_middle.1 hac).notMem hc
    · exact h.disj b ((mem_mid.1 hb).resolve_left hbp) (mem_mid.2 (.inr hc))
  · rw [show {b | b ∈ l₁ ++ p :: l₂ ∨ b ∈ c₁ ++ c₂} = {b | b ∈ l₁ ++ l₂ ∨ b ∈ c₁ ++ p :: c₂} from
      Set.ext hmem]
    exact h.tiles
  · refine pairwise_append.2 ⟨hs₁, pairwise_cons.2 ⟨hgt, hs₂⟩, fun a ha b hb => ?_⟩
    rcases mem_cons.1 hb with rfl | hb
    · exact hlt a ha
    · exact hs a ha b hb

theorem Layout.split {n : Nat} (h : Layout hdr lo hi (l₁ ++ p :: l₂) ac) (hn : 0 < n)
    (hlt : n < (hdr p).totalSize) (hp : (hdr' p).totalSize = n)
    (hnp : (hdr' (p + n)).totalSize = (hdr p).totalSize - n) (hps : (hdr' p).Shaped p)
    (hns : (hdr' (p + n)).Shaped (p + n)) (hl : ∀ b, b ≠ p → b ≠ p + n → hdr' b = hdr b) :
    Layout hdr' lo hi (l₁ ++ p :: (p + n) :: l₂) ac := by
  have hmem : p ∈ l₁ ++ p :: l₂ := mem_append_right _ mem_cons_self
  have hfresh := h.tiles.notMem_of_lt (.inl hmem) hn hlt
  obtain ⟨hlo, hhi⟩ := h.around
  have hiff : ∀ b, (b ∈ l₁ ++ p :: (p + n) :: l₂ ∨ b ∈ ac) ↔
      b = p + n ∨ (b ∈ l₁ ++ p :: l₂ ∨ b ∈ ac) := by
    intro b
    rw [mem_mid, mem_mid, mem_mid, or_left_comm, or_assoc]
  obtain ⟨hs₁, hs₂, hs⟩ := pairwise_append.1 h.sorted
  refine ⟨fun b hb hc => ?_, ?_, ?_, fun b hb => ?_⟩
  · rcases (hiff b).1 (.inl hb) with rfl | hb' | hb'
    · exact hfresh (.inr hc)
    · exact h.disj b hb' hc
    · refine h.disj b ?_ hb'
      simp only [mem_append, mem_cons] at hb ⊢
      rcases hb with hb | rfl | rfl | hb
      · exact .inl hb
      · exact .inr (.inl rfl)
      · exact absurd (Or.inr hc) hfresh
      · exact .inr (.inr hb)
  · rw [show {b | b ∈ l₁ ++ p :: (p + n) :: l₂ ∨ b ∈ ac} =
      insert (p + n) {b | b ∈ l₁ ++ p :: l₂ ∨ b ∈ ac} from Set.ext hiff]
    exact h.tiles.split (.inl hmem) hn hlt hp hnp fun b hb hbn => by rw [hl b hb hbn]
  · obtain ⟨hp₂, hs₂⟩ := pairwise_cons.1 hs₂
    have hn₂ : ∀ b ∈ l₂, p + n < b := fun b hb => by
      have := hhi b hb
      omega
    refine pairwise_append.2 ⟨hs₁, pairwise_cons.2 ⟨fun b hb => ?_,
      pairwise_cons.2 ⟨hn₂, hs₂⟩⟩, fun a ha b hb => ?_⟩
    · rcases mem_cons.1 hb with rfl | hb
      · omega
      · exact hp₂ b hb
    · have hap := hs a ha p mem_cons_self
      simp only [mem_cons] at hb
      rcases hb with rfl | rfl | hb
      · exact hap
      · omega
      · exact hs a ha b (mem_cons_of_mem _ hb)
  · by_cases hbp : b = p
    · exact hbp ▸ hps
    by_cases hbn : b = p + n
    · exact hbn ▸ hns
    rw [hl b hbp hbn]
    exact h.shaped b (((hiff b).1 hb).resolve_left hbn)

theorem Layout.merge {a : Nat} (h : Layout hdr lo hi (l₁ ++ p :: a :: l₂) ac)
    (ha : p + (hdr p).totalSize = a)
    (hp : (hdr' p).totalSize = (hdr p).totalSize + (hdr a).totalSize) (hps : (hdr' p).Shaped p)
    (hl : ∀ b, b ≠ p → hdr' b = hdr b) : Layout hdr' lo hi (l₁ ++ p :: l₂) ac := by
  subst ha
  have hsub : (l₁ ++ p :: l₂).Sublist (l₁ ++ p :: (p + (hdr p).totalSize) :: l₂) :=
    List.Sublist.append_left ((sublist_cons_self _ l₂).cons_cons p) l₁
  have hmem : p ∈ l₁ ++ p :: (p + (hdr p).totalSize) :: l₂ :=
    mem_append_right _ mem_cons_self
  have hmema : p + (hdr p).totalSize ∈ l₁ ++ p :: (p + (hdr p).totalSize) :: l₂ :=
    mem_append_right _ (mem_cons_of_mem _ mem_cons_self)
  have hna : p + (hdr p).totalSize ∉ l₁ ++ p :: l₂ := by
    have hnd := h.nodup
    rw [append_cons, nodup_middle] at hnd
    rw [append_cons]
    exact hnd.notMem
  refine ⟨fun b hb => h.disj b (hsub.subset hb), ?_, h.sorted.sublist hsub, fun b hb => ?_⟩
  · have hset : {b | b ∈ l₁ ++ p :: l₂ ∨ b ∈ ac} =
        {b | b ∈ l₁ ++ p :: (p + (hdr p).totalSize) :: l₂ ∨ b ∈ ac} \
          {p + (hdr p).totalSize} := by
      ext b
      constructor
      · rintro (hb | hb)
        · exact ⟨.inl (hsub.subset hb), fun hba => hna (hba ▸ hb)⟩
        · exact ⟨.inr hb, fun hba => h.disj _ hmema (hba ▸ hb)⟩
      · rintro ⟨hb | hb, hba⟩
        · simp only [mem_append, mem_cons, Set.mem_singleton_iff] at hb hba
          simp only [mem_append, mem_cons]
          exact .inl (hb.imp_right fun hb => hb.imp_right fun hb => hb.resolve_left hba)
        · exact .inr hb
    rw [hset]
    exact h.tiles.merge (.inl hmem) (.inl hmema) hp fun b hb => by rw [hl b hb]
  · by_cases hbp : b = p
    · exact hbp ▸ hps
    · rw [hl b hbp]
      exact h.shaped b (hb.imp_left fun hb => hsub.subset hb)

end layout

/-! ## The lists -/

structure Segments (u : User) (av ac : List Nat) : Prop where
  avail : u.links.IsList u.avail av
  active : u.links.IsList u.active ac
  layout : Layout u.hdr u.buffer (u.buffer + u.origbufferSize) av ac

/-- The invariant of an attached buffer: besides, no two available segments are adjacent. -/
structure Arena (u : User) (av ac : List Nat) : Prop extends Segments u av ac where
  apart : ∀ b ∈ av, b + (u.hdr b).totalSize ∉ av

/-- What the moves of segments keep: the buffer, what was packed into it, and the requests in the
headers. -/
structure Keeps (u v : User) : Prop where
  buffer : v.buffer = u.buffer
  bufferSize : v.bufferSize = u.bufferSize
  origbuffer : v.origbuffer = u.origbuffer
  origbufferSize : v.origbufferSize = u.origbufferSize
  packs : v.packs = u.packs
  request : ∀ b, (v.hdr b).request = (u.hdr b).request

section lists

variable {u v w : User} {p q size alloc fuel : Nat} {av ac l l₁ l₂ c₁ c₂ : List Nat}

theorem Keeps.refl : Keeps u u := ⟨rfl, rfl, rfl, rfl, rfl, fun _ => rfl⟩

theorem Keeps.trans (h : Keeps u v) (h' : Keeps v w) : Keeps u w where
  buffer := h'.buffer.trans h.buffer
  bufferSize := h'.bufferSize.trans h.bufferSize
  origbuffer := h'.origbuffer.trans h.origbuffer
  origbufferSize := h'.origbufferSize.trans h.origbufferSize
  packs := h'.packs.trans h.packs
  request := fun b => (h'.request b).trans (h.request b)

theorem request_setHdr {h : Header} (hreq : h.request = (u.hdr p).request) (b : Nat) :
    ((u.setHdr p h).hdr b).request = (u.hdr b).request := by
  show (Function.update u.hdr p h b).request = _
  by_cases hb : b = p
  · rw [hb, update_self, hreq]
  · rw [update_of_ne hb]

theorem Segments.length_le (h : Segments u av ac) :
    av.length ≤ u.origbufferSize ∧ ac.length ≤ u.origbufferSize := by
  have hav := h.layout.tiles.length_le h.avail.nodup fun _ hb => .inl hb
  have hac := h.layout.tiles.length_le h.active.nodup fun _ hb => .inr hb
  omega

theorem findFrom_eq (h : u.links.IsTail l) (hf : l.length ≤ fuel) :
    u.findFrom size fuel l.head? = l.find? fun b => size ≤ (u.hdr b).size := by
  induction l generalizing fuel with
  | nil => cases fuel <;> rfl
  | cons b l ih =>
    cases fuel with
    | zero => simp at hf
    | succ fuel =>
      have hrest := ih h.of_cons (Nat.le_of_succ_le_succ hf)
      rw [← h.next_eq] at hrest
      rw [List.head?_cons, User.findFrom, List.find?_cons, hrest]
      by_cases hb : size ≤ (u.hdr b).size <;> simp [hb]

theorem requestsFrom_eq (h : u.links.IsTail l) (hf : l.length ≤ fuel) :
    u.requestsFrom fuel l.head? = l.map fun b => (u.hdr b).request := by
  induction l generalizing fuel with
  | nil => cases fuel <;> rfl
  | cons b l ih =>
    cases fuel with
    | zero => simp at hf
    | succ fuel =>
      have hrest := ih h.of_cons (Nat.le_of_succ_le_succ hf)
      rw [← h.next_eq] at hrest
      rw [List.head?_cons, User.requestsFrom, map_cons, hrest]

theorem around_eq (h : u.links.IsTail l) (hf : l.length ≤ fuel) (q : Option Nat) :
    ∃ l₁ l₂, l = l₁ ++ l₂ ∧ (∀ b ∈ l₁, b ≤ p) ∧ (∀ b ∈ l₂.head?, p < b) ∧
      u.around p fuel q l.head? = (l₁.getLast?.or q, l₂.head?) := by
  induction l generalizing fuel q with
  | nil => exact ⟨[], [], rfl, nofun, nofun, by cases fuel <;> rfl⟩
  | cons b l ih =>
    cases fuel with
    | zero => simp at hf
    | succ fuel =>
      rw [List.head?_cons, User.around]
      by_cases hb : p < b
      · refine ⟨[], b :: l, rfl, nofun, fun c hc => ?_, by rw [if_pos hb]; rfl⟩
        cases hc
        exact hb
      · obtain ⟨l₁, l₂, rfl, hle, hgt, heq⟩ :=
          ih h.of_cons (Nat.le_of_succ_le_succ hf) (some b)
        refine ⟨b :: l₁, l₂, rfl, ?_, hgt, ?_⟩
        · exact forall_mem_cons.2 ⟨Nat.le_of_not_lt hb, hle⟩
        · rw [if_neg hb, h.next_eq, heq]
          cases l₁ with
          | nil => rfl
          | cons c l₁ => rw [List.getLast?_cons_cons, List.getLast?_cons]; rfl

/-! ## Taking a segment -/

theorem Segments.activate (h : Segments u (l₁ ++ p :: l₂) ac) :
    Segments (u.activate p) (l₁ ++ l₂) (p :: ac) := by
  have hp : p ∈ l₁ ++ p :: l₂ := mem_append_right _ mem_cons_self
  have hpac : p ∉ ac := h.layout.disj p hp
  have hlayout := h.layout.activate
  have hav := h.avail.unlink
  have hac := h.active.frame fun x hx =>
    h.avail.unlink_frame fun hm => h.layout.disj x hm hx
  refine ⟨?_, hac.pushFront hpac, hlayout⟩
  refine hav.frame fun x hx => hac.pushFront_frame (fun hm => ?_) ?_
  · exact hlayout.disj x hx (mem_cons_of_mem _ hm)
  · rintro rfl
    exact hlayout.disj x hx mem_cons_self

def cutOff (p alloc : Nat) : Nat := p + (headerTrueSize + alloc)

theorem lt_cutOff (p alloc : Nat) : p < cutOff p alloc := by
  simp only [cutOff, headerTrueSize]
  omega

theorem splitSegment_hdr_self : (u.splitSegment p alloc).hdr p =
    { u.hdr p with size := alloc, totalSize := headerTrueSize + alloc } := by
  have htotal : p + headerTrueSize + alloc - p = headerTrueSize + alloc := by omega
  refine (update_self ..).trans ?_
  rw [htotal, Nat.add_sub_cancel_left]

theorem splitSegment_hdr_cutOff : (u.splitSegment p alloc).hdr (cutOff p alloc) =
    { u.hdr (cutOff p alloc) with
      size := (u.hdr p).totalSize - alloc - headerTrueSize - headerTrueSize
      totalSize := (u.hdr p).totalSize - alloc - headerTrueSize
      msgbuf := cutOff p alloc + headerTrueSize } := by
  have hne : cutOff p alloc ≠ p := Nat.ne_of_gt (lt_cutOff p alloc)
  rw [cutOff, ← Nat.add_assoc] at hne ⊢
  exact (update_of_ne hne ..).trans (update_self ..)

theorem splitSegment_hdr_of_ne {b : Nat} (hb : b ≠ p) (hbn : b ≠ cutOff p alloc) :
    (u.splitSegment p alloc).hdr b = u.hdr b := by
  rw [cutOff, ← Nat.add_assoc] at hbn
  exact (update_of_ne hb ..).trans (update_of_ne hbn ..)

theorem splitSegment_links :
    (u.splitSegment p alloc).links = u.links.insertAfter p (cutOff p alloc) := by
  rw [cutOff, ← Nat.add_assoc]
  rfl

theorem Segments.splitSegment (h : Segments u (l₁ ++ p :: l₂) ac)
    (hroom : alloc + headerTrueSize + minBufferBlock ≤ (u.hdr p).size) :
    Segments (u.splitSegment p alloc) (l₁ ++ p :: cutOff p alloc :: l₂) ac := by
  have hp : p ∈ l₁ ++ p :: l₂ := mem_append_right _ mem_cons_self
  have hshape := h.layout.shaped p (.inl hp)
  have hsize := hshape.size
  have hmin : 0 < minBufferBlock := by decide
  have hlt : headerTrueSize + alloc < (u.hdr p).totalSize := by omega
  have hpos : 0 < headerTrueSize + alloc := Nat.add_pos_left (by decide) _
  have hfresh := h.layout.tiles.notMem_of_lt (.inl hp) hpos hlt
  refine ⟨?_, ?_, h.layout.split hpos hlt ?_ ?_ ⟨?_, ?_⟩ ⟨?_, ?_⟩ fun b => splitSegment_hdr_of_ne⟩
  · rw [splitSegment_links]
    exact h.avail.insertAfter fun hm => hfresh (.inl hm)
  · rw [splitSegment_links]
    refine h.active.frame fun x hx => h.avail.insertAfter_frame ?_ ?_
    · exact fun hm => h.layout.disj x hm hx
    · rintro rfl
      exact hfresh (.inr hx)
  · rw [splitSegment_hdr_self]
  · rw [← cutOff, splitSegment_hdr_cutOff]
    show (u.hdr p).totalSize - alloc - headerTrueSize = _
    omega
  · rw [splitSegment_hdr_self]
    exact Nat.add_comm ..
  · rw [splitSegment_hdr_self]
    exact hshape.msgbuf
  · rw [← cutOff, splitSegment_hdr_cutOff]
    show (u.hdr p).totalSize - alloc - headerTrueSize =
      (u.hdr p).totalSize - alloc - headerTrueSize - headerTrueSize + headerTrueSize
    omega
  · rw [← cutOff, splitSegment_hdr_cutOff]

theorem Arena.split_apart (h : Arena u (l₁ ++ p :: l₂) ac)
    (hroom : alloc + headerTrueSize + minBufferBlock ≤ (u.hdr p).size) :
    ∀ b ∈ l₁ ++ cutOff p alloc :: l₂,
      b + ((u.splitSegment p alloc).hdr b).totalSize ∉ l₁ ++ cutOff p alloc :: l₂ := by
  have hp : p ∈ l₁ ++ p :: l₂ := mem_append_right _ mem_cons_self
  have hlt := lt_cutOff p alloc
  have hsize := (h.layout.shaped p (.inl hp)).size
  have hend : cutOff p alloc + ((u.hdr p).totalSize - alloc - headerTrueSize) =
      p + (u.hdr p).totalSize := by
    simp only [cutOff]
    omega
  have hmin : cutOff p alloc < p + (u.hdr p).totalSize := by
    simp only [cutOff, minBufferBlock] at hroom ⊢
    omega
  obtain ⟨hlo, hhi⟩ := h.layout.around
  -- the end of a segment that is not cut off is the end of an available one before
  have hout : ∀ e, e ≠ cutOff p alloc → e ∉ l₁ ++ p :: l₂ → e ∉ l₁ ++ cutOff p alloc :: l₂ := by
    intro e hne he hm
    exact he (mem_mid.2 (.inr ((mem_mid.1 hm).resolve_left hne)))
  intro b hb
  by_cases hbn : b = cutOff p alloc
  · rw [hbn, splitSegment_hdr_cutOff]
    show cutOff p alloc + ((u.hdr p).totalSize - alloc - headerTrueSize) ∉ _
    rw [hend]
    exact hout _ (by omega) (h.apart p hp)
  · have hb' : b ∈ l₁ ∨ b ∈ l₂ := mem_append.1 ((mem_mid.1 hb).resolve_left hbn)
    have hold : b ∈ l₁ ++ p :: l₂ := mem_mid.2 (.inr (mem_append.2 hb'))
    have hpos := h.layout.pos (.inl hold)
    have hbp : b ≠ p := by
      rintro rfl
      exact (nodup_middle.1 h.layout.nodup).notMem (mem_append.2 hb')
    rw [splitSegment_hdr_of_ne hbp hbn]
    refine hout _ ?_ (h.apart b hold)
    rcases hb' with hb' | hb'
    · have := hlo b hb'
      omega
    · have := hhi b hb'
      omega

theorem Arena.takeBuffer (h : Arena u av ac) (hp : p ∈ av) (size : Nat) :
    ∃ av', Arena (u.takeBuffer p size) av' (p :: ac) := by
  obtain ⟨l₁, l₂, rfl⟩ := append_of_mem hp
  simp only [User.takeBuffer]
  by_cases hroom : User.allocSize size + headerTrueSize + minBufferBlock ≤ (u.hdr p).size
  · rw [if_pos hroom]
    exact ⟨_, (h.toSegments.splitSegment hroom).activate, h.split_apart hroom⟩
  · have hsub : ∀ b ∈ l₁ ++ l₂, b ∈ l₁ ++ p :: l₂ :=
      (List.Sublist.append_left (sublist_cons_self p l₂) l₁).subset
    rw [if_neg hroom]
    refine ⟨_, h.toSegments.activate, fun b hb hm => ?_⟩
    exact h.apart b (hsub b hb) (hsub _ hm)

theorem request_splitSegment (u : User) (p alloc b : Nat) :
    ((u.splitSegment p alloc).hdr b).request = (u.hdr b).request := by
  by_cases hb : b = p
  · rw [hb, splitSegment_hdr_self]
  by_cases hbn : b = cutOff p alloc
  · rw [hbn, splitSegment_hdr_cutOff]
  · rw [splitSegment_hdr_of_ne hb hbn]

theorem splitSegment_keeps (u : User) (p alloc : Nat) : Keeps u (u.splitSegment p alloc) :=
  ⟨rfl, rfl, rfl, rfl, rfl, request_splitSegment u p _⟩

theorem activate_keeps (u : User) (p : Nat) : Keeps u (u.activate p) :=
  ⟨rfl, rfl, rfl, rfl, rfl, fun _ => rfl⟩

theorem takeBuffer_keeps (u : User) (p size : Nat) : Keeps u (u.takeBuffer p size) := by
  simp only [User.takeBuffer]
  split
  · exact (splitSegment_keeps u p _).trans (activate_keeps _ p)
  · exact activate_keeps u p

/-! ## Giving a segment back -/

/-- Between the two merges of a segment: it is linked to the available segments behind it and not
yet to those before it, and only one before it may be adjacent to it. -/
structure Half (u : User) (l₁ : List Nat) (p : Nat) (l₂ ac : List Nat) : Prop where
  front : u.links.IsInit l₁
  head : ∀ q ∈ l₁.head?, u.avail = some q
  back : u.links.IsTail (p :: l₂)
  active : u.links.IsList u.active ac
  layout : Layout u.hdr u.buffer (u.buffer + u.origbufferSize) (l₁ ++ p :: l₂) ac
  apart : ∀ b ∈ l₁ ++ p :: l₂, b + (u.hdr b).totalSize ≠ p →
    b + (u.hdr b).totalSize ∉ l₁ ++ p :: l₂

theorem linkNext_frame {L : Links Nat} {h : Option Nat} (hp : p ∉ l) (hh : ∀ c ∈ h, c ∉ l) :
    ∀ x ∈ l, (L.linkNext p h).next x = L.next x ∧ (L.linkNext p h).prev x = L.prev x := by
  intro x hx
  constructor
  · exact Links.next_linkNext_of_ne fun hxp => hp (hxp ▸ hx)
  · exact Links.prev_linkNext_of_ne fun hhx => hh x hhx hx

theorem Segments.deactivate (h : Segments u (l₁ ++ l₂) (c₁ ++ p :: c₂)) (hlt : ∀ b ∈ l₁, b < p)
    (hgt : ∀ b ∈ l₂, p < b) :
    (u.deactivate p).links.IsList u.avail (l₁ ++ l₂) ∧
    (u.deactivate p).links.IsList (u.deactivate p).active (c₁ ++ c₂) ∧
    Layout u.hdr u.buffer (u.buffer + u.origbufferSize) (l₁ ++ p :: l₂) (c₁ ++ c₂) := by
  refine ⟨?_, h.active.unlink, h.layout.deactivate h.active.nodup hlt hgt⟩
  exact h.avail.frame fun x hx => h.active.unlink_frame (h.layout.disj x hx)

theorem link_back {L : Links Nat} {active : Option Nat} {l₃ : List Nat} (hfront : L.IsInit l₁)
    (hback : L.IsTail l₃) (hactive : L.IsList active ac) (hnd : (l₁ ++ p :: l₃).Nodup)
    (hd : ∀ b ∈ l₁ ++ p :: l₃, b ∉ ac) :
    (L.linkNext p l₃.head?).IsInit l₁ ∧ (L.linkNext p l₃.head?).IsTail (p :: l₃) ∧
    (L.linkNext p l₃.head?).IsList active ac := by
  obtain ⟨-, hnd₂, hdis⟩ := nodup_append.1 hnd
  have hmem : ∀ c ∈ l₃.head?, c ∈ p :: l₃ := fun c hc =>
    mem_cons_of_mem _ (mem_of_mem_head? hc)
  refine ⟨hfront.frame (linkNext_frame ?_ ?_), hback.link (nodup_cons.1 hnd₂).1,
    hactive.frame (linkNext_frame ?_ ?_)⟩
  · exact fun hp => hdis p hp p mem_cons_self rfl
  · exact fun c hc hm => hdis c hm c (hmem c hc) rfl
  · exact hd p (mem_append_right _ mem_cons_self)
  · exact fun c hc => hd c (mem_append_right _ (hmem c hc))

theorem apart_back {hdr : Nat → Header} {lo hi : Nat} (h : Layout hdr lo hi (l₁ ++ p :: l₂) ac)
    (hap : ∀ b ∈ l₁ ++ l₂, b + (hdr b).totalSize ∉ l₁ ++ l₂)
    (ha : ∀ a ∈ l₂.head?, p + (hdr p).totalSize ≠ a) :
    ∀ b ∈ l₁ ++ p :: l₂, b + (hdr b).totalSize ≠ p → b + (hdr b).totalSize ∉ l₁ ++ p :: l₂ := by
  obtain ⟨hlo, hhi⟩ := h.around
  intro b hb hne hm
  by_cases hbp : b = p
  · subst hbp
    have hpos := h.pos (.inl hb)
    rcases mem_append.1 hm with hm | hm
    · have := hlo _ hm
      omega
    · rcases mem_cons.1 hm with hm | hm
      · exact hne hm
      cases l₂ with
      | nil => cases hm
      | cons a l₂ =>
        have hnea := ha a rfl
        have hle := hhi a mem_cons_self
        rcases mem_cons.1 hm with hm | hm
        · exact hnea hm
        · obtain ⟨-, hs, -⟩ := pairwise_append.1 h.sorted
          have := (pairwise_cons.1 (pairwise_cons.1 hs).2).1 _ hm
          omega
  · exact hap b ((mem_mid.1 hb).resolve_left hbp) ((mem_mid.1 hm).resolve_left hne)

theorem absorb_hdr_self (u : User) (p a : Nat) : (u.absorb p a).hdr p = { u.hdr p with
    totalSize := (u.hdr p).totalSize + (u.hdr a).totalSize
    size := (u.hdr p).totalSize + (u.hdr a).totalSize - headerTrueSize } :=
  update_self ..

theorem absorb_hdr_of_ne {a b : Nat} (hb : b ≠ p) : (u.absorb p a).hdr b = u.hdr b :=
  update_of_ne hb ..

theorem Layout.absorb {a lo hi : Nat} (h : Layout u.hdr lo hi (l₁ ++ p :: a :: l₂) ac)
    (ha : p + (u.hdr p).totalSize = a) : Layout (u.absorb p a).hdr lo hi (l₁ ++ p :: l₂) ac := by
  have hshape := h.shaped p (.inl (mem_append_right _ mem_cons_self))
  have hsize := hshape.size
  refine h.merge ha ?_ ⟨?_, ?_⟩ fun b hb => absorb_hdr_of_ne hb
  · rw [absorb_hdr_self]
  · rw [absorb_hdr_self]
    show (u.hdr p).totalSize + (u.hdr a).totalSize =
      (u.hdr p).totalSize + (u.hdr a).totalSize - headerTrueSize + headerTrueSize
    omega
  · rw [absorb_hdr_self]
    exact hshape.msgbuf

theorem mergeNext_half (hav : u.links.IsList u.avail (l₁ ++ l₂))
    (hac : u.links.IsList u.active ac)
    (hlay : Layout u.hdr u.buffer (u.buffer + u.origbufferSize) (l₁ ++ p :: l₂) ac)
    (hap : ∀ b ∈ l₁ ++ l₂, b + (u.hdr b).totalSize ∉ l₁ ++ l₂) :
    ∃ l₃, Half (u.mergeNext p l₂.head?) l₁ p l₃ ac := by
  have hhead : ∀ q ∈ l₁.head?, u.avail = some q := by
    intro q hq
    rw [hav.head, List.head?_append, hq]
    rfl
  by_cases hadj : ∃ a l₃, l₂ = a :: l₃ ∧ p + (u.hdr p).totalSize = a
  · obtain ⟨a, l₃, rfl, ha⟩ := hadj
    have hp : p ∈ l₁ ++ p :: a :: l₃ := mem_append_right _ mem_cons_self
    have hpos := hlay.pos (.inl hp)
    have hmerged := hlay.absorb ha
    have hback := hav.isTail.right
    obtain ⟨h1, h2, h3⟩ := link_back hav.left hback.of_cons hac hmerged.nodup hmerged.disj
    refine ⟨l₃, ?_⟩
    rw [List.head?_cons, User.mergeNext, if_pos ha, hback.next_eq]
    refine ⟨h1, hhead, h2, h3, hmerged, fun b hb hne hm => ?_⟩
    have hin : ∀ c, c ≠ p → c ∈ l₁ ++ p :: l₃ → c ∈ l₁ ++ a :: l₃ := by
      intro c hc hcm
      exact mem_mid.2 (.inr ((mem_mid.1 hcm).resolve_left hc))
    by_cases hbp : b = p
    · subst hbp
      have hend : b + ((u.absorb b a).hdr b).totalSize = a + (u.hdr a).totalSize := by
        rw [absorb_hdr_self]
        show b + ((u.hdr b).totalSize + (u.hdr a).totalSize) = _
        omega
      refine hap a (mem_append_right _ mem_cons_self) ?_
      exact hend ▸ hin _ hne hm
    · have hend : ((u.absorb p a).hdr b).totalSize = (u.hdr b).totalSize := by
        rw [absorb_hdr_of_ne hbp]
      exact hap b (hin b hbp hb) (hend ▸ hin _ hne hm)
  · have hna : ∀ a ∈ l₂.head?, p + (u.hdr p).totalSize ≠ a := by
      intro a ha hpa
      obtain ⟨l₃, rfl⟩ := List.head?_eq_some_iff.1 ha
      exact hadj ⟨a, l₃, rfl, hpa⟩
    have hlinks : u.mergeNext p l₂.head? = { u with links := u.links.linkNext p l₂.head? } := by
      cases l₂ with
      | nil => rfl
      | cons a l₃ => rw [List.head?_cons, User.mergeNext, if_neg (hna a rfl)]
    obtain ⟨h1, h2, h3⟩ := link_back hav.left hav.isTail.right hac hlay.nodup hlay.disj
    refine ⟨l₂, ?_⟩
    rw [hlinks]
    exact ⟨h1, hhead, h2, h3, hlay, apart_back hlay hap hna⟩

theorem Half.mergePrev (h : Half u l₁ p l₂ ac) :
    ∃ av, Arena (u.mergePrev p l₁.getLast?) av ac := by
  obtain ⟨hlo, hhi⟩ := h.layout.around
  have hp : p ∈ l₁ ++ p :: l₂ := mem_append_right _ mem_cons_self
  have hpac := h.layout.disj p hp
  -- only the last segment before it can end where it begins
  have hbefore : ∀ b ∈ p :: l₂, b + (u.hdr b).totalSize ≠ p := by
    intro b hb
    have hpos := h.layout.pos (.inl (mem_append_right l₁ hb))
    rcases mem_cons.1 hb with rfl | hb
    · omega
    · have := hhi b hb
      have := h.layout.pos (.inl hp)
      omega
  rcases eq_nil_or_concat' l₁ with rfl | ⟨l, q, rfl⟩
  · refine ⟨p :: l₂, ⟨?_, ?_, h.layout⟩, fun b hb => h.apart b hb (hbefore b hb)⟩
    · exact h.back.cut
    · show (u.links.cutPrev (some p)).IsList u.active ac
      refine h.active.frame fun x hx => ⟨by rw [Links.next_cutPrev], ?_⟩
      rw [Links.prev_cutPrev, if_neg]
      rintro ⟨⟩
      exact hpac hx
  · have hcons : l ++ [q] ++ p :: l₂ = l ++ q :: p :: l₂ := (append_cons ..).symm
    have hlay := h.layout
    have hapart := h.apart
    rw [hcons] at hlay hapart
    have hq : q ∈ l ++ q :: p :: l₂ := mem_append_right _ mem_cons_self
    have hposq := hlay.pos (.inl hq)
    have hqp := hlay.around.2 p mem_cons_self
    have hnq : ∀ b ∈ l ++ q :: p :: l₂, b ≠ q → b + (u.hdr b).totalSize ≠ p := by
      intro b hb hbq
      rcases mem_append.1 hb with hb | hb
      · have := hlay.around.1 b hb
        omega
      · exact hbefore b ((mem_cons.1 hb).resolve_left hbq)
    have havail : u.avail = (l ++ [q]).head? := by
      cases hl : (l ++ [q]).head? with
      | none => simp at hl
      | some x => exact h.head x hl
    have hdis := (nodup_append.1 h.layout.nodup).2.2
    rw [List.getLast?_concat, User.mergePrev]
    by_cases hadj : q + (u.hdr q).totalSize = p
    · have hmerged := hlay.absorb hadj
      have hjoin := h.front.join h.back.of_cons fun x hx hx₂ =>
        hdis x hx x (mem_cons_of_mem _ hx₂) rfl
      rw [if_pos hadj, h.back.next_eq]
      refine ⟨l ++ q :: l₂, ⟨?_, ?_, hmerged⟩, fun b hb hm => ?_⟩
      · exact havail ▸ hjoin
      · refine h.active.frame (linkNext_frame (hlay.disj q hq) fun c hc => ?_)
        exact h.layout.disj c
          (mem_append_right _ (mem_cons_of_mem _ (mem_of_mem_head? hc)))
      · have hsub : ∀ c ∈ l ++ q :: l₂, c ∈ l ++ q :: p :: l₂ :=
          (List.Sublist.append_left ((sublist_cons_self p l₂).cons_cons q) l).subset
        by_cases hbq : b = q
        · subst hbq
          have hend : b + ((u.absorb b p).hdr b).totalSize = p + (u.hdr p).totalSize := by
            rw [absorb_hdr_self]
            show b + ((u.hdr b).totalSize + (u.hdr p).totalSize) = _
            omega
          refine hapart p (hcons ▸ hp) (hbefore p mem_cons_self) ?_
          exact hend ▸ hsub _ hm
        · have hend : ((u.absorb q p).hdr b).totalSize = (u.hdr b).totalSize := by
            rw [absorb_hdr_of_ne hbq]
          exact hapart b (hsub b hb) (hnq b (hsub b hb) hbq) (hend ▸ hsub _ hm)
    · have hjoin := h.front.join h.back fun x hx hx₂ => hdis x hx x hx₂ rfl
      rw [if_neg hadj]
      refine ⟨l ++ q :: p :: l₂, ⟨?_, ?_, hlay⟩, fun b hb => hapart b hb ?_⟩
      · exact havail ▸ hjoin
      · refine h.active.frame (linkNext_frame (h := some p) (hlay.disj q hq) fun c hc => ?_)
        obtain rfl : p = c := Option.some.inj hc
        exact hpac
      · by_cases hbq : b = q
        · exact hbq ▸ hadj
        · exact hnq b hb hbq

theorem Arena.freeSegment (h : Arena u av (c₁ ++ p :: c₂)) :
    ∃ av', Arena (u.freeSegment p) av' (c₁ ++ c₂) := by
  have hpac : p ∈ c₁ ++ p :: c₂ := mem_append_right _ mem_cons_self
  have hframe : (u.deactivate p).links.IsList u.avail av :=
    h.avail.frame fun x hx => h.active.unlink_frame (h.layout.disj x hx)
  obtain ⟨l₁, l₂, rfl, hle, hgt, heq⟩ :=
    around_eq (p := p) hframe.isTail h.toSegments.length_le.1 none
  have hlt : ∀ b ∈ l₁, b < p := by
    intro b hb
    refine Nat.lt_of_le_of_ne (hle b hb) ?_
    rintro rfl
    exact h.layout.disj b (mem_append_left _ hb) hpac
  have hgt' : ∀ b ∈ l₂, p < b := by
    intro b hb
    cases l₂ with
    | nil => cases hb
    | cons a l₂ =>
      have hpa := hgt a rfl
      obtain ⟨-, hs, -⟩ := pairwise_append.1 h.layout.sorted
      rcases mem_cons.1 hb with rfl | hb
      · exact hpa
      · exact hpa.trans ((pairwise_cons.1 hs).1 b hb)
  obtain ⟨h1, h2, h3⟩ := h.toSegments.deactivate hlt hgt'
  obtain ⟨l₃, hhalf⟩ := mergeNext_half (u := u.deactivate p) h1 h2 h3 h.apart
  obtain ⟨av', harena⟩ := hhalf.mergePrev
  refine ⟨av', ?_⟩
  have hfree : u.freeSegment p = ((u.deactivate p).mergeNext p l₂.head?).mergePrev p
      l₁.getLast? := by
    rw [← hframe.head, Option.or_none] at heq
    simp only [User.freeSegment]
    rw [show (u.deactivate p).around p (u.deactivate p).origbufferSize none u.avail = _ from heq]
  rw [hfree]
  exact harena

theorem absorb_keeps (u : User) (p a : Nat) : Keeps u (u.absorb p a) :=
  ⟨rfl, rfl, rfl, rfl, rfl, request_setHdr rfl⟩

theorem freeSegment_keeps (u : User) (p : Nat) : Keeps u (u.freeSegment p) := by
  have hnext : ∀ a, Keeps (u.deactivate p) ((u.deactivate p).mergeNext p a) := by
    intro a
    cases a with
    | none => exact ⟨rfl, rfl, rfl, rfl, rfl, fun _ => rfl⟩
    | some a =>
      rw [User.mergeNext]
      split
      · exact ⟨rfl, rfl, rfl, rfl, rfl, (absorb_keeps _ p a).request⟩
      · exact ⟨rfl, rfl, rfl, rfl, rfl, fun _ => rfl⟩
  have hprev : ∀ (v : User) q, Keeps v (v.mergePrev p q) := by
    intro v q
    cases q with
    | none => exact ⟨rfl, rfl, rfl, rfl, rfl, fun _ => rfl⟩
    | some q =>
      rw [User.mergePrev]
      split
      · exact ⟨rfl, rfl, rfl, rfl, rfl, (absorb_keeps v q p).request⟩
      · exact ⟨rfl, rfl, rfl, rfl, rfl, fun _ => rfl⟩
  have hout : Keeps u (u.deactivate p) := ⟨rfl, rfl, rfl, rfl, rfl, fun _ => rfl⟩
  simp only [User.freeSegment]
  exact (hout.trans (hnext _)).trans (hprev _ _)

/-! ## Sends -/

theorem Keeps.filter_eq (h : Keeps u v) (P : Nat → Bool) (l : List Nat) :
    (l.filter fun b => P (v.hdr b).request) = l.filter fun b => P (u.hdr b).request :=
  filter_congr fun b _ => by rw [h.request b]

theorem progressFrom_spec (complete : List Nat) {rest : List Nat} (h : Arena u av (c₁ ++ rest))
    (hf : rest.length ≤ fuel) :
    (∃ av', Arena (User.progressFrom complete fuel rest.head? u).1 av'
      (c₁ ++ rest.filter fun b => (u.hdr b).request ∉ complete)) ∧
    Keeps u (User.progressFrom complete fuel rest.head? u).1 ∧
    (User.progressFrom complete fuel rest.head? u).2 =
      (rest.map fun b => (u.hdr b).request).filter (· ∈ complete) := by
  induction rest generalizing u av c₁ fuel with
  | nil => cases fuel <;> exact ⟨⟨av, h⟩, .refl, rfl⟩
  | cons b rest ih =>
    cases fuel with
    | zero => simp at hf
    | succ fuel =>
      have hnext := h.active.isTail.right.next_eq
      have hf' := Nat.le_of_succ_le_succ hf
      rw [List.head?_cons, User.progressFrom, hnext, map_cons]
      by_cases hb : (u.hdr b).request ∈ complete
      · obtain ⟨av₁, hfree⟩ := h.freeSegment
        have hkeep := freeSegment_keeps u b
        obtain ⟨⟨av', h1⟩, h2, h3⟩ := ih hfree hf'
        rw [if_pos hb, filter_cons_of_neg (by simpa using hb),
          filter_cons_of_pos (by simpa using hb)]
        refine ⟨⟨av', ?_⟩, hkeep.trans h2, ?_⟩
        · rwa [hkeep.filter_eq fun r => r ∉ complete] at h1
        · simp only [hkeep.request] at h3
          exact congrArg _ h3
      · have hmove : c₁ ++ b :: rest = c₁ ++ [b] ++ rest := append_cons ..
        obtain ⟨⟨av', h1⟩, h2, h3⟩ := ih (hmove ▸ h) hf'
        rw [if_neg hb, filter_cons_of_pos (by simpa using hb),
          filter_cons_of_neg (by simpa using hb), append_cons]
        exact ⟨⟨av', h1⟩, h2, h3⟩

theorem Arena.setHdr {hd : Header} (h : Arena u av ac) (h1 : hd.size = (u.hdr p).size)
    (h2 : hd.totalSize = (u.hdr p).totalSize) (h3 : hd.msgbuf = (u.hdr p).msgbuf) :
    Arena (u.setHdr p hd) av ac := by
  have hsame : ∀ b, ((u.setHdr p hd).hdr b).size = (u.hdr b).size ∧
      ((u.setHdr p hd).hdr b).totalSize = (u.hdr b).totalSize ∧
      ((u.setHdr p hd).hdr b).msgbuf = (u.hdr b).msgbuf := by
    intro b
    by_cases hb : b = p
    · subst hb
      rw [show (u.setHdr b hd).hdr b = hd from update_self ..]
      exact ⟨h1, h2, h3⟩
    · rw [show (u.setHdr p hd).hdr b = u.hdr b from update_of_ne hb ..]
      exact ⟨rfl, rfl, rfl⟩
  refine ⟨⟨h.avail, h.active, h.layout.disj, ?_, h.layout.sorted, fun b hb => ⟨?_, ?_⟩⟩, ?_⟩
  · exact h.layout.tiles.congr fun b _ => (hsame b).2.1
  · rw [(hsame b).2.1, (hsame b).1]
    exact (h.layout.shaped b hb).size
  · rw [(hsame b).2.2]
    exact (h.layout.shaped b hb).msgbuf
  · intro b hb
    rw [(hsame b).2.1]
    exact h.apart b hb

end lists

end PsMpi.Bsend
