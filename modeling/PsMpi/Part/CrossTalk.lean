import Mathlib.Algebra.GroupWithZero.Nat
import Mathlib.Algebra.Ring.Int.Defs
import PsMpi.Lib.Trans
import PsMpi.Pt2pt.Match

/-!
# The data of partitioned requests among ordinary messages
-/

open PsMpi.Lib PsMpi.Pt2pt List Option Function

namespace PsMpi.Part

/-- One partitioned request and its peer: the source (by its connection), the tag and the number of
sub-messages. -/
structure PartSpec where
  src : Nat
  tag : Int
  requests : Nat

/-- `MPID_part_issue_data_recv`, `MPID_part_issue_data_send` (`mpid_part.c:149,255`). -/
def PartSpec.subTag (sp : PartSpec) (i : Nat) : Int := Int.bmod (sp.tag + i + 1) (2 ^ 32)

structure TalkCfg where
  contextId : Nat
  part : Nat → PartSpec
  recv : Option Nat → Option Int → Bool

structure SubId where
  req : Nat
  idx : Nat
  round : Nat
  deriving DecidableEq

structure TalkMsg where
  msg : Msg
  sub : Option SubId

structure TalkRecv where
  recv : Recv
  sub : Option SubId

structure TalkSt where
  posted : List TalkRecv
  queue : List TalkMsg
  taken : List (TalkMsg × TalkRecv)
  round : Nat → Nat
  arrived : List SubId

def dataMsg (contextId src : Nat) (tag : Int) : Msg :=
  ⟨0, false, src, 0, tag, contextId, .data, 0⟩

def dataRecv (contextId : Nat) (con : Option Nat) (tag : Option Int) : Recv :=
  ⟨0, con, .data tag contextId, 0⟩

namespace TalkSt

def init : TalkSt := ⟨[], [], [], fun _ => 0, []⟩

def arrive (s : TalkSt) (m : TalkMsg) : TalkSt :=
  match pick? (fun r => r.recv.takes m.msg) s.posted with
  | some (r, rest) => { s with posted := rest, taken := s.taken ++ [(m, r)] }
  | none => { s with queue := s.queue ++ [m] }

def postRecv (s : TalkSt) (r : TalkRecv) : TalkSt :=
  match pick? (fun m => r.recv.takes m.msg) s.queue with
  | some (m, rest) => { s with queue := rest, taken := s.taken ++ [(m, r)] }
  | none => { s with posted := s.posted ++ [r] }

def subRecv (cfg : TalkCfg) (s : TalkSt) (P i : Nat) : TalkRecv :=
  ⟨dataRecv cfg.contextId (some (cfg.part P).src) (some ((cfg.part P).subTag i)),
    some ⟨P, i, s.round P + 1⟩⟩

/-- `MPID_part_issue_data_recv` (:112). -/
def issueDataRecv (cfg : TalkCfg) (s : TalkSt) (P : Nat) : TalkSt :=
  ((List.range (cfg.part P).requests).map (s.subRecv cfg P)).foldl postRecv
    { s with round := Function.update s.round P (s.round P + 1) }

def Pending (s : TalkSt) (P : Nat) : Prop := ∃ r ∈ s.posted, r.sub.map SubId.req = some P

instance (s : TalkSt) (P : Nat) : Decidable (s.Pending P) :=
  inferInstanceAs (Decidable (∃ r ∈ s.posted, r.sub.map SubId.req = some P))

end TalkSt

/-- The steps: an ordinary receive, an ordinary message that is for the receive `con`, `t`, a round
of a partitioned request, and a sub-message. -/
inductive TalkAct
  | irecv (con : Option Nat) (tag : Option Int)
  | message (src : Nat) (tag : Int) (con : Option Nat) (t : Option Int)
  | issueDataRecv (P : Nat)
  | data (P i : Nat)

def TalkSt.step (cfg : TalkCfg) (s : TalkSt) : TalkAct → Option TalkSt
  | .irecv con tag =>
    if cfg.recv con tag = true then
      some (s.postRecv ⟨dataRecv cfg.contextId con tag, none⟩)
    else none
  | .message src tag con t =>
    if cfg.recv con t = true ∧
        (dataRecv cfg.contextId con t).takes (dataMsg cfg.contextId src tag) = true then
      some (s.arrive ⟨dataMsg cfg.contextId src tag, none⟩)
    else none
  | .issueDataRecv P => if s.Pending P then none else some (s.issueDataRecv cfg P)
  | .data P i =>
    if i < (cfg.part P).requests ∧ 0 < s.round P ∧ ⟨P, i, s.round P⟩ ∉ s.arrived then
      some { s.arrive ⟨dataMsg cfg.contextId (cfg.part P).src ((cfg.part P).subTag i),
          some ⟨P, i, s.round P⟩⟩ with
        arrived := s.arrived ++ [⟨P, i, s.round P⟩] }
    else none

def talkSys (cfg : TalkCfg) : Sys TalkSt TalkAct := ⟨.init, TalkSt.step cfg⟩

def TalkSt.NoCrossTalk (s : TalkSt) : Prop :=
  ∀ x ∈ s.taken, ∀ sub, x.1.sub = some sub → x.2.sub = some sub

/-- No ordinary receive is for the source and the tag of a sub-message, and no two sub-messages from
one source have the same tag. -/
structure TalkCfg.Isolated (cfg : TalkCfg) : Prop where
  recvs : ∀ con tag, cfg.recv con tag = true → ∀ P i, i < (cfg.part P).requests →
    ¬ ((con = none ∨ con = some (cfg.part P).src) ∧
      (tag = none ∨ tag = some ((cfg.part P).subTag i)))
  parts : ∀ P Q i j, i < (cfg.part P).requests → j < (cfg.part Q).requests →
    (cfg.part P).src = (cfg.part Q).src → (cfg.part P).subTag i = (cfg.part Q).subTag j →
    P = Q ∧ i = j

/-! ## Isolated requests -/

section
variable {cfg : TalkCfg} {s s' : TalkSt} {m : TalkMsg} {r : TalkRecv}

theorem takes_iff {contextId src : Nat} {con : Option Nat} {t : Option Int} {tag : Int} :
    (dataRecv contextId con t).takes (dataMsg contextId src tag) = true ↔
      (con = none ∨ con = some src) ∧ (t = none ∨ t = some tag) := by
  simp only [dataRecv, dataMsg, Recv.takes, fromSource, cbAcceptData, Bool.and_eq_true,
    Bool.or_eq_true, beq_iff_eq, MsgType.code, and_true]
  tauto

def TalkSt.current (cfg : TalkCfg) (s : TalkSt) (P i : Nat) : TalkRecv :=
  ⟨dataRecv cfg.contextId (some (cfg.part P).src) (some ((cfg.part P).subTag i)),
    some ⟨P, i, s.round P⟩⟩

def TalkMsg.Plain (cfg : TalkCfg) (m : TalkMsg) : Prop :=
  m.sub = none ∧ ∃ src tag con t, m.msg = dataMsg cfg.contextId src tag ∧
    cfg.recv con t = true ∧
    (dataRecv cfg.contextId con t).takes (dataMsg cfg.contextId src tag) = true

def TalkRecv.Plain (cfg : TalkCfg) (r : TalkRecv) : Prop :=
  r.sub = none ∧ ∃ con t, r.recv = dataRecv cfg.contextId con t ∧ cfg.recv con t = true

/-- The invariant of isolated requests: the queue has ordinary messages only, the posted receives
are ordinary ones and sub-receives of the current rounds, and a sub-message that has not come has
its sub-receive posted. -/
structure TalkSt.Ok (cfg : TalkCfg) (s : TalkSt) : Prop where
  talk : s.NoCrossTalk
  queue : ∀ m ∈ s.queue, m.Plain cfg
  posted : ∀ r ∈ s.posted, r.Plain cfg ∨ ∃ P i, i < (cfg.part P).requests ∧ r = s.current cfg P i
  waits : ∀ P i, i < (cfg.part P).requests → 0 < s.round P → ⟨P, i, s.round P⟩ ∉ s.arrived →
    s.current cfg P i ∈ s.posted
  rounds : ∀ x ∈ s.arrived, x.round ≤ s.round x.req

theorem TalkCfg.Isolated.sub_not_takes (h : cfg.Isolated) (hm : m.Plain cfg) {P i : Nat}
    (hi : i < (cfg.part P).requests) :
    (dataRecv cfg.contextId (some (cfg.part P).src) (some ((cfg.part P).subTag i))).takes m.msg =
      false := by
  obtain ⟨-, src, tag, con, t, hmsg, hrecv, htakes⟩ := hm
  rw [Bool.eq_false_iff, hmsg]
  intro hsub
  obtain ⟨hsrc, htag⟩ := takes_iff.1 hsub
  have hsrc : (cfg.part P).src = src := by simpa using hsrc
  have htag : (cfg.part P).subTag i = tag := by simpa using htag
  refine h.recvs con t hrecv P i hi ?_
  rw [hsrc, htag]
  exact takes_iff.1 htakes

theorem TalkSt.Ok.own (h : s.Ok cfg) (hiso : cfg.Isolated) {P i : Nat}
    (hi : i < (cfg.part P).requests) (hr : r ∈ s.posted)
    (ht : r.recv.takes (dataMsg cfg.contextId (cfg.part P).src ((cfg.part P).subTag i)) = true) :
    r = s.current cfg P i := by
  rcases h.posted r hr with ⟨-, con, t, hrecv, hc⟩ | ⟨Q, j, hj, rfl⟩
  · rw [hrecv, takes_iff] at ht
    exact absurd ht (hiso.recvs con t hc P i hi)
  · obtain ⟨hsrc, htag⟩ := takes_iff.1 ht
    have hsrc : (cfg.part Q).src = (cfg.part P).src := by simpa using hsrc
    have htag : (cfg.part Q).subTag j = (cfg.part P).subTag i := by simpa using htag
    obtain ⟨rfl, rfl⟩ := hiso.parts Q P j i hj hi hsrc htag
    rfl

theorem TalkSt.Ok.init : TalkSt.Ok cfg .init where
  talk := fun _ hx => absurd hx not_mem_nil
  queue := fun _ hm => absurd hm not_mem_nil
  posted := fun _ hr => absurd hr not_mem_nil
  waits := fun _ _ _ hr => absurd hr (Nat.lt_irrefl 0)
  rounds := fun _ hx => absurd hx not_mem_nil

theorem TalkSt.Ok.postRecv (h : s.Ok cfg) (hr : r.Plain cfg) : (s.postRecv r).Ok cfg := by
  unfold TalkSt.postRecv
  split
  · next m rest hp =>
    obtain ⟨hmem, -⟩ := pick?_mem hp
    refine ⟨fun x hx sub hsub => ?_, fun m' hm' => h.queue m' ((pick?_sublist hp).subset hm'),
      h.posted, h.waits, h.rounds⟩
    rcases mem_append.1 hx with hx | hx
    · exact h.talk x hx sub hsub
    · rw [mem_singleton.1 hx, (h.queue m hmem).1] at hsub
      cases hsub
  · refine ⟨h.talk, h.queue, fun r' hr' => ?_, fun P i hi hp hn => ?_, h.rounds⟩
    · rcases mem_append.1 hr' with hr' | hr'
      · exact h.posted r' hr'
      · rw [mem_singleton.1 hr']
        exact .inl hr
    · exact mem_append_left _ (h.waits P i hi hp hn)

theorem TalkSt.Ok.arrive (h : s.Ok cfg) (hiso : cfg.Isolated) (hm : m.Plain cfg) :
    (s.arrive m).Ok cfg := by
  unfold TalkSt.arrive
  split
  · next r rest hp =>
    obtain ⟨hmem, ht⟩ := pick?_mem hp
    have hplain : r.Plain cfg := by
      rcases h.posted r hmem with hr | ⟨P, i, hi, rfl⟩
      · exact hr
      · exact absurd ht (by rw [Bool.not_eq_true]; exact hiso.sub_not_takes hm hi)
    refine ⟨fun x hx sub hsub => ?_, h.queue, fun r' hr' => ?_, fun P i hi hpos hn => ?_, h.rounds⟩
    · rcases mem_append.1 hx with hx | hx
      · exact h.talk x hx sub hsub
      · rw [mem_singleton.1 hx, hm.1] at hsub
        cases hsub
    · exact h.posted r' ((pick?_sublist hp).subset hr')
    · rcases mem_cons.1 ((pick?_perm hp).subset (h.waits P i hi hpos hn)) with heq | hrest
      · rw [← heq] at hplain
        exact absurd hplain.1 nofun
      · exact hrest
  · refine ⟨h.talk, fun m' hm' => ?_, h.posted, h.waits, h.rounds⟩
    rcases mem_append.1 hm' with hm' | hm'
    · exact h.queue m' hm'
    · rw [mem_singleton.1 hm']
      exact hm

theorem TalkSt.foldl_postRecv {l : List TalkRecv}
    (hl : ∀ r ∈ l, ∀ m ∈ s.queue, r.recv.takes m.msg = false) :
    l.foldl TalkSt.postRecv s = { s with posted := s.posted ++ l } := by
  induction l generalizing s with
  | nil => simp
  | cons r l ih =>
    have hpost : s.postRecv r = { s with posted := s.posted ++ [r] } := by
      unfold TalkSt.postRecv
      split
      · next m rest hp =>
        obtain ⟨hmem, ht⟩ := pick?_mem hp
        exact absurd ht (by simp [hl r mem_cons_self m hmem])
      · rfl
    have hrest := ih (s := { s with posted := s.posted ++ [r] }) fun r' hr' =>
      hl r' (mem_cons_of_mem _ hr')
    rw [foldl_cons, hpost, hrest]
    simp

theorem TalkSt.Ok.issueDataRecv (h : s.Ok cfg) (hiso : cfg.Isolated) {P : Nat}
    (hp : ¬ s.Pending P) : (s.issueDataRecv cfg P).Ok cfg := by
  have heq : s.issueDataRecv cfg P = { s with
      round := Function.update s.round P (s.round P + 1)
      posted := s.posted ++ (List.range (cfg.part P).requests).map (s.subRecv cfg P) } := by
    refine TalkSt.foldl_postRecv fun r hr m hm => ?_
    obtain ⟨i, hi, rfl⟩ := mem_map.1 hr
    exact hiso.sub_not_takes (h.queue m hm) (mem_range.1 hi)
  rw [heq]
  have hsub : ∀ i, s.subRecv cfg P i = TalkSt.current cfg { s with
      round := Function.update s.round P (s.round P + 1)
      posted := s.posted ++ (List.range (cfg.part P).requests).map (s.subRecv cfg P) } P i := by
    intro i
    simp [TalkSt.subRecv, TalkSt.current]
  have hother : ∀ Q i, Q ≠ P → TalkSt.current cfg { s with
      round := Function.update s.round P (s.round P + 1)
      posted := s.posted ++ (List.range (cfg.part P).requests).map (s.subRecv cfg P) } Q i =
        s.current cfg Q i := by
    intro Q i hQ
    simp [TalkSt.current, hQ]
  refine ⟨h.talk, h.queue, fun r hr => ?_, fun Q i hi hpos hn => ?_, fun x hx => ?_⟩
  · rcases mem_append.1 hr with hr' | hr'
    · refine (h.posted r hr').imp_right fun ⟨Q, i, hi, hQ⟩ => ⟨Q, i, hi, ?_⟩
      have hne : Q ≠ P := by
        rintro rfl
        exact hp ⟨r, hr', by rw [hQ]; rfl⟩
      rw [hother Q i hne]
      exact hQ
    · obtain ⟨i, hi, rfl⟩ := mem_map.1 hr'
      exact .inr ⟨P, i, mem_range.1 hi, hsub i⟩
  · by_cases hQ : Q = P
    · subst hQ
      rw [← hsub]
      exact mem_append_right _ (mem_map_of_mem (mem_range.2 hi))
    · rw [hother Q i hQ]
      simp only [update_of_ne hQ] at hpos hn
      exact mem_append_left _ (h.waits Q i hi hpos hn)
  · have hle := h.rounds x hx
    by_cases hx' : x.req = P
    · simp only [hx', update_self] at hle ⊢
      exact Nat.le_succ_of_le hle
    · simpa [hx'] using hle

theorem TalkSt.Ok.data (h : s.Ok cfg) (hiso : cfg.Isolated) {P i : Nat}
    (hi : i < (cfg.part P).requests) (hr : 0 < s.round P)
    (hn : ⟨P, i, s.round P⟩ ∉ s.arrived) :
    TalkSt.Ok cfg { s.arrive ⟨dataMsg cfg.contextId (cfg.part P).src ((cfg.part P).subTag i),
        some ⟨P, i, s.round P⟩⟩ with
      arrived := s.arrived ++ [⟨P, i, s.round P⟩] } := by
  have hposted := h.waits P i hi hr hn
  unfold TalkSt.arrive
  split
  · next r rest hp =>
    obtain ⟨hmem, ht⟩ := pick?_mem hp
    obtain rfl := h.own hiso hi hmem ht
    refine ⟨fun x hx sub hsub => ?_, h.queue, fun r' hr' => ?_, fun Q j hj hpos hnot => ?_,
      fun x hx => ?_⟩
    · rcases mem_append.1 hx with hx | hx
      · exact h.talk x hx sub hsub
      · rw [mem_singleton.1 hx] at hsub ⊢
        exact hsub
    · exact h.posted r' ((pick?_sublist hp).subset hr')
    · obtain ⟨h1, h2⟩ := not_or.1 (fun hc => hnot (mem_append.2 hc))
      rcases mem_cons.1 ((pick?_perm hp).subset (h.waits Q j hj hpos h1)) with heq | hrest
      · have hsub : some (⟨Q, j, s.round Q⟩ : SubId) = some ⟨P, i, s.round P⟩ :=
          congrArg TalkRecv.sub heq
        exact absurd (mem_singleton.2 (Option.some.inj hsub)) h2
      · exact hrest
    · rcases mem_append.1 hx with hx | hx
      · exact h.rounds x hx
      · obtain rfl := mem_singleton.1 hx
        exact Nat.le_refl _
  · next hp =>
    have hno := pick?_none hp _ hposted
    rw [Bool.eq_false_iff] at hno
    exact absurd (takes_iff.2 ⟨.inr rfl, .inr rfl⟩) hno

theorem TalkSt.Ok.step (h : s.Ok cfg) (hiso : cfg.Isolated) {a : TalkAct}
    (hs : TalkSt.step cfg s a = some s') : s'.Ok cfg := by
  cases a with
  | irecv con tag =>
    obtain ⟨hc, hs⟩ := ite_none_right_eq_some.1 hs
    cases hs
    exact h.postRecv ⟨rfl, con, tag, rfl, hc⟩
  | message src tag con t =>
    obtain ⟨⟨hc, ht⟩, hs⟩ := ite_none_right_eq_some.1 hs
    cases hs
    exact h.arrive hiso ⟨rfl, src, tag, con, t, rfl, hc, ht⟩
  | issueDataRecv P =>
    obtain ⟨hp, hs⟩ := ite_none_left_eq_some.1 hs
    cases hs
    exact h.issueDataRecv hiso hp
  | data P i =>
    obtain ⟨⟨hi, hr, hn⟩, hs⟩ := ite_none_right_eq_some.1 hs
    cases hs
    exact h.data hiso hi hr hn

/-! ## Requests that are not isolated -/

theorem reach_issueDataRecv (hr : (talkSys cfg).Reach s) (hq : s.queue = []) {P : Nat}
    (hn : ¬ s.Pending P) : (talkSys cfg).Reach { s with
      round := Function.update s.round P (s.round P + 1)
      posted := s.posted ++ (List.range (cfg.part P).requests).map (s.subRecv cfg P) } := by
  have hstep : (talkSys cfg).step s (.issueDataRecv P) = some (s.issueDataRecv cfg P) := by
    show (if s.Pending P then none else some (s.issueDataRecv cfg P)) = _
    rw [if_neg hn]
  have heq : s.issueDataRecv cfg P = { s with
      round := Function.update s.round P (s.round P + 1)
      posted := s.posted ++ (List.range (cfg.part P).requests).map (s.subRecv cfg P) } :=
    TalkSt.foldl_postRecv fun r _ m hm => absurd hm (by simp [hq])
  rw [heq] at hstep
  exact .step hr trivial hstep

theorem crosstalk_of_pick (hr : (talkSys cfg).Reach s) {P i : Nat}
    (hi : i < (cfg.part P).requests) (hround : 0 < s.round P) (ha : s.arrived = [])
    {rest : List TalkRecv}
    (hp : pick? (fun r => r.recv.takes
      (dataMsg cfg.contextId (cfg.part P).src ((cfg.part P).subTag i))) s.posted = some (r, rest))
    (hne : r.sub ≠ some ⟨P, i, s.round P⟩) :
    ∃ s, (talkSys cfg).Reach s ∧ ¬ s.NoCrossTalk := by
  have hstep : (talkSys cfg).step s (.data P i) = some { s.arrive
        ⟨dataMsg cfg.contextId (cfg.part P).src ((cfg.part P).subTag i), some ⟨P, i, s.round P⟩⟩ with
      arrived := s.arrived ++ [⟨P, i, s.round P⟩] } :=
    if_pos ⟨hi, hround, by simp [ha]⟩
  refine ⟨_, .step hr trivial hstep, fun hno => hne ?_⟩
  unfold TalkSt.arrive at hno
  simp only [hp] at hno
  exact hno _ (mem_append_right _ (mem_singleton_self _)) _ rfl

theorem crosstalk_of_recv {con : Option Nat} {tag : Option Int} (hc : cfg.recv con tag = true)
    {P i : Nat} (hi : i < (cfg.part P).requests)
    (hm : (con = none ∨ con = some (cfg.part P).src) ∧
      (tag = none ∨ tag = some ((cfg.part P).subTag i))) :
    ∃ s, (talkSys cfg).Reach s ∧ ¬ s.NoCrossTalk := by
  let s₁ : TalkSt := { TalkSt.init with posted := [⟨dataRecv cfg.contextId con tag, none⟩] }
  have hr₁ : (talkSys cfg).Reach s₁ := .step (a := .irecv con tag) .init trivial (if_pos hc)
  have hn : ¬ s₁.Pending P := by
    rintro ⟨r, hr, hreq⟩
    rw [mem_singleton.1 hr] at hreq
    cases hreq
  have hpick : pick? (fun r => r.recv.takes
      (dataMsg cfg.contextId (cfg.part P).src ((cfg.part P).subTag i)))
      (s₁.posted ++ (List.range (cfg.part P).requests).map (s₁.subRecv cfg P)) =
      some (⟨dataRecv cfg.contextId con tag, none⟩,
        (List.range (cfg.part P).requests).map (s₁.subRecv cfg P)) := if_pos (takes_iff.2 hm)
  exact crosstalk_of_pick (reach_issueDataRecv hr₁ rfl hn) hi (by simp) rfl hpick nofun

theorem TalkSt.not_pending_init (P : Nat) : ¬ TalkSt.init.Pending P := by
  rintro ⟨r, hr, -⟩
  cases hr

theorem TalkSt.mem_subRecv {n P : Nat} (hs : s.round P = 0)
    (hr : r ∈ (List.range n).map (s.subRecv cfg P)) : ∃ i < n, r.sub = some ⟨P, i, 1⟩ := by
  obtain ⟨i, hi, rfl⟩ := mem_map.1 hr
  exact ⟨i, mem_range.1 hi, by simp [TalkSt.subRecv, hs]⟩

theorem crosstalk_of_parts {P Q i j : Nat} (hPQ : P ≠ Q) (hi : i < (cfg.part P).requests)
    (hj : j < (cfg.part Q).requests) (hsrc : (cfg.part P).src = (cfg.part Q).src)
    (htag : (cfg.part P).subTag i = (cfg.part Q).subTag j) :
    ∃ s, (talkSys cfg).Reach s ∧ ¬ s.NoCrossTalk := by
  have hr₁ := reach_issueDataRecv (Sys.ReachWhen.init : (talkSys cfg).Reach TalkSt.init) rfl
    (TalkSt.not_pending_init P)
  have hr₂ := reach_issueDataRecv (P := Q) hr₁ rfl (by
    rintro ⟨r, hr, hreq⟩
    obtain ⟨k, -, hsub⟩ := TalkSt.mem_subRecv rfl hr
    rw [hsub] at hreq
    exact hPQ (Option.some.inj hreq))
  obtain ⟨r, rest, hpick, hmem⟩ := pick?_append
    (p := fun r : TalkRecv => r.recv.takes
      (dataMsg cfg.contextId (cfg.part Q).src ((cfg.part Q).subTag j)))
    (l := (List.range (cfg.part P).requests).map (TalkSt.init.subRecv cfg P))
    ⟨TalkSt.init.subRecv cfg P i, mem_map_of_mem (mem_range.2 hi),
      takes_iff.2 ⟨.inr (by rw [hsrc]), .inr (by rw [htag])⟩⟩
    ((List.range (cfg.part Q).requests).map (TalkSt.subRecv cfg { TalkSt.init with
      round := Function.update TalkSt.init.round P (TalkSt.init.round P + 1)
      posted := TalkSt.init.posted ++
        (List.range (cfg.part P).requests).map (TalkSt.init.subRecv cfg P) } Q))
  obtain ⟨k, -, hsub⟩ := TalkSt.mem_subRecv rfl hmem
  refine crosstalk_of_pick hr₂ hj (by simp) rfl hpick ?_
  rw [hsub]
  exact fun heq => hPQ (congrArg SubId.req (Option.some.inj heq))

theorem crosstalk_of_part {P i j : Nat} (hij : i < j) (hj : j < (cfg.part P).requests)
    (htag : (cfg.part P).subTag i = (cfg.part P).subTag j) :
    ∃ s, (talkSys cfg).Reach s ∧ ¬ s.NoCrossTalk := by
  have hr₁ := reach_issueDataRecv (Sys.ReachWhen.init : (talkSys cfg).Reach TalkSt.init) rfl
    (TalkSt.not_pending_init P)
  obtain ⟨r, rest, hpick, hmem⟩ := pick?_append
    (p := fun r : TalkRecv => r.recv.takes
      (dataMsg cfg.contextId (cfg.part P).src ((cfg.part P).subTag j)))
    (l := (List.range j).map (TalkSt.init.subRecv cfg P))
    ⟨TalkSt.init.subRecv cfg P i, mem_map_of_mem (mem_range.2 hij),
      takes_iff.2 ⟨.inr rfl, .inr (by rw [htag])⟩⟩
    (((List.range ((cfg.part P).requests - j)).map (j + ·)).map (TalkSt.init.subRecv cfg P))
  rw [← map_append, ← range_add, Nat.add_sub_of_le (Nat.le_of_lt hj)] at hpick
  obtain ⟨k, hk, hsub⟩ := TalkSt.mem_subRecv rfl hmem
  refine crosstalk_of_pick hr₁ hj (by simp) rfl hpick ?_
  rw [hsub]
  intro heq
  have hkj : k = j := congrArg SubId.idx (Option.some.inj heq)
  omega

end

/-- **No cross-talk.** In all runs every sub-message of a partitioned request is taken by its own
sub-receive only, if and only if no ordinary receive is for the source and the tag of a sub-message
and the tags of all sub-messages from one source are distinct. -/
theorem part_no_crosstalk_iff (cfg : TalkCfg) :
    (∀ s, (talkSys cfg).Reach s → s.NoCrossTalk) ↔ cfg.Isolated := by
  constructor
  · intro h
    have hno : ¬ ∃ s, (talkSys cfg).Reach s ∧ ¬ s.NoCrossTalk := fun ⟨s, hr, hn⟩ => hn (h s hr)
    refine ⟨fun con tag hc P i hi hm => hno (crosstalk_of_recv hc hi hm),
      fun P Q i j hi hj hsrc htag => ?_⟩
    by_cases hPQ : P = Q
    · subst hPQ
      refine ⟨rfl, ?_⟩
      rcases Nat.lt_trichotomy i j with hlt | heq | hgt
      · exact absurd (crosstalk_of_part hlt hj htag) hno
      · exact heq
      · exact absurd (crosstalk_of_part hgt hi htag.symm) hno
    · exact absurd (crosstalk_of_parts hPQ hi hj hsrc htag) hno
  · intro hiso s hr
    exact (hr.inv TalkSt.Ok.init fun hi hs => hi.step hiso hs : s.Ok cfg).talk

/-- A partitioned request with tag 5 and one sub-message, and an ordinary receive from the same
source with tag 6. -/
def nextTagCfg : TalkCfg :=
  ⟨0, fun P => ⟨0, 5, if P = 0 then 1 else 0⟩,
    fun con tag => con == some 0 && tag == some 6⟩

theorem part_crosstalk_next_tag :
    ¬ ∀ s, (talkSys nextTagCfg).Reach s → s.NoCrossTalk := by
  intro h
  obtain ⟨s, he, hs⟩ := map_eq_some_iff.1
    (show ((talkSys nextTagCfg).exec .init
        [.irecv (some 0) (some 6), .issueDataRecv 0, .data 0 0]).map
        (fun s => s.taken.map fun x => (x.1.sub, x.2.sub)) =
      some [(some ⟨0, 0, 1⟩, none)] by decide)
  obtain ⟨x, hx, hsub⟩ := mem_map.1 (hs ▸ mem_singleton_self _)
  obtain ⟨hm, hr⟩ := Prod.mk.inj hsub
  have hown := h s (Sys.exec_reach .init he) x hx _ hm
  rw [hr] at hown
  cases hown

end PsMpi.Part
