import PsMpi.Rma.Lock
import PsMpi.Rma.OpCount
import Mathlib.Data.List.Perm.Basic
import Mathlib.Data.List.Nodup

/-!
# One target window and its origins

The lock manager under any number of origins.
-/

open PsMpi.Lib List Function

namespace PsMpi.Rma

/-- The life of one origin's lock: the calls of the origin and the messages between it and the
target. `MPID_Win_lock`, `MPID_Win_unlock` (`mpid_rma_sync.c:567-675`). -/
inductive LockPhase
  | idle
  | requested (req : LockReq)
  | waiting (req : LockReq)
  | granted (req : LockReq)
  | locked (req : LockReq)
  | unlocking (req : LockReq) (rmaOpCounter : Int)
  | releasing (req : LockReq) (rmaOpCounter : Int)
  | released

def LockPhase.holding : LockPhase → Option LockReq
  | .granted req | .locked req | .unlocking req _ | .releasing req _ => some req
  | .idle | .requested _ | .waiting _ | .released => none

structure LockSt where
  win : LockMgr
  cnt : OpCount Nat
  phase : Nat → LockPhase
  nextId : Nat
  held : List LockReq
  arrived : List LockReq
  granted : List LockReq

inductive LockAct
  | winLock (origin : Nat) (exclusive : Bool)
  | recvLockReq (origin : Nat)
  | recvLockAnswer (origin : Nat)
  | winUnlock (origin : Nat) (rmaOpCounter : Int)
  | recvUnlockReq (origin : Nat)
  | unlockDone (origin : Nat)
  | recvUnlockAnswer (origin : Nat)
  | opArrived (origin : Nat)

namespace LockSt

def init : LockSt := ⟨.init, .init, fun _ => .idle, 0, [], [], []⟩

/-- `pscom_post_send` in `do_lock` and `do_unlock` (`:466,489`). -/
def answer (s : LockSt) : Option LockReq → LockSt
  | none => s
  | some req =>
    { s with
      phase := Function.update s.phase req.origin (.granted req)
      held := req :: s.held
      granted := s.granted ++ [req] }

/-- `MPID_do_recv_rma_lock_req` (:499). -/
def lockReq (s : LockSt) (req : LockReq) : LockSt :=
  let r := doLock s.win req
  answer { s with
    win := r.2
    phase := Function.update s.phase req.origin (.waiting req)
    arrived := s.arrived ++ [req] } r.1

/-- `do_unlock` as called in `:563,646`. -/
def unlock (s : LockSt) (req : LockReq) (p : LockPhase) : LockSt :=
  let r := doUnlock s.win
  answer { s with
    win := r.2
    phase := Function.update s.phase req.origin p
    held := s.held.erase req } r.1

def step (rank : Nat) (s : LockSt) : LockAct → Option LockSt
  | .winLock o exclusive =>
    match s.phase o with
    | .idle =>
      let req : LockReq := ⟨s.nextId, o, exclusive⟩
      let s := { s with nextId := s.nextId + 1 }
      if o = rank then
        match doTrylock s.win exclusive with
        | (true, w) =>
          some { s with
            win := w
            phase := Function.update s.phase o (.locked req)
            held := req :: s.held
            arrived := s.arrived ++ [req]
            granted := s.granted ++ [req] }
        | (false, _) => some { s with phase := Function.update s.phase o (.requested req) }
      else
        some { s with phase := Function.update s.phase o (.requested req) }
    | _ => none
  | .recvLockReq o =>
    match s.phase o with
    | .requested req => some (s.lockReq req)
    | _ => none
  | .recvLockAnswer o =>
    match s.phase o with
    | .granted req => some { s with phase := Function.update s.phase o (.locked req) }
    | _ => none
  | .winUnlock o ctr =>
    match s.phase o with
    | .locked req =>
      if o = rank then some (s.unlock req .idle)
      else some { s with phase := Function.update s.phase o (.unlocking req ctr) }
    | _ => none
  | .recvUnlockReq o =>
    match s.phase o with
    | .unlocking req ctr =>
      some { s with
        cnt := s.cnt.ctrlReqBegin o ctr
        phase := Function.update s.phase o (.releasing req ctr) }
    | _ => none
  | .unlockDone o =>
    match s.phase o with
    | .releasing req ctr =>
      if s.cnt.allArrived o then
        some ({ s with cnt := s.cnt.ctrlReqEnd ctr }.unlock req .released)
      else none
    | _ => none
  | .recvUnlockAnswer o =>
    match s.phase o with
    | .released => some { s with phase := Function.update s.phase o .idle }
    | _ => none
  | .opArrived o => some { s with cnt := s.cnt.opArrived o }

end LockSt

def lockSys (rank : Nat) : Sys LockSt LockAct := ⟨.init, LockSt.step rank⟩

/-! ## The invariant -/

/-- The invariant of `lockSys`: the lock fields describe the held locks, no one waits for a free
lock, the requests that have reached the lock manager are the granted and the waiting ones, and the
origins' phases agree with the target. -/
structure LockSt.Ok (s : LockSt) : Prop where
  desc : s.win.Describes s.held
  wait : s.win.lockList ≠ [] → s.held ≠ []
  perm : s.arrived.Perm (s.granted ++ s.win.lockList)
  nodup : s.arrived.Nodup
  fresh : ∀ r ∈ s.arrived, r.id < s.nextId
  req : ∀ o r, s.phase o = .requested r → r.origin = o ∧ r.id < s.nextId ∧ r ∉ s.arrived
  queued : ∀ r ∈ s.win.lockList, s.phase r.origin = .waiting r
  holds : ∀ o r, (s.phase o).holding = some r → r.origin = o ∧ r ∈ s.held

section
variable {s s' : LockSt} {o rank : Nat} {r req : LockReq} {p : LockPhase}

theorem LockSt.Ok.init : LockSt.Ok .init := by
  refine ⟨⟨rfl, nofun, nofun⟩, fun h => absurd rfl h, .refl _, .nil, nofun, nofun, nofun, nofun⟩

theorem LockSt.Ok.nodup_append (h : s.Ok) : (s.granted ++ s.win.lockList).Nodup :=
  h.perm.nodup_iff.1 h.nodup

theorem LockSt.Ok.setPhase (h : s.Ok) (hw : ∀ r, s.phase o ≠ .waiting r)
    (hq : ∀ r, p ≠ .requested r) (hh : ∀ r, p.holding = some r → (s.phase o).holding = some r) :
    LockSt.Ok { s with phase := Function.update s.phase o p } where
  desc := h.desc
  wait := h.wait
  perm := h.perm
  nodup := h.nodup
  fresh := h.fresh
  req o' r hr := by
    by_cases ho : o' = o
    · subst ho; simp only [update_self] at hr; exact absurd hr (hq r)
    · simp only [update_of_ne ho] at hr; exact h.req o' r hr
  queued r hr := by
    have hne : r.origin ≠ o := fun ho => hw r (ho ▸ h.queued r hr)
    simp only [update_of_ne hne]
    exact h.queued r hr
  holds o' r hr := by
    by_cases ho : o' = o
    · subst ho; simp only [update_self] at hr; exact h.holds o' r (hh r hr)
    · simp only [update_of_ne ho] at hr; exact h.holds o' r hr

theorem LockSt.Ok.setCnt (h : s.Ok) (c : OpCount Nat) : LockSt.Ok { s with cnt := c } :=
  ⟨h.desc, h.wait, h.perm, h.nodup, h.fresh, h.req, h.queued, h.holds⟩

theorem LockSt.Ok.request (h : s.Ok) (hp : s.phase o = .idle) (e : Bool) :
    LockSt.Ok { s with
      nextId := s.nextId + 1
      phase := Function.update s.phase o (.requested ⟨s.nextId, o, e⟩) } where
  desc := h.desc
  wait := h.wait
  perm := h.perm
  nodup := h.nodup
  fresh r hr := Nat.lt_succ_of_lt (h.fresh r hr)
  req o' r hr := by
    by_cases ho : o' = o
    · subst ho
      simp only [update_self, LockPhase.requested.injEq] at hr
      subst hr
      exact ⟨rfl, Nat.lt_succ_self _, fun hm => Nat.lt_irrefl _ (h.fresh _ hm)⟩
    · simp only [update_of_ne ho] at hr
      have ⟨h1, h2, h3⟩ := h.req o' r hr
      exact ⟨h1, Nat.lt_succ_of_lt h2, h3⟩
  queued r hr := by
    have hne : r.origin ≠ o := fun ho => by
      have := h.queued r hr
      rw [ho, hp] at this
      cases this
    simp only [update_of_ne hne]
    exact h.queued r hr
  holds o' r hr := by
    by_cases ho : o' = o
    · subst ho; simp [LockPhase.holding] at hr
    · simp only [update_of_ne ho] at hr; exact h.holds o' r hr

theorem LockSt.Ok.arrive (h : s.Ok) (hnew : req ∉ s.arrived) (hid : req.id < s.nextId) :
    (s.arrived ++ [req]).Nodup ∧ (∀ r ∈ s.arrived ++ [req], r.id < s.nextId) ∧
      ∀ p o' r, (∀ r, p ≠ .requested r) →
        Function.update s.phase req.origin p o' = .requested r →
        r.origin = o' ∧ r.id < s.nextId ∧ r ∉ s.arrived ++ [req] := by
  refine ⟨?_, fun r hr => ?_, fun p o' r hp hr => ?_⟩
  · exact List.nodup_append.2 ⟨h.nodup, List.nodup_singleton _, fun a ha b hb hab => by
      rw [mem_singleton.1 hb] at hab
      exact hnew (hab ▸ ha)⟩
  · rcases mem_append.1 hr with hr | hr
    · exact h.fresh r hr
    · rw [mem_singleton.1 hr]; exact hid
  · by_cases ho : o' = req.origin
    · subst ho; rw [update_self] at hr; exact absurd hr (hp r)
    · rw [update_of_ne ho] at hr
      obtain ⟨h1, h2, h3⟩ := h.req o' r hr
      refine ⟨h1, h2, fun hm => ?_⟩
      rcases mem_append.1 hm with hm | hm
      · exact h3 hm
      · exact ho (h1 ▸ mem_singleton.1 hm ▸ rfl)

theorem LockSt.Ok.enqueue (h : s.Ok) (hp : s.phase o = .requested req) {w : LockMgr}
    (hd : w.Describes s.held) (hl : w.lockList = s.win.lockList ++ [req]) (hne : s.held ≠ []) :
    LockSt.Ok { s with
      win := w
      phase := Function.update s.phase req.origin (.waiting req)
      arrived := s.arrived ++ [req] } := by
  obtain ⟨rfl, hid, hnew⟩ := h.req o req hp
  have hother : ∀ o' r, (s.phase o' = .waiting r ∨ s.phase o' = .requested r) → r.origin = o' →
      r ≠ req → o' ≠ req.origin := by
    rintro o' r hr horig hrr rfl
    rw [hp] at hr
    rcases hr with hr | hr <;> cases hr
    exact hrr rfl
  obtain ⟨hnodup, hfresh, hreq⟩ := h.arrive hnew hid
  refine ⟨hd, fun _ => hne, ?_, hnodup, hfresh, fun o' r => hreq _ o' r nofun, fun r hr => ?_,
    fun o' r hr => ?_⟩
  · show (s.arrived ++ [req]).Perm (s.granted ++ w.lockList)
    rw [hl, ← append_assoc]
    exact h.perm.append_right _
  · rw [hl] at hr
    rcases mem_append.1 hr with hr | hr
    · have hrr : r ≠ req := fun he => hnew (he ▸ h.perm.mem_iff.2 (mem_append_right _ hr))
      have hq := h.queued r hr
      simp only [update_of_ne (hother _ r (.inl hq) rfl hrr)]
      exact hq
    · rw [mem_singleton.1 hr]; simp
  · by_cases ho : o' = req.origin
    · subst ho; simp [LockPhase.holding] at hr
    · simp only [update_of_ne ho] at hr; exact h.holds o' r hr

theorem LockSt.Ok.grantNow (h : s.Ok) (hw : ∀ r, s.phase req.origin ≠ .waiting r)
    (hnew : req ∉ s.arrived) (hid : req.id < s.nextId) {w : LockMgr}
    (hd : w.Describes (req :: s.held)) (hl : w.lockList = s.win.lockList)
    (hp : p.holding = some req) (hq : ∀ r, p ≠ .requested r) :
    LockSt.Ok { s with
      win := w
      phase := Function.update s.phase req.origin p
      held := req :: s.held
      arrived := s.arrived ++ [req]
      granted := s.granted ++ [req] } := by
  obtain ⟨hnodup, hfresh, hreq⟩ := h.arrive hnew hid
  refine ⟨hd, fun _ => cons_ne_nil _ _, ?_, hnodup, hfresh, fun o' r => hreq _ o' r hq,
    fun r hr => ?_, fun o' r hr => ?_⟩
  · show (s.arrived ++ [req]).Perm (s.granted ++ [req] ++ w.lockList)
    rw [hl, append_assoc]
    refine (h.perm.append_right _).trans ?_
    rw [append_assoc]
    exact perm_append_comm.append_left _
  · rw [hl] at hr
    have hq' := h.queued r hr
    have hne : r.origin ≠ req.origin := fun he => hw r (he ▸ hq')
    simp only [update_of_ne hne]
    exact hq'
  · by_cases ho : o' = req.origin
    · subst ho
      simp only [update_self, hp, Option.some.injEq] at hr
      subst hr
      exact ⟨rfl, mem_cons_self⟩
    · simp only [update_of_ne ho] at hr
      exact ⟨(h.holds o' r hr).1, mem_cons_of_mem _ (h.holds o' r hr).2⟩

theorem LockSt.Ok.lockReq (h : s.Ok) (hp : s.phase o = .requested req) :
    (s.lockReq req).Ok := by
  obtain ⟨rfl, hid, hnew⟩ := h.req o req hp
  unfold LockSt.lockReq
  rcases doLock_cases (r := req) h.desc with ⟨w, he, hd, hl⟩ | ⟨w, he, hd, hl, hne⟩ <;>
    simp only [he, LockSt.answer]
  · simp only [update_idem]
    exact h.grantNow (by simp [hp]) hnew hid hd hl rfl nofun
  · exact h.enqueue hp hd hl hne

theorem LockSt.Ok.unlock (h : s.Ok) (hp : (s.phase o).holding = some req)
    (hn : p.holding = none) (hq : ∀ r, p ≠ .requested r) : (s.unlock req p).Ok := by
  obtain ⟨rfl, hmem⟩ := h.holds o req hp
  have hwait : ∀ r, s.phase req.origin ≠ .waiting r := fun r hr => by
    rw [hr] at hp; cases hp
  -- what the release alone does to the origins' phases
  have hreq : ∀ o' r, Function.update s.phase req.origin p o' = .requested r →
      r.origin = o' ∧ r.id < s.nextId ∧ r ∉ s.arrived := fun o' r hr => by
    by_cases ho : o' = req.origin
    · subst ho; rw [update_self] at hr; exact absurd hr (hq r)
    · rw [update_of_ne ho] at hr; exact h.req o' r hr
  have hque : ∀ r ∈ s.win.lockList,
      Function.update s.phase req.origin p r.origin = .waiting r := fun r hr => by
    have hne : r.origin ≠ req.origin := fun he => hwait r (he ▸ h.queued r hr)
    rw [update_of_ne hne]
    exact h.queued r hr
  have hhold : ∀ o' r, (Function.update s.phase req.origin p o').holding = some r →
      r.origin = o' ∧ r ∈ s.held.erase req := fun o' r hr => by
    by_cases ho : o' = req.origin
    · subst ho; rw [update_self, hn] at hr; cases hr
    · rw [update_of_ne ho] at hr
      obtain ⟨rfl, hm⟩ := h.holds o' r hr
      exact ⟨rfl, (mem_erase_of_ne fun he => ho (congrArg LockReq.origin he)).2 hm⟩
  unfold LockSt.unlock
  rcases doUnlock_cases h.desc hmem with ⟨w, he, hl, hl', hd⟩ | ⟨lreq, w, he, hl, hd⟩ |
    ⟨w, he, hl, hd, hne⟩ <;> simp only [he, LockSt.answer]
  · exact ⟨hd, fun hc => absurd hl' hc, by simpa [hl, hl'] using h.perm, h.nodup, h.fresh, hreq,
      by simp [hl'], hhold⟩
  · have hnd := h.nodup_append
    rw [hl] at hnd
    have hlq := hque lreq (by simp [hl])
    refine ⟨hd, fun _ => cons_ne_nil _ _, by simpa [hl] using h.perm, h.nodup, h.fresh,
      fun o' r hr => ?_, fun r hr => ?_, fun o' r hr => ?_⟩
    · by_cases ho : o' = lreq.origin
      · subst ho; simp at hr
      · simp only [update_of_ne ho] at hr; exact hreq o' r hr
    · have hrq := hque r (by simp [hl, hr])
      have hne : r.origin ≠ lreq.origin := fun ho => by
        rw [ho, hlq] at hrq
        cases hrq
        exact (List.nodup_cons.1 (List.nodup_append.1 hnd).2.1).1 hr
      simp only [update_of_ne hne]
      exact hrq
    · by_cases ho : o' = lreq.origin
      · subst ho
        simp only [update_self, LockPhase.holding, Option.some.injEq] at hr
        subst hr
        exact ⟨rfl, mem_cons_self⟩
      · simp only [update_of_ne ho] at hr
        exact ⟨(hhold o' r hr).1, mem_cons_of_mem _ (hhold o' r hr).2⟩
  · exact ⟨hd, fun _ => hne, by simpa [hl] using h.perm, h.nodup, h.fresh, hreq,
      fun r hr => hque r (hl ▸ hr), hhold⟩

theorem LockSt.Ok.step (h : s.Ok) {a : LockAct} (hs : LockSt.step rank s a = some s') : s'.Ok := by
  cases a with
  | winLock o e =>
    simp only [LockSt.step] at hs
    split at hs <;> try cases hs
    next hp =>
    have hsend := h.request hp e
    split at hs
    · next ho =>
      rcases doTrylock_cases s.win e with ⟨hw, he⟩ | ⟨-, -, he⟩ <;> rw [he] at hs <;> cases hs
      · have hnew : (⟨s.nextId, o, e⟩ : LockReq) ∉ s.arrived := fun hm =>
          Nat.lt_irrefl _ (h.fresh _ hm)
        have hb : LockSt.Ok { s with nextId := s.nextId + 1 } :=
          ⟨h.desc, h.wait, h.perm, h.nodup, fun r hr => Nat.lt_succ_of_lt (h.fresh r hr),
            fun o r hr => have ⟨h1, h2, h3⟩ := h.req o r hr; ⟨h1, Nat.lt_succ_of_lt h2, h3⟩,
            h.queued, h.holds⟩
        have hphase : ∀ r, s.phase (⟨s.nextId, o, e⟩ : LockReq).origin ≠ .waiting r := by simp [hp]
        exact hb.grantNow hphase hnew (Nat.lt_succ_self _)
          (h.desc.trylock (r := ⟨s.nextId, o, e⟩) hw) rfl rfl nofun
      · exact hsend
    · cases hs; exact hsend
  | recvLockReq o =>
    simp only [LockSt.step] at hs
    split at hs <;> cases hs
    next hp => exact h.lockReq hp
  | recvLockAnswer o =>
    simp only [LockSt.step] at hs
    split at hs <;> cases hs
    next hp => exact h.setPhase (by simp [hp]) nofun fun r hr => by rw [hp]; exact hr
  | winUnlock o ctr =>
    simp only [LockSt.step] at hs
    split at hs <;> try cases hs
    next hp =>
    split at hs <;> cases hs
    · exact h.unlock (by rw [hp]; rfl) rfl nofun
    · exact h.setPhase (by simp [hp]) nofun fun r hr => by rw [hp]; exact hr
  | recvUnlockReq o =>
    simp only [LockSt.step] at hs
    split at hs <;> cases hs
    next req ctr hp =>
    exact (h.setPhase (p := .releasing req ctr) (by simp [hp]) nofun
      fun r hr => by rw [hp]; exact hr).setCnt (s.cnt.ctrlReqBegin o ctr)
  | unlockDone o =>
    simp only [LockSt.step] at hs
    split at hs <;> try cases hs
    next hp =>
    split at hs <;> cases hs
    exact (h.setCnt _).unlock (by rw [hp]; rfl) rfl nofun
  | recvUnlockAnswer o =>
    simp only [LockSt.step] at hs
    split at hs <;> cases hs
    next hp => exact h.setPhase (by simp [hp]) nofun nofun
  | opArrived o => cases hs; exact h.setCnt _

theorem lockSys_ok (h : (lockSys rank).Reach s) : s.Ok :=
  h.inv LockSt.Ok.init fun hi hs => hi.step hs

/-- **The lock manager is safe.** In every reachable state an exclusive lock that is held is the
only one and `lock_cnt` is 1; every lock request that has reached the lock manager has been granted
at most once, and it is either granted or waiting; and requests wait only while a lock is held. -/
theorem lock_manager_safe (h : (lockSys rank).Reach s) :
    (∀ r ∈ s.held, r.exclusive = true → s.win.lockCnt = 1 ∧ ∀ r' ∈ s.held, r' = r) ∧
    (∀ r ∈ s.arrived, s.granted.count r ≤ 1 ∧ Xor (r ∈ s.granted) (r ∈ s.win.lockList)) ∧
    (s.win.lockList ≠ [] → 0 < s.win.lockCnt) := by
  have hok := lockSys_ok h
  have hnd := List.nodup_append.1 hok.nodup_append
  refine ⟨fun r hr he => ?_, fun r hr => ⟨nodup_iff_count_le_one.1 hnd.1 r, ?_⟩, fun hl => ?_⟩
  · have hlen := hok.desc.alone r hr he
    refine ⟨hok.desc.cnt.trans hlen, fun r' hr' => ?_⟩
    obtain ⟨x, hx⟩ := length_eq_one_iff.1 hlen
    rw [hx, mem_singleton] at hr hr'
    rw [hr, hr']
  · rcases mem_append.1 (hok.perm.mem_iff.1 hr) with hg | hw
    · exact .inl ⟨hg, fun hw => hnd.2.2 r hg r hw rfl⟩
    · exact .inr ⟨hw, fun hg => hnd.2.2 r hg r hw rfl⟩
  · rw [hok.desc.cnt]
    exact length_pos_iff.2 (hok.wait hl)

/-- An exclusive lock of the target itself, a remote shared request that waits for it, and the
unlock that hands the lock over. -/
theorem lock_manager_safe_handover :
    ∃ s, (lockSys 0).Reach s ∧ s.win.lockList ≠ [] ∧ 0 < s.win.lockCnt := by
  have hrun : ((lockSys 0).exec .init [.winLock 0 true, .winLock 1 false, .recvLockReq 1,
      .winLock 2 false, .recvLockReq 2, .winUnlock 0 0]).map (·.win.lockList) =
        some [⟨2, 2, false⟩] := by decide
  obtain ⟨s, hs, hl⟩ := Option.map_eq_some_iff.1 hrun
  have hr : (lockSys 0).Reach s := Sys.exec_reach .init hs
  have hne : s.win.lockList ≠ [] := by simp [hl]
  exact ⟨s, hr, hne, (lock_manager_safe hr).2.2 hne⟩

end

end PsMpi.Rma
