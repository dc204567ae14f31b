import PsMpi.Coll.TreeDigitsOk

/-!
# K-nomial trees of the first kind are spanning trees
-/

open PsMpi.Lib List Option

namespace PsMpi.Coll

section down

variable {k d u s x c : Nat} {w : Option Nat}

/-- Go down to a number, which is the current one or one of the `k ^ d - 1` numbers from `run` on: its
parent and the steps that are left when it is found. -/
def down (k : Nat) : Nat → Option Nat → Nat → Nat → Nat → Option Nat × Nat
  | d, par, cur, run, x =>
    if x = cur then (par, d)
    else match d with
    | 0 => (par, 0)
    | d + 1 =>
      let q := (x - run) / k ^ d
      if q < k - 1 then down k d (some cur) (run + q * k ^ d) (run + q * k ^ d + 1) x
      else down k d par cur (run + (k - 1) * k ^ d) x

def kids (k : Nat) : Nat → Nat → List Nat
  | 0, _ => []
  | d + 1, run =>
    (List.range (k - 1)).map (fun j => run + j * k ^ d) ++ kids k d (run + (k - 1) * k ^ d)

theorem down_self : down k d w x s x = (w, d) := by
  unfold down
  exact if_pos rfl

theorem down_of_ne (h : x ≠ u) : down k (d + 1) w u s x =
    if (x - s) / k ^ d < k - 1 then
      down k d (some u) (s + (x - s) / k ^ d * k ^ d) (s + (x - s) / k ^ d * k ^ d + 1) x
    else down k d w u (s + (k - 1) * k ^ d) x := by
  conv_lhs => unfold down
  rw [if_neg h]

theorem down_succ (hk : 1 ≤ k) (hcur : u < s) (hx : s ≤ x) (hlt : x + 1 < s + k ^ (d + 1)) :
    (∃ q < k - 1, s + q * k ^ d ≤ x ∧ x < s + q * k ^ d + k ^ d ∧
      s + q * k ^ d + k ^ d ≤ s + (k - 1) * k ^ d ∧
      ∀ w, down k (d + 1) w u s x =
        down k d (some u) (s + q * k ^ d) (s + q * k ^ d + 1) x) ∨
    (s + (k - 1) * k ^ d ≤ x ∧ x + 1 < s + (k - 1) * k ^ d + k ^ d ∧
      ∀ w, down k (d + 1) w u s x = down k d w u (s + (k - 1) * k ^ d) x) := by
  have hpos : 0 < k ^ d := Nat.pow_pos hk
  obtain ⟨hle, hge⟩ := (div_eq_iff_block (a := x - s) hpos).1 rfl
  by_cases hq : (x - s) / k ^ d < k - 1
  · refine .inl ⟨_, hq, by omega, by omega, ?_, fun w => ?_⟩
    · rw [Nat.add_assoc, ← Nat.succ_mul]
      exact Nat.add_le_add_left (Nat.mul_le_mul_right _ hq) s
    · rw [down_of_ne (by omega), if_pos hq]
  · refine .inr ⟨?_, ?_, fun w => ?_⟩
    · have := Nat.mul_le_mul_right (k ^ d) (Nat.le_of_not_lt hq)
      omega
    · have : (k - 1) * k ^ d + k ^ d = k ^ (d + 1) := by
        rw [← Nat.succ_mul, Nat.pow_succ, Nat.mul_comm, show (k - 1).succ = k by omega]
      omega
    · rw [down_of_ne (by omega), if_neg hq]

theorem down_le : (down k d w u s x).2 ≤ d := by
  induction d generalizing w u s with
  | zero =>
    unfold down
    split
    · exact Nat.le_refl 0
    · exact Nat.le_refl 0
  | succ d ih =>
    by_cases hx : x = u
    · rw [hx, down_self]
    · rw [down_of_ne hx]
      split
      · exact Nat.le_succ_of_le ih
      · exact Nat.le_succ_of_le ih

theorem parts_length (hk : 1 ≤ k) : s + (k - 1) * k ^ d + k ^ d = s + k ^ (d + 1) := by
  rw [Nat.add_assoc, ← Nat.succ_mul, Nat.pow_succ, Nat.mul_comm, show (k - 1).succ = k by omega]

theorem down_range (hk : 1 ≤ k) (hcur : u < s) (hx : s ≤ x) (hlt : x + 1 < s + k ^ d) :
    (∃ p, (down k d w u s x).1 = some p ∧ (p = u ∨ s ≤ p) ∧ p < x) ∧
      x + k ^ (down k d w u s x).2 + 1 ≤ s + k ^ d := by
  induction d generalizing u s w with
  | zero =>
    rw [Nat.pow_zero] at hlt
    omega
  | succ d ih =>
    have hpos : 0 < k ^ d := Nat.pow_pos hk
    have hend := parts_length (d := d) (s := s) hk
    rcases down_succ hk hcur hx hlt with ⟨q, -, hle, hge, hblock, heq⟩ | ⟨hle, hge, heq⟩
    · rw [heq]
      by_cases hxo : x = s + q * k ^ d
      · rw [← hxo, down_self]
        dsimp only
        exact ⟨⟨u, rfl, .inl rfl, by omega⟩, by omega⟩
      · obtain ⟨⟨p, hp, hpr, hpx⟩, hsub⟩ := ih (w := some u) (u := s + q * k ^ d)
          (s := s + q * k ^ d + 1) (by omega) (by omega) (by omega)
        exact ⟨⟨p, hp, .inr (by omega), hpx⟩, by omega⟩
    · rw [heq]
      obtain ⟨⟨p, hp, hpr, hpx⟩, hsub⟩ := ih (w := w) (u := u)
        (s := s + (k - 1) * k ^ d) (by omega) hle hge
      exact ⟨⟨p, hp, by omega, hpx⟩, by omega⟩

theorem mem_kids_succ : c ∈ kids k (d + 1) s ↔
    (∃ j < k - 1, s + j * k ^ d = c) ∨ c ∈ kids k d (s + (k - 1) * k ^ d) := by
  rw [kids, mem_append, List.mem_map]
  simp only [mem_range]

theorem start_lt {j : Nat} (hj : j < k - 1) :
    s + j * k ^ d + k ^ d ≤ s + (k - 1) * k ^ d := by
  rw [Nat.add_assoc, ← Nat.succ_mul]
  exact Nat.add_le_add_left (Nat.mul_le_mul_right _ hj) s

theorem kids_range (hk : 1 ≤ k) (h : c ∈ kids k d s) : s ≤ c ∧ c + 1 < s + k ^ d := by
  induction d generalizing s with
  | zero => cases h
  | succ d ih =>
    have hpos : 0 < k ^ d := Nat.pow_pos hk
    have hend := parts_length (d := d) (s := s) hk
    rcases mem_kids_succ.1 h with ⟨j, hj, rfl⟩ | h
    · have := start_lt (d := d) (s := s) hj
      omega
    · have := ih h
      omega

theorem nodup_kids (hk : 1 ≤ k) : (kids k d s).Nodup := by
  induction d generalizing s with
  | zero => exact nodup_nil
  | succ d ih =>
    have hpos : 0 < k ^ d := Nat.pow_pos hk
    refine nodup_append.2 ⟨?_, ih, fun a ha b hb hab => ?_⟩
    · refine nodup_range.map_on fun a _ b _ h => ?_
      exact Nat.eq_of_mul_eq_mul_right hpos (Nat.add_left_cancel h)
    · obtain ⟨j, hj, rfl⟩ := mem_map.1 ha
      have h₁ := start_lt (d := d) (s := s) (mem_range.1 hj)
      have h₂ := kids_range hk hb
      omega

theorem same_block {q q' : Nat} (hle : s + q * k ^ d ≤ x) (hge : x < s + q * k ^ d + k ^ d)
    (hle' : s + q' * k ^ d ≤ x) (hge' : x < s + q' * k ^ d + k ^ d) : q = q' := by
  have hpos : 1 ≤ k ^ d := by omega
  have h : (x - s) / k ^ d = q := (div_eq_iff_block hpos).2 (by omega)
  have h' : (x - s) / k ^ d = q' := (div_eq_iff_block hpos).2 (by omega)
  exact h.symm.trans h'

theorem down_parent_current (hk : 1 ≤ k) (hcur : u < s) (hc : s ≤ c)
    (hlt : c + 1 < s + k ^ d) :
    (down k d w u s c).1 = some u ↔ c ∈ kids k d s := by
  induction d generalizing s with
  | zero =>
    rw [Nat.pow_zero] at hlt
    omega
  | succ d ih =>
    rw [mem_kids_succ]
    rcases down_succ hk hcur hc hlt with ⟨q, hq, hle, hge, hblock, heq⟩ | ⟨hle, hge, heq⟩
    · rw [heq]
      by_cases hco : c = s + q * k ^ d
      · rw [← hco, down_self]
        exact iff_of_true rfl (.inl ⟨q, hq, hco.symm⟩)
      · refine iff_of_false (fun h => ?_) ?_
        · obtain ⟨⟨p, hp, hpr, -⟩, -⟩ := down_range (d := d) (w := some u) hk
            (show s + q * k ^ d < s + q * k ^ d + 1 by omega) (show _ ≤ c by omega) (by omega)
          obtain rfl := Option.some.inj (h.symm.trans hp)
          omega
        · rintro (⟨j, hj, rfl⟩ | h)
          · -- the starts of two subtrees are not in the same one
            have hpos : 0 < k ^ d := Nat.pow_pos hk
            exact hco (by rw [same_block (Nat.le_refl _) (by omega) hle hge])
          · have := kids_range hk h
            omega
    · rw [heq, ih (by omega) hle hge]
      refine (or_iff_right ?_).symm
      rintro ⟨j, hj, rfl⟩
      have := start_lt (d := d) (s := s) hj
      have hpos : 0 < k ^ d := Nat.pow_pos hk
      omega

theorem down_parent_iff (hk : 1 ≤ k) (hcur : u < s) (hx : s ≤ x) (hltx : x + 1 < s + k ^ d)
    (hc : s ≤ c) (hltc : c + 1 < s + k ^ d) :
    (down k d w u s c).1 = some x ↔ c ∈ kids k (down k d w u s x).2 (x + 1) := by
  induction d generalizing u s w with
  | zero =>
    rw [Nat.pow_zero] at hltx
    omega
  | succ d ih =>
    obtain ⟨⟨p, hp, hpr, hpc⟩, -⟩ := down_range (w := w) hk hcur hc hltc
    have hafter : ∀ L, c ∈ kids k L (x + 1) → x < c := fun L h => (kids_range hk h).1
    rcases down_succ hk hcur hx hltx with ⟨q, -, hlex, hgex, hblock, heqx⟩ | ⟨hlex, hgex, heqx⟩
    · -- the kids of a number are in the same subtree
      have hkids : c ∈ kids k (down k (d + 1) w u s x).2 (x + 1) →
          c < s + q * k ^ d + k ^ d := by
        intro h
        have hkr := (kids_range hk h).2
        rw [heqx] at hkr
        by_cases hxo : x = s + q * k ^ d
        · rw [← hxo, down_self] at hkr
          dsimp only at hkr
          omega
        · have := (down_range (d := d) (w := some u) hk
            (show s + q * k ^ d < s + q * k ^ d + 1 by omega) (show _ ≤ x by omega)
            (by omega)).2
          omega
      rcases down_succ hk hcur hc hltc with ⟨q', -, hlec, hgec, -, heqc⟩ | ⟨hlec, hgec, heqc⟩
      · by_cases hqq : q' = q
        · subst hqq
          rw [heqc, heqx]
          by_cases hco : c = s + q' * k ^ d
          · -- the first number of the subtree has the current one as its parent
            rw [← hco, down_self]
            refine iff_of_false (fun h => ?_) fun h => ?_
            · have := Option.some.inj h
              omega
            · have := hafter _ h
              omega
          · by_cases hxo : x = s + q' * k ^ d
            · rw [← hxo, down_self]
              exact down_parent_current hk (by omega) (by omega) (by omega)
            · exact ih (by omega) (by omega) (by omega) (by omega) (by omega)
        · -- the parent of a number of another subtree is the current one or in that subtree
          refine iff_of_false (fun h => ?_) fun h => ?_
          · rw [heqc] at h
            have hxc : s + q' * k ^ d ≤ x ∧ x < c := by
              by_cases hco : c = s + q' * k ^ d
              · rw [← hco, down_self] at h
                have := Option.some.inj h
                omega
              · obtain ⟨⟨p', hp', hpr', hpc'⟩, -⟩ := down_range (d := d) (w := some u) hk
                  (show s + q' * k ^ d < s + q' * k ^ d + 1 by omega) (show _ ≤ c by omega)
                  (by omega)
                obtain rfl := Option.some.inj (h.symm.trans hp')
                omega
            exact hqq (same_block hxc.1 (by omega) hlex hgex)
          · have h₁ := hafter _ h
            exact hqq (same_block hlec hgec (by omega) (hkids h))
      · refine iff_of_false (fun h => ?_) fun h => ?_
        · rw [heqc] at h
          obtain ⟨⟨p', hp', hpr', hpc'⟩, -⟩ := down_range (d := d) (w := w) (u := u) hk
            (by omega) hlec hgec
          obtain rfl := Option.some.inj (h.symm.trans hp')
          omega
        · have := hkids h
          omega
    · rcases down_succ hk hcur hc hltc with ⟨q', -, -, hgec, hblock, -⟩ | ⟨hlec, hgec, heqc⟩
      · refine iff_of_false (fun h => ?_) fun h => ?_
        · obtain rfl := Option.some.inj (h.symm.trans hp)
          omega
        · have := hafter _ h
          omega
      · rw [heqc, heqx]
        exact ih (by omega) hlex hgex hlec hgec

end down

/-! ## The builder -/

section descent

variable {n root k m d e x u s crank fuel todo : Nat} {w : Option Nat}

theorem maxstepLoop_eq (hk : 2 ≤ k) {tmp acc : Nat} (hf : tmp ≤ fuel) :
    maxstepLoop k fuel tmp acc = some (acc + Nat.clog k (tmp + 1)) := by
  induction fuel generalizing tmp acc with
  | zero =>
    obtain rfl : tmp = 0 := by omega
    rw [maxstepLoop, if_pos rfl, Nat.clog_one_right]
    rfl
  | succ fuel ih =>
    unfold maxstepLoop
    by_cases h0 : tmp = 0
    · rw [if_pos h0, h0, Nat.clog_one_right]
      rfl
    · have hdiv : tmp / k < tmp := Nat.div_lt_self (by omega) hk
      have hclog : Nat.clog k (tmp + 1) = Nat.clog k (tmp / k + 1) + 1 := by
        rw [Nat.clog_of_two_le hk (by omega), show tmp + 1 + k - 1 = tmp + k by omega,
          Nat.add_div_right _ (by omega)]
      rw [if_neg h0]
      dsimp only
      rw [ih (by omega), hclog]
      congr 1
      omega

theorem scan_eq (hp : ipow k e = some (k ^ e)) (hpos : 0 < k ^ e) (hx : s ≤ x)
    (hle : s + todo * k ^ e ≤ intMax) :
    scan k e x todo s = some (if (x - s) / k ^ e < todo then
      (true, s + (x - s) / k ^ e * k ^ e) else (false, s + todo * k ^ e)) := by
  induction todo generalizing s with
  | zero => simp [scan]
  | succ todo ih =>
    rw [Nat.succ_mul] at hle
    unfold scan
    simp only [hp, bind, Option.bind, addInt_of_le (show s + k ^ e ≤ intMax by omega)]
    by_cases hlt : x < s + k ^ e
    · have hq : (x - s) / k ^ e = 0 := Nat.div_eq_of_lt (by omega)
      rw [if_pos ⟨hx, hlt⟩, hq, if_pos (Nat.succ_pos todo), Nat.zero_mul, Nat.add_zero]
    · have hq : (x - s) / k ^ e = (x - (s + k ^ e)) / k ^ e + 1 := by
        rw [Nat.div_eq_sub_div hpos (by omega), Nat.sub_sub]
      rw [if_neg fun h => hlt h.2, ih (by omega) (by omega), hq]
      simp only [Nat.succ_lt_succ_iff, Nat.succ_mul]
      split
      · rw [Nat.add_assoc, Nat.add_comm (k ^ e)]
      · rw [Nat.add_assoc, Nat.add_comm (k ^ e)]

theorem descend_eq (hk : 2 ≤ k) (hfit : ∀ e < m, PowFits k e) (hmax : k ^ m ≤ intMax)
    {step : Nat} (hstep : step + d = m) (hf : d < fuel) (hcur : u < s)
    (hx : x = u ∨ s ≤ x ∧ x + 1 < s + k ^ d) (hend : s + k ^ d ≤ k ^ m + 1) :
    descend k m x fuel step w u s =
      some ((down k d w u s x).1, m - (down k d w u s x).2) := by
  obtain ⟨fuel, rfl⟩ := Nat.exists_eq_add_of_le' (show 1 ≤ fuel by omega)
  induction d generalizing fuel step w u s with
  | zero =>
    rw [Nat.pow_zero] at hx
    obtain rfl : x = u := by omega
    unfold descend
    rw [if_pos rfl, down_self]
    congr 2
  | succ d ih =>
    unfold descend
    by_cases hxc : x = u
    · subst hxc
      rw [if_pos rfl, down_self]
      congr 2
      omega
    obtain ⟨hle, hlt⟩ := hx.resolve_left hxc
    have hpos : 0 < k ^ d := Nat.pow_pos (by omega)
    have hparts := parts_length (d := d) (s := s) (show 1 ≤ k by omega)
    obtain ⟨fuel, rfl⟩ := Nat.exists_eq_add_of_le' (show 1 ≤ fuel by omega)
    have hbound : s + (k - 1) * k ^ d ≤ intMax := by omega
    rw [if_neg hxc, if_neg (by omega), show m - step - 1 = d by omega,
      scan_eq (ipow_of_fits (by omega) (hfit d (by omega))) hpos hle hbound, down_of_ne hxc]
    obtain ⟨hqle, hqge⟩ := (div_eq_iff_block (a := x - s) hpos).1 rfl
    by_cases hq : (x - s) / k ^ d < k - 1
    · have hblock := start_lt (d := d) (s := s) hq
      simp only [if_pos hq, bind, Option.bind,
        addInt_of_le (show s + (x - s) / k ^ d * k ^ d + 1 ≤ intMax by omega)]
      exact ih (by omega) (by omega) (by omega) (by omega) fuel (by omega)
    · have hrest := Nat.mul_le_mul_right (k ^ d) (Nat.le_of_not_lt hq)
      simp only [if_neg hq]
      exact ih (by omega) (by omega) (by omega) (by omega) fuel (by omega)

theorem stepChildren_eq (hp : ipow k e = some (k ^ e)) (hle : crank + todo * k ^ e ≤ intMax) :
    stepChildren n root k e todo crank =
      (pushAll n root ((List.range todo).map fun j => crank + j * k ^ e)).map
        (·, crank + todo * k ^ e) := by
  induction todo generalizing crank with
  | zero => simp [stepChildren, pushAll]
  | succ todo ih =>
    rw [Nat.succ_mul] at hle
    have hshift : (List.range todo).map ((fun j => crank + j * k ^ e) ∘ Nat.succ) =
        (List.range todo).map fun j => crank + k ^ e + j * k ^ e := by
      refine map_congr_left fun j _ => ?_
      rw [Function.comp_apply, Nat.succ_mul]
      omega
    unfold stepChildren
    rw [List.range_succ_eq_map, List.map_cons, List.map_map, hshift, pushAll_cons, Nat.zero_mul,
      Nat.add_zero]
    simp only [hp, bind, addInt_of_le (show crank + k ^ e ≤ intMax by omega), bind_some,
      ih (show crank + k ^ e + todo * k ^ e ≤ intMax by omega)]
    rw [show crank + k ^ e + todo * k ^ e = crank + (todo + 1) * k ^ e by rw [Nat.succ_mul]; omega]
    cases childIf n root crank with
    | none => rfl
    | some here =>
      cases pushAll n root ((List.range todo).map fun j => crank + k ^ e + j * k ^ e) <;> rfl

theorem stepsChildren_eq (hk : 2 ≤ k) (hfit : ∀ e < d, PowFits k e)
    (hend : crank + k ^ d ≤ intMax + 1) :
    stepsChildren n root k d crank = pushAll n root (kids k d crank) := by
  induction d generalizing crank with
  | zero => rfl
  | succ d ih =>
    have hpos : 0 < k ^ d := Nat.pow_pos (by omega)
    have hparts := parts_length (d := d) (s := crank) (show 1 ≤ k by omega)
    unfold stepsChildren kids
    rw [pushAll_append, stepChildren_eq (ipow_of_fits (by omega) (hfit d (by omega))) (by omega)]
    cases pushAll n root ((List.range (k - 1)).map fun j => crank + j * k ^ d) with
    | none => rfl
    | some here =>
      simp only [bind, Option.bind, map_some]
      rw [ih (fun e he => hfit e (by omega)) (by omega)]

def descentParent (k m x : Nat) : Option Nat := (down k m none 0 1 x).1

def descentChildren (n k m x : Nat) : List Nat :=
  (kids k (down k m none 0 1 x).2 (x + 1)).filter (· < n)

theorem descent_ordered (hk : 1 ≤ k) (hn : n ≤ k ^ m) :
    Ordered n (descentParent k m) (descentChildren n k m) := by
  have hzero : down k m none 0 1 0 = (none, m) := down_self
  refine ⟨?_, fun x hx hxn => ?_, fun x _ => (nodup_kids hk).filter _, fun x hx c => ?_⟩
  · rw [descentParent, hzero]
  · obtain ⟨⟨p, hp, -, hlt⟩, -⟩ := down_range (d := m) (w := none) hk Nat.zero_lt_one
      (show 1 ≤ x by omega) (by omega)
    exact ⟨p, hlt, hp⟩
  · rw [descentChildren, mem_filter, decide_eq_true_iff, and_comm, descentParent]
    refine and_congr_right fun hc => ?_
    rcases Nat.eq_zero_or_pos c with rfl | hcpos
    · rw [hzero]
      refine iff_of_false (fun h => ?_) nofun
      have := (kids_range hk h).1
      omega
    · rcases Nat.eq_zero_or_pos x with rfl | hxpos
      · rw [hzero]
        dsimp only
        exact (down_parent_current hk Nat.zero_lt_one hcpos (by omega)).symm
      · exact (down_parent_iff hk Nat.zero_lt_one hxpos (by omega) hcpos (by omega)).symm

theorem knomial1Init_eq (hk : 2 ≤ k) (hfit : PowFits k (Nat.clog k n - 1)) {r : Nat} (hr : r < n) :
    knomial1Init r n k root = computed n root (descentParent k (Nat.clog k n))
      (descentChildren n k (Nat.clog k n)) r := by
  obtain ⟨m, hm⟩ : ∃ m, Nat.clog k n = m := ⟨_, rfl⟩
  rw [hm] at hfit ⊢
  have hn : n ≤ k ^ m := hm ▸ Nat.le_pow_clog hk n
  have hmn : m ≤ n := hm ▸ (Nat.clog_le_iff_le_pow hk).2 (Nat.le_of_lt (Nat.lt_pow_self hk))
  have hfits : ∀ e < m, PowFits k e := fun e he => hfit.mono (by omega) (by omega)
  have hmax : k ^ m ≤ intMax :=
    Nat.le_trans (Nat.pow_le_pow_right (by omega) (by omega)) (hfit.pow_le (by omega))
  unfold knomial1Init computed
  rw [if_neg (by omega)]
  refine bind_congr fun x hx => ?_
  obtain ⟨-, rfl⟩ := localRank_eq_some.1 hx
  obtain ⟨x, hx⟩ : ∃ x, unshift n root r = x := ⟨_, rfl⟩
  have hlt : x < n := hx ▸ unshift_lt hr
  have hle := down_le (k := k) (d := m) (w := none) (u := 0) (s := 1) (x := x)
  have hsub : x + 1 + k ^ (down k m none 0 1 x).2 ≤ intMax + 1 := by
    rcases Nat.eq_zero_or_pos x with rfl | hpos
    · rw [down_self]
      dsimp only
      omega
    · have := (down_range (d := m) (w := none) (show 1 ≤ k by omega) Nat.zero_lt_one hpos
        (by omega)).2
      omega
  rw [hx, if_neg (by omega), maxstepLoop_eq hk (Nat.le_refl _), Nat.zero_add,
    show n - 1 + 1 = n by omega, hm]
  simp only [bind, bind_some]
  rw [descend_eq hk hfits hmax (Nat.zero_add m) (by omega) Nat.zero_lt_one (by omega) (by omega)]
  simp only [bind_some, addInt_of_le (show x + 1 ≤ intMax by omega), Nat.sub_sub_self hle]
  rw [stepsChildren_eq hk (fun e he => hfits e (by omega)) hsub]
  rfl

theorem knomial1_spans_iff (hroot : root < n) (hk : 2 ≤ k) (hki : k ≤ intMax) :
    Spans n root (fun r => knomial1Init r n k root) ↔
      PowFits k (Nat.clog k n - 1) ∧ SumsFit n root := by
  refine spans_iff (descent_ordered (by omega) (Nat.le_pow_clog hk n)) hroot
    (fun h r hr => knomial1Init_eq hk h hr) fun h => ?_
  obtain ⟨t, ht⟩ := h root hroot
  unfold knomial1Init at ht
  rw [if_neg (by omega)] at ht
  obtain ⟨x, hx, ht⟩ := bind_eq_some_iff.1 ht
  obtain ⟨-, rfl⟩ := localRank_eq_some.1 hx
  rw [if_neg (by omega), unshift_root hroot, maxstepLoop_eq hk (Nat.le_refl _), Nat.zero_add,
    show n - 1 + 1 = n by omega] at ht
  obtain ⟨m, hm, ht⟩ := bind_eq_some_iff.1 ht
  cases hm
  obtain ⟨⟨p, step⟩, hdescend, ht⟩ := bind_eq_some_iff.1 ht
  unfold descend at hdescend
  rw [if_pos rfl] at hdescend
  obtain ⟨rfl, rfl⟩ := Prod.mk.inj (Option.some.inj hdescend)
  obtain ⟨p, -, ht⟩ := bind_eq_some_iff.1 ht
  obtain ⟨crank, -, ht⟩ := bind_eq_some_iff.1 ht
  obtain ⟨cs, hcs, -⟩ := bind_eq_some_iff.1 ht
  -- the root computes the size of the subtrees of its first children
  cases hm : Nat.clog k n with
  | zero =>
    unfold PowFits
    rwa [Nat.size_zero, Nat.pow_zero, Nat.pow_one]
  | succ m =>
    rw [hm, Nat.sub_zero] at hcs
    unfold stepsChildren at hcs
    obtain ⟨k, rfl⟩ := Nat.exists_eq_add_of_le' hk
    obtain ⟨⟨l, next⟩, hstep, -⟩ := bind_eq_some_iff.1 hcs
    rw [show k + 2 - 1 = k + 1 by omega] at hstep
    unfold stepChildren at hstep
    obtain ⟨here, -, hstep⟩ := bind_eq_some_iff.1 hstep
    obtain ⟨v, hv, -⟩ := bind_eq_some_iff.1 hstep
    exact powFits_of_ipow hki hv

end descent

/-! ## All builders -/

/-- The builders of regular trees: the processes span a tree if and only if the sums of ranks and the
root fit into an `int` and so does what the builder multiplies. -/
theorem trees_span (n root : Nat) (hn : n ≤ intMax) (hroot : root < n) :
    (∀ k, 1 ≤ k → k ≤ intMax → (Spans n root (fun r => karyInit r n k root) ↔
      (n - 1) * k + 1 ≤ intMax ∧ SumsFit n root)) ∧
    (∀ k0 k1, 1 ≤ k0 → k0 ≤ intMax → 1 ≤ k1 → k1 ≤ intMax →
      (Spans n root (fun r => karyInitTopoAware r n k0 k1 root) ↔
        TopoFits n k0 k1 ∧ SumsFit n root)) ∧
    (∀ k, 2 ≤ k → k ≤ intMax → (Spans n root (fun r => knomial1Init r n k root) ↔
      PowFits k (Nat.clog k n - 1) ∧ SumsFit n root)) ∧
    ∀ k, 2 ≤ k → k ≤ intMax → (Spans n root (fun r => knomial2Init r n k root) ↔
      PowFits k (topDigit k n) ∧ SumsFit n root) :=
  ⟨fun _ hk _ => kary_spans_iff hn hroot hk,
    fun _ _ hk0 _ hk1 _ => topo_spans_iff hn hroot hk0 hk1,
    fun _ hk hki => knomial1_spans_iff hroot hk hki,
    fun _ hk hki => knomial2_spans_iff hroot hk hki⟩

theorem trees_span_eleven : Spans 11 3 (fun r => karyInit r 11 2 3) ∧
    Spans 11 3 (fun r => karyInitTopoAware r 11 1 2 3) ∧
    Spans 11 3 (fun r => knomial1Init r 11 2 3) ∧ Spans 11 3 (fun r => knomial2Init r 11 2 3) := by
  obtain ⟨h₁, h₂, h₃, h₄⟩ := trees_span 11 3 (by decide) (by decide)
  refine ⟨(h₁ 2 (by decide) (by decide)).2 ⟨by decide, by decide, by decide⟩,
    (h₂ 1 2 (by decide) (by decide) (by decide) (by decide)).2 ⟨?_, by decide, by decide⟩,
    (h₃ 2 (by decide) (by decide)).2 ⟨?_, by decide, by decide⟩,
    (h₄ 2 (by decide) (by decide)).2 ⟨?_, by decide, by decide⟩⟩
  · unfold TopoFits
    decide
  · have hclog : Nat.clog 2 11 ≤ 4 := (Nat.clog_le_iff_le_pow (by decide)).2 (by decide)
    exact powFits_of_lt (s := 2) (by decide) (by omega) (by decide)
  · have htop : topDigit 2 11 ≤ 4 := (topDigit_le_iff (by decide) (by decide)).2 (by decide)
    exact powFits_of_lt (s := 3) (by decide) (by omega) (by decide)

/-- For more than 2 to the 16 processes the k-nomial trees square 2 to the 16, which does not fit. -/
theorem knomial_overflows : knomial1Init 0 (2 ^ 16 + 1) 2 0 = none ∧
    ¬ Spans (2 ^ 16 + 1) 0 (fun r => knomial1Init r (2 ^ 16 + 1) 2 0) := by
  have hnone : knomial1Init 0 (2 ^ 16 + 1) 2 0 = none := by decide
  refine ⟨hnone, ?_⟩
  rintro ⟨t, ht, -⟩
  exact nomatch hnone.symm.trans (ht 0 (by decide)).1

end PsMpi.Coll
