import PsMpi.Pmi.ReadCmd
import PsMpi.Pmi.WireOk
import PsMpi.RankMap.Print
import PsMpi.Lib.Strtol

/-!
# Failure responses

See `mpich2/src/pmi/src/pmi_wire.c`.
-/

open List PsMpi.Lib PsMpi.RankMap

namespace PsMpi.Pmi

/-- `PMIU_cmd_find_keyval` (`pmi_wire.c:572`). -/
def findKeyval (pmicmd : Cmd) (key : Text) : Option Text :=
  (pmicmd.tokens.find? fun t => t.key = some key).bind Token.val

/-- `PMIU_cmd_add_str` (:486). -/
def addStr (pmicmd : Cmd) (key : Text) : Option Text → Except Fail Cmd
  | some v => addToken pmicmd (some key) (some v)
  | none => .ok pmicmd

/-- `PMIU_msg_set_response_fail` (:1052). -/
def errorKey : WireVersion → Text
  | .v1 => "msg".toList
  | .v2 => "errmsg".toList

/-- Line 1036. -/
def setResponseFail (version : WireVersion) (response : Text) (query : Cmd) (rc : Int)
    (errorMessage : Option Text) : Except Fail (Cmd × Cmd) := do
  let resp ← addStr ⟨some response, []⟩ "thrid".toList
    (if version = .v2 then findKeyval query "thrid".toList else none)
  let resp ← addToken resp (some "rc".toList) (some (intText rc))
  let query ← addStr query (errorKey version) errorMessage
  return (query, resp)

/-- `PMIU_cmd_get_response` (:955). -/
def getResponse (expectedCmd : Text) (recvbuf : Text) : Except Fail Cmd := do
  let pmicmd ← cmdParse recvbuf (if "cmd=".toList <+: recvbuf then .v1 else .v2)
  if pmicmd.cmd ≠ some expectedCmd then .error (.error "expecting cmd=")
  else if ((findKeyval pmicmd "rc".toList).map atoi).getD 0 ≠ 0 then
    .error (.error "server responded with rc=")
  else return pmicmd

/-- The query is as it was, and the client fails with the return code, the message and the `thrid`
of the query. -/
def FailsClient (version : WireVersion) (response : Text) (query : Cmd) (rc : Int)
    (errorMessage : Option Text) : Prop :=
  ∃ resp buf c, setResponseFail version response query rc errorMessage = .ok (query, resp) ∧
    output resp version = some buf ∧ cmdParse buf version = .ok c ∧
    (∃ f, getResponse response buf = .error f) ∧
    (findKeyval c "rc".toList).map atoi = some rc ∧
    (∀ m, errorMessage = some m → findKeyval c (errorKey version) = some m) ∧
    (version = .v2 → findKeyval c "thrid".toList = findKeyval query "thrid".toList)

section

variable {version : WireVersion} {response key v p rest : Text} {query c c' : Cmd} {rc : Int}

/-! ## Return codes -/

theorem ofDigits_toDigits (n : Nat) : ofDigits (Nat.toDigits 10 n) = n := by
  have h : ofDigits (Nat.toDigits 10 n) = Nat.ofDigitChars 10 (Nat.toDigits 10 n) 0 := by
    simp only [ofDigits, Nat.ofDigitChars, Nat.mul_comm]
  rw [h, Nat.ofDigitChars_toDigits (by decide) (by decide)]

theorem atoi_intText (n : Int) : atoi (intText n) = n := by
  have hdigit : ∀ c ∈ Nat.toDigits 10 n.natAbs, c.isDigit = true := fun c hc =>
    Nat.isDigit_of_mem_toDigits (by decide) (by decide) hc
  have htake := ofDigits_toDigits n.natAbs
  rw [← takeWhile_eq_self_iff.2 hdigit] at htake
  unfold intText
  split
  · show -(ofDigits ((Nat.toDigits 10 n.natAbs).takeWhile Char.isDigit) : Int) = n
    omega
  · obtain ⟨c, w, hw⟩ := exists_cons_of_ne_nil (Nat.toDigits_ne_nil (n := n.natAbs) (b := 10))
    obtain ⟨-, hspace, hminus, hplus, -⟩ := isDigit_cases (hdigit c (hw ▸ mem_cons_self))
    have hdrop : (c :: w).dropWhile isspace = c :: w := dropWhile_cons_of_neg (by simp [hspace])
    rw [hw] at htake ⊢
    unfold atoi
    rw [hdrop]
    split
    · rename_i h
      exact absurd (cons.inj h).1 hminus
    · rename_i h
      exact absurd (cons.inj h).1 hplus
    · omega

theorem isPlain_intText (n : Int) : IsPlain (intText n) ∧ ';' ∉ intText n := by
  have hne : intText n ≠ [] := by
    unfold intText
    split
    · exact cons_ne_nil _ _
    · exact Nat.toDigits_ne_nil
  have hmem : ∀ c ∈ intText n, c = '-' ∨ c.isDigit = true := by
    intro c hc
    unfold intText at hc
    split at hc
    · exact (mem_cons.1 hc).imp_right (Nat.isDigit_of_mem_toDigits (by decide) (by decide))
    · exact .inr (Nat.isDigit_of_mem_toDigits (by decide) (by decide) hc)
  have hnot : ∀ d : Char, d ≠ '-' → d.isDigit = false → d ∉ intText n := fun d hd hdig hd' =>
    (hmem d hd').elim hd fun h => Bool.noConfusion (hdig.symm.trans h)
  exact ⟨⟨hne, hnot _ (by decide) rfl, hnot _ (by decide) rfl, hnot _ (by decide) rfl⟩,
    hnot _ (by decide) rfl⟩

/-! ## Values of the second version -/

def Cmd.Semi (c : Cmd) : Prop := ∀ t ∈ c.tokens, ∀ v, t.val = some v → v ≠ [] ∧ ';' ∉ v

theorem Cmd.Semi.addEntry2 {val : Option Text} (h : c.Semi)
    (hval : ∀ v, val = some v → v ≠ [] ∧ ';' ∉ v) (hadd : addEntry2 c key val = .ok c') :
    c'.Semi := by
  intro t ht v hv
  obtain ⟨htokens, -⟩ := addEntry2_ok (e := (key, val)) hadd
  rw [htokens, mem_append] at ht
  rcases ht with ht | ht
  · exact h t ht v hv
  · unfold tokens2 at ht
    split at ht
    · cases ht
    · split at ht <;> simp only [mem_cons, not_mem_nil, or_false, tokenOf] at ht
      · rcases ht with rfl | rfl
        · cases hv
        · exact hval v hv
      · subst ht
        exact hval v hv

theorem parseEntry_semi_val {val : Option Text} (h : parseEntry format2 p = .ok (key, val, rest)) :
    ∀ v, val = some v → v ≠ [] ∧ ';' ∉ v := by
  unfold parseEntry at h
  cases hkey : parseKey p with
  | error f => rw [hkey] at h; cases h
  | ok r =>
    rw [hkey] at h
    simp only [bind, Except.bind] at h
    split at h
    · rename_i q hq
      split at h
      · cases h
      · rename_i hnonval
        cases h
        rintro _ ⟨⟩
        refine ⟨fun hnil => hnonval ?_, fun hmem => ?_⟩
        · show isNonval2 q = true
          have hnil : q.takeWhile (· != ';') = [] := hnil
          cases q with
          | nil => rfl
          | cons d q => simpa [isNonval2, takeWhile_cons] using hnil
        · exact absurd (mem_takeWhile_imp hmem) (by decide)
    · cases h
      exact fun _ hv => by cases hv

theorem parseLoop_semi {todo : Nat} (h : parseLoop format2 todo p c = .ok c') (hc : c.Semi) :
    c'.Semi := by
  induction todo generalizing p c with
  | zero => cases h; exact hc
  | succ todo ih =>
    rw [parseLoop] at h
    split at h
    · cases h
      exact hc
    · cases hentry : parseEntry format2 (format2.skipFirst p) with
      | error f => rw [hentry] at h; cases h
      | ok r =>
        rw [hentry] at h
        cases hadd : format2.add c r.1 r.2.1 with
        | error f => simp only [bind, Except.bind, hadd] at h; cases h
        | ok c₁ =>
          simp only [bind, Except.bind, hadd] at h
          have hsemi := hc.addEntry2 (parseEntry_semi_val hentry) hadd
          exact ih h hsemi

/-! ## Responses -/

theorem findKeyval_semi (h : c.Semi) (hv : findKeyval c key = some v) : v ≠ [] ∧ ';' ∉ v := by
  obtain ⟨t, ht, hv⟩ := Option.bind_eq_some_iff.1 hv
  exact h t (mem_of_find?_eq_some ht) v hv

theorem cmdParse_semi (h : cmdParse p .v2 = .ok c) : c.Semi := by
  unfold cmdParse parseV2 at h
  simp only at h
  split at h
  · exact parseLoop_semi h nofun
  · cases h

def failEntries (thrid : Option Text) (rc : Int) : List Entry :=
  thrid.toList.map (fun t => ("thrid".toList, some t)) ++ [("rc".toList, some (intText rc))]

theorem setResponseFail_none : setResponseFail version response query rc none = .ok (query,
    cmdOf response
      (failEntries (if version = .v2 then findKeyval query "thrid".toList else none) rc)) := by
  unfold setResponseFail
  cases (if version = .v2 then findKeyval query "thrid".toList else none) <;> rfl

theorem failEntries_word (rc : Int) (thrid : Option Text) : ∀ e ∈ failEntries thrid rc,
    IsWord e.1 ∧ e.1 ≠ "cmd".toList ∧ e.1 ≠ "subcmd".toList := by
  have hthrid : IsWord "thrid".toList ∧ "thrid".toList ≠ "cmd".toList ∧
      "thrid".toList ≠ "subcmd".toList := by decide
  have hrc : IsWord "rc".toList ∧ "rc".toList ≠ "cmd".toList ∧ "rc".toList ≠ "subcmd".toList := by
    decide
  intro e he
  rcases mem_append.1 he with he | he
  · obtain ⟨t, -, rfl⟩ := mem_map.1 he
    exact hthrid
  · rw [mem_singleton.1 he]
    exact hrc

theorem failEntries_length (thrid : Option Text) : (failEntries thrid rc).length < maxPmiArgs := by
  cases thrid with
  | none => exact (by decide : 1 < maxPmiArgs)
  | some t => exact (by decide : 2 < maxPmiArgs)

theorem roundTrip_failEntries (rc : Int) (hresponse : IsPlain response) (hsemi : ';' ∉ response)
    {thrid : Option Text} (hv1 : version = .v1 → thrid = none)
    (hthrid : ∀ t, thrid = some t → t ≠ [] ∧ ';' ∉ t) :
    RoundTrip version response (failEntries thrid rc) := by
  have hword := failEntries_word rc thrid
  have hlen : 0 + (failEntries thrid rc).length < maxPmiArgs :=
    (Nat.zero_add _).symm ▸ failEntries_length thrid
  have hrc := isPlain_intText rc
  cases version with
  | v1 =>
    obtain rfl := hv1 rfl
    refine ⟨_, outputV1_eq, (cmdParse_line1 hresponse (fun e he => (hword e he).1) ?_).trans
      (foldlM_plain (fun c e he => if_neg (hword e he).2.1) hlen)⟩
    intro e he v hv
    rw [mem_singleton.1 he] at hv
    cases hv
    exact hrc.1
  | v2 =>
    refine ⟨_, outputV2_eq, (cmdParse_line2 hresponse.1 hsemi (fun e he => (hword e he).1) ?_
      _).trans (foldlM_plain (fun c e he => ?_) hlen)⟩
    · intro e he
      rcases mem_append.1 he with he | he
      · obtain ⟨t, ht, rfl⟩ := mem_map.1 he
        exact ⟨t, rfl, hthrid t (Option.mem_toList.1 ht)⟩
      · rw [mem_singleton.1 he]
        exact ⟨_, rfl, hrc.1.1, hrc.2⟩
    · rw [addEntry2, if_neg (hword e he).2.1, if_neg (hword e he).2.2]

theorem findKeyval_failEntries (thrid : Option Text) :
    findKeyval (cmdOf response (failEntries thrid rc)) "rc".toList = some (intText rc) ∧
      findKeyval (cmdOf response (failEntries thrid rc)) "thrid".toList = thrid := by
  cases thrid <;> exact ⟨rfl, rfl⟩

theorem lengthField_not_cmd (n : Nat) (l : Text) : ¬ "cmd=".toList <+: lengthField n ++ l := by
  rintro ⟨t, h⟩
  obtain ⟨d, w, hw⟩ := exists_cons_of_length_eq_add_one (length_lengthField n)
  rw [hw] at h
  obtain rfl : 'c' = d := (cons.inj h).1
  have hmem : 'c' ∈ lengthField n := hw ▸ mem_cons_self
  rcases mem_append.1 (mem_of_mem_take hmem) with hc | hc
  · exact absurd (eq_of_mem_replicate hc) (by decide)
  · exact absurd (Nat.isDigit_of_mem_toDigits (by decide) (by decide) hc) (by decide)

theorem getResponse_fails (hrc : rc ≠ 0) {thrid : Option Text} {buf : Text}
    (hbuf : output (cmdOf response (failEntries thrid rc)) version = some buf)
    (hparse : cmdParse buf version = .ok (cmdOf response (failEntries thrid rc))) :
    ∃ f, getResponse response buf = .error f := by
  have hversion : (if "cmd=".toList <+: buf then WireVersion.v1 else .v2) = version := by
    cases version with
    | v1 =>
      cases outputV1_eq.symm.trans hbuf
      rw [line1_eq, append_assoc]
      exact if_pos ⟨response ++ _, (append_assoc _ _ _).symm⟩
    | v2 =>
      cases outputV2_eq.symm.trans hbuf
      exact if_neg (lengthField_not_cmd _ _)
  unfold getResponse
  rw [hversion, hparse]
  simp only [bind, Except.bind, (findKeyval_failEntries thrid).1, Option.map_some,
    Option.getD_some, atoi_intText]
  rw [if_neg (by exact not_not.2 rfl), if_pos hrc]
  exact ⟨_, rfl⟩

/-- The response to a query that the server has read is as it should be if and only if there is no
message. -/
theorem response_fail_iff (hresponse : IsPlain response) (hsemi : ';' ∉ response)
    (hquery : ∃ buf, cmdParse buf version = .ok query) (hrc : rc ≠ 0) (errorMessage : Option Text) :
    FailsClient version response query rc errorMessage ↔ errorMessage = none := by
  constructor
  · rintro ⟨resp, -, -, h, -⟩
    cases errorMessage with
    | none => rfl
    | some m =>
      unfold setResponseFail at h
      simp only [bind, Except.bind] at h
      split at h
      · cases h
      · split at h
        · cases h
        · cases hadd : addStr query (errorKey version) (some m) with
          | error f => rw [hadd] at h; cases h
          | ok q =>
            rw [hadd] at h
            cases h
            have := (addToken_ok hadd).1
            exact absurd (self_eq_append_right.1 this) (cons_ne_nil _ _)
  · rintro rfl
    let thrid := if version = .v2 then findKeyval query "thrid".toList else none
    have hthrid : ∀ t, thrid = some t → t ≠ [] ∧ ';' ∉ t := by
      intro t ht
      obtain ⟨hv2, ht⟩ := Option.ite_none_right_eq_some.1 ht
      subst hv2
      obtain ⟨buf, hbuf⟩ := hquery
      exact findKeyval_semi (cmdParse_semi hbuf) ht
    obtain ⟨buf, hbuf, hparse⟩ := roundTrip_failEntries rc hresponse hsemi
      (fun h => if_neg (by rw [h]; decide) : version = .v1 → thrid = none) hthrid
    refine ⟨_, buf, _, setResponseFail_none, hbuf, hparse, getResponse_fails hrc hbuf hparse, ?_,
      nofun, fun hv2 => ?_⟩
    · rw [(findKeyval_failEntries thrid).1, Option.map_some, atoi_intText]
    · exact (findKeyval_failEntries thrid).2.trans (if_pos hv2)

theorem response_fail_iff_get : FailsClient .v1 "get_result".toList
    ⟨some "get".toList, [⟨some "key".toList, some "k".toList⟩]⟩ (-1) none :=
  (response_fail_iff ⟨by decide, by decide, by decide, by decide⟩ (by decide)
    ⟨"cmd=get key=k\n".toList, by decide⟩ (by decide) none).2 rfl

theorem response_fail_message : ¬ FailsClient .v1 "get_result".toList
    ⟨some "get".toList, [⟨some "key".toList, some "k".toList⟩]⟩ (-1) (some "failed".toList) := by
  rintro ⟨resp, -, -, h, -⟩
  cases h

end

end PsMpi.Pmi
