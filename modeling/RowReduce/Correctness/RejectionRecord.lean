import RowReduce.Core.Infix
import RowReduce.Correctness.HostMessages
import RowReduce.Correctness.PrintedJson
import RowReduce.Correctness.Verdict
import RowReduce.Host.Streams

/-!
# Recording what the program rejects

The printed rejection holds the result prefix exactly when its message does,
since escaping keeps the letters of the prefix and adds none. It stays one line
exactly when its message has no separator, and is then read back whole.
-/

namespace RowReduce

open Fallible Infix

variable {maxDigits : Option ℕ}

/-- The printed members of a rejection, with the values they are read as. -/
def rejectionMembers (message : String) : List (String × List Char × Json) :=
  [("status", jsonString "invalid-input", .str "invalid-input"),
    ("before_device", "true".toList, .bool true), ("message", jsonString message, .str message)]

/-- The printed object up to the message. -/
def rejectionHead : List Char :=
  "\x7b\"status\":\"invalid-input\",\"before_device\":true,\"message\":\"".toList

/-- The text of a rejection around its message. -/
theorem printedObject_rejectionMembers (message : String) :
    printedObject ((rejectionMembers message).map fun p => (p.1, p.2.1)) =
      rejectionHead ++ (message.toList.flatMap jsonCharacter ++ ['"', '\x7d']) := by
  have hplain : PlainName "invalid-input" := by decide
  have hstatus : jsonString "invalid-input" = '"' :: ("invalid-input".toList ++ ['"']) := by
    rw [jsonString, hplain]
  simp only [rejectionMembers, List.map_cons, List.map_nil, printedObject, printedMembers_cons_cons,
    printedMembers_singleton, hstatus]
  simp only [jsonString, List.cons_append, List.append_assoc, List.nil_append]
  rfl

/-- The printed line of an error. -/
theorem ErrorRecord.line_eq (e : ErrorRecord) :
    e.line = errorPrefix.toList ++
      (printedObject (e.fields.map fun p => (p.1, p.2.print fun _ => "")) ++ ['\n']) := by
  refine congrArg (List.append _) ?_
  simp [printedObject, printedMembers, Function.comp_def]

/-- The printed line of a refusal. -/
theorem errorRecord_line (e : HostException) :
    (errorRecord true e).line = errorPrefix.toList ++
      (rejectionHead ++ (e.what.toList.flatMap jsonCharacter ++ ['"', '\x7d', '\n'])) := by
  have hfields : ((errorRecord true e).fields.map fun p => (p.1, p.2.print fun _ => "")) =
      (rejectionMembers e.what).map fun p => (p.1, p.2.1) := by
    simp only [ErrorRecord.fields, errorRecord, rejectionMembers, List.map_cons, List.map_nil,
      Emitted.print, if_true]
  simp only [ErrorRecord.line_eq, hfields, printedObject_rejectionMembers, List.append_assoc,
    List.cons_append, List.nil_append]

/-- A letter of the result prefix is printed as it stands. -/
theorem jsonCharacter_letter : ∀ c ∈ resultPrefix.toList, jsonCharacter c = [c] := by
  decide

/-- Nothing else prints a letter of the result prefix. -/
theorem jsonCharacter_other {c : Char} (hc : c ∉ resultPrefix.toList) :
    jsonCharacter c ≠ [] ∧ ∀ b ∈ jsonCharacter c, b ∉ resultPrefix.toList :=
  ⟨jsonCharacter_ne_nil c, forall_mem_jsonCharacter (by decide) (by decide) fun _ => hc⟩

/-- The printed form has no carriage return. -/
theorem ne_return_of_mem_jsonCharacter (c : Char) : ∀ b ∈ jsonCharacter c, b ≠ '\r' :=
  forall_mem_jsonCharacter (by decide) (by decide) fun hprinted h => by
    subst h
    exact absurd hprinted (by decide)

/-- The combined streams hold the result prefix exactly when the message does. -/
theorem resultPrefix_infix_iff (e : HostException) :
    resultPrefix.toList <:+: '\n' :: (errorRecord true e).line ↔
      resultPrefix.toList <:+: e.what.toList := by
  have hne : resultPrefix.toList ≠ [] := by decide
  have hquote : '"' ∉ resultPrefix.toList := by decide
  have hframe :
      ¬resultPrefix.toList <:+: '\n' :: (errorPrefix.toList ++ rejectionHead.dropLast) := by
    decide +kernel
  have hend : ¬resultPrefix.toList <:+: ['\x7d', '\n'] := by decide
  have hhead : rejectionHead = rejectionHead.dropLast ++ ['"'] := rfl
  have hline : '\n' :: (errorRecord true e).line =
      '\n' :: (errorPrefix.toList ++ rejectionHead.dropLast) ++
        '"' :: (e.what.toList.flatMap jsonCharacter ++ '"' :: ['\x7d', '\n']) := by
    rw [errorRecord_line, hhead]
    simp only [List.append_assoc, List.cons_append, List.nil_append, List.dropLast_concat]
  rw [hline, infix_append_cons_iff hne (fun _ h => h) hquote,
    infix_append_cons_iff hne (fun _ h => h) hquote,
    infix_flatMap_iff jsonCharacter_letter (fun _ => jsonCharacter_other) hne (fun _ h => h)]
  simp only [hframe, hend, false_or, or_false]

private theorem translateNewlines_of_forall {text : List Char} (h : ∀ c ∈ text, c ≠ '\r') :
    translateNewlines text = text := by
  induction text with
  | nil => rfl
  | cons c text ih =>
    obtain ⟨hc, htext⟩ := List.forall_mem_cons.mp h
    rw [translateNewlines.eq_3 _ _ fun _ hreturn => absurd hreturn hc, if_neg hc, ih htext]

/-- The rejection is read as it was written. -/
theorem translateNewlines_errorRecord (e : HostException) :
    translateNewlines (errorRecord true e).line = (errorRecord true e).line := by
  refine translateNewlines_of_forall ?_
  have hframe : ∀ c ∈ errorPrefix.toList ++ rejectionHead, c ≠ '\r' := by decide
  have hend : ∀ c ∈ ['"', '\x7d', '\n'], c ≠ '\r' := by decide
  have hmessage : ∀ c ∈ e.what.toList.flatMap jsonCharacter, c ≠ '\r' := by
    intro c hc
    obtain ⟨d, _, hd⟩ := List.mem_flatMap.mp hc
    exact ne_return_of_mem_jsonCharacter d c hd
  rw [errorRecord_line, ← List.append_assoc]
  exact List.forall_mem_append.mpr ⟨hframe, List.forall_mem_append.mpr ⟨hmessage, hend⟩⟩

/-- The first error line, up to its boundary. -/
theorem errorTexts_cons {text : List Char} (htext : ∀ c ∈ text, isLineBoundary c = false) {b : Char}
    (hb : isLineBoundary b = true) (hreturn : b ≠ '\r') (rest : List Char) :
    errorTexts ('\n' :: (errorPrefix.toList ++ (text ++ b :: rest))) =
      String.ofList text :: errorTexts rest := by
  have hmarker : ∀ c ∈ errorPrefix.toList, isLineBoundary c = false := by decide
  have hline : ∀ c ∈ errorPrefix.toList ++ text, isLineBoundary c = false :=
    List.forall_mem_append.mpr ⟨hmarker, htext⟩
  have hsplit : splitLines ('\n' :: (errorPrefix.toList ++ (text ++ b :: rest))) =
      [] :: (errorPrefix.toList ++ text) :: splitLines rest := by
    rw [← List.append_assoc, ← splitLines_append_cons hline hb hreturn rest]
    exact splitLines_append_cons (l := []) (by simp) (by decide) (by decide) _
  have hempty : errorPrefix.toList.isPrefixOf [] = false := by decide
  have hfound : errorPrefix.toList.isPrefixOf (errorPrefix.toList ++ text) = true :=
    List.isPrefixOf_iff_prefix.mpr (List.prefix_append _ _)
  have hdrop : (errorPrefix.toList ++ text).drop errorPrefix.length = text := by
    rw [← String.length_toList, List.drop_left]
  rw [errorTexts, hsplit, List.filter_cons_of_neg (by rw [hempty]; decide),
    List.filter_cons_of_pos hfound, List.map_cons, hdrop]
  rfl

/-- Without a separator there is one error text, the whole object. -/
theorem errorTexts_whole {e : HostException} (h : ∀ c ∈ e.what.toList, separates c = false) :
    errorTexts ('\n' :: (errorRecord true e).line) =
      [String.ofList (printedObject ((rejectionMembers e.what).map fun p => (p.1, p.2.1)))] := by
  have hhead : ∀ c ∈ rejectionHead, isLineBoundary c = false := by decide
  have hend : ∀ c ∈ ['"', '\x7d'], isLineBoundary c = false := by decide
  have htext : ∀ c ∈ printedObject ((rejectionMembers e.what).map fun p => (p.1, p.2.1)),
      isLineBoundary c = false := by
    rw [printedObject_rejectionMembers]
    exact List.forall_mem_append.mpr ⟨hhead, List.forall_mem_append.mpr
      ⟨isLineBoundary_of_mem_flatMap h, hend⟩⟩
  have hcons := errorTexts_cons htext (b := '\n') (by decide) (by decide) []
  rw [errorRecord_line]
  rw [printedObject_rejectionMembers] at hcons ⊢
  simpa [errorTexts, splitLines] using hcons

/-- A separator cuts the object inside its message. -/
theorem errorTexts_cut {e : HostException} {before after : List Char} {b : Char}
    (hwhat : e.what.toList = before ++ b :: after) (hbefore : ∀ c ∈ before, separates c = false)
    (hb : separates b = true) :
    ∃ texts, errorTexts ('\n' :: (errorRecord true e).line) =
      String.ofList (rejectionHead ++ before.flatMap jsonCharacter) :: texts := by
  have hhead : ∀ c ∈ rejectionHead, isLineBoundary c = false := by decide
  obtain ⟨hboundary, hreturn⟩ := isLineBoundary_of_separates hb
  have htext : ∀ c ∈ rejectionHead ++ before.flatMap jsonCharacter, isLineBoundary c = false :=
    List.forall_mem_append.mpr ⟨hhead, isLineBoundary_of_mem_flatMap hbefore⟩
  refine ⟨errorTexts (after.flatMap jsonCharacter ++ ['"', '\x7d', '\n']), ?_⟩
  rw [errorRecord_line, hwhat, List.flatMap_append, List.flatMap_cons, jsonCharacter_separator hb,
    ← errorTexts_cons htext hboundary hreturn]
  simp only [List.append_assoc, List.cons_append, List.nil_append]

/-- A whole rejection is decoded to its members. -/
theorem jsonLoads_whole (message : String) :
    jsonLoads maxDigits (String.ofList (printedObject ((rejectionMembers message).map fun p =>
      (p.1, p.2.1)))) = some (.dict ((rejectionMembers message).map fun p => (p.1, p.2.2))) := by
  refine jsonLoads_printedObject (List.cons_ne_nil _ _) ?_ ?_ ?_
  · simp only [rejectionMembers, List.forall_mem_cons]
    exact ⟨by decide, by decide, by decide, by simp⟩
  · simp only [rejectionMembers, List.forall_mem_cons]
    exact ⟨readsAs_jsonString _, readsAs_flag true, readsAs_jsonString _, by simp⟩
  · simp [rejectionMembers]

/-- An object that ends inside its message is malformed. -/
theorem jsonLoads_cut (text : List Char) :
    jsonLoads maxDigits (String.ofList (rejectionHead ++ text.flatMap jsonCharacter)) = none := by
  have htrue : ReadsAs maxDigits "true".toList (.bool true) := readsAs_flag true
  have hplain : PlainName "invalid-input" := by decide
  have hstatus := @readsAs_jsonString maxDigits "invalid-input"
  rw [jsonString, hplain] at hstatus
  have hmessage : ∀ n, scanMembers maxDigits (n + 2)
      ('"' :: ("message".toList ++ '"' :: ':' :: '"' :: text.flatMap jsonCharacter)) = none := by
    intro n
    refine scanMembers_malformed (by decide) ?_
    rw [skipBlanks_cons (by decide), scanOnce, scanString, scanUnits_unterminated]
    rfl
  have hsecond : ∀ n, 3 ≤ n →
      scanMembers maxDigits (n + 3) ('"' :: ("before_device".toList ++ '"' :: ':' ::
        ("true".toList ++ ',' :: '"' :: ("message".toList ++ '"' :: ':' :: '"' ::
          text.flatMap jsonCharacter)))) = none := by
    intro n hn
    have hfuel : "true".toList.length + 1 ≤ n + 2 := by simpa using hn
    refine (scanMembers_member (by decide) htrue hfuel _).2.trans ?_
    rw [skipBlanks_cons (by decide), hmessage]
    rfl
  have hfirst : ∀ n, 13 ≤ n →
      scanMembers maxDigits (n + 4) ('"' :: ("status".toList ++ '"' :: ':' ::
        ('"' :: ("invalid-input".toList ++ ['"']) ++ ',' :: '"' :: ("before_device".toList ++ '"' ::
          ':' :: ("true".toList ++ ',' :: '"' :: ("message".toList ++ '"' :: ':' :: '"' ::
            text.flatMap jsonCharacter)))))) = none := by
    intro n hn
    have hfuel : ('"' :: ("invalid-input".toList ++ ['"'])).length + 1 ≤ n + 3 := by
      simpa using hn
    refine (scanMembers_member (by decide) hstatus hfuel _).2.trans ?_
    rw [skipBlanks_cons (by decide), hsecond n (by omega)]
    rfl
  have hloads : ∀ tail, 15 ≤ tail.length →
      (∀ n, 13 ≤ n → scanMembers maxDigits (n + 4) ('"' :: tail) = none) →
      jsonLoads maxDigits (String.ofList ('\x7b' :: '"' :: tail)) = none := by
    intro tail hlen hscan
    obtain ⟨n, hn⟩ : ∃ n, tail.length = n + 2 := ⟨tail.length - 2, by omega⟩
    rw [jsonLoads_object, hn, hscan n (by omega)]
    rfl
  have hnone := hloads _ (by simp) hfirst
  exact hnone

/-- A rejection with a message is classified as passed. -/
theorem classifyHostError_members {message : String}
    (hblank : message.toList.all isPySpace = false) :
    (classifyHostError ((rejectionMembers message).map fun p => (p.1, p.2.2))).status = "pass" := by
  have hbefore : Json.get ((rejectionMembers message).map fun p => (p.1, p.2.2)) "before_device" =
      .bool true := rfl
  have hstatus : Json.get ((rejectionMembers message).map fun p => (p.1, p.2.2)) "status" =
      .str "invalid-input" := rfl
  have hmessage : Json.get ((rejectionMembers message).map fun p => (p.1, p.2.2)) "message" =
      .str message := rfl
  rw [classifyHostError, hbefore, hstatus, hmessage]
  simp [hblank]

/-- A rejection is recorded exactly when its message is recordable. -/
theorem classifyRejection_errorRecord (problem : String → String) {e : HostException}
    (hblank : e.what.toList.all isPySpace = false) :
    (classifyRejection maxDigits problem 2 false []
      (translateNewlines (errorRecord true e).line)).status = "pass" ↔ Recordable e.what := by
  rw [translateNewlines_errorRecord]
  unfold classifyRejection
  simp only [Bool.false_eq_true, if_false, List.nil_append, ne_eq, not_true_eq_false]
  by_cases hmarker : resultPrefix.toList <:+: e.what.toList
  · rw [if_pos ((resultPrefix_infix_iff e).mpr hmarker)]
    simp [Recordable, hmarker]
  · rw [if_neg (mt (resultPrefix_infix_iff e).mp hmarker)]
    by_cases hseparates : ∀ c ∈ e.what.toList, separates c = false
    · rw [errorTexts_whole hseparates]
      simp only [jsonLoads_whole, classifyHostError_members hblank, true_iff]
      exact ⟨hmarker, hseparates⟩
    · have hrecordable : ¬Recordable e.what := fun h => hseparates h.2
      simp only [not_forall, Bool.not_eq_false] at hseparates
      obtain ⟨c, hc, hcut⟩ := hseparates
      obtain ⟨b, before, after, hbefore, hb, hwhat, _⟩ := List.exists_of_eraseP hc hcut
      obtain ⟨texts, htexts⟩ := errorTexts_cut hwhat (by simpa using hbefore) hb
      rw [htexts]
      cases texts with
      | nil =>
        simp only [jsonLoads_cut]
        simp [hrecordable]
      | cons text texts => simp [hrecordable]

/-- Another exit code is never recorded as a rejection. -/
theorem classifyRejection_ne_pass (problem : String → String) {exitCode : ℤ} (hcode : exitCode ≠ 2)
    (timedOut : Bool) (stdout stderr : List Char) :
    (classifyRejection maxDigits problem exitCode timedOut stdout stderr).status ≠ "pass" := by
  unfold classifyRejection
  cases timedOut with
  | true => simp
  | false =>
    rw [if_neg (by decide)]
    dsimp only
    split_ifs <;> simp

/-- Words in front of the quoted option neither hide nor add anything. -/
theorem recordable_append_iff {start flag : String} {words : List Char}
    (hwords : start.toList = words ++ [' ']) (hstart : Recordable start) :
    Recordable (start ++ flag) ↔ Recordable flag := by
  have hne : resultPrefix.toList ≠ [] := by decide
  have hspace : ' ' ∉ resultPrefix.toList := by decide
  obtain ⟨hmarker, hseparates⟩ := hstart
  rw [hwords, infix_append_cons_iff hne (fun _ h => h) hspace, not_or] at hmarker
  have hinfix : resultPrefix.toList <:+: (start ++ flag).toList ↔
      resultPrefix.toList <:+: flag.toList := by
    rw [String.toList_append, hwords, List.append_assoc, List.singleton_append,
      infix_append_cons_iff hne (fun _ h => h) hspace]
    simp [hmarker.1]
  rw [Recordable, Recordable, hinfix, String.toList_append, List.forall_mem_append]
  exact and_congr_right fun _ => and_iff_right hseparates

/-- A refusal is recordable where the option it quotes is. -/
theorem recordable_of_quotesOption {args : List String} {e : HostException}
    (h : QuotesOption args e) : e.what.toList.all isPySpace = false ∧
      (Recordable e.what ↔ ∀ flag, rejectedFlag args = some flag → Recordable flag) := by
  rcases h with ⟨flag, hflag, hwhat⟩ | ⟨hnone, hrecordable, hblank⟩
  · have hforall : (∀ f, rejectedFlag args = some f → Recordable f) ↔ Recordable flag := by
      simp [hflag]
    rw [hforall]
    rcases hwhat with hwhat | hwhat
    · have hblank : "Unknown option ".toList.all isPySpace = false := by decide
      have hwords : "Unknown option ".toList = "Unknown option".toList ++ [' '] := by decide
      rw [hwhat, String.toList_append, List.all_append, hblank]
      exact ⟨rfl, recordable_append_iff hwords (by decide)⟩
    · have hblank : "Missing value for ".toList.all isPySpace = false := by decide
      have hwords : "Missing value for ".toList = "Missing value for".toList ++ [' '] := by decide
      rw [hwhat, String.toList_append, List.all_append, hblank]
      exact ⟨rfl, recordable_append_iff hwords (by decide)⟩
  · exact ⟨hblank, by simp [hnone, hrecordable]⟩

/-- Arguments that are not rejected before the device quote nothing unrecordable. -/
theorem recordable_of_accepted {env : HostEnv} {files : String → Option InputFile}
    {args : List String} (h : args = ["--help"] ∨ ∃ p, beforeDevice env files args = .ok p)
    (flag : String) (hflag : rejectedFlag args = some flag) : Recordable flag := by
  rcases h with rfl | ⟨p, hp⟩
  · obtain rfl : "--help" = flag := Option.some.inj hflag
    decide
  · obtain ⟨e, he⟩ := @beforeDevice_ne_ok env files args flag hflag
    rw [hp] at he
    cases he

/-- Every rejection before the device is recorded as one, and nothing else is. -/
structure RejectionsRecorded (maxDigits : Option ℕ) (problem : String → String)
    (digits : ℚ → String) (env : HostEnv) (files : String → Option InputFile)
    (args : List String) : Prop where
  rejected : (main env files args).exitCode = 2 → (main env files args).reachedDevice = false →
    (classifyRejection maxDigits problem 2 false
      (translateNewlines ((main env files args).stdout digits))
      (translateNewlines (main env files args).stderr)).status = "pass"
  other : (main env files args).reachedDevice = true ∨ (main env files args).exitCode = 0 ∨
    (main env files args).exitCode = 1 → ∀ timedOut stdout stderr,
      (classifyRejection maxDigits problem (main env files args).exitCode timedOut stdout
        stderr).status ≠ "pass"

/-- What the program rejects is recorded exactly when its message is recordable. -/
theorem rejectionsRecorded_of_error (problem : String → String) (digits : ℚ → String)
    {env : HostEnv} {files : String → Option InputFile} {args : List String} {e : HostException}
    (hmain : main env files args =
      { exitCode := 2, usage := false, records := [], errors := [errorRecord true e],
        reachedDevice := false })
    (hblank : e.what.toList.all isPySpace = false) :
    RejectionsRecorded maxDigits problem digits env files args ↔ Recordable e.what := by
  have hstdout : (main env files args).stdout digits = [] := by
    rw [hmain]
    rfl
  have hstderr : (main env files args).stderr = (errorRecord true e).line := by
    rw [hmain]
    exact List.append_nil _
  rw [← classifyRejection_errorRecord problem hblank]
  constructor
  · intro h
    have hpass := h.rejected (by rw [hmain]) (by rw [hmain])
    rwa [hstdout, hstderr] at hpass
  · intro hpass
    refine ⟨fun _ _ => ?_, ?_⟩
    · rwa [hstdout, hstderr]
    · rw [hmain]
      rintro (h | h | h) <;> simp at h

/-- Rejections are recorded exactly where the quoted option is recordable. -/
theorem rejectionsRecorded_iff (maxDigits : Option ℕ) (problem : String → String)
    (digits : ℚ → String) (env : HostEnv) (files : String → Option InputFile)
    (args : List String) : RejectionsRecorded maxDigits problem digits env files args ↔
      ∀ flag, rejectedFlag args = some flag → Recordable flag := by
  rcases main_cases env files args with ⟨e, hbefore, hmain⟩ | ⟨haccepted, hexit⟩
  · obtain ⟨hblank, hrecordable⟩ :=
      recordable_of_quotesOption (beforeDevice_quotesOption env files args e hbefore)
    rw [← hrecordable]
    exact rejectionsRecorded_of_error problem digits hmain hblank
  · have hcode : ((main env files args).exitCode : ℤ) ≠ 2 := by omega
    refine ⟨fun _ => recordable_of_accepted haccepted, fun _ => ⟨?_, ?_⟩⟩
    · intro h
      omega
    · exact fun _ timedOut stdout stderr =>
        classifyRejection_ne_pass problem hcode timedOut stdout stderr

/-- An option that holds the result prefix, and one that holds a line separator. -/
theorem not_rejectionsRecorded_quoted :
    ¬RejectionsRecorded (some 4300) (fun _ => "") (fun _ => "") idleEnv (fun _ => none)
      ["TT_ROW_REDUCE_RESULT=", "1"] ∧
    ¬RejectionsRecorded (some 4300) (fun _ => "") (fun _ => "") idleEnv (fun _ => none)
      ["--\u2028"] := by
  constructor
  · rw [rejectionsRecorded_of_error (e := .invalidArgument "Unknown option TT_ROW_REDUCE_RESULT=")
      _ _ rfl (by decide)]
    decide
  · rw [rejectionsRecorded_of_error (e := .invalidArgument "Missing value for --\u2028")
      _ _ rfl (by decide)]
    decide

end RowReduce
