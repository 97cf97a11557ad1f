import RowReduce.Correctness.Acceptance
import RowReduce.Correctness.Recording
import RowReduce.Correctness.RejectionRecord
import RowReduce.Runner.RejectionRun

/-!
# The evidence of a rejection run

A summary that reads as complete was written last, over the logs of processes that
all named one structured rejection; on the project's own host every run completes.
-/

namespace RowReduce

open Fallible Hexadecimal Journal

/-- Both logs name one rejection before the device, with its reason, and no result. -/
structure StructuredRejection (maxDigits : Option ℕ) (stdout stderr : List Char) (text : String)
    (fields : List (String × Json)) (message : String) : Prop where
  noResult : ¬resultPrefix.toList <:+: stdout ++ '\n' :: stderr
  single : errorTexts (stdout ++ '\n' :: stderr) = [text]
  decoded : jsonLoads maxDigits text = some (.dict fields)
  beforeDevice : Json.get fields "before_device" = .bool true
  status : Json.get fields "status" = .str "invalid-input"
  reason : Json.get fields "message" = .str message
  notBlank : message.toList.all isPySpace = false

/-- What an error record needs to be classified as passed. -/
theorem classifyHostError_pass_iff {fields : List (String × Json)} :
    (classifyHostError fields).status = "pass" ↔
      Json.get fields "before_device" = .bool true ∧
      Json.get fields "status" = .str "invalid-input" ∧
      ∃ message, Json.get fields "message" = .str message ∧
        message.toList.all isPySpace = false := by
  rw [← Json.isBool_eq_true_iff, ← Json.eqStr_eq_true_iff]
  unfold classifyHostError
  cases (Json.get fields "before_device").isBool true with
  | false => simp
  | true =>
    cases (Json.get fields "status").eqStr "invalid-input" with
    | false => simp
    | true =>
      simp only [Bool.true_eq_false, or_self, if_false, true_and]
      split
      · rename_i message hmessage
        simp only [hmessage, Json.str.injEq, exists_eq_left']
        cases message.toList.all isPySpace <;> simp
      · rename_i hother
        refine iff_of_false (by simp) ?_
        rintro ⟨message, hmessage, _⟩
        exact hother message hmessage

/-- A process passes exactly with exit code two and one structured rejection. -/
theorem classifyRejection_pass_iff {maxDigits : Option ℕ} {problem : String → String}
    {exitCode : ℤ} {timedOut : Bool}
    {stdout stderr : List Char} :
    (classifyRejection maxDigits problem exitCode timedOut stdout stderr).status = "pass" ↔
      exitCode = 2 ∧ timedOut = false ∧
        ∃ text fields message,
          StructuredRejection maxDigits stdout stderr text fields message := by
  by_cases hcode : exitCode = 2
  swap
  · exact iff_of_false (classifyRejection_ne_pass problem hcode timedOut stdout stderr)
      fun h => hcode h.1
  subst hcode
  unfold classifyRejection
  cases timedOut with
  | true => simp
  | false =>
    simp only [Bool.false_eq_true, if_false, ne_eq, not_true_eq_false, true_and]
    by_cases hresult : resultPrefix.toList <:+: stdout ++ '\n' :: stderr
    · rw [if_pos hresult]
      refine iff_of_false (by simp) ?_
      rintro ⟨_, _, _, h⟩
      exact h.noResult hresult
    rw [if_neg hresult]
    split
    · rename_i text htext
      split
      · rename_i hmalformed
        refine iff_of_false (by simp) ?_
        rintro ⟨other, _, _, h⟩
        obtain rfl : other = text := List.singleton_injective (h.single.symm.trans htext)
        exact absurd (hmalformed.symm.trans h.decoded) (by simp)
      · rename_i fields hfields
        rw [classifyHostError_pass_iff]
        constructor
        · rintro ⟨hbefore, hstatus, message, hmessage, hblank⟩
          exact ⟨text, fields, message, hresult, htext, hfields, hbefore, hstatus, hmessage, hblank⟩
        · rintro ⟨other, members, message, h⟩
          obtain rfl : other = text := List.singleton_injective (h.single.symm.trans htext)
          obtain rfl := Json.dict.inj (Option.some.inj (hfields.symm.trans h.decoded))
          exact ⟨h.beforeDevice, h.status, message, h.reason, h.notBlank⟩
      · rename_i value hother hvalue
        refine iff_of_false (by simp) ?_
        rintro ⟨other, members, _, h⟩
        obtain rfl : other = text := List.singleton_injective (h.single.symm.trans htext)
        exact hother members (Option.some.inj (hvalue.symm.trans h.decoded))
    · rename_i hmany
      refine iff_of_false (by simp) ?_
      rintro ⟨text, _, _, h⟩
      exact hmany text h.single

section Files

variable {case other : RejectionCase} {name : String} {w : RejectionWorld} {d : Disk}

private theorem rejectionCases_nodup (n : ℕ) :
    ((rejectionCases n).map RejectionCase.caseId).Nodup := by
  have hids : (rejectionCases n).map RejectionCase.caseId =
      (rejectionCases 0).map RejectionCase.caseId := rfl
  rw [hids]
  decide

/-- The name of a fixture, character by character. -/
theorem RejectionCase.fixture_toList (case : RejectionCase) :
    case.fixture.toList = "inputs/".toList ++ (case.caseId.toList ++ ".txt".toList) := by
  rw [fixture, String.toList_append, String.toList_append, List.append_assoc]

/-- A fixture has no name outside its directory. -/
theorem RejectionCase.fixture_ne (h : ¬"inputs/".toList <+: name.toList) : case.fixture ≠ name := by
  rintro rfl
  exact h ⟨_, case.fixture_toList.symm⟩

/-- Different cases have different fixtures. -/
theorem RejectionCase.fixture_inj (h : case.fixture = other.fixture) :
    case.caseId = other.caseId := by
  have htext := congrArg String.toList h
  rw [case.fixture_toList, other.fixture_toList, List.append_cancel_left_eq,
    List.append_cancel_right_eq] at htext
  exact String.ext htext

private theorem fixture_ne_logName (case : RejectionCase) (caseId : String) (channel : Channel) :
    case.fixture ≠ logName caseId channel := by
  refine RejectionCase.fixture_ne ?_
  rw [logName_toList]
  simp

/-- A case writes its input file and its logs. -/
theorem avoids_rejectionWrites (hfixture : case.fixture ≠ name)
    (hlogs : ∀ channel, logName case.caseId channel ≠ name) :
    Avoids name (rejectionWrites w case) := by
  refine avoids_append_iff.mpr ⟨?_, Child.avoids_writes hlogs⟩
  cases case.inputText with
  | none => exact fun e he => absurd he List.not_mem_nil
  | some text => exact avoids_writeText hfixture _

/-- The files outside the directories of the cases. -/
theorem avoids_rejectionWrites_of_notPrefix (hinputs : ¬"inputs/".toList <+: name.toList)
    (hraw : ¬"raw/".toList <+: name.toList) : ∀ case ∈ rejectionCases w.pointerBytes,
      Avoids name (rejectionWrites w case) := fun case _ =>
  avoids_rejectionWrites (RejectionCase.fixture_ne hinputs) (logName_ne hraw case.caseId)

/-- A fixture keeps its text. -/
theorem lookup_fixture {text : String} (h : case.inputText = some text) {before after : List Write}
    (hafter : Avoids case.fixture after) :
    (Journal.run d (before ++ (rejectionWrites w case ++ after))).lookup case.fixture =
      some (asciiBytes text.toList) := by
  rw [rejectionWrites, h, List.append_assoc]
  exact lookup_run_writeText (avoids_append_iff.mpr ⟨Child.avoids_writes fun channel =>
    (fixture_ne_logName case case.caseId channel).symm, hafter⟩) _

/-- A log keeps what the process wrote. -/
theorem lookup_rejectionLog {exit : ProcessExit} {writes : List (Channel × Byte)}
    (h : w.child case = .ended exit writes) (channel : Channel) {before after : List Write}
    (hafter : Avoids (logName case.caseId channel) after) :
    (Journal.run d (before ++ (rejectionWrites w case ++ after))).lookup
      (logName case.caseId channel) = some (written channel writes) := by
  rw [rejectionWrites, h, List.append_assoc, ← List.append_assoc before]
  exact lookup_log channel hafter

end Files

section Loop

variable {w : RejectionWorld} {identity : Json} {d : Disk} {case : RejectionCase}
  {before after : List Write} {records : List Classification}

/-- A line is written for the classification of its process. -/
theorem rejectionLine_eq_ok {entry : Classification × List Byte}
    (h : rejectionLine w identity case = .ok entry) : entry.1 = w.classify (w.child case) := by
  unfold rejectionLine at h
  obtain ⟨line, _, h⟩ := bind_eq_ok_iff.mp h
  rw [← Except.ok.inj h]

/-- Distinct cases write distinct files. -/
theorem avoids_otherWrites {other : RejectionCase} (hcase : case ∈ rejectionCases w.pointerBytes)
    (hother : other ∈ rejectionCases w.pointerBytes) (hne : other ≠ case) :
    Avoids case.fixture (rejectionWrites w other) ∧
      ∀ channel, Avoids (logName case.caseId channel) (rejectionWrites w other) := by
  have hids : other.caseId ≠ case.caseId := fun heq =>
    hne (List.inj_on_of_nodup_map (rejectionCases_nodup _) hother hcase heq)
  refine ⟨avoids_rejectionWrites (fun heq => hids (RejectionCase.fixture_inj heq)) fun last =>
      (fixture_ne_logName case other.caseId last).symm, fun channel => ?_⟩
  exact avoids_rejectionWrites (fixture_ne_logName other case.caseId channel) fun last heq =>
    hids (logName_inj heq).1

/-- After a completed loop the input files hold what was given. -/
theorem lookup_fixture_runRejections (h : (runRejections w identity).2 = .ok records)
    (hcase : case ∈ rejectionCases w.pointerBytes) {text : String}
    (htext : case.inputText = some text) (hafter : Avoids case.fixture after) :
    (Journal.run d (before ++ ((runRejections w identity).1 ++ after))).lookup case.fixture =
      some (asciiBytes text.toList) :=
  lookup_recordLines (List.Nodup.of_map _ (rejectionCases_nodup _)) h hcase
    (RejectionCase.fixture_ne (by decide)).symm
    (fun _ hother hne => (avoids_otherWrites hcase hother hne).1)
    (fun _ _ hlater => lookup_fixture htext hlater) hafter

/-- After a completed loop the logs of a process that ended hold what it wrote. -/
theorem lookup_log_runRejections (h : (runRejections w identity).2 = .ok records)
    (hcase : case ∈ rejectionCases w.pointerBytes) {exit : ProcessExit}
    {writes : List (Channel × Byte)} (hended : w.child case = .ended exit writes)
    (channel : Channel) (hafter : Avoids (logName case.caseId channel) after) :
    (Journal.run d (before ++ ((runRejections w identity).1 ++ after))).lookup
      (logName case.caseId channel) = some (written channel writes) :=
  lookup_recordLines (List.Nodup.of_map _ (rejectionCases_nodup _)) h hcase
    (logName_ne (by decide) case.caseId channel).symm
    (fun _ hother hne => (avoids_otherWrites hcase hother hne).2 channel)
    (fun _ _ hlater => lookup_rejectionLog hended channel hlater) hafter

/-- Only a process that ended with one structured rejection is recorded as passed. -/
theorem exists_structuredRejection {child : Child} (h : (w.classify child).status = "pass") :
    ∃ elapsed writes, child = .ended ⟨2, false, elapsed⟩ writes ∧ ∃ text fields message,
      StructuredRejection w.maxDigits (w.readLog (written .stdout writes))
        (w.readLog (written .stderr writes))
        text fields message := by
  cases child with
  | unopened stdout error => exact absurd h (by simp [RejectionWorld.classify])
  | notStarted error => exact absurd h (by simp [RejectionWorld.classify])
  | ended exit writes =>
    obtain ⟨hcode, htimeout, hrejection⟩ := classifyRejection_pass_iff.mp h
    obtain ⟨code, timedOut, elapsed⟩ := exit
    obtain rfl : code = 2 := hcode
    obtain rfl : timedOut = false := htimeout
    exact ⟨elapsed, writes, rfl, hrejection⟩

end Loop

/-- The evidence of one case: the process rejected its command, and its files hold that. -/
structure RejectedCase (w : RejectionWorld) (identity : Json) (d : Disk) (case : RejectionCase)
    (entry : Classification × List Byte) : Prop where
  line : rejectionLine w identity case = .ok entry
  input : ∀ text, case.inputText = some text →
    d.lookup case.fixture = some (asciiBytes text.toList)
  logs : ∃ elapsed writes out err text fields message,
    w.child case = .ended ⟨2, false, elapsed⟩ writes ∧
    d.lookup (logName case.caseId .stdout) = some out ∧
    d.lookup (logName case.caseId .stderr) = some err ∧
    StructuredRejection w.maxDigits (w.readLog out) (w.readLog err) text fields message

/-- The evidence of a run whose summary reads as complete. -/
structure RejectionEvidence (args : RejectionArguments) (w : RejectionWorld) (source : SourceView)
    (raw : List Byte) (entries : List (Classification × List Byte)) (d : Disk) : Prop where
  binary : w.binary.bytes = .ok raw
  environment : d.lookup "environment.json" = some (indentedBytes w.repr (rejectionEnvironment args
    w source [("preflight_status", .str "pass"), ("binary_sha256", .str (w.sha256 raw))]))
  lines : d.lookup "rejections.jsonl" = some (entries.flatMap Prod.snd)
  cases : List.Forall₂ (RejectedCase w (rejectionIdentity w source (w.sha256 raw)) d)
    (rejectionCases w.pointerBytes) entries
  unchanged : ∃ final rawAfter, w.sourceAfter = .ok final ∧ w.binaryAfter = .ok rawAfter ∧
    w.sha256 rawAfter = w.sha256 raw ∧
    ((∀ p, p ∈ final.tree.selected ↔ p ∈ source.tree.selected) ∨
      SourceTree.Collide w.sha256 final.tree source.tree)

/-- A run of the program, interrupted after some of its writes. -/
structure RejectionLaunch where
  args : RejectionArguments
  world : RejectionWorld
  cut : ℕ

def RejectionLaunch.attempt (l : RejectionLaunch) : Attempt String Byte :=
  ⟨fun d => (rejectionMain l.args l.world d).1, l.cut⟩

section Runs

variable {args : RejectionArguments} {w : RejectionWorld} {d : Disk} {source : SourceView}
  {raw : List Byte}

/-- A run that writes made the results directory. -/
theorem rejectionMain_cases (args : RejectionArguments) (w : RejectionWorld) (d : Disk) :
    (rejectionMain args w d).1 = [] ∨ d.lookup "." = none ∧
      ((rejectionMain args w d).1 = rejectionDirectories ∨ ∃ source, w.sourceBefore = .ok source ∧
        rejectionMain args w d = (rejectionDirectories ++ (recordRejections args w source).1,
          (recordRejections args w source).2)) := by
  unfold rejectionMain
  split
  · exact Or.inl rfl
  split
  · exact Or.inl rfl
  · rename_i habsent
    rw [Option.not_isSome_iff_eq_none] at habsent
    refine Or.inr ⟨habsent, ?_⟩
    split
    · exact Or.inl rfl
    · rename_i source hsource
      exact Or.inr ⟨source, hsource, rfl⟩

/-- However often the program is started and interrupted, the directory holds what one run wrote. -/
theorem session_rejections (launches : List RejectionLaunch) (d : Disk) :
    session d (launches.map RejectionLaunch.attempt) = d ∨ ∃ l ∈ launches,
      session d (launches.map RejectionLaunch.attempt) =
        Journal.run d ((rejectionMain l.args l.world d).1.take l.cut) := by
  have hsingle := @session_single String Byte _
    (fun d => (d.lookup ".").isSome = true) (launches.map RejectionLaunch.attempt)
    (by
      intro a ha d hd
      obtain ⟨l, _, rfl⟩ := List.mem_map.mp ha
      refine (rejectionMain_cases l.args l.world d).resolve_right fun h => ?_
      rw [h.1] at hd
      cases hd)
    (by
      intro a ha d e rest hprogram effects _
      obtain ⟨l, _, rfl⟩ := List.mem_map.mp ha
      have hmade : (e = .create "." : Prop) := by
        have hcons : (rejectionMain l.args l.world d).1 = e :: rest := hprogram
        rcases rejectionMain_cases l.args l.world d with h | ⟨_, h | ⟨source, _, h⟩⟩
        · exact absurd (h.symm.trans hcons) (by simp)
        · exact (List.cons.inj (h.symm.trans hcons)).1.symm
        · rw [h] at hcons
          exact (List.cons.inj hcons).1.symm
      rw [hmade]
      refine lookup_run_isSome ?_ effects
      rw [lookup_create_self]
      rfl) d
  rcases hsingle with h | ⟨a, ha, _, h⟩
  · exact Or.inl h
  · obtain ⟨l, hl, rfl⟩ := List.mem_map.mp ha
    exact Or.inr ⟨l, hl, h⟩

/-- The loop only appends to its lines. -/
theorem untouched_runRejections (w : RejectionWorld) (identity : Json) :
    Untouched "rejections.jsonl" (runRejections w identity).1 :=
  untouched_recordLines (avoids_rejectionWrites_of_notPrefix (by decide) (by decide))

/-- It touches nothing else but fixtures and logs. -/
theorem avoids_runRejections {name : String} (hinputs : ¬"inputs/".toList <+: name.toList)
    (hraw : ¬"raw/".toList <+: name.toList) (hlines : "rejections.jsonl" ≠ name)
    (w : RejectionWorld) (identity : Json) : Avoids name (runRejections w identity).1 :=
  avoids_recordLines hlines (avoids_rejectionWrites_of_notPrefix hinputs hraw)

/-- Nothing before the summary is written to it. -/
theorem avoids_rejectionEvidenceWrites (args : RejectionArguments) (w : RejectionWorld)
    (source : SourceView) (binarySha256 : String) : Avoids "summary.json"
      (rejectionDirectories ++ rejectionEvidenceWrites args w source binarySha256) :=
  avoids_append_iff.mpr ⟨by simp [rejectionDirectories, Avoids, Effect.name],
    avoids_append_iff.mpr ⟨avoids_writeText (by decide) _, List.forall_mem_cons.mpr
      ⟨by simp [Effect.name], avoids_runRejections (by decide) (by decide) (by decide) _ _⟩⟩⟩

/-- After a passed preflight an exception ends the run without a summary, or the summary is
written last. -/
theorem finishRejections_cases (args : RejectionArguments) (w : RejectionWorld)
    (source : SourceView) (binarySha256 : String) :
    (∃ e, finishRejections args w source binarySha256 =
      (rejectionEvidenceWrites args w source binarySha256, .raised e)) ∨
      ∃ records unchanged,
        (runRejections w (rejectionIdentity w source binarySha256)).2 = .ok records ∧
        unchangedSince w.sha256 source binarySha256 w.sourceAfter w.binaryAfter = .ok unchanged ∧
        finishRejections args w source binarySha256 =
          (rejectionEvidenceWrites args w source binarySha256 ++ writeText "summary.json"
            (indentedBytes w.repr (rejectionSummary w (rejectionIdentity w source binarySha256)
              records unchanged)), .code (if allRejected records unchanged then 0 else 1)) := by
  unfold finishRejections
  dsimp only
  split
  · exact Or.inl ⟨_, rfl⟩
  · rename_i records hrecords
    split
    · exact Or.inl ⟨_, rfl⟩
    · rename_i unchanged hunchanged
      exact Or.inr ⟨records, unchanged, hrecords, hunchanged, rfl⟩

/-- What a finished run leaves beside its summary. -/
theorem rejectionEvidence_of_finished {records : List Classification}
    (hbinary : w.binary.bytes = .ok raw)
    (hrecords : (runRejections w (rejectionIdentity w source (w.sha256 raw))).2 = .ok records)
    (hunchanged : unchangedSince w.sha256 source (w.sha256 raw) w.sourceAfter w.binaryAfter =
      .ok true) (hpass : ∀ record ∈ records, record.status = "pass") (content : List Byte) :
    ∃ entries, RejectionEvidence args w source raw entries (Journal.run d
      ((rejectionDirectories ++ rejectionEvidenceWrites args w source (w.sha256 raw)) ++
        writeText "summary.json" content)) := by
  obtain ⟨entries, hentries, rfl, happended⟩ :=
    exists_entries (avoids_rejectionWrites_of_notPrefix (by decide) (by decide)) hrecords
  have hlast : ∀ {name : String}, "summary.json" ≠ name →
      Avoids name (writeText "summary.json" content : List Write) := fun h => avoids_writeText h _
  have hloop : ∀ {name : String} {found : Option (List Byte)}, "summary.json" ≠ name →
      (∀ before after, Avoids name after → (Journal.run d (before ++ ((runRejections w
        (rejectionIdentity w source (w.sha256 raw))).1 ++ after))).lookup name = found) →
      (Journal.run d ((rejectionDirectories ++ rejectionEvidenceWrites args w source
        (w.sha256 raw)) ++ writeText "summary.json" content)).lookup name = found := by
    intro name found hname h
    rw [rejectionEvidenceWrites, ← List.append_assoc, List.append_cons, List.append_assoc]
    exact h _ _ (hlast hname)
  refine ⟨entries, hbinary, ?_, ?_, ?_, unchangedSince_eq_ok_true hunchanged⟩
  · rw [rejectionEvidenceWrites, List.append_assoc, List.append_assoc]
    refine lookup_run_writeText (avoids_append_iff.mpr ⟨List.forall_mem_cons.mpr
      ⟨by simp [Effect.name], ?_⟩, hlast (by decide)⟩) _
    exact avoids_runRejections (by decide) (by decide) (by decide) _ _
  · have huntouched := (untouched_runRejections w
      (rejectionIdentity w source (w.sha256 raw))).append (@hlast "rejections.jsonl"
        (by decide)).untouched
    rw [rejectionEvidenceWrites, ← List.append_assoc, List.append_assoc, List.cons_append,
      lookup_run_create huntouched, appended_append, runRejections, happended,
      appended_of_avoids (hlast (by decide)), List.append_nil]
  · refine List.forall₂_iff_zip.mpr ⟨hentries.length_eq, fun {case entry} hzip => ?_⟩
    obtain ⟨hcase, hentry⟩ := List.of_mem_zip hzip
    have hline := List.forall₂_zip hentries hzip
    have hstatus := hpass _ (List.mem_map_of_mem hentry)
    rw [rejectionLine_eq_ok hline] at hstatus
    obtain ⟨elapsed, writes, hended, text, fields, message, hrejection⟩ :=
      exists_structuredRejection hstatus
    have hlog : ∀ channel, (Journal.run d ((rejectionDirectories ++ rejectionEvidenceWrites args w
        source (w.sha256 raw)) ++ writeText "summary.json" content)).lookup
          (logName case.caseId channel) = some (written channel writes) := fun channel =>
      hloop (logName_ne (by decide) case.caseId channel).symm fun _ _ hafter =>
        lookup_log_runRejections hrecords hcase hended channel hafter
    refine ⟨hline, fun text htext => ?_, elapsed, writes, _, _, text, fields, message, hended,
      hlog .stdout, hlog .stderr, hrejection⟩
    exact hloop (RejectionCase.fixture_ne (by decide)).symm fun _ _ hafter =>
      lookup_fixture_runRejections hrecords hcase htext hafter

end Runs

section Summary

variable {w : RejectionWorld}

/-- The identity of a run can be written. -/
theorem rejectionIdentity_dumpable (w : RejectionWorld) (source : SourceView)
    (binarySha256 : String) : (rejectionIdentity w source binarySha256).Dumpable w.repr none := by
  rw [rejectionIdentity, Json.Dumpable, fieldsDumpable_iff]
  refine ⟨by simp, ?_⟩
  cases source.commit <;> cases source.dirty <;> simp [Json.Dumpable.eq_def]

/-- So can its summary. -/
theorem rejectionSummary_dumpable {identity : Json} (hidentity : identity.Dumpable w.repr none)
    (records : List Classification) (unchanged : Bool) :
    (rejectionSummary w identity records unchanged).Dumpable w.repr none := by
  have hcounts : (Json.dict (counter (records.map Classification.status))).Dumpable w.repr none :=
    counter_dumpable _
  rw [rejectionSummary, Json.Dumpable, fieldsDumpable_iff]
  refine ⟨by simp, ?_⟩
  simp only [List.forall_mem_cons, List.not_mem_nil, false_imp_iff, implies_true, and_true]
  refine ⟨?_, ?_, hidentity, ?_, ?_, ?_, ?_, ?_, hcounts, ?_, ?_, ?_, ?_, ?_⟩ <;>
    simp [Json.Dumpable.eq_def]

/-- And the summary of a run that could not start. -/
theorem unsupportedRejections_dumpable (repr : ℚ → String) :
    unsupportedRejections.Dumpable repr none := by
  rw [unsupportedRejections, Json.Dumpable, fieldsDumpable_iff]
  refine ⟨by simp, ?_⟩
  simp [Json.Dumpable.eq_def]

/-- The object of a summary. -/
theorem exists_rejectionSummary_eq (w : RejectionWorld) (identity : Json)
    (records : List Classification) (unchanged : Bool) :
    ∃ fields, rejectionSummary w identity records unchanged = .dict fields ∧
      Json.get fields "status" = .str (if allRejected records unchanged then "pass" else "fail") ∧
      Json.get fields "rejection_matrix_complete" = .bool (allRejected records unchanged) ∧
      Json.get fields "executed_processes" = .int records.length :=
  ⟨_, rfl, rfl, rfl, rfl⟩

end Summary

end RowReduce
