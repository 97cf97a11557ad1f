import RowReduce.Correctness.Recording
import RowReduce.Correctness.RunnerPass
import RowReduce.Correctness.SourceBinding
import RowReduce.Runner.Matrix

/-!
# The evidence of a matrix run

A results directory is written by at most one run, however often the runner is
started and interrupted. A summary that reads as passed was written last, over
the whole record file and every log it vouches for.
-/

namespace RowReduce

open Fallible Hexadecimal Journal

private theorem allCases_nodup : (allCases.map Case.caseId).Nodup := by decide

/-- The selected cases are among all cases, in their order. -/
theorem selectedCases_sublist (choice : String) : (selectedCases choice).Sublist allCases := by
  unfold selectedCases
  split
  · exact List.Sublist.refl _
  · exact List.filter_sublist

/-- No case is selected twice. -/
theorem selectedCases_nodup (choice : String) :
    ((selectedCases choice).map Case.caseId).Nodup :=
  allCases_nodup.sublist ((selectedCases_sublist choice).map _)

private theorem logName_ne_evidence (caseId : String) (channel : Channel) {name : String}
    (h : name ∈ evidenceNames) : logName caseId channel ≠ name := by
  have hnames : ∀ n ∈ evidenceNames, ¬"raw/".toList <+: n.toList := by decide
  exact logName_ne (hnames name h) caseId channel

section Loop

variable {args : Arguments} {w : World} {identity : Json} {cases : List Case}

/-- The processes write to their logs only. -/
theorem avoids_childWrites (w : World) (cases : List Case) {name : String}
    (h : name ∈ evidenceNames) :
    ∀ case ∈ cases, Avoids name ((w.child case).writes case.caseId) := fun case _ =>
  Child.avoids_writes fun channel => logName_ne_evidence case.caseId channel h

/-- After a completed loop the logs of a process that ended hold what it wrote. -/
theorem lookup_log_runCases {d : Disk} {before after : List Write} {records : List CaseRecord}
    (hnodup : (cases.map Case.caseId).Nodup) (h : (runCases args w identity cases).2 = .ok records)
    {case : Case} (hmem : case ∈ cases) {exit : ProcessExit} {writes : List (Channel × Byte)}
    (hended : w.child case = .ended exit writes) (channel : Channel)
    (hafter : Avoids (logName case.caseId channel) after) :
    (Journal.run d (before ++ ((runCases args w identity cases).1 ++ after))).lookup
      (logName case.caseId channel) = some (written channel writes) := by
  refine lookup_recordLines (List.Nodup.of_map _ hnodup) h hmem
    (logName_ne_evidence case.caseId channel (by decide)).symm ?_ ?_ hafter
  · intro other hother hne
    refine Child.avoids_writes fun last heq => hne ?_
    exact List.inj_on_of_nodup_map hnodup hother hmem (logName_inj heq).1
  · intro before after hlater
    rw [hended]
    exact lookup_log channel hlater

end Loop

section Summary

variable {args : Arguments} {w : World} {source : SourceView} {pre : Preflight}

/-- What `float.__repr__` promises in this world. -/
abbrev World.ReprReads (w : World) : Prop := RowReduce.ReprReads w.repr

private theorem totalWallSeconds_dumpable (hw : w.ReprReads) (records : List CaseRecord) :
    (totalWallSeconds w records).Dumpable w.repr none := by
  unfold totalWallSeconds
  split
  · rw [Json.Dumpable.eq_def]
    simp
  · rw [Json.Dumpable]
    exact ⟨_, rfl, hw.reads _ (w.sum _).2⟩

/-- The identity of a run can be written. -/
theorem identityDocument_dumpable (w : World) (source : SourceView) (pre : Preflight) :
    (identityDocument w source pre).Dumpable w.repr none := by
  rw [identityDocument, Json.Dumpable, fieldsDumpable_iff]
  refine ⟨by simp, ?_⟩
  cases source.commit <;> cases source.dirty <;> simp [Json.Dumpable.eq_def]

/-- So can its summary. -/
theorem summaryDocument_dumpable (hw : w.ReprReads) (args : Arguments) {identity : Json}
    (hidentity : identity.Dumpable w.repr none) (records : List CaseRecord) (unchanged : Bool) :
    (summaryDocument args w identity records unchanged).Dumpable w.repr none := by
  have hcounts : (Json.dict (statusCounts records)).Dumpable w.repr none := counter_dumpable _
  have htotal := totalWallSeconds_dumpable hw records
  have hshapes : (Json.list (matrixCases.map fun c =>
      .list [.int c.rows, .int c.cols])).Dumpable w.repr none := by
    rw [Json.Dumpable, itemsDumpable_iff]
    intro item hitem
    obtain ⟨c, _, rfl⟩ := List.mem_map.mp hitem
    rw [Json.Dumpable, itemsDumpable_iff]
    simp [Json.Dumpable.eq_def]
  rw [summaryDocument, Json.Dumpable, fieldsDumpable_iff]
  refine ⟨by simp, ?_⟩
  simp only [List.forall_mem_cons, List.not_mem_nil, false_imp_iff, implies_true, and_true]
  refine ⟨?_, ?_, hidentity, ?_, ?_, ?_, ?_, ?_, ?_, hshapes, ?_, hcounts, ?_, ?_, ?_,
    htotal, ?_⟩ <;>
    first | (split_ifs <;> simp [Json.Dumpable.eq_def]) | simp [Json.Dumpable.eq_def]

/-- And the summary of a failed preflight. -/
theorem unsupportedSummary_dumpable (repr : ℚ → String) (error : String) :
    (unsupportedSummary error).Dumpable repr none := by
  rw [unsupportedSummary, Json.Dumpable, fieldsDumpable_iff]
  refine ⟨by simp, ?_⟩
  simp [Json.Dumpable.eq_def]

end Summary

/-- A run of the runner, interrupted after some of its writes. -/
structure MatrixLaunch where
  args : Arguments
  world : World
  cut : ℕ

def MatrixLaunch.attempt (l : MatrixLaunch) : Attempt String Byte :=
  ⟨fun d => (matrixMain l.args l.world d).1, l.cut⟩

section Runs

variable {args : Arguments} {w : World} {d : Disk} {source : SourceView}

/-- A run that writes found no evidence; one that does not only lists the cases or fails. -/
theorem matrixMain_cases (args : Arguments) (w : World) (d : Disk) :
    ((matrixMain args w d).1 = [] ∧ (args.list = true ∨ (matrixMain args w d).2.status = 1)) ∨
      (∀ name ∈ evidenceNames, d.lookup name = none) ∧ ∃ source,
        w.sourceBefore = .ok source ∧ matrixMain args w d = recordEvidence args w source := by
  unfold matrixMain
  split
  · exact Or.inl ⟨rfl, Or.inl ‹_›⟩
  split
  · exact Or.inl ⟨rfl, Or.inr rfl⟩
  · split
    · exact Or.inl ⟨rfl, Or.inr rfl⟩
    · rename_i hfind
      split
      · exact Or.inl ⟨rfl, Or.inr rfl⟩
      · split
        · exact Or.inl ⟨rfl, Or.inr rfl⟩
        · rename_i source hsource
          refine Or.inr ⟨fun name hname => ?_, source, hsource, rfl⟩
          have habsent := List.find?_eq_none.mp hfind name hname
          rwa [Option.not_isSome_iff_eq_none] at habsent

/-- The environment is opened first. -/
theorem exists_recordEvidence_eq (args : Arguments) (w : World) (source : SourceView) :
    ∃ rest, (recordEvidence args w source).1 = .create "environment.json" :: rest := by
  unfold recordEvidence
  split
  · exact ⟨_, rfl⟩
  · unfold runMatrix
    dsimp only
    split <;> exact ⟨_, rfl⟩

/-- However often the runner is started and interrupted, the directory holds what one run wrote. -/
theorem session_matrix (launches : List MatrixLaunch) (d : Disk) :
    session d (launches.map MatrixLaunch.attempt) = d ∨ ∃ l ∈ launches,
      session d (launches.map MatrixLaunch.attempt) =
        Journal.run d ((matrixMain l.args l.world d).1.take l.cut) := by
  have hsingle := @session_single String Byte _
    (fun d => (d.lookup "environment.json").isSome = true) (launches.map MatrixLaunch.attempt)
    (by
      intro a ha d hd
      obtain ⟨l, _, rfl⟩ := List.mem_map.mp ha
      refine ((matrixMain_cases l.args l.world d).resolve_right fun h => ?_).1
      rw [h.1 _ List.mem_cons_self] at hd
      cases hd)
    (by
      intro a ha d e rest hprogram effects _
      obtain ⟨l, _, rfl⟩ := List.mem_map.mp ha
      rcases matrixMain_cases l.args l.world d with ⟨h, _⟩ | ⟨_, source, _, h⟩
      · exact absurd (h.symm.trans hprogram) (by simp)
      · obtain ⟨first, hfirst⟩ := exists_recordEvidence_eq l.args l.world source
        have hcons : Effect.create "environment.json" :: first = e :: rest := by
          rw [← hfirst, ← h]
          exact hprogram
        obtain ⟨rfl, _⟩ := List.cons.inj hcons
        refine lookup_run_isSome ?_ effects
        rw [lookup_create_self]
        rfl) d
  rcases hsingle with h | ⟨a, ha, _, h⟩
  · exact Or.inl h
  · obtain ⟨l, hl, rfl⟩ := List.mem_map.mp ha
    exact Or.inr ⟨l, hl, h⟩

/-- The evidence of one case: its line passed, and the record is the one of the logs found. -/
structure PassingCase (args : Arguments) (w : World) (identity : Json) (d : Disk) (case : Case)
    (entry : CaseRecord × List Byte) : Prop where
  line : runLine args w identity case = .ok entry
  passed : entry.1.status = some "pass"
  logs : ∃ exit out err, d.lookup (logName case.caseId .stdout) = some out ∧
    d.lookup (logName case.caseId .stderr) = some err ∧
    runCase w.runner case ⟨.ok exit, some out, some err⟩ = .ok entry.1

/-- The evidence of a run whose summary reads as passed. -/
structure PassingEvidence (args : Arguments) (w : World) (source : SourceView) (pre : Preflight)
    (entries : List (CaseRecord × List Byte)) (d : Disk) : Prop where
  preflight : preflight args w source = .ok pre
  environment : d.lookup "environment.json" =
    some (indentedBytes w.repr (environmentDocument args w source pre))
  lines : d.lookup "simulator.jsonl" = some (entries.flatMap Prod.snd)
  cases : List.Forall₂ (PassingCase args w (identityDocument w source pre) d)
    (selectedCases args.choice) entries
  unchanged : ∃ final raw, w.sourceAfter = .ok final ∧ w.binaryAfter = .ok raw ∧
    w.runner.sha256 raw = pre.binarySha256 ∧
    ((∀ p, p ∈ final.tree.selected ↔ p ∈ source.tree.selected) ∨
      SourceTree.Collide w.runner.sha256 final.tree source.tree)

/-- Only a process that ended is recorded as passed. -/
theorem exists_ended {case : Case} {record : CaseRecord}
    (h : runCase w.runner case (w.child case).run = .ok record)
    (hpass : record.status = some "pass") :
    ∃ exit writes, w.child case = .ended exit writes := by
  have hfails : ∀ message out err, (Child.run (w.child case)) ≠ ⟨.error message, out, err⟩ := by
    intro message out err hrun
    rw [hrun] at h
    obtain rfl := Except.ok.inj h
    simp at hpass
  cases hchild : w.child case with
  | unopened stdout error => exact absurd (by rw [hchild]; rfl) (hfails error _ _)
  | notStarted error => exact absurd (by rw [hchild]; rfl) (hfails error _ _)
  | ended exit writes => exact ⟨exit, writes, rfl⟩

/-- A line is written for the record of its case. -/
theorem runLine_eq_ok {identity : Json} {case : Case} {entry : CaseRecord × List Byte}
    (h : runLine args w identity case = .ok entry) :
    runCase w.runner case (w.child case).run = .ok entry.1 := by
  unfold runLine at h
  obtain ⟨record, hrecord, h⟩ := bind_eq_ok_iff.mp h
  obtain ⟨line, _, h⟩ := bind_eq_ok_iff.mp h
  rw [← Except.ok.inj h]
  exact hrecord

/-- The writes before the summary. -/
def evidenceWrites (args : Arguments) (w : World) (source : SourceView) (pre : Preflight) :
    List Write :=
  writeText "environment.json" (indentedBytes w.repr (environmentDocument args w source pre)) ++
    (.create "simulator.jsonl" ::
      (runCases args w (identityDocument w source pre) (selectedCases args.choice)).1)

/-- The evidence of the cases does not touch the summary. -/
theorem avoids_evidenceWrites (args : Arguments) (w : World) (source : SourceView)
    (pre : Preflight) : Avoids "summary.json" (evidenceWrites args w source pre) :=
  avoids_append_iff.mpr ⟨avoids_writeText (by decide) _, List.forall_mem_cons.mpr
    ⟨by simp [Effect.name], avoids_recordLines (by decide)
      (avoids_childWrites w _ (by decide))⟩⟩

/-- After a passed preflight an exception ends the run without a summary, or the summary is
written last. -/
theorem runMatrix_cases (args : Arguments) (w : World) (source : SourceView) (pre : Preflight) :
    (∃ e, runMatrix args w source pre = (evidenceWrites args w source pre, .raised e)) ∨
      ∃ records unchanged bytes,
        (runCases args w (identityDocument w source pre) (selectedCases args.choice)).2 =
          .ok records ∧
        sourcesUnchanged w source pre = .ok unchanged ∧
        dumpLine w.repr { indent := some 2, allowNan := false } (summaryDocument args w
          (identityDocument w source pre) records unchanged) = .ok bytes ∧
        runMatrix args w source pre =
          (evidenceWrites args w source pre ++ writeText "summary.json" bytes,
            .code (if allPass records unchanged then 0 else 1)) := by
  unfold runMatrix
  dsimp only
  split
  · rename_i e hrecords
    exact Or.inl ⟨e, rfl⟩
  · rename_i records hrecords
    unfold finishMatrix
    cases hunchanged : sourcesUnchanged w source pre with
    | error text =>
      left
      refine ⟨_, Prod.ext ?_ rfl⟩
      exact List.append_nil _
    | ok unchanged =>
      dsimp only
      cases hline : dumpLine w.repr { indent := some 2, allowNan := false } (summaryDocument args w
          (identityDocument w source pre) records unchanged) with
      | error e =>
        left
        refine ⟨e, Prod.ext ?_ rfl⟩
        exact List.append_nil _
      | ok bytes => exact Or.inr ⟨records, unchanged, bytes, hrecords, rfl, hline, rfl⟩

/-- What a finished run leaves beside its summary. -/
theorem passingEvidence_of_finished {pre : Preflight} {records : List CaseRecord}
    (hpre : preflight args w source = .ok pre)
    (hrecords : (runCases args w (identityDocument w source pre)
      (selectedCases args.choice)).2 = .ok records)
    (hunchanged : sourcesUnchanged w source pre = .ok true)
    (hpass : ∀ record ∈ records, record.status = some "pass") (content : List Byte) :
    ∃ entries, entries.map Prod.fst = records ∧ PassingEvidence args w source pre entries
      (Journal.run d (evidenceWrites args w source pre ++ writeText "summary.json" content)) := by
  obtain ⟨entries, hentries, rfl, happended⟩ :=
    exists_entries (avoids_childWrites w _ (by decide)) hrecords
  have hlast : ∀ {name : String}, "summary.json" ≠ name →
      Avoids name (writeText "summary.json" content : List Write) := fun h => avoids_writeText h _
  refine ⟨entries, rfl, hpre, ?_, ?_, ?_, unchangedSince_eq_ok_true hunchanged⟩
  · rw [evidenceWrites, List.append_assoc]
    refine @lookup_run_writeText _ _ _ _ d [] _ ?_ _
    refine avoids_append_iff.mpr ⟨List.forall_mem_cons.mpr ⟨by simp [Effect.name],
      avoids_recordLines (by decide) (avoids_childWrites w _ (by decide))⟩,
      hlast (by decide)⟩
  · have huntouched : Untouched "simulator.jsonl"
        ((runCases args w (identityDocument w source pre) (selectedCases args.choice)).1 ++
          writeText "summary.json" content) :=
      (untouched_recordLines (avoids_childWrites w _ (by decide))).append
        (hlast (by decide)).untouched
    rw [evidenceWrites, List.append_assoc, List.cons_append, lookup_run_create huntouched,
      appended_append, runCases, happended, appended_of_avoids (hlast (by decide)), List.append_nil]
  · have hmem : ∀ entry ∈ entries, entry.1.status = some "pass" := fun entry hentry =>
      hpass _ (List.mem_map_of_mem hentry)
    refine List.forall₂_iff_zip.mpr ⟨hentries.length_eq, fun {case entry} hzip => ?_⟩
    obtain ⟨hcase, hentry⟩ := List.of_mem_zip hzip
    have hline := List.forall₂_zip hentries hzip
    have hrun := runLine_eq_ok hline
    obtain ⟨exit, writes, hended⟩ := exists_ended hrun (hmem entry hentry)
    have hlog : ∀ channel, (Journal.run d (evidenceWrites args w source pre ++
        writeText "summary.json" content)).lookup (logName case.caseId channel) =
          some (written channel writes) := by
      intro channel
      rw [evidenceWrites, List.append_assoc, List.cons_append, List.append_cons]
      exact lookup_log_runCases (selectedCases_nodup _) hrecords hcase hended channel
        (hlast (logName_ne_evidence case.caseId channel (by decide)).symm)
    rw [hended] at hrun
    exact ⟨hline, hmem entry hentry, exit, _, _, hlog .stdout, hlog .stderr, hrun⟩

/-- The object of a summary. -/
theorem exists_summaryDocument_eq (args : Arguments) (w : World) (identity : Json)
    (records : List CaseRecord) (unchanged : Bool) :
    ∃ fields, summaryDocument args w identity records unchanged = .dict fields ∧
      Json.get fields "status" = .str (if allPass records unchanged then "pass" else "fail") ∧
      Json.get fields "matrix_complete" =
        .bool (args.choice == "all" && allPass records unchanged) :=
  ⟨_, rfl, rfl, rfl⟩

end Runs

end RowReduce
