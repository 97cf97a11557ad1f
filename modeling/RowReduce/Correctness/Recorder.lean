import RowReduce.Correctness.ValidatedResult

/-!
# The recorder

A case is recorded whatever its child prints, except where validation raises an
exception outside the handled classes. The condition for that is on the printed
records alone.
-/

namespace RowReduce

open BinaryFloat Fallible Hexadecimal

variable {env : RunnerEnv} {case : Case} {child : ChildRun}

/-- The statuses of a recorded case. -/
def recordStatuses : List String :=
  ["pass", "numerical-fail", "protocol-error", "crash", "timeout", "unsupported"]

/-- All checks on a record hold. -/
def ResultAccepted (fr : FloatReading) (case : Case) (index : ℕ) (result : Json) : Prop :=
  ∃ fields p commit words actual paddingZero, result = .dict fields ∧
    ResultChecks fr case index fields p commit words actual paddingZero

theorem resultAccepted_iff {fr : FloatReading} {sha256 : List Byte → String} {index : ℕ}
    {result : Json} : ResultAccepted fr case index result ↔
      ∃ v, validateResult fr sha256 case index result = .ok v := by
  constructor
  · rintro ⟨fields, p, commit, words, actual, padding, hfields, h⟩
    exact ⟨_, validateResult_eq_ok_iff.mpr ⟨fields, p, commit, words, actual, padding, hfields,
      h, rfl⟩⟩
  · rintro ⟨v, h⟩
    obtain ⟨fields, p, commit, words, actual, padding, hfields, h, _⟩ :=
      validateResult_eq_ok_iff.mp h
    exact ⟨fields, p, commit, words, actual, padding, hfields, h⟩

def PyException.IsOsError : PyException → Prop
  | .osError _ => True
  | _ => False

theorem PyException.Handled.not_isOsError {e : PyException} (h : e.Handled) : ¬e.IsOsError := by
  cases e <;> first | exact fun ho => ho.elim | exact h.elim

theorem finiteVector_not_osError (value : Json) (count : ℤ) (name : String) :
    RaisesOnly (fun e => ¬e.IsOsError) (finiteVector value count name) := by
  have hitem : ∀ item, RaisesOnly (fun e : PyException => ¬e.IsOsError) (finiteItem name item) := by
    intro item
    unfold finiteItem FloatReading.ofInt
    split
    · split_ifs
      · exact raisesOnly_error id
      · exact raisesOnly_ok _
    · exact raisesOnly_ok _
    · exact raisesOnly_error id
  unfold finiteVector
  split
  · exact (raisesOnly_throwIf id).bind fun _ _ => raisesOnly_mapM fun item _ => hitem item
  · exact raisesOnly_error id

theorem runnerGamma_not_osError (fr : FloatReading) (cols : ℤ) :
    RaisesOnly (fun e => ¬e.IsOsError) (runnerGamma fr cols) := by
  unfold runnerGamma FloatReading.ofInt
  split_ifs
  · exact (raisesOnly_error id).bind fun _ _ => (raisesOnly_throwIf id).bind fun _ _ =>
      raisesOnly_ok _
  · exact (raisesOnly_ok _).bind fun _ _ => (raisesOnly_throwIf id).bind fun _ _ =>
      raisesOnly_ok _

theorem validateRow_not_osError {fr : FloatReading} {exact : Bool} {gamma : ℚ}
    {values actual hostReference : List ℚ} (row : ℕ) : RaisesOnly (fun e => ¬e.IsOsError)
      (validateRow fr case exact gamma values actual hostReference row) := by
  have hsum : ∀ xs, RaisesOnly (fun e : PyException => ¬e.IsOsError) (fr.fsum xs) := by
    intro xs
    unfold FloatReading.fsum
    split_ifs
    · exact raisesOnly_error id
    · exact raisesOnly_ok _
  exact (hsum _).bind fun _ _ => (hsum _).bind fun _ _ => (raisesOnly_throwIf id).bind fun _ _ =>
    raisesOnly_ok _

theorem validateResult_not_osError {fr : FloatReading} {sha256 : List Byte → String} {index : ℕ}
    {result : Json} :
    RaisesOnly (fun e => ¬e.IsOsError) (validateResult fr sha256 case index result) := by
  have hhandled : ∀ e : PyException, e.Handled → ¬e.IsOsError := fun e h => h.not_isOsError
  cases result with
  | dict fields =>
    refine (validateHeader_handled.mono hhandled).bind fun declared hheader => ?_
    obtain ⟨text, commit⟩ := declared
    obtain ⟨p, rfl, _⟩ := validateHeader_eq_ok_iff.mp hheader
    refine ((uploadedInput_handled p).mono hhandled).bind fun _ _ => ?_
    refine (finiteVector_not_osError _ _ _).bind fun actual _ => ?_
    refine ((decodeOutputBits_handled _ _ _).mono hhandled).bind fun padding hpadding => ?_
    refine (finiteVector_not_osError _ _ _).bind fun _ _ => ?_
    refine (raisesOnly_throwIf id).bind fun _ _ => ?_
    refine (runnerGamma_not_osError _ _).bind fun _ _ => ?_
    refine (raisesOnly_mapM fun row _ => validateRow_not_osError row).bind fun _ _ => ?_
    refine ((memNames_handled _ _).mono hhandled).bind fun _ _ => ?_
    refine (raisesOnly_throwIf id).bind fun _ _ => ?_
    refine ((pyMax_handled _).mono hhandled).bind fun _ _ => ?_
    refine ((pyMax_handled _).mono hhandled).bind fun _ _ => ?_
    obtain ⟨outputRaw, hraw⟩ := exists_fromHex_of_decodeOutputBits hpadding
    rw [fromHex_eq_ok_iff.mpr hraw]
    exact (raisesOnly_ok _).bind fun _ _ => raisesOnly_ok _
  | _ => exact raisesOnly_error id

/-- An entry is what `json.loads` makes of its text. -/
theorem loadEntry_eq_ok_iff {text : String} {value : Json} :
    loadEntry env text = .ok value ↔ env.jsonLoads text = .ok value := by
  unfold loadEntry
  cases env.jsonLoads text <;> simp

/-- Its failures are handled. -/
theorem loadEntry_handled (text : String) :
    RaisesOnly PyException.Handled (loadEntry env text) := by
  unfold loadEntry
  split
  · exact raisesOnly_ok _
  · exact raisesOnly_error trivial

/-- The decoded result lines of an existing standard output. -/
def EntriesOf (env : RunnerEnv) (stdout : List Byte) (entries : List Json) : Prop :=
  List.Forall₂ (fun text value => env.jsonLoads text = .ok value)
    (resultTexts (env.readText stdout)) entries

/-- A log has one list of entries. -/
theorem EntriesOf.unique {stdout : List Byte} {entries entries' : List Json}
    (h : EntriesOf env stdout entries) (h' : EntriesOf env stdout entries') : entries = entries' :=
  Except.ok.inj ((mapM_eq_ok_iff.mpr h).symm.trans (mapM_eq_ok_iff.mpr h'))

/-- What is read of a log are its entries. -/
theorem readEntries_eq_ok_iff {stdout : List Byte} (hout : child.stdout = some stdout)
    {entries : List Json} : readEntries env child = .ok entries ↔ EntriesOf env stdout entries := by
  simp only [readEntries, hout, mapM_eq_ok_iff, loadEntry_eq_ok_iff, EntriesOf]

/-- Failures to read a log are handled. -/
theorem readEntries_handled {stdout : List Byte} (hout : child.stdout = some stdout) :
    RaisesOnly PyException.Handled (readEntries env child) := by
  simp only [readEntries, hout]
  exact raisesOnly_mapM fun _ _ => loadEntry_handled _

/-- Some entry is the first one not accepted, and an exception escapes there. -/
def EntryEscapes (fr : FloatReading) (case : Case) (entries : List Json) : Prop :=
  ∃ (i : ℕ) (result : Json), entries[i]? = some result ∧ ResultEscapes fr case i result ∧
    ∀ j < i, ∀ earlier, entries[j]? = some earlier → ResultAccepted fr case j earlier

/-- A split of the indices is a split at one of them. -/
theorem range_eq_append_cons {n i : ℕ} {before after : List ℕ}
    (h : List.range n = before ++ i :: after) : before = List.range i ∧ i < n := by
  have hlen : before.length < n := by
    have := congrArg List.length h
    simp only [List.length_range, List.length_append, List.length_cons] at this
    omega
  have hi : i = before.length := by
    have := congrArg (fun l : List ℕ => l[before.length]?) h
    simpa [List.getElem?_range hlen] using this.symm
  subst hi
  refine ⟨?_, hlen⟩
  have := congrArg (List.take before.length) h
  rw [List.take_range, List.take_left', min_eq_left hlen.le] at this
  · exact this.symm
  · rfl

/-- What escapes from the validation of the entries. -/
theorem validateEntries_escapes_iff {entries : List Json} :
    Escapes PyException.Handled (validateEntries env case entries) ↔
      EntryEscapes env.fr case entries := by
  have hgetD : ∀ {i : ℕ} {result : Json}, entries[i]? = some result →
      entries.getD i .null = result := by
    intro i result h
    rw [List.getD_eq_getElem?_getD, h, Option.getD_some]
  rw [validateEntries, escapes_mapM_iff, EntryEscapes]
  constructor
  · rintro ⟨before, i, after, hsplit, hok, hescape⟩
    obtain ⟨rfl, hi⟩ := range_eq_append_cons hsplit
    have hget := List.getElem?_eq_getElem hi
    refine ⟨i, entries[i], hget, validateResult_escapes_iff.mp (hgetD hget ▸ hescape), ?_⟩
    intro j hj earlier hearlier
    have := hok j (List.mem_range.mpr hj)
    rw [hgetD hearlier] at this
    exact resultAccepted_iff.mpr this
  · rintro ⟨i, result, hget, hescape, hok⟩
    obtain ⟨hi, _⟩ := List.getElem?_eq_some_iff.mp hget
    refine ⟨List.range i, i, List.range' (i + 1) (entries.length - (i + 1)), ?_, ?_, ?_⟩
    · rw [List.range_eq_range', List.range_eq_range', ← List.range'_succ]
      have := @List.range'_append_1 0 i (entries.length - i)
      rw [Nat.zero_add] at this
      rw [show entries.length - (i + 1) + 1 = entries.length - i by omega, this]
      congr 1
      omega
    · intro j hj
      have hlt := List.mem_range.mp hj
      have hget' := List.getElem?_eq_getElem (hlt.trans hi)
      rw [hgetD hget']
      exact resultAccepted_iff.mp (hok j hlt _ hget')
    · rw [hgetD hget]
      exact validateResult_escapes_iff.mpr hescape

/-- The child ran to an exit that is not the one for missing support. -/
def ChildRun.Reported (child : ChildRun) (exit : ProcessExit) : Prop :=
  child.exit = .ok exit ∧ exit.timedOut = false ∧ exit.code ≠ 77

/-- As many result lines as requested, all of them JSON, with a record validation escapes on. -/
def RunEscapes (env : RunnerEnv) (case : Case) (child : ChildRun) (stdout : List Byte) : Prop :=
  (∃ exit, child.Reported exit) ∧ ∃ entries, EntriesOf env stdout entries ∧
    (entries.length : ℤ) = case.repeats ∧ EntryEscapes env.fr case entries

/-- As many result lines as requested, one of which is not JSON or fails validation. -/
def BadResults (env : RunnerEnv) (case : Case) (child : ChildRun) (stdout : List Byte) : Prop :=
  (∃ exit, child.Reported exit) ∧
    ((resultTexts (env.readText stdout)).length : ℤ) = case.repeats ∧
    ∃ i text, (resultTexts (env.readText stdout))[i]? = some text ∧
      ∀ value v, env.jsonLoads text = .ok value →
        validateResult env.fr env.sha256 case i value ≠ .ok v

/-- Classified executions have a status, and failures are handled. -/
theorem classifyExecutions_cases (case : Case) (code : ℤ) (record : CaseRecord) :
    RaisesOnly PyException.Handled (classifyExecutions case code record).2 ∧
      ((classifyExecutions case code record).2 = .ok () →
        ∃ status ∈ recordStatuses, (classifyExecutions case code record).1.status =
          some status) := by
  unfold classifyExecutions
  dsimp only
  split_ifs with h1 h2 h3 h4
  · exact ⟨raisesOnly_error trivial, by simp⟩
  · exact ⟨raisesOnly_error trivial, by simp⟩
  · exact ⟨raisesOnly_ok _, fun _ => ⟨_, by simp [recordStatuses], rfl⟩⟩
  · exact ⟨raisesOnly_ok _, fun _ => ⟨_, by simp [recordStatuses], rfl⟩⟩
  · exact ⟨raisesOnly_ok _, fun _ => ⟨_, by simp [recordStatuses], rfl⟩⟩

section Entries

variable {stdout : List Byte} {code : ℤ} {record : CaseRecord}

/-- Recorded entries have a status. -/
theorem recordEntries_status (h : (recordEntries env case child code record).2 = .ok ()) :
    ∃ status ∈ recordStatuses,
      (recordEntries env case child code record).1.status = some status := by
  unfold recordEntries at h ⊢
  cases hread : readEntries env child with
  | error e => simp [hread] at h
  | ok entries =>
    simp only [hread] at h ⊢
    by_cases hcount : (entries.length : ℤ) ≠ case.repeats
    · rw [if_pos hcount]
      by_cases hcode : code ≠ 0
      · exact ⟨"crash", by simp [recordStatuses], by simp [hcode]⟩
      · exact ⟨"protocol-error", by simp [recordStatuses], by simp [hcode]⟩
    · rw [if_neg hcount] at h ⊢
      cases hvalid : validateEntries env case entries with
      | error e => simp [hvalid] at h
      | ok executions =>
        simp only [hvalid] at h ⊢
        exact (classifyExecutions_cases _ _ _).2 h

/-- What escapes from recording the entries. -/
theorem recordEntries_escapes_iff (hout : child.stdout = some stdout) :
    Escapes PyException.Handled (recordEntries env case child code record).2 ↔
      ∃ entries, EntriesOf env stdout entries ∧ (entries.length : ℤ) = case.repeats ∧
        EntryEscapes env.fr case entries := by
  have hentries := fun entries => @readEntries_eq_ok_iff env child stdout hout entries
  unfold recordEntries
  cases hread : readEntries env child with
  | error e =>
    refine iff_of_false ?_ ?_
    · rintro ⟨_, he, hn⟩
      obtain rfl := Except.error.inj he
      exact hn (readEntries_handled hout _ hread)
    · rintro ⟨entries, h, _⟩
      rw [(hentries entries).mpr h] at hread
      cases hread
  | ok entries =>
    have hunique : ∀ {entries'}, EntriesOf env stdout entries' → entries' = entries := by
      intro entries' h
      exact Except.ok.inj (((hentries entries').mpr h).symm.trans hread)
    have hthis := (hentries entries).mp hread
    dsimp only
    by_cases hcount : (entries.length : ℤ) ≠ case.repeats
    · rw [if_pos hcount]
      refine iff_of_false (raisesOnly_ok _).not_escapes ?_
      rintro ⟨entries', h, hlen, _⟩
      obtain rfl := hunique h
      exact hcount hlen
    · rw [if_neg hcount]
      have hescape := @validateEntries_escapes_iff env case entries
      constructor
      · intro h
        refine ⟨entries, hthis, not_not.mp hcount, hescape.mp ?_⟩
        cases hvalid : validateEntries env case entries with
        | error e =>
          rw [hvalid] at h
          obtain ⟨_, he, hn⟩ := h
          obtain rfl := Except.error.inj he
          exact ⟨e, rfl, hn⟩
        | ok executions =>
          rw [hvalid] at h
          exact absurd h (classifyExecutions_cases _ _ _).1.not_escapes
      · rintro ⟨entries', h, _, hentry⟩
        obtain rfl := hunique h
        obtain ⟨e, he, hn⟩ := hescape.mpr hentry
        rw [he]
        exact ⟨e, rfl, hn⟩

/-- Recording entries raises no error of the system. -/
theorem recordEntries_not_osError (hout : child.stdout = some stdout) :
    RaisesOnly (fun e => ¬e.IsOsError) (recordEntries env case child code record).2 := by
  unfold recordEntries
  cases hread : readEntries env child with
  | error e => exact raisesOnly_error (readEntries_handled hout e hread).not_isOsError
  | ok entries =>
    dsimp only
    by_cases hcount : (entries.length : ℤ) ≠ case.repeats
    · rw [if_pos hcount]
      exact raisesOnly_ok _
    · rw [if_neg hcount]
      have hentries : RaisesOnly (fun e => ¬e.IsOsError) (validateEntries env case entries) :=
        raisesOnly_mapM fun _ _ => validateResult_not_osError
      cases hvalid : validateEntries env case entries with
      | error e => exact raisesOnly_error (hentries e hvalid)
      | ok executions =>
        exact (classifyExecutions_cases _ _ _).1.mono fun _ h => h.not_isOsError

/-- A bad result line ends the body with an exception. -/
theorem recordEntries_of_bad (hout : child.stdout = some stdout)
    (hcount : ((resultTexts (env.readText stdout)).length : ℤ) = case.repeats) {i : ℕ}
      {text : String}
    (hi : (resultTexts (env.readText stdout))[i]? = some text)
    (hbad : ∀ value v, env.jsonLoads text = .ok value →
      validateResult env.fr env.sha256 case i value ≠ .ok v) :
    ∃ e, (recordEntries env case child code record).2 = .error e := by
  unfold recordEntries
  cases hread : readEntries env child with
  | error e => exact ⟨e, rfl⟩
  | ok entries =>
    have hall := (readEntries_eq_ok_iff hout).mp hread
    have hlen : entries.length = (resultTexts (env.readText stdout)).length := hall.length_eq.symm
    dsimp only
    rw [if_neg (by rw [hlen, hcount]; simp)]
    cases hvalid : validateEntries env case entries with
    | error e => exact ⟨e, rfl⟩
    | ok executions =>
      exfalso
      obtain ⟨hlt, htext⟩ := List.getElem?_eq_some_iff.mp hi
      have hlt' : i < entries.length := hlen ▸ hlt
      have hload := List.Forall₂.get hall hlt hlt'
      rw [List.get_eq_getElem, htext] at hload
      have hok := List.forall₂_iff_get.mp (mapM_eq_ok_iff.mp hvalid)
      have hresult := hok.2 i (by simpa using hlt') (by rw [← hok.1]; simpa using hlt')
      simp only [List.get_eq_getElem, List.getElem_range] at hresult
      rw [List.getD_eq_getElem?_getD, List.getElem?_eq_getElem hlt', Option.getD_some] at hresult
      exact hbad _ _ hload hresult

end Entries

/-- A run that is not reported ends without reading its entries. -/
theorem runBody_of_not_reported (h : ∀ exit, ¬child.Reported exit) :
    (runBody env case child).2 = .ok () ∨
      ∃ message, (runBody env case child).2 = .error (.osError message) := by
  unfold runBody
  cases hexit : child.exit with
  | error message => exact Or.inr ⟨message, rfl⟩
  | ok exit =>
    left
    dsimp only
    by_cases htimeout : exit.timedOut = true
    · rw [if_pos htimeout]
    · rw [if_neg htimeout]
      by_cases hcode : exit.code = 77
      · rw [if_pos hcode]
      · exact absurd ⟨hexit, by simpa using htimeout, hcode⟩ (h exit)

/-- A reported process has its entries recorded. -/
theorem runBody_of_reported {exit : ProcessExit} (h : child.Reported exit) :
    ∃ record, runBody env case child = recordEntries env case child exit.code record := by
  obtain ⟨hexit, htimeout, hcode⟩ := h
  unfold runBody
  rw [hexit]
  dsimp only
  rw [if_neg (by simp [htimeout]), if_neg hcode]
  exact ⟨_, rfl⟩

/-- A completed record has a status. -/
theorem runBody_status (h : (runBody env case child).2 = .ok ()) :
    ∃ status ∈ recordStatuses, (runBody env case child).1.status = some status := by
  unfold runBody at h ⊢
  cases hexit : child.exit with
  | error message => simp [hexit] at h
  | ok exit =>
    simp only [hexit] at h ⊢
    by_cases htimeout : exit.timedOut = true
    · rw [if_pos htimeout]
      exact ⟨"timeout", by simp [recordStatuses], rfl⟩
    · rw [if_neg htimeout] at h ⊢
      by_cases hcode : exit.code = 77
      · rw [if_pos hcode]
        exact ⟨"unsupported", by simp [recordStatuses], rfl⟩
      · rw [if_neg hcode] at h ⊢
        exact recordEntries_status h

/-- The promise of the recorder: a record with a known status and both log hashes, and a
protocol error where a result line is bad. -/
def Recorded (env : RunnerEnv) (case : Case) (child : ChildRun) (stdout stderr : List Byte) :
    Prop :=
  ∃ record, runCase env case child = .ok record ∧
    (∃ status ∈ recordStatuses, record.status = some status) ∧
    record.logSha256 = [(case.caseId ++ ".stdout.log", env.sha256 stdout),
      (case.caseId ++ ".stderr.log", env.sha256 stderr)] ∧
    (BadResults env case child stdout → record.status = some "protocol-error")

/-- A run is recorded as promised exactly when no exception escapes validation. -/
theorem recorded_iff {stdout stderr : List Byte} (hout : child.stdout = some stdout)
    (herr : child.stderr = some stderr) :
    Recorded env case child stdout stderr ↔ ¬RunEscapes env case child stdout := by
  have hhashes : logHashes env case child = [(case.caseId ++ ".stdout.log", env.sha256 stdout),
      (case.caseId ++ ".stderr.log", env.sha256 stderr)] := by
    simp [logHashes, hout, herr]
  cases hbody : runBody env case child with
  | mk record outcome =>
    by_cases hreported : ∃ exit, child.Reported exit
    · obtain ⟨exit, hexit⟩ := hreported
      obtain ⟨record', hrec⟩ := @runBody_of_reported env case child exit hexit
      rw [hbody] at hrec
      have hescapes := @recordEntries_escapes_iff env case child stdout exit.code record' hout
      have hnotOs := @recordEntries_not_osError env case child stdout exit.code record' hout
      have hbad := @recordEntries_of_bad env case child stdout exit.code record' hout
      rw [← hrec] at hescapes hnotOs hbad
      have hrun : RunEscapes env case child stdout ↔ Escapes PyException.Handled outcome := by
        rw [hescapes]
        exact and_iff_right ⟨exit, hexit⟩
      rw [hrun]
      cases outcome with
      | ok _ =>
        obtain ⟨status, hmem, hstatus⟩ := @runBody_status env case child (by rw [hbody])
        rw [hbody] at hstatus
        refine iff_of_true ⟨{ record with logSha256 := logHashes env case child }, ?_,
          ⟨status, hmem, hstatus⟩, hhashes, ?_⟩ (raisesOnly_ok _).not_escapes
        · rw [runCase, hbody]
          rfl
        · rintro ⟨_, hcount, i, text, hi, hline⟩
          obtain ⟨e, he⟩ := hbad hcount hi hline
          cases he
      | error e =>
        by_cases hhandled : e.Handled
        · refine iff_of_true ⟨{ record with
            status := some "protocol-error", error := some e.text,
            logSha256 := logHashes env case child }, ?_,
            ⟨"protocol-error", by simp [recordStatuses], rfl⟩, hhashes, fun _ => rfl⟩
            (raisesOnly_error hhandled).not_escapes
          rw [runCase, hbody]
          dsimp only
          rw [handleException_of_handled hhandled]
          rfl
        · refine iff_of_false ?_ (not_not.mpr ⟨e, rfl, hhandled⟩)
          rintro ⟨_, hok, _⟩
          have hnot := hnotOs e rfl
          rw [runCase, hbody] at hok
          cases e <;> first | exact hhandled trivial | exact hnot trivial | cases hok
    · have hrun : ¬RunEscapes env case child stdout := fun h => hreported h.1
      refine iff_of_true ?_ hrun
      have hnoBad : BadResults env case child stdout → False := fun h => hreported h.1
      rcases @runBody_of_not_reported env case child (fun exit h => hreported ⟨exit, h⟩) with
        hok | ⟨message, hos⟩
      · obtain ⟨status, hmem, hstatus⟩ := runBody_status hok
        rw [hbody] at hok hstatus
        obtain rfl : outcome = .ok () := hok
        refine ⟨{ record with logSha256 := logHashes env case child }, ?_,
          ⟨status, hmem, hstatus⟩, hhashes, fun h => (hnoBad h).elim⟩
        rw [runCase, hbody]
        rfl
      · rw [hbody] at hos
        obtain rfl : outcome = .error (.osError message) := hos
        refine ⟨{ record with
          status := some "unsupported", error := some message, exitCode := none,
          timedOut := some false, wallSeconds := none,
          logSha256 := logHashes env case child }, ?_,
            ⟨"unsupported", by simp [recordStatuses], rfl⟩,
          hhashes, fun h => (hnoBad h).elim⟩
        rw [runCase, hbody]
        rfl

/-- With both logs in place a run is recorded as promised unless it prints a record whose
validation raises `OverflowError` or `ZeroDivisionError`. -/
theorem runCase_recorded_iff (env : RunnerEnv) (case : Case) (exit : Except String ProcessExit)
    (stdout stderr : List Byte) :
    Recorded env case ⟨exit, some stdout, some stderr⟩ stdout stderr ↔
      ¬RunEscapes env case ⟨exit, some stdout, some stderr⟩ stdout :=
  recorded_iff rfl rfl

/-- A single result line without boundaries in it. -/
theorem resultTexts_single {l : List Char} (h : ∀ c ∈ l, isLineBoundary c = false) :
    resultTexts (String.ofList (resultPrefix.toList ++ l)) = [String.ofList l] := by
  have hmarker : ∀ c ∈ resultPrefix.toList, isLineBoundary c = false := by decide +kernel
  have hne : resultPrefix.toList ++ l ≠ [] := by simp [resultPrefix]
  have hall : ∀ c ∈ resultPrefix.toList ++ l, isLineBoundary c = false := fun c hc =>
    (List.mem_append.mp hc).elim (hmarker c) (h c)
  rw [resultTexts, String.toList_ofList, splitLines_of_forall hne hall, List.filter_cons_of_pos
    (by simp), List.filter_nil, List.map_singleton, ← String.length_toList, List.drop_left]

/-- A character a log keeps on its line and as one byte. -/
def IsPlain (c : Char) : Prop := isLineBoundary c = false ∧ Char.ofNat (c.toNat % 256) = c

instance (c : Char) : Decidable (IsPlain c) := inferInstanceAs (Decidable (_ ∧ _))

/-- Printable ASCII is plain. -/
theorem isPlain_of_printable {c : Char} (h : 32 ≤ c.toNat ∧ c.toNat < 127) : IsPlain c := by
  constructor
  · rw [← Bool.not_eq_true]
    intro hboundary
    simp only [isLineBoundary, Bool.or_eq_true, beq_iff_eq] at hboundary
    rcases hboundary with ((((((((rfl | rfl) | rfl) | rfl) | rfl) | rfl) | rfl) | rfl) | rfl) | rfl
    all_goals exact absurd h (by decide)
  · rw [Nat.mod_eq_of_lt (by omega), Char.ofNat_toNat]

/-- One result line, in ASCII. -/
def printedStdout (text : List Char) : List Byte :=
  (resultPrefix.toList ++ text).map fun c => BitVec.ofNat 8 c.toNat

/-- Reads ASCII, and decodes the one text printed there. -/
def printedEnv (fr : FloatReading) (text : List Char) (value : Json) : RunnerEnv where
  fr := fr
  sha256 _ := ""
  readText bytes := String.ofList (bytes.map fun b => Char.ofNat b.toNat)
  jsonLoads read :=
    if read = String.ofList text then .ok value
    else .error "Expecting value: line 1 column 1 (char 0)"

/-- Plain text survives the bytes of a log. -/
theorem map_ofNat_map_byte {l : List Char} (h : ∀ c ∈ l, IsPlain c) :
    (l.map fun c => BitVec.ofNat 8 c.toNat).map (fun b => Char.ofNat b.toNat) = l := by
  induction l with
  | nil => rfl
  | cons c l ih =>
    obtain ⟨hc, hl⟩ := List.forall_mem_cons.mp h
    rw [List.map_cons, List.map_cons, ih hl, BitVec.toNat_ofNat]
    exact congrArg (· :: l) hc.2

/-- The entry of a printed plain text. -/
theorem printed_entries (fr : FloatReading) {text : List Char} (h : ∀ c ∈ text, IsPlain c)
    (value : Json) : EntriesOf (printedEnv fr text value) (printedStdout text) [value] := by
  have hmarker : ∀ c ∈ resultPrefix.toList, IsPlain c := by decide +kernel
  have hread : (printedEnv fr text value).readText (printedStdout text) =
      String.ofList (resultPrefix.toList ++ text) :=
    congrArg String.ofList (map_ofNat_map_byte fun c hc =>
      (List.mem_append.mp hc).elim (hmarker c) (h c))
  rw [EntriesOf, hread, resultTexts_single fun c hc => (h c hc).1]
  exact List.Forall₂.cons (by simp [printedEnv]) List.Forall₂.nil

/-- The text of a 1×1 record of ones, up to its results. -/
def onesRecordText : List String :=
  ["\x7b\"status\": \"pass\", ", "\"validation_stage\": \"C3\", ", "\"backend\": \"ttsim\", ",
    "\"upstream_commit\": ", "\"89e1256c982a5b4739d173bcc446c8c748a44b40\", ",
    "\"compiled_source_commit\": ", "\"aaaaaaaaaaaaaaaaaaaaaaaaaaaaaaaaaaaaaaaa\", ",
    "\"rows\": 1, \"cols\": 1, ", "\"nodes\": 1, \"pattern\": \"ones\", ",
    "\"seed\": 1, \"repeat_index\": 0, ", "\"repeat_count\": 1, ",
    "\"input_layout_verified_against_upstream\": ", "true, ",
    "\"input_quantization_verified_against_upstream\": ", "true, ",
    "\"quantized_bits_encoding\": ", "\"logical_row_major_bf16_little_endian\", ",
    "\"quantized_bits_hex\": \"803f\", ", "\"output_bits_encoding\": ",
    "\"tile_face_bf16_little_endian\", ", "\"actual\": ["]

/-- The record of ones with a first result of `10 ^ 400`. -/
def largeIntegerText : List Char :=
  onesRecordText.flatMap String.toList ++ ('1' :: List.replicate 400 '0' ++ [']', '}'])

def largeIntegerFields : List (String × Json) :=
  [("status", .str "pass"), ("validation_stage", .str "C3"), ("backend", .str "ttsim"),
    ("upstream_commit", .str "89e1256c982a5b4739d173bcc446c8c748a44b40"),
    ("compiled_source_commit", .str "aaaaaaaaaaaaaaaaaaaaaaaaaaaaaaaaaaaaaaaa"), ("rows", .int 1),
    ("cols", .int 1), ("nodes", .int 1), ("pattern", .str "ones"), ("seed", .int 1),
    ("repeat_index", .int 0), ("repeat_count", .int 1),
    ("input_layout_verified_against_upstream", .bool true),
    ("input_quantization_verified_against_upstream", .bool true),
    ("quantized_bits_encoding", .str "logical_row_major_bf16_little_endian"),
    ("quantized_bits_hex", .str "803f"),
    ("output_bits_encoding", .str "tile_face_bf16_little_endian"),
    ("actual", .list [.int (10 ^ 400)])]

def onesCase : Case :=
  { caseId := "m1_n1_ones", rows := 1, cols := 1, pattern := "ones", seed := 1 }

private theorem largeIntegerText_plain : ∀ c ∈ largeIntegerText, IsPlain c := by
  have hrecord : ∀ piece ∈ onesRecordText, ∀ c ∈ piece.toList,
      32 ≤ c.toNat ∧ c.toNat < 127 := by decide +kernel
  intro c hc
  simp only [largeIntegerText, List.mem_append, List.mem_flatMap, List.mem_cons,
    List.mem_replicate, List.not_mem_nil, or_false] at hc
  rcases hc with ⟨piece, hpiece, hc⟩ | (rfl | ⟨_, rfl⟩) | rfl | rfl
  · exact isPlain_of_printable (hrecord piece hpiece c hc)
  all_goals decide

private theorem largeInteger_header : HeaderMatches largeIntegerFields onesCase 0 .ones
    "aaaaaaaaaaaaaaaaaaaaaaaaaaaaaaaaaaaaaaaa" where
  rows := rfl
  cols := rfl
  repeatIndex := rfl
  pattern := rfl
  first _ := rfl
  seed := rfl
  backend := rfl
  stage := rfl
  sourceCommit := rfl
  isCommit := by decide +kernel
  nodes := rfl
  repeatCount := rfl
  upstream := rfl
  inputEncoding := rfl
  outputEncoding := rfl
  layoutVerified := rfl
  quantizationVerified := rfl

/-- A well-formed record whose first result is a 401-digit integer is not recorded. -/
theorem not_recorded_largeInteger :
    ¬Recorded (printedEnv .ieee largeIntegerText (.dict largeIntegerFields)) onesCase
      ⟨.ok ⟨0, false, 1⟩, some (printedStdout largeIntegerText), some []⟩
      (printedStdout largeIntegerText) [] := by
  rw [recorded_iff rfl rfl, not_not]
  refine ⟨⟨_, rfl, rfl, by decide⟩, _, printed_entries _ largeIntegerText_plain _, rfl, 0, _, rfl,
    ⟨largeIntegerFields, .ones, _, [0x3f80#16], rfl, largeInteger_header, ⟨⟨"803f", rfl, ?_, ?_⟩,
      regenerated_patternWord (by decide) 1 1 1⟩, Or.inl ⟨[], 10 ^ 400, [], rfl, rfl, by simp, ?_⟩⟩,
    by simp⟩
  · decide
  · decide
  · decide +kernel

end RowReduce
