import RowReduce.Correctness.DocumentFormat
import RowReduce.Correctness.SourceBinding
import RowReduce.Runner.Recording

/-!
# Recorded processes

The logs hold what their processes wrote, the record file has one line for each
process, and a document that is read back was written whole.
-/

namespace RowReduce

open Fallible Hexadecimal Journal

/-- The name of a log, character by character. -/
theorem logName_toList (caseId : String) (channel : Channel) : (logName caseId channel).toList =
    "raw/".toList ++ (caseId.toList ++ channel.suffix.toList) := by
  rw [logName, String.toList_append, String.toList_append, List.append_assoc]

/-- A log has no name outside its directory. -/
theorem logName_ne {name : String} (h : ¬"raw/".toList <+: name.toList) (caseId : String)
    (channel : Channel) : logName caseId channel ≠ name := by
  rintro rfl
  exact h ⟨_, (logName_toList caseId channel).symm⟩

/-- Cases with other names have other logs. -/
theorem logName_inj {caseId other : String} {channel last : Channel}
    (h : logName caseId channel = logName other last) : caseId = other ∧ channel = last := by
  have htext := congrArg String.toList h
  rw [logName_toList, logName_toList, List.append_cancel_left_eq] at htext
  have hlength : channel.suffix.toList.length = last.suffix.toList.length := by
    cases channel <;> cases last <;> simp [Channel.suffix]
  obtain ⟨hid, hsuffix⟩ := List.append_inj' htext hlength
  refine ⟨String.ext hid, ?_⟩
  cases channel <;> cases last <;> simp_all [Channel.suffix]

section Process

variable {caseId name : String} {child : Child} {d : Disk}

/-- A process writes to its own logs. -/
theorem Child.avoids_writes (h : ∀ channel, logName caseId channel ≠ name) :
    Avoids name (child.writes caseId) := by
  cases child with
  | unopened stdout error =>
    cases stdout
    · simp [Child.writes, Avoids]
    · simpa [Child.writes, Avoids, Effect.name] using h .stdout
  | notStarted error => simpa [Child.writes, Avoids, Effect.name] using ⟨h .stdout, h .stderr⟩
  | ended exit writes =>
    refine List.forall_mem_cons.mpr ⟨h .stdout, List.forall_mem_cons.mpr ⟨h .stderr, ?_⟩⟩
    intro e he
    obtain ⟨p, _, rfl⟩ := List.mem_map.mp he
    exact h p.1

/-- The log of a channel holds what the process wrote to it, in any interleaving. -/
theorem appended_writes (caseId : String) (channel : Channel) (writes : List (Channel × Byte)) :
    appended (logName caseId channel)
      (writes.map fun p => (Effect.append (logName caseId p.1) p.2 : Write)) =
        written channel writes := by
  induction writes with
  | nil => rfl
  | cons p writes ih =>
    rw [written] at ih ⊢
    rw [List.map_cons, appended, List.flatMap_cons, Effect.adds]
    change _ ++ appended _ _ = _
    rw [ih]
    by_cases hp : p.1 = channel
    · rw [if_pos (by rw [hp]), List.filter_cons_of_pos (by simpa using hp)]
      rfl
    · rw [if_neg fun h => hp (logName_inj h).2, List.filter_cons_of_neg (by simpa using hp)]
      rfl

private theorem untouched_writes (name caseId : String) (writes : List (Channel × Byte)) :
    Untouched name (writes.map fun p => (Effect.append (logName caseId p.1) p.2 : Write)) := by
  intro e he
  obtain ⟨p, _, rfl⟩ := List.mem_map.mp he
  exact fun heq => by cases heq

/-- After a process that ended, its logs hold what it wrote. -/
theorem lookup_log {before after : List Write} {exit : ProcessExit}
    {writes : List (Channel × Byte)} (channel : Channel)
    (hafter : Avoids (logName caseId channel) after) :
    (Journal.run d (before ++ ((Child.ended exit writes).writes caseId ++ after))).lookup
      (logName caseId channel) = some (written channel writes) := by
  have happended : appended (logName caseId channel)
      ((writes.map fun p => (Effect.append (logName caseId p.1) p.2 : Write)) ++ after) =
        written channel writes := by
    rw [appended_append, appended_writes, appended_of_avoids hafter, List.append_nil]
  have huntouched :=
    (untouched_writes (logName caseId channel) caseId writes).append hafter.untouched
  cases channel with
  | stdout =>
    have hother : Untouched (logName caseId .stdout)
        [(Effect.create (logName caseId .stderr) : Write)] := by
      intro e he
      rw [List.mem_singleton.mp he]
      exact fun heq => by cases (logName_inj (Effect.create.inj heq)).2
    have hlookup := @lookup_run_create _ _ _ _ d before _ (hother.append huntouched)
    rw [appended_append, happended] at hlookup
    exact hlookup
  | stderr =>
    have hmove : before ++ ((Child.ended exit writes).writes caseId ++ after) =
        (before ++ [Effect.create (logName caseId .stdout)]) ++
          Effect.create (logName caseId .stderr) ::
            ((writes.map fun p => (Effect.append (logName caseId p.1) p.2 : Write)) ++ after) := by
      simp [Child.writes]
    rw [hmove, lookup_run_create huntouched, happended]

end Process

section Loop

variable {ι ρ : Type} {file name : String} {writes : ι → List Write}
  {line : ι → Except PyException (ρ × List Byte)} {item : ι} {items : List ι}

/-- One pass of the loop that gets its line. -/
theorem recordLines_cons_of_ok {entry : ρ × List Byte} (h : line item = .ok entry)
    (items : List ι) :
    recordLines file writes line (item :: items) =
      (writes item ++ (appendText file entry.2 ++ (recordLines file writes line items).1),
      (recordLines file writes line items).2.map (entry.1 :: ·)) := by
  rw [recordLines, h]

/-- A failed line ends the loop. -/
theorem recordLines_cons_of_error {e : PyException} (h : line item = .error e) (items : List ι) :
    recordLines file writes line (item :: items) = (writes item, .error e) := by
  rw [recordLines, h]

/-- The processes and their lines leave every other file alone. -/
theorem avoids_recordLines (hfile : file ≠ name)
    (hwrites : ∀ item ∈ items, Avoids name (writes item)) :
    Avoids name (recordLines file writes line items).1 := by
  induction items with
  | nil => exact fun e he => absurd he List.not_mem_nil
  | cons item items ih =>
    obtain ⟨hitem, hitems⟩ := List.forall_mem_cons.mp hwrites
    cases hline : line item with
    | error e => rwa [recordLines_cons_of_error hline]
    | ok entry =>
      rw [recordLines_cons_of_ok hline]
      exact avoids_append_iff.mpr ⟨hitem,
        avoids_append_iff.mpr ⟨avoids_appendText hfile _, ih hitems⟩⟩

/-- Recording lines only appends to the file. -/
theorem untouched_recordLines (hwrites : ∀ item ∈ items, Avoids file (writes item)) :
    Untouched file (recordLines file writes line items).1 := by
  induction items with
  | nil => exact fun e he => absurd he List.not_mem_nil
  | cons item items ih =>
    obtain ⟨hitem, hitems⟩ := List.forall_mem_cons.mp hwrites
    cases hline : line item with
    | error e =>
      rw [recordLines_cons_of_error hline]
      exact hitem.untouched
    | ok entry =>
      rw [recordLines_cons_of_ok hline]
      exact hitem.untouched.append ((untouched_appendText _ _ _).append (ih hitems))

/-- A completed loop has one line for each case, in order. -/
theorem exists_entries (hwrites : ∀ item ∈ items, Avoids file (writes item)) {records : List ρ}
    (h : (recordLines file writes line items).2 = .ok records) :
    ∃ entries : List (ρ × List Byte),
      List.Forall₂ (fun item entry => line item = .ok entry) items entries ∧
      records = entries.map Prod.fst ∧
      appended file (recordLines file writes line items).1 = entries.flatMap Prod.snd := by
  induction items generalizing records with
  | nil =>
    obtain rfl := Except.ok.inj h
    exact ⟨[], .nil, rfl, rfl⟩
  | cons item items ih =>
    obtain ⟨hitem, hitems⟩ := List.forall_mem_cons.mp hwrites
    cases hline : line item with
    | error e =>
      rw [recordLines_cons_of_error hline] at h
      cases h
    | ok entry =>
      rw [recordLines_cons_of_ok hline] at h ⊢
      cases hrest : (recordLines file writes line items).2 with
      | error e => rw [hrest] at h; cases h
      | ok rest =>
        rw [hrest] at h
        obtain rfl := Except.ok.inj h
        obtain ⟨entries, hentries, rfl, happended⟩ := ih hitems hrest
        refine ⟨entry :: entries, .cons hline hentries, rfl, ?_⟩
        rw [appended_append, appended_of_avoids hitem, appended_append, appended_appendText,
          happended]
        rfl

/-- After a completed loop a file that one case writes holds what that case left. -/
theorem lookup_recordLines {d : Disk} {before after : List Write} {records : List ρ}
    {content : Option (List Byte)} (hnodup : items.Nodup)
    (h : (recordLines file writes line items).2 = .ok records) (hmem : item ∈ items)
    (hfile : file ≠ name) (hothers : ∀ other ∈ items, other ≠ item → Avoids name (writes other))
    (hitem : ∀ before after, Avoids name after →
      (Journal.run d (before ++ (writes item ++ after))).lookup name = content)
    (hafter : Avoids name after) :
    (Journal.run d (before ++ ((recordLines file writes line items).1 ++ after))).lookup name =
      content := by
  induction items generalizing before records with
  | nil => exact absurd hmem List.not_mem_nil
  | cons other items ih =>
    rw [List.nodup_cons] at hnodup
    obtain ⟨hother, hrest⟩ := List.forall_mem_cons.mp hothers
    cases hline : line other with
    | error e =>
      rw [recordLines_cons_of_error hline] at h
      cases h
    | ok entry =>
      rw [recordLines_cons_of_ok hline] at h ⊢
      cases hok : (recordLines file writes line items).2 with
      | error e => rw [hok] at h; cases h
      | ok rest =>
        rcases List.mem_cons.mp hmem with rfl | hmem
        · have hlater : Avoids name (recordLines file writes line items).1 :=
            avoids_recordLines hfile fun c hc => hrest c hc fun heq => hnodup.1 (heq ▸ hc)
          rw [List.append_assoc]
          exact hitem _ _ (avoids_append_iff.mpr ⟨avoids_append_iff.mpr
            ⟨avoids_appendText hfile _, hlater⟩, hafter⟩)
        · rw [← List.append_assoc before]
          simp only [← List.append_assoc]
          rw [List.append_assoc _ _ after]
          exact ih hnodup.2 hok hmem hrest

/-- Where every case gets a line, the loop completes. -/
theorem recordLines_of_forall {P : ρ → Prop}
    (h : ∀ item ∈ items, ∃ entry, line item = .ok entry ∧ P entry.1) :
    ∃ records, (recordLines file writes line items).2 = .ok records ∧
      records.length = items.length ∧ ∀ record ∈ records, P record := by
  induction items with
  | nil => exact ⟨[], rfl, rfl, by simp⟩
  | cons item items ih =>
    obtain ⟨⟨entry, hentry, hitem⟩, hitems⟩ := List.forall_mem_cons.mp h
    obtain ⟨records, hrecords, hlength, hall⟩ := ih hitems
    refine ⟨entry.1 :: records, ?_, congrArg (· + 1) hlength,
      List.forall_mem_cons.mpr ⟨hitem, hall⟩⟩
    rw [recordLines_cons_of_ok hentry, hrecords]
    rfl

end Loop

section Finite

variable {repr : ℚ → String} {style : JsonStyle}

/-- Items are finite where each of them is. -/
theorem itemsFinite_iff {items : List Json} :
    itemsFinite items = true ↔ ∀ item ∈ items, item.allFinite = true := by
  induction items with
  | nil => simp [itemsFinite]
  | cons item items ih => simp [itemsFinite, ih]

/-- Fields are finite where each of their values is. -/
theorem fieldsFinite_iff {fields : List (String × Json)} :
    fieldsFinite fields = true ↔ ∀ p ∈ fields, p.2.allFinite = true := by
  induction fields with
  | nil => simp [fieldsFinite]
  | cons p fields ih =>
    obtain ⟨key, value⟩ := p
    rw [fieldsFinite, fieldFinite, Bool.and_eq_true, List.forall_mem_cons, ih]

/-- Counts are finite. -/
theorem counter_allFinite (statuses : List String) :
    (Json.dict (counter statuses)).allFinite = true := by
  rw [Json.allFinite, fieldsFinite_iff]
  intro p hp
  obtain ⟨s, _, rfl⟩ := List.mem_map.mp hp
  rfl

/-- A finite value has a line. -/
theorem exists_dumpLine {value : Json} (h : value.allFinite = true) :
    ∃ bytes, dumpLine repr style value = .ok bytes := by
  rw [dumpLine, jsonDumps, h, Bool.or_true]
  exact ⟨_, rfl⟩

/-- The line of a value is its text and a line feed. -/
theorem dumpLine_eq_ok {value : Json} {bytes : List Byte}
    (h : dumpLine repr style value = .ok bytes) :
    bytes = asciiBytes (dumpValue repr style 0 value ++ ['\n']) := by
  rw [dumpLine, jsonDumps] at h
  split_ifs at h with hfinite
  rw [← Except.ok.inj h, String.toList_ofList]

end Finite

section Documents

variable {repr : ℚ → String} {style : JsonStyle} {d : Disk} {name : String}
  {fields : List (String × Json)} {before : List Write}

private theorem foldl_countKey_nodup {statuses seen : List String} (h : seen.Nodup) :
    (statuses.foldl countKey seen).Nodup := by
  induction statuses generalizing seen with
  | nil => exact h
  | cons s statuses ih =>
    refine ih ?_
    unfold countKey
    split_ifs with hs
    · exact h
    · exact List.nodup_append.mpr ⟨h, List.nodup_singleton s, by
        intro a ha b hb heq
        rw [List.mem_singleton.mp hb] at heq
        exact hs (heq ▸ ha)⟩

/-- Counts can be written. -/
theorem counter_dumpable (statuses : List String) :
    (Json.dict (counter statuses)).Dumpable repr none := by
  rw [Json.Dumpable, fieldsDumpable_iff]
  constructor
  · rw [counter, List.map_map]
    change (List.map id _).Nodup
    rw [List.map_id]
    exact foldl_countKey_nodup List.nodup_nil
  · intro p hp
    obtain ⟨s, _, rfl⟩ := List.mem_map.mp hp
    rw [Json.Dumpable.eq_def]
    simp

/-- What `float.__repr__` promises: ASCII, and every double reads back. -/
structure ReprReads (repr : ℚ → String) : Prop where
  ascii : ∀ q, IsAscii (repr q).toList
  reads : ∀ q, IsDouble q → NumeralReads (repr q).toList (.float (.finite q))

/-- A document as a reader without a bound on digits decodes it; what the runners write is ASCII. -/
def readDocument (d : Disk) (name : String) : Option Json :=
  (d.lookup name).bind fun bytes => jsonLoads none (String.ofList (asciiText bytes))

private theorem isAscii_document (hrepr : ReprReads repr) (style : JsonStyle) (value : Json) :
    IsAscii (dumpValue repr style 0 value ++ ['\n']) :=
  isAscii_append.mpr ⟨isAscii_dumpValue hrepr.ascii style _ 0, by decide⟩

/-- What is read of a written object, torn or whole, is the object. -/
theorem jsonLoads_torn (hrepr : ReprReads repr) (style : JsonStyle)
    (hdump : (Json.dict fields).Dumpable repr none) {content : List Byte}
    (hcontent : content <+: asciiBytes (dumpValue repr style 0 (.dict fields) ++ ['\n'])) {v : Json}
    (hread : jsonLoads none (String.ofList (asciiText content)) = some v) : v = .dict fields := by
  have hascii := isAscii_document hrepr style (.dict fields)
  have hcut : content = asciiBytes
      ((dumpValue repr style 0 (.dict fields) ++ ['\n']).take content.length) := by
    rw [asciiBytes, List.map_take]
    exact List.prefix_iff_eq_take.mp hcontent
  rw [hcut, asciiText_asciiBytes (hascii.take _)] at hread
  exact (jsonLoads_interrupted style hdump (Or.inr ⟨fields, rfl⟩) (by decide) (List.take_prefix _ _)
    hread).1

/-- A file that is not opened is not read. -/
theorem readDocument_of_avoids {effects : List Write} (hnew : d.lookup name = none)
    (h : Avoids name effects) (cut : ℕ) :
    readDocument (Journal.run d (effects.take cut)) name = none := by
  rw [readDocument, lookup_run_of_avoids fun e he => h e (List.mem_of_mem_take he), hnew]
  rfl

/-- A document written last is read whole, after all the rest. -/
theorem readDocument_writeText (hrepr : ReprReads repr)
    (hdump : (Json.dict fields).Dumpable repr none) (hnew : d.lookup name = none)
    (hbefore : Avoids name before) {cut : ℕ} {v : Json}
    (hread : readDocument (Journal.run d ((before ++ writeText name
      (asciiBytes (dumpValue repr style 0 (.dict fields) ++ ['\n']))).take cut)) name = some v) :
    v = .dict fields ∧ ∃ content, Journal.run d ((before ++ writeText name
      (asciiBytes (dumpValue repr style 0 (.dict fields) ++ ['\n']))).take cut) =
        Journal.run d (before ++ writeText name content) := by
  rw [readDocument, Option.bind_eq_some_iff] at hread
  obtain ⟨content, hlookup, hread⟩ := hread
  obtain ⟨hcontent, hrun⟩ := exists_of_lookup_run_take hnew hbefore hlookup
  exact ⟨jsonLoads_torn hrepr style hdump hcontent hread, content, hrun⟩

/-- A document written whole is read. -/
theorem readDocument_written (hrepr : ReprReads repr)
    (hdump : (Json.dict fields).Dumpable repr none) : readDocument (Journal.run d (before ++
      writeText name (asciiBytes (dumpValue repr style 0 (.dict fields) ++ ['\n'])))) name =
        some (.dict fields) := by
  have hlookup := @lookup_run_writeText _ _ _ name d before [] (by simp [Avoids])
    (asciiBytes (dumpValue repr style 0 (.dict fields) ++ ['\n']))
  rw [List.append_nil] at hlookup
  rw [readDocument, hlookup, Option.bind_some,
    asciiText_asciiBytes (isAscii_document hrepr style _)]
  exact jsonLoads_dumpValue style hdump (by decide)

end Documents

/-- An unchanged tree hash means unchanged source files, unless hashes collide. -/
theorem unchangedSince_eq_ok_true {sha256 : List Byte → String} {source : SourceView}
    {binarySha256 : String} {sourceAfter : Except String SourceView}
    {binaryAfter : Except String (List Byte)}
    (h : unchangedSince sha256 source binarySha256 sourceAfter binaryAfter = .ok true) :
    ∃ final raw, sourceAfter = .ok final ∧ binaryAfter = .ok raw ∧ sha256 raw = binarySha256 ∧
      ((∀ p, p ∈ final.tree.selected ↔ p ∈ source.tree.selected) ∨
        SourceTree.Collide sha256 final.tree source.tree) := by
  unfold unchangedSince at h
  obtain ⟨final, hfinal, h⟩ := bind_eq_ok_iff.mp h
  split_ifs at h with htree
  · obtain ⟨raw, hraw, h⟩ := bind_eq_ok_iff.mp h
    exact ⟨final, raw, hfinal, hraw, of_decide_eq_true (Except.ok.inj h),
      SourceTree.selected_iff_of_treeSha256_eq htree⟩
  · cases h

end RowReduce
