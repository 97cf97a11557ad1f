import RowReduce.Core.Alternation
import RowReduce.Correctness.RecordedExecution

/-!
# What a passed audit certifies

Each accepted record is one process of a requested case, with two logs of its own
and the executions its standard output states. Over a whole audit the processes are
the requested cases, once each, and one compiled commit states all their executions.
-/

namespace RowReduce.Audit

open Alternation BinaryFloat Fallible Grid Hexadecimal

/-! ## Executions -/

/-- One execution: its pattern, its uploaded and its returned words, and the compiled commit. -/
structure Execution where
  pattern : Pattern
  inputs : List Bf16Word
  outputs : List Bf16Word
  commit : String

/-- The values of an uploaded row. -/
def Execution.row (x : Execution) (cols : ℕ) (r : ℕ) : List ℚ :=
  rowValues (wordValues x.inputs) cols r

/-- The returned words hold the row sums of the uploaded ones, within the budget of the pattern,
and zeros everywhere else. -/
structure Execution.Reduces (x : Execution) (rows cols : ℕ) : Prop where
  inputLength : x.inputs.length = rows * cols
  contract : ∀ w ∈ x.inputs, InContract w
  table : x.pattern ≠ .random → x.inputs =
    (positions rows cols).map fun q => patternWord rows cols q.1 q.2 x.pattern
  outputLength : x.outputs.length = padded rows * 32
  padding : PaddingZero rows x.outputs
  within : ∀ r < rows, ∃ q, bf16Value (outputWord x.outputs r 0) = .finite q ∧
    |q - (x.row cols r).sum| ≤ rowLimit x.pattern cols (x.row cols r)

/-- A host line states an execution. -/
structure Execution.Stated (x : Execution) (e : Expected) (entry : Json × ℕ) : Prop where
  fields : ∃ fields, entry.1 = .dict fields ∧
    (∀ q ∈ hostFields e.rows e.cols x.pattern.name e.seed e.count entry.2,
      Json.get fields q.1 = q.2) ∧
    HexWords (Json.get fields "quantized_bits_hex") x.inputs ∧
    HexWords (Json.get fields "output_tiled_bits_hex") x.outputs ∧
    Json.get fields "compiled_source_commit" = .str x.commit
  commit : isCommit x.commit = true
  reduces : x.Reduces e.rows.toNat e.cols.toNat

/-- The pattern after an execution is ones, unless these were just
uploaded, and the words change. -/
structure Execution.Follows (x y : Execution) : Prop where
  pattern : y.pattern.name = if x.inputs.all (· == 0x3f80) then "zero" else "ones"
  inputs : x.inputs ≠ y.inputs

private theorem expectedCases_shape : ∀ e ∈ expectedCases, 1 ≤ e.rows ∧ 1 ≤ e.cols := by decide

/-- A checked execution is one that reduces its inputs. -/
theorem HostChecks.reduces {fr : FloatReading} {fields : List (String × Json)} {rows cols : ℕ}
    {p : Pattern} {seed repeats : ℤ} {index : ℕ} {inputs outputs : List Bf16Word}
    {actual : List ℚ} (h : HostChecks fr fields rows cols p seed repeats index inputs
      outputs actual)
    (commit : String) : (Execution.mk p inputs outputs commit).Reduces rows cols where
  inputLength := h.inputLength
  contract := h.contract
  table := h.table
  outputLength := h.outputLength
  padding := h.padding
  within r hr := by
    obtain ⟨refs, errors, limits, _, _, _, hchecks⟩ := h.vectors
    have hmem := outputWord_mem h.outputLength (hr.trans_le (le_padded rows))
      (by norm_num : 0 < 32)
    refine ⟨_, FloatValue.eq_finite_toRat (h.finite _ hmem), ?_⟩
    have hrow := hchecks r hr
    rw [Option.some.inj hrow.readback]
    exact hrow.within

/-- An audited line states its execution. -/
theorem auditLine_eq_ok {env : AuditEnv} {e : Expected} (hshape : 1 ≤ e.rows ∧ 1 ≤ e.cols)
    {pattern : String} {index : ℕ} {host : Json} {commit : String} {audited : Audited}
    (h : auditLine env e.rows e.cols pattern e.seed e.count index host = .ok (commit, audited)) :
    ∃ x : Execution, x.Stated e (host, index) ∧ pattern = x.pattern.name ∧ commit = x.commit ∧
      audited.inputWords = x.inputs.map BitVec.toNat := by
  obtain ⟨hrows, hcols⟩ := hshape
  obtain ⟨rows, hrows'⟩ : ∃ rows : ℕ, e.rows = rows := ⟨e.rows.toNat, by omega⟩
  obtain ⟨cols, hcols'⟩ : ∃ cols : ℕ, e.cols = cols := ⟨e.cols.toNat, by omega⟩
  obtain ⟨fields, hfields, h⟩ := bind_eq_ok_iff.mp h
  obtain ⟨found, hhost, h⟩ := bind_eq_ok_iff.mp h
  obtain ⟨value, hvalue, h⟩ := bind_eq_ok_iff.mp h
  obtain ⟨rfl, rfl⟩ := Prod.mk.inj (Except.ok.inj h)
  rw [py_eq_ok_iff, hrows', hcols'] at hhost
  obtain ⟨p, inputs, outputs, actual, rfl, hchecks, rfl⟩ :=
    (auditHost_eq_ok_iff (by omega)).mp hhost
  obtain ⟨commit, hcommit, hhex⟩ := hchecks.commit
  have hobject : host = .dict fields := by
    cases host <;> simp_all [objectOf]
  rw [py_eq_ok_iff, item_eq_ok_iff] at hvalue
  have htext : value = .str commit := by
    rw [Json.get, hvalue] at hcommit
    exact hcommit
  refine ⟨⟨p, inputs, outputs, commit⟩, ⟨⟨fields, hobject, ?_, hchecks.input, hchecks.output,
    hcommit⟩, hhex, ?_⟩, rfl, by rw [htext]; rfl, rfl⟩
  · rw [hrows', hcols']
    exact hchecks.fields
  · rw [hrows', hcols', Int.toNat_natCast, Int.toNat_natCast]
    exact hchecks.reduces commit

/-- What the loop over the executions has collected. -/
structure ExecutionState.Holds (e : Expected) (s : AuditState) (t : ExecutionState)
    (xs : List Execution) : Prop where
  previous : t.previous.map Audited.inputWords = xs.getLast?.map fun x => x.inputs.map BitVec.toNat
  pattern : xs = [] → t.pattern = e.pattern
  first : ∀ x ∈ xs.head?, x.pattern.name = e.pattern
  chain : xs.IsChain Execution.Follows
  commits : ∀ c, c ∈ t.processCommits ↔ ∃ x ∈ xs, x.commit = c
  compiled : ∀ c, c ∈ t.compiled ↔ c ∈ s.compiled ∨ ∃ x ∈ xs, x.commit = c
  totalRows : t.totalRows = s.totalRows + xs.length * e.rows
  executions : t.executions = s.executions + xs.length

/-- The state before the first execution. -/
theorem ExecutionState.holds_start (e : Expected) (s : AuditState) :
    (ExecutionState.start e s).Holds e s [] where
  previous := rfl
  pattern _ := rfl
  first := by simp
  chain := List.isChain_nil
  commits := by simp [start]
  compiled := by simp [start]
  totalRows := by simp [start]
  executions := by simp [start]

/-- One pass of the loop adds the execution its line states. -/
theorem ExecutionState.Holds.step {env : AuditEnv} {e : Expected}
    (hshape : 1 ≤ e.rows ∧ 1 ≤ e.cols) {s : AuditState} {t t' : ExecutionState}
    {xs : List Execution} {entry : (Json × Json) × ℕ}
    (ht : t.Holds e s xs) (h : auditExecution env e t entry = .ok t') :
    ∃ x : Execution, x.Stated e (entry.1.1, entry.2) ∧ t'.Holds e s (xs ++ [x]) := by
  obtain ⟨⟨commit, audited⟩, hline, h⟩ := bind_eq_ok_iff.mp h
  obtain ⟨reported, _, h⟩ := bind_eq_ok_iff.mp h
  simp only [bind_eq_ok_iff, py_eq_ok_iff, require_eq_ok_iff, pure_eq_ok, Except.ok.injEq] at h
  obtain ⟨-, -, -, -, -, -, -, -, -, -, -, hchanged, rfl⟩ := h
  obtain ⟨x, hx, hpattern, rfl, hwords⟩ := auditLine_eq_ok hshape hline
  refine ⟨x, hx, ?_⟩
  have hlast : ∀ y ∈ xs.getLast?, y.Follows x := by
    intro y hy
    obtain ⟨previous, hprevious, hinputs⟩ : ∃ previous, t.previous = some previous ∧
        previous.inputWords = y.inputs.map BitVec.toNat := by
      have := ht.previous
      rw [Option.mem_def.mp hy] at this
      simpa using this
    rw [next, hprevious] at hpattern
    dsimp only at hpattern
    rw [hprevious, Option.map_some, hinputs, hwords] at hchanged
    refine ⟨?_, fun heq => hchanged (by rw [heq])⟩
    rw [← hpattern, hinputs, all_inputWords_eq]
  have hfirst : xs = [] → x.pattern.name = e.pattern := by
    intro hnil
    have hnone : t.previous = none := by simpa [hnil] using ht.previous
    rw [next, hnone] at hpattern
    rw [← hpattern, ht.pattern hnil]
  have hexists : ∀ c, (∃ y ∈ xs ++ [x], y.commit = c) ↔
      (∃ y ∈ xs, y.commit = c) ∨ x.commit = c := by
    simp [or_and_right, exists_or]
  exact {
    previous := by simp [hwords]
    pattern := by simp
    first := by
      intro y hy
      cases xs with
      | nil =>
        obtain rfl : x = y := by simpa using hy
        exact hfirst rfl
      | cons z xs => exact ht.first y hy
    chain := List.isChain_append.mpr ⟨ht.chain, List.isChain_singleton x, fun y hy z hz => by
      obtain rfl : x = z := by simpa using hz
      exact hlast y hy⟩
    commits := fun c => by
      rw [List.mem_insert_iff, ht.commits, hexists, @eq_comm _ c, or_comm]
    compiled := fun c => by
      rw [List.mem_insert_iff, ht.compiled, hexists, @eq_comm _ c, or_comm, or_assoc]
    totalRows := by
      rw [ht.totalRows, List.length_append, List.length_singleton]
      push_cast
      ring
    executions := by
      rw [ht.executions, List.length_append, List.length_singleton, Nat.add_assoc] }

/-- A whole run of the loop collects one execution for each line. -/
theorem holds_of_executions {env : AuditEnv} {e : Expected} (hshape : 1 ≤ e.rows ∧ 1 ≤ e.cols)
    {s : AuditState} {entries : List ((Json × Json) × ℕ)} {done : ExecutionState}
    (h : entries.foldlM (auditExecution env e) (.start e s) = .ok done) :
    ∃ xs : List Execution, List.Forall₂ (fun entry x => Execution.Stated x e (entry.1.1, entry.2))
      entries xs ∧ done.Holds e s xs := by
  have hrun := exists_of_foldlM_eq_ok
    (fun _ _ _ _ ht hstep => ExecutionState.Holds.step hshape ht hstep)
    (ExecutionState.holds_start e s) h
  simpa using hrun

/-- The words of ones are ones, and those of zero are not. -/
theorem Execution.Reduces.all_ones_iff {x : Execution} {rows cols : ℕ} (h : x.Reduces rows cols)
    (hpos : 0 < rows * cols) (hpattern : x.pattern = .ones ∨ x.pattern = .zero) :
    x.inputs.all (· == 0x3f80) = true ↔ x.pattern = .ones := by
  obtain ⟨first, hfirst⟩ : ∃ first, first ∈ x.inputs :=
    List.exists_mem_of_length_pos (h.inputLength.symm ▸ hpos)
  rcases hpattern with hx | hx
  · refine iff_of_true (List.all_eq_true.mpr fun w hw => ?_) hx
    rw [h.table (by simp [hx]), hx] at hw
    obtain ⟨q, _, rfl⟩ := List.mem_map.mp hw
    rfl
  · refine iff_of_false (fun hall => ?_) (by simp [hx])
    have hone := List.all_eq_true.mp hall first hfirst
    rw [h.table (by simp [hx]), hx] at hfirst
    obtain ⟨q, _, rfl⟩ := List.mem_map.mp hfirst
    have hword : ((0 : Bf16Word) == 0x3f80) = true := hone
    exact absurd hword (by decide)

/-- After words that are all ones come zeros, and otherwise ones. -/
theorem Execution.Follows.pattern_eq {x y : Execution} (h : x.Follows y) :
    y.pattern = if x.inputs.all (· == 0x3f80) then Pattern.zero else Pattern.ones := by
  refine Pattern.name_injective (h.pattern.trans ?_)
  split_ifs <;> rfl

/-- What follows an execution is ones or zeros. -/
theorem Execution.Follows.pattern_cases {x y : Execution} (h : x.Follows y) :
    y.pattern = .ones ∨ y.pattern = .zero := by
  have hpattern := h.pattern_eq
  split_ifs at hpattern
  · exact Or.inr hpattern
  · exact Or.inl hpattern

/-- Every execution but the first is ones or zeros. -/
theorem tail_cases {xs : List Execution} (hchain : xs.IsChain Execution.Follows) :
    ∀ x ∈ xs.tail, x.pattern = .ones ∨ x.pattern = .zero := by
  induction xs with
  | nil => exact nofun
  | cons x xs ih =>
    cases xs with
    | nil => exact nofun
    | cons y xs =>
      obtain ⟨hxy, hrest⟩ := List.isChain_cons_cons.mp hchain
      exact List.forall_mem_cons.mpr ⟨hxy.pattern_cases, ih hrest⟩

/-- From the second execution on the patterns alternate. -/
theorem isChain_alternate {rows cols : ℕ} (hpos : 0 < rows * cols) {w : Execution}
    {xs : List Execution} (hchain : (w :: xs).IsChain Execution.Follows)
    (hxs : ∀ x ∈ xs, x.Reduces rows cols) :
    xs.IsChain fun x y => y.pattern = alternate Pattern.ones Pattern.zero x.pattern := by
  induction xs generalizing w with
  | nil => exact List.isChain_nil
  | cons x xs ih =>
    obtain ⟨hfirst, hrest⟩ := List.isChain_cons_cons.mp hchain
    obtain ⟨hx, hxs⟩ := List.forall_mem_cons.mp hxs
    cases xs with
    | nil => exact List.isChain_singleton x
    | cons y xs =>
      refine List.isChain_cons_cons.mpr ⟨?_, ih hrest hxs⟩
      have hnext := (List.isChain_cons_cons.mp hrest).1.pattern
      refine Pattern.name_injective (hnext.trans ?_)
      rw [alternate]
      split_ifs with hall hpattern hpattern
      · rfl
      · exact absurd ((hx.all_ones_iff hpos hfirst.pattern_cases).mp hall) hpattern
      · exact absurd ((hx.all_ones_iff hpos hfirst.pattern_cases).mpr hpattern) hall
      · rfl

/-- The executions the audit accepts for one process: each holds its row sums, the first is of the
requested pattern and uploads its own words, and each later one uploads other words than the one
before it, zero just after words that are all ones and otherwise ones; so from the second on they
alternate. -/
theorem executions_chain {env : AuditEnv} {e : Expected} (hshape : 1 ≤ e.rows ∧ 1 ≤ e.cols)
    {s : AuditState} {entries : List (Json × Json)} {done : ExecutionState}
    (h : entries.zipIdx.foldlM (auditExecution env e) (.start e s) = .ok done) :
    ∃ xs : List Execution,
      List.Forall₂ (fun entry x => Execution.Stated x e (entry.1.1, entry.2)) entries.zipIdx xs ∧
      (∀ x ∈ xs.head?, x.pattern.name = e.pattern) ∧
      (xs.IsChain fun x y => x.inputs ≠ y.inputs ∧
        y.pattern = if x.inputs.all (· == 0x3f80) then Pattern.zero else Pattern.ones) ∧
      (∀ x ∈ xs.tail, x.pattern = .ones ∨ x.pattern = .zero) ∧
      (xs.tail.IsChain fun x y =>
        y.pattern = alternate Pattern.ones Pattern.zero x.pattern) ∧
      (∀ c, c ∈ done.processCommits ↔ ∃ x ∈ xs, x.commit = c) ∧
      done.executions = s.executions + entries.length ∧
      done.totalRows = s.totalRows + entries.length * e.rows := by
  obtain ⟨xs, hstated, hdone⟩ := holds_of_executions hshape h
  have hlength : xs.length = entries.length := by
    rw [← hstated.length_eq, List.length_zipIdx]
  have hreduces : ∀ x ∈ xs, x.Reduces e.rows.toNat e.cols.toNat := by
    intro x hx
    obtain ⟨entry, _, hentry⟩ := exists_left_of_forall₂ hstated hx
    exact hentry.reduces
  refine ⟨xs, hstated, hdone.first, hdone.chain.imp fun x y hxy => ⟨hxy.inputs, hxy.pattern_eq⟩,
    tail_cases hdone.chain, ?_, hdone.commits, by rw [hdone.executions, hlength],
    by rw [hdone.totalRows, hlength]⟩
  cases xs with
  | nil => exact List.isChain_nil
  | cons x xs =>
    have hpos : 0 < e.rows.toNat * e.cols.toNat := Nat.mul_pos (by omega) (by omega)
    exact isChain_alternate hpos hdone.chain fun y hy => hreduces y (List.mem_cons_of_mem x hy)

/-- A commit whose files are not found. -/
def showNothing (_ : String) : Except PyException (Option (List Byte)) := .ok none

private theorem showNothing_caught (object : String) :
    RaisesOnly AuditException.Caught (py (showNothing object)) :=
  raisesOnly_ok none

/-- An audit that reads no file. -/
def zeroAudit : AuditEnv where
  fr := .exact
  sha256 _ := ""
  fs := { resolve := .ok, isFile := fun _ => .ok true, readBytes := fun _ => .ok [] }
  maxDigits := none
  exhaustsStack _ := false
  dumps _ := []
  gitShow := showNothing
  gitShow_caught := showNothing_caught

def randomExpected : Expected := ⟨"m2_n3_random", 2, 3, "random", 7, 3⟩

/-- Three launches of the kernels, random numbers at first, and the executions the runner records
of them: the second and the third are of ones and zeros in turn. -/
theorem executions_chain_random : ∃ (hosts executions : List Json) (done : ExecutionState)
    (x y z : Execution),
    (RowReduce.main (kernelHost (.exact binary64) randomCase) (fun _ => none)
      (randomCase.command none)).records.map ResultRecord.toJson = hosts ∧
    (hosts.zip executions).zipIdx.foldlM (auditExecution zeroAudit randomExpected)
      (.start randomExpected {}) = .ok done ∧
    List.Forall₂ (fun entry x => Execution.Stated x randomExpected (entry.1.1, entry.2))
      (hosts.zip executions).zipIdx [x, y, z] ∧
    x.pattern = .random ∧ x.inputs ≠ y.inputs ∧ (y.pattern = .ones ∨ y.pattern = .zero) ∧
    y.inputs ≠ z.inputs ∧ z.pattern = alternate Pattern.ones Pattern.zero y.pattern ∧
    done.executions = 3 ∧ done.totalRows = 6 := by
  obtain ⟨first, hbefore, _, hmain, _, hlength, hpass⟩ :=
    exists_kernelHost_run (.exact binary64) randomCase_valid
  obtain ⟨executions, done, hrecorded, hloop⟩ := @exists_executions_of_run _ _ _ _ _ _ zeroAudit
    randomExpected projectUpstream_untilizeAgrees rfl (kernelHost_pinned _ _) hbefore rfl
    (randomCase_valid.requests none) hpass (fun _ => ⟨0, le_rfl, rfl⟩) rfl
    ⟨rfl, rfl, rfl, rfl, rfl⟩ {}
  obtain ⟨xs, hstated, hfirst, hchain, hcases, halternate, _, hexecutions, hrows⟩ :=
    executions_chain (by decide) hloop
  have hentries : (((run (kernelHost (.exact binary64) randomCase) (randomCase.options none)
      first).1.map ResultRecord.toJson).zip executions).length = 3 := by
    rw [List.length_zip, ← hrecorded.length_eq, List.length_zipIdx, List.length_map, hlength]
    rfl
  have hthree : xs.length = 3 := by
    rw [← hstated.length_eq, List.length_zipIdx, hentries]
  obtain ⟨x, y, z, rfl⟩ := List.length_eq_three.mp hthree
  rw [hentries] at hexecutions hrows
  obtain ⟨hxy, hrest⟩ := List.isChain_cons_cons.mp hchain
  have hyz := (List.isChain_cons_cons.mp hrest).1
  exact ⟨_, executions, done, x, y, z, by rw [hmain], hloop, hstated,
    Pattern.name_injective (hfirst x rfl), hxy.1, hcases y (by simp), hyz.1,
    (List.isChain_cons_cons.mp halternate).1, hexecutions, hrows⟩

/-! ## Processes -/

/-- A log as the audit reads it. -/
structure LogFile where
  path : PathParts
  bytes : List Byte

/-- A process: its case, its logs and the executions its standard output states. -/
structure Process where
  expected : Expected
  stdout : LogFile
  stderr : LogFile
  executions : List Execution

section Certified

variable (env : AuditEnv) (directory : PathParts)

/-- A record names a log inside the directory and states the hash of its bytes. -/
structure LogFile.Recorded (log : LogFile) (record : List (String × Json)) (channel : String) :
    Prop where
  name : ∃ name base, Json.get record channel = .str name ∧
    env.fs.resolve (directory ++ pathParts name) = .ok log.path ∧
    env.fs.resolve directory = .ok base ∧ Inside base log.path
  bytes : env.fs.readBytes log.path = .ok log.bytes
  hash : ∃ hashes, record.lookup "log_sha256" = some (.dict hashes) ∧
    Json.get hashes (log.path.getLast?.getD "") = .str (env.sha256 log.bytes)

/-- A record is the passing record of a process, and the logs it hashes state the executions. -/
structure Process.Certified (profiled : Bool) (identity fields : List (String × Json))
    (p : Process) :
    Prop where
  expected : p.expected ∈ expectedCases
  case : (Json.get fields "case").eq p.expected.case = true
  command : (Json.get fields "command").eq (p.expected.command profiled) = true
  identity : (Json.get fields "identity").eq (.dict identity) = true
  status : Json.get fields "status" = .str "pass"
  stdout : p.stdout.Recorded env directory fields "stdout"
  stderr : p.stderr.Recorded env directory fields "stderr"
  lines : ∃ out err hosts, decodeUtf8 p.stdout.bytes = .ok out ∧
    decodeUtf8 p.stderr.bytes = .ok err ∧
    ¬"TT_ROW_REDUCE_ERROR=".toList <:+: (out ++ err).toList ∧
    (resultTexts out).mapM (parse env) = .ok hosts ∧
    List.Forall₂ (fun entry x => Execution.Stated x p.expected entry) hosts.zipIdx p.executions
  count : p.executions.length = p.expected.count
  first : ∀ x ∈ p.executions.head?, x.pattern.name = p.expected.pattern
  chain : p.executions.IsChain Execution.Follows
  commit : ∃ commit, Json.get fields "compiled_source_commit" = .str commit ∧
    ∀ x ∈ p.executions, x.commit = commit

variable {env directory}

/-- Only an object passes the object test. -/
theorem objectOf_eq_ok_iff {value : Json} {fields : List (String × Json)} :
    objectOf value = .ok fields ↔ value = .dict fields := by
  cases value <;> simp [objectOf]

/-- Taking failures of the system for exceptions keeps the results. -/
theorem os_eq_ok_iff {α : Type} {x : Except String α} {a : α} : os x = .ok a ↔ x = .ok a := by
  cases x <;> simp [os, Except.mapError]

/-- A log that is read is recorded, and was not read before. -/
theorem readLog_eq_ok {logPaths logPaths' : List PathParts} {record : List (String × Json)}
    {channel text : String}
    (h : readLog env directory logPaths record channel = .ok (text, logPaths')) :
    ∃ log : LogFile, log.Recorded env directory record channel ∧ log.path ∉ logPaths ∧
      logPaths' = log.path :: logPaths ∧ decodeUtf8 log.bytes = .ok text := by
  obtain ⟨⟨path, raw⟩, hopen, h⟩ := bind_eq_ok_iff.mp h
  obtain ⟨text', hcheck, h⟩ := bind_eq_ok_iff.mp h
  obtain ⟨rfl, rfl⟩ := Prod.mk.inj (Except.ok.inj h)
  obtain ⟨name, hname, hopen⟩ := bind_eq_ok_iff.mp hopen
  obtain ⟨found, hfound, hopen⟩ := bind_eq_ok_iff.mp hopen
  simp only [bind_eq_ok_iff, py_eq_ok_iff, require_eq_ok_iff, os_eq_ok_iff, pure_eq_ok,
    Except.ok.injEq, Prod.mk.injEq] at hopen
  obtain ⟨-, hfresh, raw', hraw, rfl, rfl⟩ := hopen
  obtain ⟨hashes, hhashes, hcheck⟩ := bind_eq_ok_iff.mp hcheck
  simp only [bind_eq_ok_iff, py_eq_ok_iff, require_eq_ok_iff, Json.eqStr_eq_true_iff] at hcheck
  obtain ⟨-, hhash, htext⟩ := hcheck
  rw [objectOf_eq_ok_iff] at hhashes
  rw [py_eq_ok_iff, item_eq_ok_iff] at hname
  refine ⟨⟨found, raw'⟩, ⟨?_, hraw, ?_⟩, hfresh, rfl, htext⟩
  · cases name with
    | str name =>
      simp only [localFile, bind_eq_ok_iff, py_eq_ok_iff, require_eq_ok_iff, pure_eq_ok,
        Except.ok.injEq] at hfound
      obtain ⟨-, -, result, hresult, base, hbase, -, hinside, -, -, -, -, rfl⟩ := hfound
      exact ⟨name, base, by rw [Json.get, hname]; rfl, hresult, hbase, hinside⟩
    | _ => cases hfound
  · cases hlookup : record.lookup "log_sha256" with
    | none =>
      rw [hlookup] at hhashes
      obtain rfl := Json.dict.inj hhashes
      cases hhash
    | some value =>
      rw [hlookup] at hhashes
      exact ⟨hashes, congrArg some hhashes, hhash⟩

/-- The executions of a process are those its result lines state, under one commit. -/
theorem auditExecutions_eq_ok {e : Expected} (he : e ∈ expectedCases) {s : AuditState}
    {record : List (String × Json)} {out err : String} {done : ExecutionState}
    (h : auditExecutions env e s record out err = .ok done) :
    ∃ hosts xs, ¬"TT_ROW_REDUCE_ERROR=".toList <:+: (out ++ err).toList ∧
      (resultTexts out).mapM (parse env) = .ok hosts ∧
      List.Forall₂ (fun entry x => Execution.Stated x e entry) hosts.zipIdx xs ∧
      xs.length = e.count ∧ done.Holds e s xs ∧
      ∃ commit, Json.get record "compiled_source_commit" = .str commit ∧
        ∀ x ∈ xs, x.commit = commit := by
  obtain ⟨hosts, hhosts, h⟩ := bind_eq_ok_iff.mp h
  obtain ⟨reported, hreported, h⟩ := bind_eq_ok_iff.mp h
  obtain ⟨done', hloop, hcommits⟩ := bind_eq_ok_iff.mp h
  simp only [hostLines, bind_eq_ok_iff, py_eq_ok_iff, require_eq_ok_iff] at hhosts
  simp only [reportedExecutions, bind_eq_ok_iff, py_eq_ok_iff, require_eq_ok_iff, pure_eq_ok,
    Except.ok.injEq] at hreported
  simp only [checkCommits, bind_eq_ok_iff, py_eq_ok_iff, require_eq_ok_iff, pure_eq_ok,
    Except.ok.injEq] at hcommits
  obtain ⟨-, hmarker, hhosts⟩ := hhosts
  obtain ⟨-, hcount, listed, -, -, hlisted, rfl⟩ := hreported
  obtain ⟨-, ⟨same, hsame, hknown, hone⟩, rfl⟩ := hcommits
  rw [hknown] at hsame
  obtain ⟨xs, hxs, hdone⟩ := holds_of_executions (expectedCases_shape e he) hloop
  have hzip : hosts.zipIdx = (hosts.zip listed).zipIdx.map fun entry => (entry.1.1, entry.2) := by
    have hfst : (hosts.zip listed).map Prod.fst = hosts :=
      List.map_fst_zip (by rw [hcount, hlisted])
    conv_lhs => rw [← hfst, List.zipIdx_map]
    rfl
  have hstated : List.Forall₂ (fun entry x => Execution.Stated x e entry) hosts.zipIdx xs := by
    rw [hzip, List.forall₂_map_left_iff]
    exact hxs
  have hlength : xs.length = e.count := by
    rw [← hstated.length_eq, List.length_zipIdx, hcount]
  refine ⟨hosts, xs, hmarker, hhosts, hstated, hlength, hdone, ?_⟩
  obtain ⟨commit, hmem, hcommit⟩ := Json.memNames_eq_ok_true_iff.mp hsame
  obtain ⟨only, honly⟩ := List.length_eq_one_iff.mp hone
  refine ⟨commit, hcommit, fun x hx => ?_⟩
  have hx' : x.commit ∈ done'.processCommits := (hdone.commits _).mpr ⟨x, hx, rfl⟩
  rw [honly, List.mem_singleton] at hmem hx'
  rw [hx', hmem]

end Certified

/-- What the loop over the records has collected. -/
structure AuditState.Holds (s : AuditState) (ps : List Process) : Prop where
  seen : s.seen = (ps.map fun p => p.expected.name).reverse
  seenNodup : s.seen.Nodup
  logPaths : s.logPaths = (ps.flatMap fun p => [p.stdout.path, p.stderr.path]).reverse
  logPathsNodup : s.logPaths.Nodup
  totalRows : s.totalRows = (ps.map fun p => (p.expected.count : ℤ) * p.expected.rows).sum
  executions : s.executions = (ps.map fun p => p.expected.count).sum
  compiled : ∀ c, c ∈ s.compiled ↔ ∃ p ∈ ps, ∃ x ∈ p.executions, x.commit = c

/-- The state before the first record. -/
theorem AuditState.holds_nil : AuditState.Holds {} [] where
  seen := rfl
  seenNodup := List.nodup_nil
  logPaths := rfl
  logPathsNodup := List.nodup_nil
  totalRows := rfl
  executions := rfl
  compiled := by simp

section Records

variable {env : AuditEnv} {directory : PathParts} {vars identity : List (String × Json)}

/-- `TT_METAL_DEVICE_PROFILER` of the recorded environment. -/
def profiledOf (vars : List (String × Json)) : Bool :=
  (Json.get vars "TT_METAL_DEVICE_PROFILER").eqStr "1"

/-- The case of a record is a requested one that was not seen before. -/
theorem expectedOf_eq_ok {s : AuditState} {name : Json} {e : Expected}
    (h : expectedOf s name = .ok e) : e ∈ expectedCases ∧ e.name ∉ s.seen := by
  obtain ⟨known, _, h⟩ := bind_eq_ok_iff.mp h
  cases hfind : expectedCases.find? fun e => e.name == name.text with
  | none =>
    rw [hfind] at h
    cases h
  | some found =>
    rw [hfind] at h
    simp only [bind_eq_ok_iff, require_eq_ok_iff, pure_eq_ok, Except.ok.injEq] at h
    obtain ⟨-, ⟨-, hfresh⟩, rfl⟩ := h
    exact ⟨List.mem_of_find?_eq_some hfind, hfresh⟩

/-- One pass of the loop adds the process its record certifies. -/
theorem AuditState.Holds.step {s s' : AuditState} {ps : List Process} {record : Json}
    (hs : s.Holds ps) (h : auditRecord env directory vars identity s record = .ok s') :
    ∃ p : Process, (∃ fields, record = .dict fields ∧
      p.Certified env directory (profiledOf vars) identity fields) ∧ s'.Holds (ps ++ [p]) := by
  obtain ⟨fields, hfields, h⟩ := bind_eq_ok_iff.mp h
  obtain ⟨case, hcase, h⟩ := bind_eq_ok_iff.mp h
  obtain ⟨caseFields, -, h⟩ := bind_eq_ok_iff.mp h
  obtain ⟨e, hexpected, h⟩ := bind_eq_ok_iff.mp h
  obtain ⟨_, hprocess, h⟩ := bind_eq_ok_iff.mp h
  obtain ⟨time, -, h⟩ := bind_eq_ok_iff.mp h
  obtain ⟨⟨out, logPaths⟩, hout, h⟩ := bind_eq_ok_iff.mp h
  obtain ⟨⟨err, logPaths'⟩, herr, h⟩ := bind_eq_ok_iff.mp h
  obtain ⟨done, hdone, h⟩ := bind_eq_ok_iff.mp h
  obtain rfl := Except.ok.inj h
  rw [py_eq_ok_iff, subscripted_eq_ok_iff] at hfields
  rw [py_eq_ok_iff, item_eq_ok_iff] at hcase
  obtain ⟨he, hfresh⟩ := expectedOf_eq_ok (py_eq_ok_iff.mp hexpected)
  simp only [checkProcess, bind_eq_ok_iff, py_eq_ok_iff, require_eq_ok_iff,
    Json.eqStr_eq_true_iff] at hprocess
  obtain ⟨-, hmatches, -, hcommand, -, hidentity, hstatus, -⟩ := hprocess
  obtain ⟨stdout, hstdout, hfreshOut, rfl, hdecodedOut⟩ := readLog_eq_ok hout
  obtain ⟨stderr, hstderr, hfreshErr, rfl, hdecodedErr⟩ := readLog_eq_ok herr
  obtain ⟨hosts, xs, hmarker, hhosts, hstated, hcount, hcollected, hcommit⟩ :=
    auditExecutions_eq_ok he hdone
  refine ⟨⟨e, stdout, stderr, xs⟩, ⟨fields, hfields, ?_⟩, ?_⟩
  · exact {
      expected := he
      case := by rw [Json.get, hcase]; exact hmatches
      command := hcommand
      identity := hidentity
      status := hstatus
      stdout := hstdout
      stderr := hstderr
      lines := ⟨out, err, hosts, hdecodedOut, hdecodedErr, hmarker, hhosts, hstated⟩
      count := hcount
      first := hcollected.first
      chain := hcollected.chain
      commit := hcommit }
  · exact {
      seen := by simp [hs.seen]
      seenNodup := List.nodup_cons.mpr ⟨hfresh, hs.seenNodup⟩
      logPaths := by simp [hs.logPaths]
      logPathsNodup := List.nodup_cons.mpr ⟨hfreshErr, List.nodup_cons.mpr
        ⟨hfreshOut, hs.logPathsNodup⟩⟩
      totalRows := by simp [hcollected.totalRows, hs.totalRows, hcount]
      executions := by simp [hcollected.executions, hs.executions, hcount]
      compiled := fun c => by
        rw [hcollected.compiled, hs.compiled]
        simp [or_and_right, exists_or] }

/-- A whole run of the loop collects one certified process for each record. -/
theorem certified_of_records {records : List Json} {s : AuditState}
    (h : records.foldlM (auditRecord env directory vars identity) {} = .ok s) :
    ∃ ps : List Process, List.Forall₂ (fun record p => ∃ fields, record = .dict fields ∧
      p.Certified env directory (profiledOf vars) identity fields) records ps ∧ s.Holds ps := by
  have hrun := exists_of_foldlM_eq_ok (fun _ _ _ _ hs hstep => AuditState.Holds.step hs hstep)
    AuditState.holds_nil h
  simpa using hrun

end Records

/-! ## The whole audit -/

/-- Every source file of the recorded manifest has bytes with its recorded hash, in the working tree
or at one of the two commits. -/
structure SourcesVerified (env : AuditEnv) (project : PathParts)
    (environment : List (String × Json))
    (compiled : String) : Prop where
  verified : ∃ source manifest commit, environment.lookup "source" = some (.dict source) ∧
    Json.get source "files" = .dict manifest ∧ Json.get source "commit" = .str commit ∧
    Json.get source "tree_sha256" = .str (env.sha256 (env.dumps manifest)) ∧
    (∀ name ∈ requiredSources, ∃ wanted, manifest.lookup name = some wanted) ∧
    ∀ entry ∈ manifest, ∃ raw, entry.2 = .str (env.sha256 raw) ∧
      ((∃ working, workingBytes env project entry.1 = .ok working ∧ raw ∈ working) ∨
        ∃ c ∈ [commit, compiled], env.gitShow (c ++ ":" ++ entry.1) = .ok (some raw))

/-- What the audit vouches for: the requested cases, once each, with logs of their own, under one
compiled commit and one identity, and the sources of that identity. -/
structure Certificate (env : AuditEnv) (directory project : PathParts) (result : AuditResult)
    (environment : List (String × Json)) (records : List Json) (ps : List Process) : Prop where
  stated : ∃ text, readText env directory "environment.json" = .ok text ∧
    parse env text = .ok (.dict environment)
  recorded : ∃ text, readText env directory "simulator.jsonl" = .ok text ∧
    (recordTexts text).mapM (parse env) = .ok records
  certified : ∃ vars identity, environmentVars environment = .ok vars ∧
    identityOf environment = .ok identity ∧
    List.Forall₂ (fun record p => ∃ fields, record = .dict fields ∧
      Process.Certified env directory (profiledOf vars) identity fields p) records ps
  complete : (ps.map Process.expected).Perm expectedCases
  logs : (ps.flatMap fun p => [p.stdout.path, p.stderr.path]).Nodup
  commit : ∀ p ∈ ps, ∀ x ∈ p.executions, x.commit = result.compiledSourceCommit
  sources : SourcesVerified env project environment result.compiledSourceCommit
  totals : result.executions = 14 ∧ result.rowsChecked = 521 ∧ result.rawLogsHashed = 26

section Audit

variable {env : AuditEnv} {directory project : PathParts} {binary : Option PathParts}

/-- Thirteen processes of different cases are the requested ones. -/
theorem AuditState.Holds.complete {s : AuditState} {ps : List Process} (hs : s.Holds ps)
    (hmem : ∀ p ∈ ps, p.expected ∈ expectedCases) (hlength : ps.length = 13) :
    (ps.map Process.expected).Perm expectedCases := by
  have hnames : (ps.map fun p => p.expected.name).Nodup := by
    rw [← List.nodup_reverse, ← hs.seen]
    exact hs.seenNodup
  have hnodup : (ps.map Process.expected).Nodup := by
    refine List.Nodup.of_map Expected.name ?_
    rwa [List.map_map]
  have hsub : (ps.map Process.expected).Subset expectedCases := by
    intro e he
    obtain ⟨p, hp, rfl⟩ := List.mem_map.mp he
    exact hmem p hp
  refine (hnodup.subperm hsub).perm_of_length_le ?_
  rw [List.length_map, hlength]
  decide

/-- The source files the audit verified. -/
theorem sourceBytes_eq_ok {environment source : List (String × Json)} {compiled : List String}
    {files : ℕ} (hsource : environment.lookup "source" = some (.dict source)) {only : String}
    (honly : compiled = [only]) (h : sourceBytes env project source compiled = .ok files) :
    SourcesVerified env project environment only := by
  obtain ⟨⟨manifest, commit⟩, hmanifest, h⟩ := bind_eq_ok_iff.mp h
  obtain ⟨_, hverified, -⟩ := bind_eq_ok_iff.mp h
  rw [py_eq_ok_iff, checkManifest] at hmanifest
  cases hfiles : Json.get source "files" with
  | dict found =>
    rw [hfiles] at hmanifest
    simp only [bind_eq_ok_iff, require_eq_ok_iff, Option.isSome_iff_exists, Json.eqStr_eq_true_iff,
      item_eq_ok_iff, pure_eq_ok, Except.ok.injEq, Prod.mk.injEq] at hmanifest
    obtain ⟨_, _, _, hrequired, _, hcommit, _, htree, value, hvalue, rfl, rfl⟩ := hmanifest
    obtain ⟨text, htext, -⟩ := checkHash_eq_ok_iff.mp hcommit
    have hvalue' : value = .str text := by
      rw [Json.get, hvalue] at htext
      exact htext
    rw [forM_eq_ok_iff] at hverified hrequired
    refine ⟨source, found, text, hsource, hfiles, htext, htree, ?_, fun entry hentry => ?_⟩
    · intro name hname
      simpa [Option.isSome_iff_exists] using hrequired name hname
    have hentry := hverified entry hentry
    simp only [verifySource, bind_eq_ok_iff, py_eq_ok_iff, require_eq_ok_iff,
      Json.eqStr_eq_true_iff] at hentry
    obtain ⟨_, _, _, _, working, hworking, shown, hshown, raw, hraw, hwanted⟩ := hentry
    refine ⟨raw, hwanted, ?_⟩
    rcases List.mem_append.mp hraw with hraw | hraw
    · exact Or.inl ⟨working, hworking, hraw⟩
    · obtain ⟨found, hfound, hsome⟩ := List.mem_filterMap.mp hraw
      obtain rfl : found = some raw := hsome
      obtain ⟨commit, hcommit, hshow⟩ := exists_of_mem_mapM hshown hfound
      refine Or.inr ⟨commit, ?_, py_eq_ok_iff.mp hshow⟩
      rwa [hvalue', honly, List.mergeSort_singleton] at hcommit
  | _ => rw [hfiles] at hmanifest; cases hmanifest

/-- What the audit accepts it vouches for. -/
theorem audit_certifies {result : AuditResult}
    (h : audit env directory project binary = .ok result) :
    ∃ environment records ps, Certificate env directory project result environment records ps := by
  obtain ⟨⟨document, summary, records⟩, hread, h⟩ := bind_eq_ok_iff.mp h
  obtain ⟨environment, henvironment, h⟩ := bind_eq_ok_iff.mp h
  obtain ⟨_, _, h⟩ := bind_eq_ok_iff.mp h
  obtain ⟨vars, hvars, h⟩ := bind_eq_ok_iff.mp h
  obtain ⟨_, _, h⟩ := bind_eq_ok_iff.mp h
  obtain ⟨_, hthirteen, h⟩ := bind_eq_ok_iff.mp h
  obtain ⟨identity, hidentity, h⟩ := bind_eq_ok_iff.mp h
  obtain ⟨s, hloop, h⟩ := bind_eq_ok_iff.mp h
  obtain ⟨_, hcoverage, h⟩ := bind_eq_ok_iff.mp h
  rw [objectOf_eq_ok_iff] at henvironment
  rw [py_eq_ok_iff, require_eq_ok_iff] at hthirteen
  rw [py_eq_ok_iff] at hidentity
  simp only [checkCoverage, bind_eq_ok_iff, py_eq_ok_iff, require_eq_ok_iff] at hcoverage
  obtain ⟨_, _, hsame⟩ := hcoverage
  simp only [readEvidence, bind_eq_ok_iff, pure_eq_ok, Except.ok.injEq, Prod.mk.injEq] at hread
  simp only [auditSummary, bind_eq_ok_iff, py_eq_ok_iff, item_eq_ok_iff, subscripted_eq_ok_iff,
    pure_eq_ok, Except.ok.injEq] at h
  obtain ⟨_, _, _, _, _, _, source, ⟨value, hvalue, rfl⟩, files, hfiles, _, _, _, _, rfl⟩ := h
  obtain ⟨_, ⟨text, htext, hparse⟩, _, _, lines, hlines, records', hrecords, rfl, -, rfl⟩ := hread
  obtain ⟨ps, hcertified, hs⟩ := certified_of_records hloop
  have hlength : ps.length = 13 := by rw [← hcertified.length_eq, hthirteen]
  have hmem : ∀ p ∈ ps, p.expected ∈ expectedCases := by
    intro p hp
    obtain ⟨record, _, fields, _, hp⟩ := exists_left_of_forall₂ hcertified hp
    exact hp.expected
  have hcomplete := hs.complete hmem hlength
  obtain ⟨only, honly⟩ := List.length_eq_one_iff.mp hsame
  refine ⟨environment, _, ps, ⟨text, htext, henvironment ▸ hparse⟩, ⟨lines, hlines, hrecords⟩,
    ⟨vars, identity, hvars, hidentity, hcertified⟩, hcomplete, ?_, ?_, ?_, ?_⟩
  · rw [← List.nodup_reverse, ← hs.logPaths]
    exact hs.logPathsNodup
  · intro p hp x hx
    have hc := (hs.compiled x.commit).mpr ⟨p, hp, x, hx, rfl⟩
    rw [honly, List.mem_singleton] at hc
    rw [hc, honly]
    rfl
  · rw [honly]
    exact sourceBytes_eq_ok hvalue honly hfiles
  · have hrows : (ps.map fun p => (p.expected.count : ℤ) * p.expected.rows).sum = 521 := by
      have := (hcomplete.map fun e : Expected => (e.count : ℤ) * e.rows).sum_eq
      rw [List.map_map] at this
      exact this.trans (by decide)
    have hcounts : (ps.map fun p => p.expected.count).sum = 14 := by
      have := (hcomplete.map Expected.count).sum_eq
      rw [List.map_map] at this
      exact this.trans (by decide)
    refine ⟨by rw [hs.executions, hcounts], by rw [hs.totalRows, hrows], ?_⟩
    rw [hs.logPaths, List.length_reverse, List.length_flatMap]
    simp [hlength]

/-- Only a result is reported with code zero. -/
theorem exists_of_handled_zero {x : Except AuditException AuditResult} {status : Status}
    (h : handled x = .ok (status, 0)) : ∃ result, x = .ok result ∧ status = .pass result := by
  cases x with
  | ok result => exact ⟨result, rfl, (Prod.mk.inj (Except.ok.inj h)).1.symm⟩
  | error e =>
    rw [handled] at h
    cases htext : e.caughtText with
    | none => rw [htext] at h; cases h
    | some text =>
      rw [htext] at h
      exact absurd (Prod.mk.inj (Except.ok.inj h)).2 one_ne_zero

/-- The program returns zero only for evidence it vouches for. -/
theorem main_zero_certifies {resultsdir sourceRoot : PathParts} {status : Status}
    (h : main env binary resultsdir sourceRoot = .ok (status, 0)) :
    ∃ directory project result, env.fs.resolve resultsdir = .ok directory ∧
      env.fs.resolve sourceRoot = .ok project ∧ status = .pass result ∧
      ∃ environment records ps,
        Certificate env directory project result environment records ps := by
  obtain ⟨result, haudit, hstatus⟩ := exists_of_handled_zero h
  obtain ⟨directory, hdirectory, haudit⟩ := bind_eq_ok_iff.mp haudit
  obtain ⟨project, hproject, haudit⟩ := bind_eq_ok_iff.mp haudit
  exact ⟨directory, project, result, hdirectory, hproject, hstatus, audit_certifies haudit⟩

end Audit

end RowReduce.Audit
