import RowReduce.Audit.Evidence
import RowReduce.Correctness.AuditRefinement
import RowReduce.Correctness.AuditStatus
import RowReduce.Runner.Matrix

/-!
# The executions the runner records

The audit compares each host line with the execution the runner recorded of it. Over
exact rationals it accepts the runner's executions beside every run of the host whose
records pass, one after another.
-/

namespace RowReduce.Audit

open BinaryFloat Fallible Grid Hexadecimal

/-- A list of doubles is read as the vector of its values. -/
theorem vector_floatItems {xs : List ℚ} {rows : ℤ} (h : (xs.length : ℤ) = rows) (label : String) :
    vector (floatItems xs) rows label = .ok xs := by
  refine vector_eq_ok_iff.mpr ⟨_, rfl, by rw [List.length_map, h], ?_⟩
  rw [List.forall₂_map_left_iff, List.forall₂_same]
  exact fun q _ => .float q

/-- A vector passes beside the same one every comparison that accepts equal numbers. -/
theorem checkVector_of_eq {rows : ℤ} {reported : List (String × Json)} {name : String}
    {xs ys : List ℚ} {check : Json → ℚ → String → Except PyException Unit}
    (hget : Json.get reported name = floatItems xs) (hlen : (xs.length : ℤ) = rows)
      (hsame : xs = ys)
    (hcheck : ∀ q label, check (.float (.finite q)) q label = .ok ()) :
    checkVector rows reported (name, ys, check) = .ok () := by
  subst hsame
  rw [checkVector, hget, vector_floatItems hlen, ok_bind, forM_eq_ok_iff]
  intro pair hpair
  have hzip : xs.zip xs = xs.map fun q => (q, q) := by
    have hprod := @List.map_prod_left_eq_zip _ _ xs id
    rw [List.map_id] at hprod
    exact hprod.symm
  rw [hzip] at hpair
  obtain ⟨q, _, rfl⟩ := List.mem_map.mp hpair
  exact hcheck q _

/-- A number is near itself. -/
theorem near_exact_self (q : ℚ) (label : String) :
    near .exact (.float (.finite q)) q label = .ok () :=
  near_eq_ok_iff.mpr (near_of_eq (.float q) rfl)

/-- A float is near itself. -/
theorem nearFloat_exact_self (q : ℚ) (label : String) :
    nearFloat .exact (.float (.finite q)) q label = .ok () := by
  refine bind_eq_ok_iff.mpr ⟨q, finite_eq_ok_iff.mpr (.float q), ?_⟩
  rw [require_eq_ok_iff]
  simp [isClose]

/-- The words are ones as numbers when they are ones as words. -/
theorem all_inputWords_eq (inputs : List Bf16Word) :
    (inputs.map BitVec.toNat).all (· == 0x3f80) = inputs.all (· == 0x3f80) := by
  rw [List.all_map]
  refine congrArg _ (funext fun w => ?_)
  rw [Function.comp_apply, Bool.eq_iff_iff, beq_iff_eq, beq_iff_eq, ← BitVec.toNat_inj]
  rfl

/-- The state after an execution was accepted. -/
def ExecutionState.push (t : ExecutionState) (e : Expected) (commit : String) (audited : Audited) :
    ExecutionState where
  previous := some audited
  pattern := t.next
  processCommits := t.processCommits.insert commit
  compiled := t.compiled.insert commit
  totalRows := t.totalRows + e.rows
  executions := t.executions + 1

section Recorded

variable {env : AuditEnv} {e : Expected} {t : ExecutionState} {case : Case} {index rows cols : ℕ}
  {fields : List (String × Json)} {p : Pattern} {inputs outputs : List Bf16Word} {actual : List ℚ}

/-- Beside an accepted record the execution the runner records of it is accepted. -/
theorem HostChecks.auditExecution (hfr : env.fr = .exact)
    (h : HostChecks .exact fields rows cols p case.seed case.repeats index inputs outputs actual)
    (h0 : 0 < rows) (hrows : case.rows = rows) (hcols : case.cols = cols)
    (he : e.rows = rows ∧ e.cols = cols ∧ e.seed = case.seed ∧ (e.count : ℤ) = case.repeats)
    (hnext : t.next = p.name) {commit : String}
    (hcommit : Json.get fields "compiled_source_commit" = .str commit)
    (hchanged : t.previous.map Audited.inputWords ≠ some (inputs.map BitVec.toNat)) :
    auditExecution env e t ((.dict fields, (validatedOf .exact env.sha256 case index fields p commit
      inputs actual true).document), index) =
        .ok (t.push e commit (auditedOf env.sha256 rows cols p inputs outputs actual)) := by
  obtain ⟨herows, hecols, heseed, hecount⟩ := he
  have hagrees := h.agrees hrows hcols env.sha256 commit
  have hpass := h.validated_pass hrows hcols env.sha256 commit
  set v := validatedOf .exact env.sha256 case index fields p commit inputs actual true with hv
  set a := auditedOf env.sha256 rows cols p inputs outputs actual with ha
  have hitem : item fields "compiled_source_commit" = .ok (.str commit) := by
    rw [item_eq_ok_iff]
    rw [Json.get] at hcommit
    cases hfound : fields.lookup "compiled_source_commit" with
    | none => rw [hfound] at hcommit; cases hcommit
    | some value => rw [hfound] at hcommit; exact congrArg some hcommit
  have hhost :
      auditHost env.fr env.sha256 fields e.rows e.cols t.next e.seed e.count index = .ok a := by
    rw [hfr, herows, hecols, heseed, hecount]
    exact (auditHost_eq_ok_iff h0).mpr ⟨p, inputs, outputs, actual, hnext, h, rfl⟩
  have hline : auditLine env e.rows e.cols t.next e.seed e.count index (.dict fields) =
      .ok (commit, a) :=
    bind_eq_ok_iff.mpr ⟨fields, rfl, bind_eq_ok_iff.mpr ⟨a, py_eq_ok_iff.mpr hhost,
      bind_eq_ok_iff.mpr ⟨_, py_eq_ok_iff.mpr hitem, rfl⟩⟩⟩
  have hactual : (v.actual.length : ℤ) = e.rows := by
    obtain ⟨items, _, hlength, hitems⟩ := h.results
    have hsame : v.actual.length = items.length := hitems.length_eq.symm
    rw [herows, hsame, hlength]
  have hvalidated : ∀ f : ValidatedRow → ℚ,
      (((validatedRows .exact case p inputs actual).map f).length : ℤ) = e.rows := by
    intro f
    rw [List.length_map, validatedRows, List.length_map, List.length_range, hrows, herows,
      Int.toNat_natCast]
  have hfailed : v.failedRows = [] := by
    rw [List.eq_nil_iff_forall_not_mem]
    intro r hr
    obtain ⟨row, hrow, hfail⟩ := mem_failedRows.mp hr
    rw [h.failed_eq_false hrows hcols row (List.mem_of_getElem? hrow)] at hfail
    cases hfail
  refine bind_eq_ok_iff.mpr ⟨(commit, a), hline, bind_eq_ok_iff.mpr ⟨_, rfl,
    bind_eq_ok_iff.mpr ⟨(), py_eq_ok_iff.mpr ?_, bind_eq_ok_iff.mpr ⟨(), py_eq_ok_iff.mpr ?_,
    bind_eq_ok_iff.mpr ⟨(), py_eq_ok_iff.mpr ?_, bind_eq_ok_iff.mpr ⟨(), py_eq_ok_iff.mpr ?_,
    bind_eq_ok_iff.mpr ⟨(), py_eq_ok_iff.mpr ?_, bind_eq_ok_iff.mpr ⟨(), py_eq_ok_iff.mpr ?_,
      rfl⟩⟩⟩⟩⟩⟩⟩⟩
  · have hinput : (Json.str v.inputSha256).eqStr a.inputSha256 = true := by
      rw [Json.eqStr_eq_true_iff, hagrees.inputSha256]
    have houtput : (Json.str v.outputSha256).eqStr a.outputSha256 = true := by
      rw [Json.eqStr_eq_true_iff, hagrees.outputSha256]
    exact bind_eq_ok_iff.mpr ⟨(), require_eq_ok_iff.mpr (Json.eqStr_eq_true_iff.mpr rfl),
      bind_eq_ok_iff.mpr ⟨(), require_eq_ok_iff.mpr hinput, require_eq_ok_iff.mpr houtput⟩⟩
  · rw [forM_eq_ok_iff, hfr]
    simp only [normalizedVectors, List.forall_mem_cons, List.not_mem_nil, false_imp_iff,
      implies_true, and_true]
    exact ⟨checkVector_of_eq rfl hactual hagrees.actual nearFloat_exact_self,
      checkVector_of_eq rfl (hvalidated _) hagrees.reference near_exact_self,
      checkVector_of_eq rfl (hvalidated _) hagrees.absSums near_exact_self,
      checkVector_of_eq rfl (hvalidated _) hagrees.absErrors near_exact_self,
      checkVector_of_eq rfl (hvalidated _) hagrees.tolerances near_exact_self⟩
  · rw [hfr]
    exact hagrees.maxAbsError ▸ near_exact_self _ _
  · rw [hfr]
    exact hagrees.maxScaledError ▸ near_exact_self _ _
  · have hnil : (Json.list (v.failedRows.map fun row => .int row)).eqNil = true := by
      rw [hfailed]
      rfl
    have hexact : Audit.exact.contains t.next = p.isExact := by
      rw [hnext]
      exact exactPatterns_contains p
    have hstatus : (Json.str v.status).eqStr "pass" = true :=
      Json.eqStr_eq_true_iff.mpr (by rw [hpass])
    have hname : (Json.str v.pattern).eqStr t.next = true :=
      Json.eqStr_eq_true_iff.mpr (congrArg Json.str hnext.symm)
    have hseed : (Json.int v.seed).eqInt e.seed = true := decide_eq_true heseed.symm
    have hindex : (Json.int v.repeatIndex).eqInt index = true := decide_eq_true rfl
    exact bind_eq_ok_iff.mpr ⟨(), require_eq_ok_iff.mpr ⟨hstatus, hnil, rfl⟩,
      bind_eq_ok_iff.mpr ⟨(), require_eq_ok_iff.mpr ⟨hindex, hname, hseed⟩,
        require_eq_ok_iff.mpr (Json.isBool_eq_true_iff.mpr (congrArg Json.bool hexact.symm))⟩⟩
  · exact require_eq_ok_iff.mpr hchanged

end Recorded

theorem toNat_map_injective : Function.Injective (List.map BitVec.toNat : List Bf16Word → List ℕ) :=
  List.map_injective_iff.mpr fun _ _ => BitVec.eq_of_toNat_eq

section Run

variable {env : HostEnv} {files : String → Option InputFile} {args : List String}
  {options : Options} {first : PreparedInput} {case : Case} {audit : AuditEnv} {e : Expected}

/-- An expectation of the audit for a case. -/
structure Expected.Requests (e : Expected) (case : Case) : Prop where
  rows : e.rows = case.rows
  cols : e.cols = case.cols
  pattern : e.pattern = case.pattern
  seed : e.seed = case.seed
  count : (e.count : ℤ) = case.repeats

/-- The loop over the executions stands before the launch of this index. -/
def Before (env : HostEnv) (options : Options) (first : PreparedInput) (e : Expected) :
    ℕ → ExecutionState → Prop
  | 0, t => t.previous = none ∧ t.pattern = e.pattern
  | i + 1, t => ∃ audited pattern input, t.previous = some audited ∧
      inputSequence env options first i = .ok (pattern, input) ∧
      audited.inputWords = input.quantized.map BitVec.toNat

/-- The pattern the loop expects is the one of the launch. -/
theorem Before.next_eq (h : beforeDevice env files args = .ok (options, first))
    (hpattern : e.pattern = options.pattern) {i : ℕ} {t : ExecutionState}
    (ht : Before env options first e i t) {p : Pattern} {input : PreparedInput}
    (hinput : inputSequence env options first i = .ok (p.name, input))
    (hfirst : i = 0 → p.name = options.pattern) : t.next = p.name := by
  cases i with
  | zero =>
    obtain ⟨hprevious, ht⟩ := ht
    rw [ExecutionState.next, hprevious, hfirst rfl, ← hpattern]
    exact ht
  | succ i =>
    obtain ⟨audited, pattern, previous, hprevious, hbefore, hwords⟩ := ht
    rw [inputSequence, hbefore, ok_bind] at hinput
    obtain ⟨q, hq, hname, -⟩ := nextInput_generated h hinput
    rw [ExecutionState.next, hprevious, hname, hq]
    dsimp only
    rw [hwords, all_inputWords_eq]
    exact (apply_ite Pattern.name (previous.quantized.all (· == 0x3f80#16) = true) .zero .ones).symm

/-- The words of a launch are not those of the launch before. -/
theorem Before.inputWords_ne (h : beforeDevice env files args = .ok (options, first)) {i : ℕ}
    {t : ExecutionState} (ht : Before env options first e i t) {pattern : String}
    {input : PreparedInput} (hinput : inputSequence env options first i = .ok (pattern, input)) :
    t.previous.map Audited.inputWords ≠ some (input.quantized.map BitVec.toNat) := by
  cases i with
  | zero =>
    rw [ht.1]
    exact nofun
  | succ i =>
    obtain ⟨audited, pattern, previous, hprevious, hbefore, hwords⟩ := ht
    obtain ⟨m, _, hrep⟩ := inputSequence_represented h hbefore
    rw [inputSequence, hbefore, ok_bind] at hinput
    rw [hprevious, Option.map_some, hwords]
    intro heq
    exact nextInput_quantized_ne h hrep hinput (toNat_map_injective (Option.some.inj heq)).symm

/-- What the runner records of a printed record that it passes. -/
def Recorded (sha256 : List Byte → String) (case : Case) (index : ℕ)
    (host recorded : Json) : Prop :=
  ∃ v, validateResult .exact sha256 case index host = .ok v ∧ v.status = "pass" ∧
    recorded = v.document

/-- The audit accepts the records of a passing run beside the executions the runner records. -/
theorem exists_executions_of_run (hup : env.upstream.UntilizeAgrees)
    (hrd : env.rd = .exact binary64) (hpinned : env.Pinned)
    (h : beforeDevice env files args = .ok (options, first)) (hfile : options.inputFile = "")
    (hcase : options.Requests case)
    (hpass : ∀ record ∈ (run env options first).1, record.status = "pass")
    (hseconds : ∀ i, ∃ t : ℚ, 0 ≤ t ∧ env.device.seconds i = .finite t)
    (hfr : audit.fr = .exact) (he : e.Requests case) (s : AuditState) :
    ∃ executions done, List.Forall₂
        (fun host recorded => Recorded audit.sha256 case host.2 host.1 recorded)
        ((run env options first).1.map ResultRecord.toJson).zipIdx executions ∧
      (((run env options first).1.map ResultRecord.toJson).zip executions).zipIdx.foldlM
        (auditExecution audit e) (.start e s) = .ok done := by
  have hstart : Before env options first e 0 (.start e s) := ⟨rfl, rfl⟩
  have hstep : ∀ n host, ((run env options first).1.map ResultRecord.toJson)[n]? = some host →
      ∀ t, Before env options first e (0 + n) t → ∃ recorded t',
        Recorded audit.sha256 case (0 + n) host recorded ∧
        auditExecution audit e t ((host, recorded), 0 + n) = .ok t' ∧
        Before env options first e (0 + n + 1) t' := by
    intro i host hhost t ht
    rw [Nat.zero_add] at ht ⊢
    rw [List.getElem?_map, Option.map_eq_some_iff] at hhost
    obtain ⟨record, hrecord, rfl⟩ := hhost
    obtain ⟨seconds, hseconds0, hseconds⟩ := hseconds i
    obtain ⟨p, input, outputs, actual, hinput, hfirst, hgenerated, hchecks⟩ :=
      run_hostChecks hup hrd
      hpinned h hfile hcase hrecord (hpass record (List.mem_of_getElem? hrecord)) hseconds0 hseconds
    have hvalid := (beforeDevice_launchInput h).1
    have h0 : 0 < options.shape.rows := hvalid.1
    have hregenerated : expectedInputBytes case.rows case.cols p.name case.seed =
        .ok (littleEndian input.quantized) := by
      rw [hcase.rows, hcase.cols, hcase.seed]
      exact hgenerated.regenerated
    obtain ⟨commit, hresult⟩ := hchecks.resultChecks h0 hcase.rows hcase.cols
      (fun hi => (hfirst hi).trans hcase.pattern.symm) hregenerated
    have hnext := ht.next_eq h (he.pattern.trans hcase.pattern) hinput hfirst
    have haccepted := hchecks.auditExecution hfr h0 hcase.rows hcase.cols
      ⟨he.rows.trans hcase.rows, he.cols.trans hcase.cols, he.seed, he.count⟩ hnext
      hresult.header.sourceCommit (ht.inputWords_ne h hinput)
    exact ⟨_, _,
      ⟨_, validateResult_eq_ok_iff.mpr ⟨_, p, commit, _, actual, true, rfl, hresult, rfl⟩,
      hchecks.validated_pass hcase.rows hcase.cols _ commit, rfl⟩, haccepted,
      _, p.name, input, rfl, hinput, rfl⟩
  obtain ⟨executions, done, hrecorded, hloop, _⟩ := exists_zip_foldlM hstep hstart
  exact ⟨executions, done, hrecorded, hloop⟩

end Run

end RowReduce.Audit
