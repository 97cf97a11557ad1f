import RowReduce.Correctness.Acceptance
import RowReduce.Correctness.CpuReference
import RowReduce.Host.CpuMain

/-!
# Runs of the CPU program

A case in the contract is reported as passed, any other is refused before
anything is printed. So the program ends with exit code 0 or 2, never with 1.
-/

namespace RowReduce

open BinaryFloat Fallible

/-- A case in the contract. -/
def CpuCase.Accepted (c : CpuCase) : Prop :=
  c.shape.Valid ∧ (∃ p : Pattern, c.pattern = p.name) ∧ c.nodes = 1

/-- The record of a passed case. -/
structure CpuCase.Reports (c : CpuCase) (record : CpuRecord) : Prop where
  status : record.status = "pass"
  shape : record.shape = c.shape
  pattern : record.pattern = c.pattern
  seed : record.seed = c.seed
  pass : record.comparison.pass = true
  validationLevel : record.validationLevel = "C0"
  backend : record.backend = "cpu_reference"
  checksum : ∃ bits, record.quantizedFnv1a64 = quantizedFnv1a64 bits

section Case

variable {rd : Rounding binary64} {c : CpuCase}

/-- A case in the contract passes. -/
theorem CpuCase.Accepted.cpuRunCase (h : c.Accepted) :
    ∃ record, cpuRunCase rd c.shape c.pattern c.seed c.nodes = .ok (record, true) ∧
      c.Reports record := by
  obtain ⟨hv, ⟨p, hp⟩, hnodes⟩ := h
  obtain ⟨values, hmake, haccept, _⟩ := generated_agrees hv p c.seed
  obtain ⟨input, hinput, hrep⟩ := prepareInput_eq_ok rd haccept
  have hgenerated : Generated { shape := c.shape, seed := c.seed } p input :=
    ⟨values, hmake, by rw [hrep.quantized, words_quantize]⟩
  obtain ⟨comparison, hcompare, hpass⟩ := @compareRows_roundedReference rd _ _ hrep _ fun r hr =>
    generated_roundedReference_passes hgenerated rfl hrep hr
  have hcompare' : compareRows rd (roundedReference input) input.reference c.shape.cols p.isExact =
      .ok comparison := hcompare
  simp only [RowReduce.cpuRunCase, hp, hnodes, hmake, ok_bind, hinput, comparisonIsExact_name,
    hcompare', pure_eq_ok, hpass, if_true]
  exact ⟨_, rfl, rfl, rfl, hp.symm, rfl, hpass, rfl, rfl, _, rfl⟩

/-- What a case that is run has gone through. -/
theorem accepted_of_cpuRunCase {result : CpuRecord × Bool}
    (h : cpuRunCase rd c.shape c.pattern c.seed c.nodes = .ok result) : c.Accepted := by
  obtain ⟨values, hmake, hrest⟩ := bind_eq_ok_iff.mp h
  obtain ⟨input, hinput, _⟩ := bind_eq_ok_iff.mp hrest
  obtain ⟨hv, _, p, hp, _⟩ := makeInput_eq_ok_iff.mp hmake
  exact ⟨hv, ⟨p, hp⟩, ((prepareInput_eq_ok_iff rd).mp hinput).1⟩

/-- Any other case is refused. -/
theorem exists_cpuRunCase_error (h : ¬c.Accepted) :
    ∃ e, cpuRunCase rd c.shape c.pattern c.seed c.nodes = .error e := by
  cases hrun : cpuRunCase rd c.shape c.pattern c.seed c.nodes with
  | error e => exact ⟨e, rfl⟩
  | ok result => exact absurd (accepted_of_cpuRunCase hrun) h

end Case

section Cases

variable (rd : Rounding binary64)

/-- Accepted cases are reported one by one, and the conjunction stays true. -/
theorem runCpuCases_accepted {l : List CpuCase} (h : ∀ c ∈ l, c.Accepted) :
    (runCpuCases rd l true).2 = .ok true ∧
      List.Forall₂ CpuCase.Reports l (runCpuCases rd l true).1 := by
  induction l with
  | nil => exact ⟨rfl, .nil⟩
  | cons c l ih =>
    obtain ⟨hc, hl⟩ := List.forall_mem_cons.mp h
    obtain ⟨record, hrun, hreports⟩ := @CpuCase.Accepted.cpuRunCase rd _ hc
    obtain ⟨hpass, hrecords⟩ := ih hl
    rw [runCpuCases, hrun]
    exact ⟨hpass, .cons hreports hrecords⟩

/-- The required cases are in the contract. -/
theorem requiredCases_accepted : ∀ c ∈ requiredCases, c.Accepted := by
  have hknown : ∀ c ∈ requiredCases, c.shape.Valid ∧ (findPattern c.pattern).isSome = true ∧
      c.nodes = 1 := by decide
  intro c hc
  obtain ⟨hv, hname, hnodes⟩ := hknown c hc
  obtain ⟨p, hp⟩ := Option.isSome_iff_exists.mp hname
  exact ⟨hv, ⟨p, findPattern_eq_some_iff.mp hp⟩, hnodes⟩

/-- What the program accepts: the matrix alone, or one case in the contract. -/
def CpuOptions.Accepted (o : CpuOptions) : Prop :=
  (o.matrix = true → o.configured = false) ∧ ∀ c ∈ o.cases, c.Accepted

/-- A refused single case prints nothing. -/
theorem runCpuCases_refused {c : CpuCase} (h : ¬c.Accepted) (pass : Bool) :
    ∃ e, runCpuCases rd [c] pass = ([], .error e) := by
  obtain ⟨e, he⟩ := @exists_cpuRunCase_error rd _ h
  exact ⟨e, by rw [runCpuCases, he]⟩

end Cases

section Program

variable {rd : Rounding binary64} {args : List String} {o : CpuOptions}

/-- What a run prints and returns when it is refused. -/
structure CpuResult.Refused (result : CpuResult) : Prop where
  exitCode : result.exitCode = 2
  usage : result.usage = false
  records : result.records = []
  error : result.error.isSome = true

/-- What a run prints and returns for a list of cases. -/
structure CpuResult.Reported (result : CpuResult) (l : List CpuCase) : Prop where
  exitCode : result.exitCode = 0
  usage : result.usage = false
  records : List.Forall₂ CpuCase.Reports l result.records
  error : result.error = none

/-- The usage text alone. -/
theorem cpuMain_help (h : parseCpuArguments args {} = .ok .help) :
    cpuMain rd args = { exitCode := 0, usage := true } := by
  rw [cpuMain, h]

/-- A command that cannot be parsed is refused. -/
theorem cpuMain_invalid {e : HostException} (h : parseCpuArguments args {} = .error e) :
    (cpuMain rd args).Refused := by
  rw [cpuMain, h]
  exact ⟨rfl, rfl, rfl, rfl⟩

/-- An accepted command reports its cases. -/
theorem cpuMain_accepted (h : parseCpuArguments args {} = .ok (.run o)) (ho : o.Accepted) :
    (cpuMain rd args).Reported o.cases := by
  obtain ⟨hpass, hrecords⟩ := runCpuCases_accepted rd ho.2
  have hmatrix : ¬(o.matrix = true ∧ o.configured = true) := by
    rintro ⟨hm, hc⟩
    rw [ho.1 hm] at hc
    exact absurd hc (by decide)
  have hpair : runCpuCases rd o.cases true = ((runCpuCases rd o.cases true).1, .ok true) :=
    Prod.ext rfl hpass
  have hmain : cpuMain rd args =
      { exitCode := 0, records := (runCpuCases rd o.cases true).1 } := by
    simp only [cpuMain, h, if_neg hmatrix]
    rw [hpair]
    rfl
  rw [hmain]
  exact ⟨rfl, rfl, hrecords, rfl⟩

/-- Any other is refused. -/
theorem cpuMain_refused (h : parseCpuArguments args {} = .ok (.run o)) (ho : ¬o.Accepted) :
    (cpuMain rd args).Refused := by
  by_cases hmatrix : o.matrix = true ∧ o.configured = true
  · simp only [cpuMain, h, if_pos hmatrix]
    exact ⟨rfl, rfl, rfl, rfl⟩
  -- the matrix alone is always accepted, so the options ask for one case
  have hsingle : o.matrix = false := by
    by_contra hm
    have hm' : o.matrix = true := by simpa using hm
    refine ho ⟨fun _ => by simpa [hm'] using hmatrix, ?_⟩
    rw [CpuOptions.cases, if_pos hm']
    exact requiredCases_accepted
  have hcases : o.cases = [⟨o.shape, o.pattern, o.seed, o.nodes⟩] := by
    rw [CpuOptions.cases, if_neg (by rw [hsingle]; decide)]
  have hc : ¬CpuCase.Accepted ⟨o.shape, o.pattern, o.seed, o.nodes⟩ := by
    intro hc
    refine ho ⟨fun hm => absurd (hsingle.symm.trans hm) (by decide), ?_⟩
    rw [hcases]
    exact List.forall_mem_singleton.mpr hc
  obtain ⟨e, he⟩ := runCpuCases_refused rd hc true
  simp only [cpuMain, h, if_neg hmatrix, hcases, he]
  exact ⟨rfl, rfl, rfl, rfl⟩

/-- The program reports every case it was asked for as passed, or refuses before it prints
anything; its comparison never fails, so it never ends with exit code 1. -/
theorem cpuMain_outcome (rd : Rounding binary64) (args : List String) :
    ((cpuMain rd args).exitCode = 0 ↔ parseCpuArguments args {} = .ok .help ∨
      ∃ o, parseCpuArguments args {} = .ok (.run o) ∧ o.Accepted) ∧
    ((cpuMain rd args).exitCode ≠ 0 → (cpuMain rd args).Refused) ∧
    (∀ o, parseCpuArguments args {} = .ok (.run o) → o.Accepted →
      (cpuMain rd args).Reported o.cases) := by
  refine ⟨?_, ?_, fun o => cpuMain_accepted⟩
  · constructor
    · intro hzero
      cases hparse : parseCpuArguments args {} with
      | error e => exact absurd (hzero.symm.trans (cpuMain_invalid hparse).exitCode) (by decide)
      | ok command =>
        cases command with
        | help => exact Or.inl rfl
        | run o =>
          refine Or.inr ⟨o, rfl, by_contra fun ho => ?_⟩
          exact absurd (hzero.symm.trans (cpuMain_refused hparse ho).exitCode) (by decide)
    · rintro (hparse | ⟨o, hparse, ho⟩)
      · rw [cpuMain_help hparse]
      · exact (cpuMain_accepted hparse ho).exitCode
  · intro hcode
    cases hparse : parseCpuArguments args {} with
    | error e => exact cpuMain_invalid hparse
    | ok command =>
      cases command with
      | help => exact absurd (by rw [cpuMain_help hparse]) hcode
      | run o =>
        by_cases ho : o.Accepted
        · exact absurd (cpuMain_accepted hparse ho).exitCode hcode
        · exact cpuMain_refused hparse ho

end Program

end RowReduce
