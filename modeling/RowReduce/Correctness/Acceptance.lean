import RowReduce.Correctness.InputBytes
import RowReduce.Correctness.Readback
import RowReduce.Host.Main

/-!
# Which commands reach the device

The scattered checks of the host program, on the pattern path and on the file
path, amount to one condition on the argument list and the file.
-/

namespace RowReduce

open BinaryFloat Fallible

/-- The condition on a spelled argument list, its file and the profiler variable. -/
def AcceptedArguments (profiler : Option String) (files : String → Option InputFile)
    (arguments : List Argument) : Prop :=
  let o := optionsOf arguments
  (1 ≤ o.repeats ∧ o.repeats ≤ 100) ∧ o.shape.Valid ∧ o.nodes = 1 ∧
    (.profile ∈ arguments → profiler = some "1") ∧
    ((o.inputFile = "" ∧ ∃ p : Pattern, o.pattern = p.name) ∨
      (o.inputFile ≠ "" ∧ ∃ content values, files o.inputFile = some content ∧
        content.complete = true ∧
        List.Forall₂ (fun token value => fromCharsFloat token = some value)
          (tokens content.text) values ∧
        values.length = o.shape.rows * o.shape.cols ∧
        ∀ v ∈ values, v.value.isFinite = true ∧ InContract (floatToBf16 v)))

section Input

variable {env : HostEnv} {files : String → Option InputFile} {options : Options}

/-- A generated input is an accepted one of a known pattern and a valid shape. -/
theorem makeInput_eq_ok_iff {shape : Shape} {pattern : String} {seed : Word32}
    {values : List Float32} : makeInput shape pattern seed = .ok values ↔
      shape.Valid ∧ AcceptedValues shape values ∧
        ∃ p : Pattern, pattern = p.name ∧ makeInput shape p.name seed = .ok values := by
  constructor
  · intro h
    have hmake := h
    rw [makeInput, bind_eq_ok_iff] at h
    obtain ⟨_, hvalid, h⟩ := h
    obtain ⟨hv, _⟩ := validateShape_eq_ok_iff.mp hvalid
    cases hp : findPattern pattern with
    | none => simp [hp] at h
    | some p =>
      obtain rfl := findPattern_eq_some_iff.mp hp
      obtain ⟨values', hmake', haccept, _⟩ := generated_agrees hv p seed
      obtain rfl := Except.ok.inj (hmake'.symm.trans hmake)
      exact ⟨hv, haccept, p, rfl, hmake⟩
  · rintro ⟨_, _, p, rfl, h⟩
    exact h

/-- The input is read and accepted exactly under the condition of its path. -/
theorem exists_originalInput_iff : (∃ values, originalInput files options = .ok values ∧
      AcceptedValues options.shape values) ↔
    options.shape.Valid ∧
      ((options.inputFile = "" ∧ ∃ p : Pattern, options.pattern = p.name) ∨
        (options.inputFile ≠ "" ∧ ∃ content values, files options.inputFile = some content ∧
          content.complete = true ∧
          List.Forall₂ (fun token value => fromCharsFloat token = some value)
            (tokens content.text) values ∧
          values.length = options.shape.rows * options.shape.cols ∧
          ∀ v ∈ values, v.value.isFinite = true ∧ InContract (floatToBf16 v))) := by
  unfold originalInput
  constructor
  · rintro ⟨values, h, haccept⟩
    refine ⟨haccept.shape_valid, ?_⟩
    split_ifs at h with hfile
    · obtain ⟨_, _, p, hp, _⟩ := makeInput_eq_ok_iff.mp h
      exact Or.inl ⟨hfile, p, hp⟩
    · obtain ⟨content, hcontent, hcomplete, htokens, _⟩ := readInputFile_eq_ok_iff.mp h
      exact Or.inr ⟨hfile, content, values, hcontent, hcomplete, htokens, haccept.length,
        fun v hv => ⟨haccept.finite v hv, haccept.inContract v hv⟩⟩
  · rintro ⟨hv, ⟨hfile, p, hp⟩ | ⟨hfile, content, values, hcontent, hcomplete, htokens, hlen, hall⟩⟩
    · obtain ⟨values, hmake, haccept, _⟩ := generated_agrees hv p options.seed
      exact ⟨values, by rw [if_pos hfile, hp, hmake], haccept⟩
    · have hsize : values.length ≤ 128 * 128 :=
        hlen ▸ Nat.mul_le_mul hv.2.1 hv.2.2.2
      refine ⟨values, ?_, hv, hlen, fun v hv => (hall v hv).1, fun v hv => (hall v hv).2⟩
      rw [if_neg hfile, readInputFile_eq_ok_iff]
      exact ⟨content, hcontent, hcomplete, htokens, hsize⟩

/-- The checks before the device pass exactly on accepted options. -/
theorem beforeDevice_eq_ok_iff (hup : env.upstream.UploadAgrees) {args : List String}
    {prepared : PreparedInput} : beforeDevice env files args = .ok (options, prepared) ↔
      parseOptions args = .ok options ∧ options.nodes = 1 ∧
        (options.profile = true → env.profiler = some "1") ∧
        ∃ values, originalInput files options = .ok values ∧
          ∃ h : AcceptedValues options.shape values,
            (quantize options.shape values h).Represents prepared := by
  simp only [beforeDevice, bind_eq_ok_iff, throwIf_eq_ok_iff, pure_eq_ok, Except.ok.injEq,
    Prod.mk.injEq]
  constructor
  · rintro ⟨o, hparse, values, hvalues, p, hprepare, _, _, _, _, _, hprofile, rfl, rfl⟩
    obtain ⟨hnodes, haccept, hrep⟩ := (prepareInput_eq_ok_iff env.rd).mp hprepare
    exact ⟨hparse, hnodes, fun h => by_contra fun hn => hprofile ⟨h, hn⟩, values, hvalues, haccept,
      hrep⟩
  · rintro ⟨hparse, hnodes, hprofile, values, hvalues, haccept, hrep⟩
    obtain ⟨words, hwords⟩ := transferWords_ok hup hrep
    exact ⟨options, hparse, values, hvalues, prepared,
      (prepareInput_eq_ok_iff env.rd).mpr ⟨hnodes, haccept, hrep⟩, (),
      checkUpstreamQuantization_ok hup haccept hrep, words, hwords, (),
      fun h => h.2 (hprofile h.1), rfl, rfl⟩

/-- Some input is prepared exactly for the accepted commands. -/
theorem exists_beforeDevice_iff (hup : env.upstream.UploadAgrees) {args : List String} :
    (∃ result, beforeDevice env files args = .ok result) ↔
      ∃ arguments, SpellsAll arguments args ∧ AcceptedArguments env.profiler files arguments := by
  constructor
  · rintro ⟨⟨options, prepared⟩, h⟩
    obtain ⟨hparse, hnodes, hprofile, values, hvalues, haccept, _⟩ :=
      (beforeDevice_eq_ok_iff hup).mp h
    obtain ⟨arguments, hspell, h1, h100, rfl⟩ := parseOptions_eq_ok_iff.mp hparse
    obtain ⟨hv, hpath⟩ := exists_originalInput_iff.mp ⟨values, hvalues, haccept⟩
    exact ⟨arguments, hspell, ⟨h1, h100⟩, hv, hnodes,
      fun hmem => hprofile (decide_eq_true hmem), hpath⟩
  · rintro ⟨arguments, hspell, ⟨h1, h100⟩, hv, hnodes, hprofile, hpath⟩
    obtain ⟨values, hvalues, haccept⟩ := exists_originalInput_iff.mpr ⟨hv, hpath⟩
    obtain ⟨prepared, hprepare, hrep⟩ := prepareInput_eq_ok env.rd haccept
    exact ⟨(optionsOf arguments, prepared), (beforeDevice_eq_ok_iff hup).mpr
      ⟨parseOptions_eq_ok_iff.mpr ⟨arguments, hspell, h1, h100, rfl⟩, hnodes,
        fun h => hprofile (of_decide_eq_true h), values, hvalues, haccept, hrep⟩⟩

end Input

/-- The project's own conversions as the runtime library. -/
def projectUpstream : Upstream where
  tilizeNfaces rowMajor rows cols := ((tilize rowMajor rows cols).toOption).getD []
  untilizeNfaces tiled rows cols := ((untilize tiled rows cols).toOption).getD []
  fp32ToBf16 := floatToBf16

/-- With them the uploaded words are the prepared ones. -/
theorem projectUpstream_uploadAgrees : projectUpstream.UploadAgrees where
  convert _ _ := rfl
  tilize _ _ _ _ h := by simp only [projectUpstream, h, Except.toOption, Option.getD_some]

/-- With them the downloaded words are untilized. -/
theorem projectUpstream_untilizeAgrees : projectUpstream.UntilizeAgrees := by
  intro _ _ _ _ h
  simp only [projectUpstream, h, Except.toOption, Option.getD_some]

/-- A device that closes properly and otherwise leaves its output buffer alone. -/
def idleDevice : Device where
  createUnitMesh := .ok ()
  wormhole := true
  setup := .ok ()
  launch _ _ output := .ok output
  seconds _ := .finite 0
  readProfiler _ := .ok ()
  close := .ok true

def idleEnv : HostEnv where
  rd := .nearestEven binary64
  upstream := projectUpstream
  device := idleDevice
  upstreamCommit := ""
  sourceCommit := ""
  simulator := true
  profiler := none

/-- The device is reached exactly by accepted commands; all others end in one error record. -/
theorem main_reachedDevice_iff {env : HostEnv} (hup : env.upstream.UploadAgrees)
    (files : String → Option InputFile) (args : List String) :
    ((main env files args).reachedDevice = true ↔
      ∃ arguments, SpellsAll arguments args ∧ AcceptedArguments env.profiler files arguments) ∧
    ((main env files args).reachedDevice = false → args ≠ ["--help"] →
      (main env files args).exitCode = 2 ∧ (main env files args).records = [] ∧
        ∃ message, (main env files args).errors = [⟨"invalid-input", true, message⟩]) := by
  rw [← exists_beforeDevice_iff hup, main]
  split_ifs with hhelp
  · subst hhelp
    have hfail : ∀ result, beforeDevice env files ["--help"] ≠ .ok result := by
      intro result
      simp [beforeDevice, parseOptions, parseArguments]
    simp [hfail]
  · cases h : beforeDevice env files args with
    | error e => simp [errorRecord]
    | ok result =>
      obtain ⟨options, prepared⟩ := result
      cases hdevice : onDevice env options prepared with
      | mk records outcome => cases outcome <;> simp [hdevice]

/-- A file of two rows. -/
def rowsFile (path : String) : Option InputFile :=
  if path = "rows.txt" then some ⟨"0.5 -1\n 1e0 0\n", true⟩ else none

/-- Rows given twice, the profiler asked for twice and an input file. -/
def profiledArguments : List Argument :=
  [.rows 7, .cols 2, .profile, .rows 2, .profile, .inputFile "rows.txt"]

private theorem profiledArguments_spelled :
    SpellsAll profiledArguments ["--rows", "7", "--cols", "2",
    "--profile", "--rows", "2", "--profile", "--input-file", "rows.txt"] := by
  have hseven : Decimal "7" 7 := ⟨by decide, by decide, by decide, by decide⟩
  have htwo : Decimal "2" 2 := ⟨by decide, by decide, by decide, by decide⟩
  exact .cons (.rows hseven) (.cons (.cols htwo) (.cons .profile (.cons (.rows htwo)
    (.cons .profile (.cons (.inputFile _) .nil)))))

/-- The numbers of the file, which are in the contract. -/
def rowsValues : List Float32 := [0x3f000000#32, 0xbf800000#32, 0x3f800000#32, 0#32]

private theorem rowsValues_read :
    List.Forall₂ (fun token value => fromCharsFloat token = some value)
    (tokens "0.5 -1\n 1e0 0\n") rowsValues := by
  have htokens : tokens "0.5 -1\n 1e0 0\n" =
      ["0.5".toList, "-1".toList, "1e0".toList, "0".toList] := by decide
  rw [htokens]
  exact .cons (by decide +kernel) (.cons (by decide +kernel) (.cons (by decide +kernel)
    (.cons (by decide +kernel) .nil)))

private theorem rowsValues_accepted :
    ∀ v ∈ rowsValues, v.value.isFinite = true ∧ InContract (floatToBf16 v) := by
  have hvalues : rowsValues.all (fun v => v.value.isFinite &&
      !rejectsQuantized (bf16Value (floatToBf16 v))) = true := by decide +kernel
  simp only [List.all_eq_true, Bool.and_eq_true, Bool.not_eq_true'] at hvalues
  exact fun v hv => (hvalues v hv).imp_right rejectsQuantized_eq_false_iff.mp

private theorem profiledArguments_accepted :
    AcceptedArguments (some "1") rowsFile profiledArguments :=
  ⟨by decide, by decide, rfl, fun _ => rfl, Or.inr ⟨by decide, _, rowsValues, if_pos rfl, rfl,
    rowsValues_read, rfl, rowsValues_accepted⟩⟩

/-- With the profiler variable set the command reaches the device. -/
theorem main_reachedDevice_iff_profiled :
    (main { idleEnv with profiler := some "1" } rowsFile ["--rows", "7", "--cols", "2", "--profile",
      "--rows", "2", "--profile", "--input-file", "rows.txt"]).reachedDevice = true :=
  (main_reachedDevice_iff projectUpstream_uploadAgrees rowsFile _).1.mpr
    ⟨profiledArguments, profiledArguments_spelled, profiledArguments_accepted⟩

end RowReduce
