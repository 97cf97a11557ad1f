import RowReduce.Correctness.EmittedRecord
import RowReduce.Runner.RunCase

/-!
# The command the runner builds

The options of a case's command line are those of the case, on one node and
without an input file.
-/

namespace RowReduce

open Hexadecimal

/-- A case whose numbers the command line can carry. -/
structure Case.Sized (case : Case) : Prop where
  rows : 0 ≤ case.rows ∧ case.rows ≤ sizeMax
  cols : 0 ≤ case.cols ∧ case.cols ≤ sizeMax
  seed : 0 ≤ case.seed ∧ case.seed < 2 ^ 32
  repeats : 1 ≤ case.repeats ∧ case.repeats ≤ 100

/-- A case the host accepts: a shape, a pattern, a 32-bit seed and 1 to 100 launches. -/
structure Case.Valid (case : Case) : Prop where
  rows : 1 ≤ case.rows ∧ case.rows ≤ 128
  cols : 1 ≤ case.cols ∧ case.cols ≤ 128
  pattern : case.pattern ∈ runnerPatterns
  seed : 0 ≤ case.seed ∧ case.seed < 2 ^ 32
  repeats : 1 ≤ case.repeats ∧ case.repeats ≤ 100

private theorem sizeMax_eq : sizeMax = 18446744073709551615 := by decide

/-- The numbers of a valid case are sizes. -/
theorem Case.Valid.sized {case : Case} (h : case.Valid) : case.Sized where
  rows := ⟨by have := h.rows; omega, by have := h.rows; rw [sizeMax_eq]; omega⟩
  cols := ⟨by have := h.cols; omega, by have := h.cols; rw [sizeMax_eq]; omega⟩
  seed := h.seed
  repeats := h.repeats

private theorem toList_toString (n : ℕ) : (toString n).toList = Nat.toDigits 10 n :=
  Nat.toList_repr

/-- A printed natural number spells itself. -/
theorem decimal_toString {n : ℕ} (h : n ≤ sizeMax) : Decimal (toString n) n := by
  rw [Decimal, toList_toString]
  refine ⟨Nat.toDigits_ne_nil, ?_, decimalValue_toDigits n, h⟩
  exact fun c hc => Nat.isDigit_of_mem_toDigits (by norm_num) (by norm_num) hc

/-- A printed integer spells a size exactly when it is one. -/
theorem decimal_toString_int_iff {z : ℤ} {n : ℕ} :
    Decimal (toString z) n ↔ z = n ∧ n ≤ sizeMax := by
  constructor
  · rintro ⟨_, hdigits, hvalue, hsize⟩
    cases z with
    | ofNat m =>
      have htext : (toString (Int.ofNat m)).toList = Nat.toDigits 10 m := toList_toString m
      rw [htext, decimalValue_toDigits] at hvalue
      exact ⟨congrArg Int.ofNat hvalue, hsize⟩
    | negSucc m =>
      have htext : (toString (Int.negSucc m)).toList = '-' :: (toString (m + 1)).toList := by
        rw [show toString (Int.negSucc m) = "-" ++ toString (m + 1) from rfl, String.toList_append]
        rfl
      rw [htext] at hdigits
      exact absurd (hdigits '-' List.mem_cons_self) (by decide)
  · rintro ⟨rfl, h⟩
    exact decimal_toString h

private theorem decimal_toString_toNat {z : ℤ} (h : 0 ≤ z ∧ z ≤ sizeMax) :
    Decimal (toString z) z.toNat :=
  decimal_toString_int_iff.mpr ⟨(Int.toNat_of_nonneg h.1).symm, by omega⟩

/-- The options of a case. -/
def Case.options (case : Case) (profiler : Option String) : Options where
  shape := ⟨case.rows.toNat, case.cols.toNat⟩
  pattern := patternAlias case.pattern
  seed := BitVec.ofNat 32 case.seed.toNat
  repeats := case.repeats.toNat
  profile := decide (profiler = some "1")

/-- The arguments of a case. -/
def Case.arguments (case : Case) (profiler : Option String) : List Argument :=
  [.rows case.rows.toNat, .cols case.cols.toNat, .pattern case.pattern, .seed case.seed.toNat,
    .nodes 1, .repeats case.repeats.toNat] ++ if profiler = some "1" then [.profile] else []

/-- The command of a case spells its arguments. -/
theorem Case.Sized.spells {case : Case} (h : case.Sized) (profiler : Option String) :
    SpellsAll (case.arguments profiler) (case.command profiler) := by
  obtain ⟨hr, hc, ⟨hs0, hs1⟩, ⟨hn0, hn1⟩⟩ := h
  have hsize := sizeMax_eq
  have hprofile : SpellsAll (if profiler = some "1" then [.profile] else [])
      (if profiler = some "1" then ["--profile"] else []) := by
    split_ifs
    · exact .cons .profile .nil
    · exact .nil
  have hrows : (Argument.rows case.rows.toNat).Spells ["--rows", toString case.rows] :=
    .rows (decimal_toString_toNat hr)
  have hcols : (Argument.cols case.cols.toNat).Spells ["--cols", toString case.cols] :=
    .cols (decimal_toString_toNat hc)
  have hseed : (Argument.seed case.seed.toNat).Spells ["--seed", toString case.seed] :=
    .seed (decimal_toString_toNat (by omega)) (by omega)
  have hnodes : (Argument.nodes 1).Spells ["--nodes", "1"] :=
    .nodes (decimal_toString (n := 1) (by omega))
  have hrepeats :
      (Argument.repeats case.repeats.toNat).Spells ["--repeat", toString case.repeats] :=
    .repeats (decimal_toString_toNat (by omega))
  have hall := SpellsAll.cons hrows (.cons hcols (.cons (.pattern case.pattern) (.cons hseed
    (.cons hnodes (.cons hrepeats hprofile)))))
  exact hall

/-- The options those arguments stand for. -/
theorem Case.optionsOf_arguments (case : Case) (profiler : Option String) :
    optionsOf (case.arguments profiler) = case.options profiler := by
  by_cases h : profiler = some "1"
  · rw [Case.arguments, if_pos h, Case.options, decide_eq_true h]
    rfl
  · rw [Case.arguments, if_neg h, Case.options, decide_eq_false h]
    rfl

/-- The command of a case is parsed into its options. -/
theorem Case.Sized.parseOptions_command {case : Case} (h : case.Sized) (profiler : Option String) :
    parseOptions (case.command profiler) = .ok (case.options profiler) := by
  refine parseOptions_eq_ok_iff.mpr ⟨_, h.spells profiler, ?_⟩
  obtain ⟨h1, h2⟩ := h.repeats
  rw [case.optionsOf_arguments]
  refine ⟨?_, ?_, rfl⟩ <;> rw [Case.options] <;> dsimp only <;> omega

/-- No pattern of the runner is an alias. -/
theorem patternAlias_of_mem {name : String} (h : name ∈ runnerPatterns) :
    patternAlias name = name := by
  have hnames : ∀ name ∈ runnerPatterns, patternAlias name = name := by decide
  exact hnames name h

/-- The options are those the case asks for, unless its pattern is an alias. -/
theorem Case.Sized.requests {case : Case} (h : case.Sized)
    (hpattern : patternAlias case.pattern = case.pattern) (profiler : Option String) :
    (case.options profiler).Requests case := by
  obtain ⟨⟨hr0, _⟩, ⟨hc0, _⟩, ⟨hs0, hs1⟩, ⟨hn0, _⟩⟩ := h
  refine ⟨(Int.toNat_of_nonneg hr0).symm, (Int.toNat_of_nonneg hc0).symm, hpattern.symm, ?_,
    (Int.toNat_of_nonneg (by omega)).symm⟩
  rw [Case.options, BitVec.toNat_ofNat, Nat.mod_eq_of_lt (by omega), Int.toNat_of_nonneg hs0]

/-- They request the case. -/
theorem Case.Valid.requests {case : Case} (h : case.Valid) (profiler : Option String) :
    (case.options profiler).Requests case :=
  h.sized.requests (patternAlias_of_mem h.pattern) profiler

/-- The host prepares an input for every case. -/
theorem Case.Valid.exists_beforeDevice {case : Case} (h : case.Valid) {env : HostEnv}
    (hup : env.upstream.UploadAgrees) (files : String → Option InputFile) :
    ∃ first, beforeDevice env files (case.command env.profiler) =
      .ok (case.options env.profiler, first) := by
  obtain ⟨p, hp⟩ := mem_runnerPatterns.mp h.pattern
  have hshape : (case.options env.profiler).shape.Valid := by
    obtain ⟨⟨hr0, hr1⟩, ⟨hc0, hc1⟩, _, _, _⟩ := h
    dsimp only [Case.options, Shape.Valid]
    omega
  obtain ⟨values, hmake, haccept, _⟩ := generated_agrees hshape p (case.options env.profiler).seed
  obtain ⟨first, _, hrep⟩ := prepareInput_eq_ok env.rd haccept
  have hname : (case.options env.profiler).pattern = p.name :=
    (patternAlias_of_mem h.pattern).trans hp
  refine ⟨first, (beforeDevice_eq_ok_iff hup).mpr ⟨h.sized.parseOptions_command env.profiler, rfl,
    of_decide_eq_true, values, ?_, haccept, hrep⟩⟩
  have hfile : (case.options env.profiler).inputFile = "" := rfl
  rw [originalInput, if_pos hfile, hname]
  exact hmake

/-- Only the two aliases stand for another name. -/
theorem patternAlias_eq_self_iff {name : String} :
    patternAlias name = name ↔ name ≠ "zeros" ∧ name ≠ "fractions" := by
  unfold patternAlias
  split_ifs with h1 h2
  · simp [h1]
  · simp [h2]
  · simp [h1, h2]

/-- A case as the runner's tables hold them: sizes, a seed, and a pattern's own name. -/
structure Case.Representable (case : Case) : Prop where
  rows : 0 ≤ case.rows ∧ case.rows ≤ sizeMax
  cols : 0 ≤ case.cols ∧ case.cols ≤ sizeMax
  seed : 0 ≤ case.seed
  pattern : case.pattern ≠ "zeros" ∧ case.pattern ≠ "fractions"

example : Case.Representable ⟨"m33_n33_repeat", 33, 33, "random", 20260909, 2⟩ where
  rows := by decide
  cols := by decide
  seed := by decide
  pattern := by decide

/-- The numbers of a command that is parsed are sizes. -/
theorem Case.sizes_of_parseOptions {case : Case} {profiler : Option String} {o : Options}
    (h : parseOptions (case.command profiler) = .ok o) :
    (0 ≤ case.rows ∧ case.rows ≤ sizeMax) ∧ (0 ≤ case.cols ∧ case.cols ≤ sizeMax) ∧
      0 ≤ case.seed := by
  obtain ⟨_, hspell, _⟩ := parseOptions_eq_ok_iff.mp h
  obtain ⟨_, _, _, hrows, hspell⟩ := (spellsAll_value_iff (by decide)).mp hspell
  obtain ⟨_, _, _, hcols, hspell⟩ := (spellsAll_value_iff (by decide)).mp hspell
  obtain ⟨_, _, _, _, hspell⟩ := (spellsAll_value_iff (by decide)).mp hspell
  obtain ⟨_, _, _, hseed, _⟩ := (spellsAll_value_iff (by decide)).mp hspell
  obtain ⟨_, hrows⟩ := hrows.exists_decimal (by decide) (by decide)
  obtain ⟨_, hcols⟩ := hcols.exists_decimal (by decide) (by decide)
  obtain ⟨_, hseed⟩ := hseed.exists_decimal (by decide) (by decide)
  rw [decimal_toString_int_iff] at hrows hcols hseed
  omega

/-- Which argument lists are parsed, that only the order within a flag counts, and which cases the
runner's arguments express. -/
theorem parseOptions_commandLine :
    (∀ (args : List String) (o : Options), parseOptions args = .ok o ↔
      ∃ arguments, SpellsAll arguments args ∧ 1 ≤ (optionsOf arguments).repeats ∧
        (optionsOf arguments).repeats ≤ 100 ∧ o = optionsOf arguments) ∧
    (∀ texts texts' : List (List String),
      (∀ t ∈ texts, ∃ argument : Argument, argument.Spells t) → Reorders texts texts' →
        parseOptions texts.flatten = parseOptions texts'.flatten) ∧
    ∀ (case : Case) (profiler : Option String),
      1 ≤ case.repeats → case.repeats ≤ 100 → case.seed < 2 ^ 32 →
      ((∃ o, parseOptions (case.command profiler) = .ok o ∧ o.Requests case ∧ o.nodes = 1 ∧
          o.inputFile = "" ∧ o.profile = decide (profiler = some "1")) ↔ case.Representable) := by
  refine ⟨fun _ _ => parseOptions_eq_ok_iff, fun _ _ hspell h => h.parseOptions_eq hspell, ?_⟩
  intro case profiler h1 h2 hseed
  constructor
  · rintro ⟨o, hparse, hcase, -, -, -⟩
    obtain ⟨hrows, hcols, h0⟩ := Case.sizes_of_parseOptions hparse
    have hsized : case.Sized := ⟨hrows, hcols, ⟨h0, hseed⟩, ⟨h1, h2⟩⟩
    obtain rfl := Except.ok.inj ((hsized.parseOptions_command profiler).symm.trans hparse)
    exact ⟨hrows, hcols, h0, patternAlias_eq_self_iff.mp hcase.pattern.symm⟩
  · intro h
    have hsized : case.Sized := ⟨h.rows, h.cols, ⟨h.seed, hseed⟩, ⟨h1, h2⟩⟩
    exact ⟨case.options profiler, hsized.parseOptions_command profiler,
      hsized.requests (patternAlias_eq_self_iff.mpr h.pattern) profiler, rfl, rfl, rfl⟩

end RowReduce
