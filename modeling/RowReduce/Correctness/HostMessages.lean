import RowReduce.Correctness.PrintedLines
import RowReduce.Host.Main
import RowReduce.Runner.Rejections

/-!
# What the host says when it rejects

Only an unknown option, or one without its value, is quoted in a message; every
other message before the device is a fixed text.
-/

namespace RowReduce

open Fallible Grid

/-- A message that neither looks like a result nor ends its line. -/
def Recordable (message : String) : Prop :=
  ¬resultPrefix.toList <:+: message.toList ∧ ∀ c ∈ message.toList, separates c = false

instance (message : String) : Decidable (Recordable message) :=
  inferInstanceAs (Decidable (_ ∧ _))

/-- The text of an exception is recordable and not blank. -/
def FixedText (e : HostException) : Prop :=
  Recordable e.what ∧ e.what.toList.all isPySpace = false

instance (e : HostException) : Decidable (FixedText e) := inferInstanceAs (Decidable (_ ∧ _))

/-- The options that take a value. -/
def valueFlags : List String :=
  ["--rows", "--cols", "--nodes", "--repeat", "--pattern", "--input-file", "--seed"]

/-- The option a message of the parser quotes. -/
def rejectedFlag : List String → Option String
  | [] => none
  | [flag] => if flag = "--profile" then none else some flag
  | flag :: value :: rest =>
    if flag = "--profile" then rejectedFlag (value :: rest)
    else if flag ∈ valueFlags then
      match applyFlag flag value {} with
      | .ok _ => rejectedFlag rest
      | .error _ => none
    else some flag

private theorem integer_fixed {text flag : String}
    (h : FixedText (.invalidArgument (flag ++ " requires an unsigned integer"))) :
    RaisesOnly FixedText (integer text flag) := by
  rw [integer]
  split
  · exact raisesOnly_ok _
  · exact raisesOnly_error h

/-- An option with a value only raises fixed texts, the same ones whatever came before it. -/
theorem applyFlag_cases {flag : String} (hflag : flag ∈ valueFlags) (value : String) :
    (∃ f : Options → Options, ∀ o, applyFlag flag value o = .ok (f o)) ∨
      ∃ e, FixedText e ∧ ∀ o, applyFlag flag value o = .error e := by
  have hnumber : ∀ {x : Except HostException ℕ} {g : ℕ → Options → Options},
      RaisesOnly FixedText x → (∀ o, applyFlag flag value o = x >>= fun n => .ok (g n o)) →
      (∃ f : Options → Options, ∀ o, applyFlag flag value o = .ok (f o)) ∨
        ∃ e, FixedText e ∧ ∀ o, applyFlag flag value o = .error e := by
    intro x g hx h
    cases x with
    | ok n => exact Or.inl ⟨g n, h⟩
    | error e => exact Or.inr ⟨e, hx e rfl, h⟩
  simp only [valueFlags, List.mem_cons, List.not_mem_nil, or_false] at hflag
  rcases hflag with rfl | rfl | rfl | rfl | rfl | rfl | rfl
  · exact hnumber (x := integer value "--rows") (integer_fixed (by decide)) fun o => rfl
  · exact hnumber (x := integer value "--cols") (integer_fixed (by decide)) fun o => rfl
  · exact hnumber (x := integer value "--nodes") (integer_fixed (by decide)) fun o => rfl
  · exact hnumber (x := integer value "--repeat") (integer_fixed (by decide)) fun o => rfl
  · exact Or.inl ⟨fun o => { o with pattern := value }, fun o => rfl⟩
  · exact Or.inl ⟨fun o => { o with inputFile := value }, fun o => rfl⟩
  · refine hnumber (x := do
      let seed ← integer value "--seed"
      throwIf (2 ^ 32 - 1 < seed) (.invalidArgument "Seed exceeds uint32")
      return seed) (g := fun n o => { o with seed := BitVec.ofNat 32 n }) ?_ fun o => ?_
    · exact (integer_fixed (by decide)).bind fun _ _ =>
        (raisesOnly_throwIf (by decide)).bind fun _ _ => raisesOnly_ok _
    · have hflag : applyFlag "--seed" value o = (do
          let seed ← integer value "--seed"
          throwIf (2 ^ 32 - 1 < seed) (.invalidArgument "Seed exceeds uint32")
          return { o with seed := BitVec.ofNat 32 seed }) := rfl
      rw [hflag]
      cases integer value "--seed" with
      | error e => rfl
      | ok seed =>
        simp only [ok_bind]
        cases throwIf (2 ^ 32 - 1 < seed) (HostException.invalidArgument "Seed exceeds uint32") <;>
          rfl

private theorem applyFlag_unknown {flag : String} (hflag : flag ∉ valueFlags) (value : String)
    (o : Options) :
    applyFlag flag value o = .error (.invalidArgument ("Unknown option " ++ flag)) := by
  simp only [valueFlags, List.mem_cons, List.not_mem_nil, or_false, not_or] at hflag
  simp [applyFlag, hflag]

/-- The parser quotes the rejected option, and nothing else. -/
theorem parseArguments_error {args : List String} {o : Options} :
    (∀ flag, rejectedFlag args = some flag →
      parseArguments args o = .error (.invalidArgument ("Unknown option " ++ flag)) ∨
      parseArguments args o = .error (.invalidArgument ("Missing value for " ++ flag))) ∧
    (rejectedFlag args = none → RaisesOnly FixedText (parseArguments args o)) := by
  induction args, o using parseArguments.induct with
  | case1 o => exact ⟨by simp [rejectedFlag], fun _ => raisesOnly_ok o⟩
  | case2 o => exact ⟨by simp [rejectedFlag], fun _ => raisesOnly_ok _⟩
  | case3 flag o hflag =>
    rw [rejectedFlag, parseArguments, if_neg hflag, if_neg hflag]
    exact ⟨fun f hf => Or.inr (by rw [Option.some.inj hf]), by simp⟩
  | case4 value rest o ih =>
    rw [rejectedFlag, parseArguments, if_pos rfl, if_pos rfl]
    exact ih
  | case5 flag value rest o hflag ih =>
    rw [rejectedFlag, parseArguments, if_neg hflag, if_neg hflag]
    by_cases hknown : flag ∈ valueFlags
    · rw [if_pos hknown]
      rcases applyFlag_cases hknown value with ⟨f, hf⟩ | ⟨e, hfixed, he⟩
      · rw [hf, hf, ok_bind]
        exact ih _
      · rw [he, he, error_bind]
        exact ⟨by simp, fun _ => raisesOnly_error hfixed⟩
    · rw [if_neg hknown, applyFlag_unknown hknown, error_bind]
      exact ⟨fun f hf => Or.inl (by rw [Option.some.inj hf]), by simp⟩

private theorem checkedProduct_fixed (a b : ℕ) : RaisesOnly FixedText (checkedProduct a b) :=
  raisesOnly_ite (raisesOnly_error (by decide)) (raisesOnly_ok _)

/-- Refused shapes have fixed messages. -/
theorem validateShape_fixed (shape : Shape) (nodes : ℕ) :
    RaisesOnly FixedText (validateShape shape nodes) := by
  refine (checkedProduct_fixed _ _).bind fun _ _ => ?_
  exact raisesOnly_ite (raisesOnly_error (by decide))
    (raisesOnly_ite (raisesOnly_error (by decide)) (raisesOnly_ok _))

/-- So have refused patterns. -/
theorem makeInput_fixed (shape : Shape) (pattern : String) (seed : Word32) :
    RaisesOnly FixedText (makeInput shape pattern seed) := by
  refine (validateShape_fixed _ _).bind fun _ _ => ?_
  split
  · exact raisesOnly_error (by decide)
  · exact raisesOnly_ok _

/-- And refused files. -/
theorem readInputFile_fixed (file : Option InputFile) :
    RaisesOnly FixedText (readInputFile file) := by
  have htoken : ∀ values token, RaisesOnly FixedText (readToken values token) := by
    intro values token
    rw [readToken]
    split
    · exact raisesOnly_error (by decide)
    · exact (raisesOnly_throwIf (by decide)).bind fun _ _ => raisesOnly_ok _
  cases file with
  | none => exact raisesOnly_error (by decide)
  | some file =>
    refine (raisesOnly_foldlM (fun values token _ => htoken values token) []).bind fun _ _ => ?_
    exact (raisesOnly_throwIf (by decide)).bind fun _ _ => raisesOnly_ok _

private theorem paddedDimension_fixed (dimension : ℕ) :
    RaisesOnly FixedText (paddedDimension dimension) :=
  raisesOnly_ite (raisesOnly_error (by decide)) (raisesOnly_ok _)

private theorem tilize_fixed {α : Type} [Inhabited α] (rowMajor : List α) (rows cols : ℕ) :
    RaisesOnly FixedText (tilize rowMajor rows cols) := by
  have htile : RaisesOnly FixedText (validateTileShape rows cols) :=
    (checkedProduct_fixed _ _).bind fun _ _ =>
      raisesOnly_ite (raisesOnly_error (by decide)) (raisesOnly_ok _)
  refine htile.bind fun _ _ => (checkedProduct_fixed _ _).bind fun _ _ => ?_
  exact raisesOnly_ite (raisesOnly_error (by decide)) (raisesOnly_ok _)

/-- Refused inputs have fixed messages. -/
theorem prepareInput_fixed {env : HostEnv} (shape : Shape) (values : List Float32) (nodes : ℕ) :
    RaisesOnly FixedText (prepareInput env.rd shape values nodes) := by
  have hvalue : ∀ value, RaisesOnly FixedText (checkValue value) := fun value =>
    (raisesOnly_throwIf (by decide)).bind fun _ _ => raisesOnly_throwIf (by decide)
  refine (validateShape_fixed _ _).bind fun _ _ => (checkedProduct_fixed _ _).bind fun _ _ =>
    (raisesOnly_throwIf (by decide)).bind fun _ _ => (paddedDimension_fixed _).bind fun _ _ =>
    (paddedDimension_fixed _).bind fun _ _ => ?_
  refine (raisesOnly_foldlM (fun s p _ => (hvalue _).bind fun _ _ => raisesOnly_ok _) _).bind
    fun _ _ => (tilize_fixed _ _ _).bind fun _ _ => raisesOnly_ok _

/-- The message of a rejection quotes the rejected option, or is a fixed text. -/
def QuotesOption (args : List String) (e : HostException) : Prop :=
  (∃ flag, rejectedFlag args = some flag ∧
    (e.what = "Unknown option " ++ flag ∨ e.what = "Missing value for " ++ flag)) ∨
  rejectedFlag args = none ∧ FixedText e

/-- A refused command line quotes one of its options at most. -/
theorem parseOptions_quotesOption (args : List String) :
    RaisesOnly (QuotesOption args) (parseOptions args) := by
  obtain ⟨hsome, hnone⟩ := @parseArguments_error args {}
  cases hflag : rejectedFlag args with
  | some flag =>
    intro e h
    have hwhat : e.what = "Unknown option " ++ flag ∨ e.what = "Missing value for " ++ flag := by
      rcases hsome flag hflag with herror | herror <;> rw [parseOptions, herror,
        error_bind] at h <;>
        cases h
      · exact Or.inl rfl
      · exact Or.inr rfl
    exact Or.inl ⟨flag, hflag, hwhat⟩
  | none =>
    refine RaisesOnly.mono ?_ fun e he => Or.inr ⟨hflag, he⟩
    exact (hnone hflag).bind fun _ _ =>
      (raisesOnly_throwIf (by decide)).bind fun _ _ => raisesOnly_ok _

/-- Options that parse hold no rejected option. -/
theorem rejectedFlag_of_parseOptions {args : List String} {o : Options}
    (h : parseOptions args = .ok o) : rejectedFlag args = none := by
  cases hflag : rejectedFlag args with
  | none => rfl
  | some flag =>
    rcases (@parseArguments_error args {}).1 flag hflag with herror | herror <;>
      rw [parseOptions, herror, error_bind] at h <;> cases h

private theorem transferWords_fixed {env : HostEnv} (prepared : PreparedInput) :
    RaisesOnly FixedText (transferWords env.upstream prepared) :=
  (raisesOnly_throwIf (by decide)).bind fun _ _ => raisesOnly_ok _

private theorem checkUpstreamQuantization_fixed {env : HostEnv} (original : List Float32)
    (prepared : PreparedInput) :
    RaisesOnly FixedText (checkUpstreamQuantization env.upstream original prepared) :=
  raisesOnly_forM fun _ _ => raisesOnly_throwIf (by decide)

private theorem originalInput_fixed (files : String → Option InputFile) (options : Options) :
    RaisesOnly FixedText (originalInput files options) :=
  raisesOnly_ite (makeInput_fixed _ _ _) (readInputFile_fixed _)

/-- Everything before the device quotes the rejected option, or raises a fixed text. -/
theorem beforeDevice_quotesOption (env : HostEnv) (files : String → Option InputFile)
    (args : List String) : RaisesOnly (QuotesOption args) (beforeDevice env files args) := by
  refine (parseOptions_quotesOption args).bind fun options hoptions => ?_
  refine RaisesOnly.mono ?_ fun e he => Or.inr ⟨rejectedFlag_of_parseOptions hoptions, he⟩
  exact (originalInput_fixed files options).bind fun original _ =>
    (prepareInput_fixed options.shape original options.nodes).bind fun prepared _ =>
    (checkUpstreamQuantization_fixed original prepared).bind fun _ _ =>
    (transferWords_fixed prepared).bind fun _ _ =>
    (raisesOnly_throwIf (by decide)).bind fun _ _ => raisesOnly_ok _

/-- A rejected option stops the program before the device. -/
theorem beforeDevice_ne_ok {env : HostEnv} {files : String → Option InputFile} {args : List String}
    {flag : String} (h : rejectedFlag args = some flag) :
    ∃ e, beforeDevice env files args = .error e := by
  cases hbefore : beforeDevice env files args with
  | error e => exact ⟨e, rfl⟩
  | ok p =>
    obtain ⟨o, ho, _⟩ := bind_eq_ok_iff.mp hbefore
    rw [rejectedFlag_of_parseOptions ho] at h
    cases h

end RowReduce
