import RowReduce.Core.Fallible
import RowReduce.Core.Hexadecimal
import RowReduce.Host.Pattern

/-!
# Command-line options

The parser, and the argument lists it accepts: sequences of `--profile` flags
and flag/value pairs, of which the last occurrence of each flag counts.
-/

namespace RowReduce

open Fallible Hexadecimal

structure Options where
  shape : Shape := ⟨32, 32⟩
  pattern : String := "random"
  seed : Word32 := 1
  repeats : ℕ := 1
  nodes : ℕ := 1
  inputFile : String := ""
  profile : Bool := false
  deriving DecidableEq, Repr

/-- The whole text as plain decimal digits of a `std::size_t`. -/
def fromCharsSize (text : String) : Option ℕ :=
  if text.toList ≠ [] ∧ text.toList.all Char.isDigit = true ∧
    decimalValue text.toList ≤ sizeMax then
    some (decimalValue text.toList)
  else none

def integer (text flag : String) : Except HostException ℕ :=
  match fromCharsSize text with
  | some n => .ok n
  | none => .error (.invalidArgument (flag ++ " requires an unsigned integer"))

/-- The branch taken on a flag with its value. -/
def applyFlag (flag value : String) (o : Options) : Except HostException Options :=
  if flag = "--rows" then do
    let n ← integer value flag
    return { o with shape := { o.shape with rows := n } }
  else if flag = "--cols" then do
    let n ← integer value flag
    return { o with shape := { o.shape with cols := n } }
  else if flag = "--nodes" then do
    let n ← integer value flag
    return { o with nodes := n }
  else if flag = "--repeat" then do
    let n ← integer value flag
    return { o with repeats := n }
  else if flag = "--pattern" then .ok { o with pattern := value }
  else if flag = "--input-file" then .ok { o with inputFile := value }
  else if flag = "--seed" then do
    let seed ← integer value flag
    throwIf (2 ^ 32 - 1 < seed) (.invalidArgument "Seed exceeds uint32")
    return { o with seed := BitVec.ofNat 32 seed }
  else .error (.invalidArgument ("Unknown option " ++ flag))

/-- The loop over `argv[1..]`. -/
def parseArguments : List String → Options → Except HostException Options
  | [], o => .ok o
  | [flag], o =>
    if flag = "--profile" then .ok { o with profile := true }
    else .error (.invalidArgument ("Missing value for " ++ flag))
  | flag :: value :: rest, o =>
    if flag = "--profile" then parseArguments (value :: rest) { o with profile := true }
    else do
      let o ← applyFlag flag value o
      parseArguments rest o

/-- The two accepted spellings beside the pattern names. -/
def patternAlias (name : String) : String :=
  if name = "zeros" then "zero" else if name = "fractions" then "decimals" else name

def parseOptions (args : List String) : Except HostException Options := do
  let o ← parseArguments args {}
  throwIf (o.repeats = 0 ∨ 100 < o.repeats) (.invalidArgument "Repeat must be in [1,100]")
  return { o with pattern := patternAlias o.pattern }

/-- One occurrence of a flag, with its value. -/
inductive Argument where
  | profile
  | rows (n : ℕ)
  | cols (n : ℕ)
  | nodes (n : ℕ)
  | repeats (n : ℕ)
  | pattern (name : String)
  | inputFile (name : String)
  | seed (n : ℕ)
  deriving DecidableEq, Repr

/-- A plain decimal text that fits `std::size_t`. -/
def Decimal (text : String) (n : ℕ) : Prop :=
  text.toList ≠ [] ∧ (∀ c ∈ text.toList, c.isDigit = true) ∧ decimalValue text.toList = n ∧
    n ≤ sizeMax

/-- The texts of one occurrence. -/
inductive Argument.Spells : Argument → List String → Prop where
  | profile : Spells .profile ["--profile"]
  | rows {text : String} {n : ℕ} : Decimal text n → Spells (.rows n) ["--rows", text]
  | cols {text : String} {n : ℕ} : Decimal text n → Spells (.cols n) ["--cols", text]
  | nodes {text : String} {n : ℕ} : Decimal text n → Spells (.nodes n) ["--nodes", text]
  | repeats {text : String} {n : ℕ} : Decimal text n → Spells (.repeats n) ["--repeat", text]
  | pattern (name : String) : Spells (.pattern name) ["--pattern", name]
  | inputFile (name : String) : Spells (.inputFile name) ["--input-file", name]
  | seed {text : String} {n : ℕ} : Decimal text n → n ≤ 2 ^ 32 - 1 →
      Spells (.seed n) ["--seed", text]

/-- A whole argument list as a sequence of occurrences. -/
inductive SpellsAll : List Argument → List String → Prop where
  | nil : SpellsAll [] []
  | cons {argument : Argument} {arguments : List Argument} {texts rest : List String} :
      argument.Spells texts → SpellsAll arguments rest →
      SpellsAll (argument :: arguments) (texts ++ rest)

/-- The effect of one occurrence. -/
def Argument.apply (o : Options) : Argument → Options
  | .profile => { o with profile := true }
  | .rows n => { o with shape := { o.shape with rows := n } }
  | .cols n => { o with shape := { o.shape with cols := n } }
  | .nodes n => { o with nodes := n }
  | .repeats n => { o with repeats := n }
  | .pattern name => { o with pattern := name }
  | .inputFile name => { o with inputFile := name }
  | .seed n => { o with seed := BitVec.ofNat 32 n }

/-- The accepted sizes are the decimal numerals in range. -/
theorem fromCharsSize_eq_some_iff {text : String} {n : ℕ} :
    fromCharsSize text = some n ↔ Decimal text n := by
  unfold fromCharsSize Decimal
  rw [← List.all_eq_true]
  constructor
  · intro h
    split_ifs at h with hc
    obtain rfl := Option.some.inj h
    exact ⟨hc.1, hc.2.1, rfl, hc.2.2⟩
  · rintro ⟨h1, h2, rfl, h3⟩
    rw [if_pos ⟨h1, h2, h3⟩]

/-- So are the accepted values of a flag. -/
theorem integer_eq_ok_iff {text flag : String} {n : ℕ} :
    integer text flag = .ok n ↔ Decimal text n := by
  rw [← fromCharsSize_eq_some_iff, integer]
  cases fromCharsSize text <;> simp

/-- A flag with its value is accepted exactly when it spells an occurrence. -/
theorem applyFlag_eq_ok_iff {flag value : String} {o o' : Options} :
    applyFlag flag value o = .ok o' ↔
      ∃ argument : Argument, argument.Spells [flag, value] ∧ o' = argument.apply o := by
  constructor
  · intro h
    unfold applyFlag at h
    split_ifs at h with h1 h2 h3 h4 h5 h6 h7
    · obtain ⟨n, hn, hset⟩ := bind_eq_ok_iff.mp h
      subst h1
      exact ⟨.rows n, .rows (integer_eq_ok_iff.mp hn), (Except.ok.inj hset).symm⟩
    · obtain ⟨n, hn, hset⟩ := bind_eq_ok_iff.mp h
      subst h2
      exact ⟨.cols n, .cols (integer_eq_ok_iff.mp hn), (Except.ok.inj hset).symm⟩
    · obtain ⟨n, hn, hset⟩ := bind_eq_ok_iff.mp h
      subst h3
      exact ⟨.nodes n, .nodes (integer_eq_ok_iff.mp hn), (Except.ok.inj hset).symm⟩
    · obtain ⟨n, hn, hset⟩ := bind_eq_ok_iff.mp h
      subst h4
      exact ⟨.repeats n, .repeats (integer_eq_ok_iff.mp hn), (Except.ok.inj hset).symm⟩
    · subst h5
      exact ⟨.pattern value, .pattern value, (Except.ok.inj h).symm⟩
    · subst h6
      exact ⟨.inputFile value, .inputFile value, (Except.ok.inj h).symm⟩
    · obtain ⟨n, hn, hrest⟩ := bind_eq_ok_iff.mp h
      obtain ⟨_, hle, hset⟩ := bind_eq_ok_iff.mp hrest
      rw [throwIf_eq_ok_iff] at hle
      subst h7
      exact ⟨.seed n, .seed (integer_eq_ok_iff.mp hn) (not_lt.mp hle), (Except.ok.inj hset).symm⟩
  · rintro ⟨argument, hspell, rfl⟩
    cases hspell with
    | rows hd | cols hd | nodes hd | repeats hd =>
      simp [applyFlag, integer_eq_ok_iff.mpr hd, Argument.apply]
    | pattern | inputFile => simp [applyFlag, Argument.apply]
    | @seed _ n hd hle =>
      have hcheck : ¬4294967295 < n := not_lt.mpr hle
      simp [applyFlag, integer_eq_ok_iff.mpr hd, throwIf_of_not hcheck, Argument.apply]

/-- A flag that takes no free text is followed by a number. -/
theorem Argument.Spells.exists_decimal {argument : Argument} {flag value : String}
    (h : argument.Spells [flag, value]) (hpattern : flag ≠ "--pattern")
    (hfile : flag ≠ "--input-file") : ∃ n, Decimal value n := by
  cases h with
  | rows hd | cols hd | nodes hd | repeats hd | seed hd => exact ⟨_, hd⟩
  | pattern => exact absurd rfl hpattern
  | inputFile => exact absurd rfl hfile

private theorem spellsAll_nil_iff {arguments : List Argument} :
    SpellsAll arguments [] ↔ arguments = [] := by
  constructor
  · intro h
    generalize hargs : ([] : List String) = args at h
    cases h with
    | nil => rfl
    | cons hspell _ => cases hspell <;> cases hargs
  · rintro rfl
    exact .nil

/-- A list that starts with `--profile` spells that flag first. -/
theorem spellsAll_profile_iff {arguments : List Argument} {rest : List String} :
    SpellsAll arguments ("--profile" :: rest) ↔
      ∃ tail, arguments = .profile :: tail ∧ SpellsAll tail rest := by
  constructor
  · intro h
    generalize hargs : "--profile" :: rest = args at h
    cases h with
    | nil => cases hargs
    | cons hspell htail =>
      cases hspell with
      | profile =>
        cases hargs
        exact ⟨_, rfl, htail⟩
      | _ => simp at hargs
  · rintro ⟨tail, rfl, h⟩
    exact .cons .profile h

/-- A list that starts with another flag spells it with its value. -/
theorem spellsAll_value_iff {arguments : List Argument} {flag value : String}
    {rest : List String} (hflag : flag ≠ "--profile") :
    SpellsAll arguments (flag :: value :: rest) ↔
      ∃ argument tail, arguments = argument :: tail ∧ argument.Spells [flag, value] ∧
        SpellsAll tail rest := by
  constructor
  · intro h
    generalize hargs : flag :: value :: rest = args at h
    cases h with
    | nil => cases hargs
    | cons hspell htail =>
      cases hspell with
      | profile => exact absurd (List.cons.inj hargs).1 hflag
      | rows hd | cols hd | nodes hd | repeats hd =>
        cases hargs
        exact ⟨_, _, rfl, by constructor; exact hd, htail⟩
      | pattern | inputFile =>
        cases hargs
        exact ⟨_, _, rfl, by constructor, htail⟩
      | seed hd hle =>
        cases hargs
        exact ⟨_, _, rfl, .seed hd hle, htail⟩
  · rintro ⟨argument, tail, rfl, hspell, htail⟩
    exact .cons hspell htail

private theorem not_spellsAll_singleton {arguments : List Argument} {flag : String}
    (hflag : flag ≠ "--profile") : ¬SpellsAll arguments [flag] := by
  intro h
  generalize hargs : [flag] = args at h
  cases h with
  | nil => cases hargs
  | cons hspell _ =>
    cases hspell with
    | profile => exact hflag (List.cons.inj hargs).1
    | _ => simp at hargs

/-- Parsing succeeds exactly on spelled occurrences and applies them in order. -/
theorem parseArguments_eq_ok_iff {args : List String} {o o' : Options} :
    parseArguments args o = .ok o' ↔
      ∃ arguments, SpellsAll arguments args ∧ o' = arguments.foldl Argument.apply o := by
  induction args, o using parseArguments.induct with
  | case1 o =>
    simp only [parseArguments, spellsAll_nil_iff, Except.ok.injEq, exists_eq_left, List.foldl_nil,
      eq_comm]
  | case2 o =>
    simp only [parseArguments, if_true, spellsAll_profile_iff, spellsAll_nil_iff, Except.ok.injEq]
    constructor
    · rintro rfl
      exact ⟨_, ⟨_, rfl, rfl⟩, rfl⟩
    · rintro ⟨_, ⟨_, rfl, rfl⟩, rfl⟩
      rfl
  | case3 flag o h =>
    simp only [parseArguments, if_neg h, not_spellsAll_singleton h, reduceCtorEq, false_and,
      exists_false]
  | case4 value rest o ih =>
    rw [parseArguments, if_pos rfl, ih]
    simp only [spellsAll_profile_iff]
    constructor
    · rintro ⟨tail, htail, rfl⟩
      exact ⟨_, ⟨tail, rfl, htail⟩, rfl⟩
    · rintro ⟨_, ⟨tail, rfl, htail⟩, rfl⟩
      exact ⟨tail, htail, rfl⟩
  | case5 flag value rest o h ih =>
    rw [parseArguments, if_neg h, bind_eq_ok_iff]
    simp only [applyFlag_eq_ok_iff, ih, spellsAll_value_iff h]
    constructor
    · rintro ⟨_, ⟨argument, hspell, rfl⟩, tail, htail, rfl⟩
      exact ⟨_, ⟨argument, tail, rfl, hspell, htail⟩, rfl⟩
    · rintro ⟨_, ⟨argument, tail, rfl, hspell, htail⟩, rfl⟩
      exact ⟨_, ⟨argument, hspell, rfl⟩, tail, htail, rfl⟩

/-- The value of the last occurrence that carries one, else the default. -/
def lastOf {α : Type} (arguments : List Argument) (select : Argument → Option α)
    (default : α) : α :=
  (arguments.filterMap select).getLastD default

/-- A field that every occurrence either sets or keeps ends at its last value. -/
theorem foldl_apply_eq_lastOf {α : Type} {field : Options → α} {select : Argument → Option α}
    (h : ∀ argument o, field (Argument.apply o argument) = (select argument).getD (field o))
    (arguments : List Argument) (o : Options) :
    field (arguments.foldl Argument.apply o) = lastOf arguments select (field o) := by
  induction arguments generalizing o with
  | nil => rfl
  | cons argument arguments ih =>
    rw [List.foldl_cons, ih, h, lastOf, lastOf, List.filterMap_cons]
    cases select argument with
    | none => rfl
    | some a => rw [Option.getD_some, List.getLastD_cons]

def Argument.rows? : Argument → Option ℕ
  | .rows n => some n
  | _ => none

def Argument.cols? : Argument → Option ℕ
  | .cols n => some n
  | _ => none

def Argument.nodes? : Argument → Option ℕ
  | .nodes n => some n
  | _ => none

def Argument.repeats? : Argument → Option ℕ
  | .repeats n => some n
  | _ => none

def Argument.pattern? : Argument → Option String
  | .pattern name => some name
  | _ => none

def Argument.inputFile? : Argument → Option String
  | .inputFile name => some name
  | _ => none

def Argument.seed? : Argument → Option Word32
  | .seed n => some (BitVec.ofNat 32 n)
  | _ => none

/-- The options a list of occurrences stands for. -/
def optionsOf (arguments : List Argument) : Options where
  shape := ⟨lastOf arguments Argument.rows? 32, lastOf arguments Argument.cols? 32⟩
  pattern := patternAlias (lastOf arguments Argument.pattern? "random")
  seed := lastOf arguments Argument.seed? 1
  repeats := lastOf arguments Argument.repeats? 1
  nodes := lastOf arguments Argument.nodes? 1
  inputFile := lastOf arguments Argument.inputFile? ""
  profile := decide (.profile ∈ arguments)

private theorem foldl_apply_profile (arguments : List Argument) (o : Options) :
    (arguments.foldl Argument.apply o).profile = (o.profile || decide (.profile ∈ arguments)) := by
  induction arguments generalizing o with
  | nil => simp
  | cons argument arguments ih =>
    rw [List.foldl_cons, ih]
    cases argument <;> simp [Argument.apply]

/-- Applying every occurrence to the defaults, then the aliases, gives the
options they stand for. -/
theorem foldl_apply_eq_optionsOf (arguments : List Argument) :
    { arguments.foldl Argument.apply {} with
      pattern := patternAlias (arguments.foldl Argument.apply {}).pattern } =
    optionsOf arguments := by
  have hrows := @foldl_apply_eq_lastOf _ (fun o => o.shape.rows) Argument.rows?
    (fun a o => by cases a <;> rfl) arguments {}
  have hcols := @foldl_apply_eq_lastOf _ (fun o => o.shape.cols) Argument.cols?
    (fun a o => by cases a <;> rfl) arguments {}
  have hpattern := @foldl_apply_eq_lastOf _ Options.pattern Argument.pattern?
    (fun a o => by cases a <;> rfl) arguments {}
  have hseed := @foldl_apply_eq_lastOf _ Options.seed Argument.seed?
    (fun a o => by cases a <;> rfl) arguments {}
  have hrepeats := @foldl_apply_eq_lastOf _ Options.repeats Argument.repeats?
    (fun a o => by cases a <;> rfl) arguments {}
  have hnodes := @foldl_apply_eq_lastOf _ Options.nodes Argument.nodes?
    (fun a o => by cases a <;> rfl) arguments {}
  have hfile := @foldl_apply_eq_lastOf _ Options.inputFile Argument.inputFile?
    (fun a o => by cases a <;> rfl) arguments {}
  have hprofile := foldl_apply_profile arguments {}
  simp only [Bool.false_or] at hprofile
  rw [optionsOf, ← hrows, ← hcols, ← hpattern, ← hseed, ← hrepeats, ← hnodes, ← hfile, ← hprofile]

/-- On spelled occurrences only the repeat bound is left to check. -/
theorem SpellsAll.parseOptions {arguments : List Argument} {args : List String}
    (h : SpellsAll arguments args) :
    parseOptions args = (do
      throwIf ((optionsOf arguments).repeats = 0 ∨ 100 < (optionsOf arguments).repeats)
        (.invalidArgument "Repeat must be in [1,100]")
      return optionsOf arguments) := by
  have hparse : parseArguments args {} = .ok (arguments.foldl Argument.apply {}) :=
    parseArguments_eq_ok_iff.mpr ⟨arguments, h, rfl⟩
  have hrepeats := congrArg Options.repeats (foldl_apply_eq_optionsOf arguments)
  simp only at hrepeats
  rw [RowReduce.parseOptions, hparse, ok_bind, foldl_apply_eq_optionsOf, hrepeats]

/-- The parser accepts a spelled list within the repeat bound, each flag's last value counting. -/
theorem parseOptions_eq_ok_iff {args : List String} {o : Options} :
    parseOptions args = .ok o ↔ ∃ arguments, SpellsAll arguments args ∧
      1 ≤ (optionsOf arguments).repeats ∧ (optionsOf arguments).repeats ≤ 100 ∧
      o = optionsOf arguments := by
  constructor
  · intro h
    obtain ⟨_, hfold, _⟩ := bind_eq_ok_iff.mp h
    obtain ⟨arguments, hspell, _⟩ := parseArguments_eq_ok_iff.mp hfold
    rw [hspell.parseOptions, bind_eq_ok_iff] at h
    obtain ⟨_, hbound, hset⟩ := h
    rw [throwIf_eq_ok_iff] at hbound
    exact ⟨arguments, hspell, by omega, by omega, (Except.ok.inj hset).symm⟩
  · rintro ⟨arguments, hspell, h1, h2, rfl⟩
    rw [hspell.parseOptions, throwIf_of_not (by omega)]
    rfl

/-- A permutation of occurrences, each given by its texts, that keeps the order within each flag. -/
structure Reorders (texts texts' : List (List String)) : Prop where
  perm : texts.Perm texts'
  order : ∀ flag : String, texts.filter (fun t => t.head? = some flag) =
    texts'.filter (fun t => t.head? = some flag)

/-- The flag an occurrence starts with. -/
def Argument.flag : Argument → String
  | .profile => "--profile"
  | .rows _ => "--rows"
  | .cols _ => "--cols"
  | .nodes _ => "--nodes"
  | .repeats _ => "--repeat"
  | .pattern _ => "--pattern"
  | .inputFile _ => "--input-file"
  | .seed _ => "--seed"

/-- A spelled occurrence starts with its flag. -/
theorem Argument.Spells.head_eq {argument : Argument} {t : List String} (h : argument.Spells t) :
    t.head? = some argument.flag := by
  cases h <;> rfl

/-- Texts that each spell an occurrence spell a list of them. -/
theorem spellsAll_flatten {texts : List (List String)} {read : List String → Argument}
    (h : ∀ t ∈ texts, (read t).Spells t) : SpellsAll (texts.map read) texts.flatten := by
  induction texts with
  | nil => exact .nil
  | cons t texts ih =>
    obtain ⟨ht, htexts⟩ := List.forall_mem_cons.mp h
    exact .cons ht (ih htexts)

/-- A value that one flag alone carries is read from that flag's occurrences. -/
theorem Reorders.lastOf_eq {α : Type} {texts texts' : List (List String)}
    (h : Reorders texts texts')
    {read : List String → Argument} {select : Argument → Option α} {flag : String}
    (hselect : ∀ t ∈ texts, (select (read t)).isSome → t.head? = some flag) (default : α) :
    lastOf (texts.map read) select default = lastOf (texts'.map read) select default := by
  have hfilter : ∀ l : List (List String), (∀ t ∈ l, t ∈ texts) →
      (l.map read).filterMap select =
        (l.filter (fun t => t.head? = some flag)).filterMap (select ∘ read) := by
    intro l hl
    rw [List.filterMap_map, List.filterMap_filter]
    refine List.filterMap_congr fun t ht => ?_
    cases hvalue : select (read t) with
    | none => simp [hvalue]
    | some a => simp [hvalue, hselect t (hl t ht) (by rw [hvalue]; rfl)]
  rw [lastOf, lastOf, hfilter texts fun _ ht => ht,
    hfilter texts' fun _ ht => h.perm.mem_iff.mpr ht, h.order flag]

/-- The options do not depend on the order of different flags. -/
theorem Reorders.optionsOf_eq {texts texts' : List (List String)} (h : Reorders texts texts')
    {read : List String → Argument} (hread : ∀ t ∈ texts, (read t).Spells t) :
    optionsOf (texts.map read) = optionsOf (texts'.map read) := by
  have hflag : ∀ {α : Type} (select : Argument → Option α) (flag : String),
      (∀ argument, (select argument).isSome → argument.flag = flag) →
      ∀ default, lastOf (texts.map read) select default = lastOf (texts'.map read) select default :=
    fun select flag hselect => h.lastOf_eq fun t ht hsome => by
      rw [(hread t ht).head_eq, hselect _ hsome]
  have hrows := hflag Argument.rows? "--rows" fun a ha => by cases a <;> first | rfl | cases ha
  have hcols := hflag Argument.cols? "--cols" fun a ha => by cases a <;> first | rfl | cases ha
  have hpattern := hflag Argument.pattern? "--pattern" fun a ha => by
    cases a <;> first | rfl | cases ha
  have hseed := hflag Argument.seed? "--seed" fun a ha => by cases a <;> first | rfl | cases ha
  have hrepeats := hflag Argument.repeats? "--repeat" fun a ha => by
    cases a <;> first | rfl | cases ha
  have hnodes := hflag Argument.nodes? "--nodes" fun a ha => by cases a <;> first | rfl | cases ha
  have hfile := hflag Argument.inputFile? "--input-file" fun a ha => by
    cases a <;> first | rfl | cases ha
  rw [optionsOf, optionsOf, hrows, hcols, hpattern, hseed, hrepeats, hnodes, hfile,
    decide_eq_decide.mpr (h.perm.map read).mem_iff]

/-- Reordering well-formed occurrences does not change what is parsed, nor whether it is. -/
theorem Reorders.parseOptions_eq {texts texts' : List (List String)} (h : Reorders texts texts')
    (hspell : ∀ t ∈ texts, ∃ argument : Argument, argument.Spells t) :
    parseOptions texts.flatten = parseOptions texts'.flatten := by
  classical
  let read : List String → Argument := fun t =>
    if ht : ∃ argument : Argument, argument.Spells t then ht.choose else .profile
  have hread : ∀ t ∈ texts, (read t).Spells t := by
    intro t ht
    simp only [read, dif_pos (hspell t ht)]
    exact (hspell t ht).choose_spec
  have hread' : ∀ t ∈ texts', (read t).Spells t := fun t ht => hread t (h.perm.mem_iff.mpr ht)
  rw [(spellsAll_flatten hread).parseOptions, (spellsAll_flatten hread').parseOptions,
    h.optionsOf_eq hread]

end RowReduce
