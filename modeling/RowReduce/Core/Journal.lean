import Mathlib.Data.List.Basic
import Mathlib.Tactic

/-!
# Files written in order

A program seen through the writes it makes to a directory, symbol by symbol, so
that an interruption leaves the writes of a prefix. A file created once holds a
prefix of its text at every interruption, and a program that refuses a directory
it finds written leaves every directory with the writes of one run.
-/

namespace Journal

variable {Name Symbol : Type}

/-- The files of a directory by name. -/
abbrev Directory (Name Symbol : Type) := List (Name × List Symbol)

inductive Effect (Name Symbol : Type) where
  /-- Open for writing, which empties the file. -/
  | create (name : Name)
  | append (name : Name) (symbol : Symbol)

def Effect.name : Effect Name Symbol → Name
  | .create name => name
  | .append name _ => name

/-- A text at the end of an open file. -/
def appendText (name : Name) (text : List Symbol) : List (Effect Name Symbol) :=
  text.map (.append name)

/-- A whole text in a new file. -/
def writeText (name : Name) (text : List Symbol) : List (Effect Name Symbol) :=
  .create name :: appendText name text

section Names

variable {name other : Name} {effects before after : List (Effect Name Symbol)}

/-- The effects do not open the file. -/
def Untouched (name : Name) (effects : List (Effect Name Symbol)) : Prop :=
  ∀ e ∈ effects, e ≠ .create name

/-- The effects are on other files. -/
def Avoids (name : Name) (effects : List (Effect Name Symbol)) : Prop :=
  ∀ e ∈ effects, e.name ≠ name

/-- Effects in sequence avoid a name where each part does. -/
theorem avoids_append_iff : Avoids name (before ++ after) ↔ Avoids name before ∧
    Avoids name after :=
  List.forall_mem_append

/-- Effects in sequence leave a file alone where each part does. -/
theorem Untouched.append (hbefore : Untouched name before) (hafter : Untouched name after) :
    Untouched name (before ++ after) :=
  List.forall_mem_append.mpr ⟨hbefore, hafter⟩

/-- Effects that avoid a name leave its file alone. -/
theorem Avoids.untouched (h : Avoids name effects) : Untouched name effects := by
  rintro e he rfl
  exact h _ he rfl

/-- Appending to any file creates none. -/
theorem untouched_appendText (name other : Name) (text : List Symbol) :
    Untouched name (appendText other text) := by
  intro e he
  obtain ⟨symbol, _, rfl⟩ := List.mem_map.mp he
  exact fun heq => by cases heq

/-- Appending to another file avoids the name. -/
theorem avoids_appendText (h : other ≠ name) (text : List Symbol) :
    Avoids name (appendText other text) := by
  intro e he
  obtain ⟨symbol, _, rfl⟩ := List.mem_map.mp he
  exact h

/-- Writing another file avoids the name. -/
theorem avoids_writeText (h : other ≠ name) (text : List Symbol) :
    Avoids name (writeText other text) :=
  List.forall_mem_cons.mpr ⟨h, avoids_appendText h text⟩

end Names

variable [DecidableEq Name]

def Effect.run (d : Directory Name Symbol) : Effect Name Symbol → Directory Name Symbol
  | .create name => (name, []) :: d.filter fun p => decide (p.1 ≠ name)
  | .append name symbol => d.map fun p => if p.1 = name then (p.1, p.2 ++ [symbol]) else p

/-- The directory after the effects, in order. -/
def run (d : Directory Name Symbol) (effects : List (Effect Name Symbol)) : Directory Name Symbol :=
  effects.foldl Effect.run d

/-- Effects in sequence run one part after the other. -/
theorem run_append (d : Directory Name Symbol) (before after : List (Effect Name Symbol)) :
    run d (before ++ after) = run (run d before) after :=
  List.foldl_append

def Effect.adds (name : Name) : Effect Name Symbol → List Symbol
  | .create _ => []
  | .append other symbol => if other = name then [symbol] else []

/-- What the effects add to a file. -/
def appended (name : Name) (effects : List (Effect Name Symbol)) : List Symbol :=
  effects.flatMap (Effect.adds name)

section File

variable {name : Name} {d : Directory Name Symbol}
    {effects before after : List (Effect Name Symbol)}

/-- What is appended in sequence. -/
theorem appended_append (name : Name) (before after : List (Effect Name Symbol)) :
    appended name (before ++ after) = appended name before ++ appended name after :=
  List.flatMap_append

/-- Appending a text appends that text. -/
theorem appended_appendText (name : Name) (text : List Symbol) :
    appended name (appendText name text) = text := by
  induction text with
  | nil => rfl
  | cons symbol text ih =>
    rw [appendText, List.map_cons, appended, List.flatMap_cons, Effect.adds, if_pos rfl]
    exact congrArg (symbol :: ·) ih

/-- Effects that avoid the name append nothing. -/
theorem appended_of_avoids (h : Avoids name effects) : appended name effects = [] := by
  refine List.flatMap_eq_nil_iff.mpr fun e he => ?_
  cases e with
  | create other => rfl
  | append other symbol => exact if_neg (h _ he)

private theorem lookup_append (name other : Name) (symbol : Symbol) (d : Directory Name Symbol) :
    (Effect.run d (.append other symbol)).lookup name =
      (d.lookup name).map fun text => text ++ if other = name then [symbol] else [] := by
  induction d with
  | nil => rfl
  | cons p d ih =>
    have hrun : Effect.run (p :: d) (.append other symbol) =
        (if p.1 = other then (p.1, p.2 ++ [symbol]) else p) ::
          Effect.run d (.append other symbol) :=
      rfl
    rw [hrun]
    by_cases hp : p.1 = other
    · rw [if_pos hp]
      by_cases hname : name = p.1
      · rw [List.lookup_cons, List.lookup_cons, beq_iff_eq.mpr hname,
          if_pos (hp.symm.trans hname.symm)]
        rfl
      · rw [List.lookup_cons, List.lookup_cons, beq_eq_false_iff_ne.mpr hname]
        exact ih
    · rw [if_neg hp]
      by_cases hname : name = p.1
      · have hother : other ≠ name := fun h => hp (hname.symm.trans h.symm)
        rw [List.lookup_cons, List.lookup_cons, beq_iff_eq.mpr hname, if_neg hother]
        simp
      · rw [List.lookup_cons, List.lookup_cons, beq_eq_false_iff_ne.mpr hname]
        exact ih

/-- A created file is empty. -/
theorem lookup_create_self (name : Name) (d : Directory Name Symbol) :
    (Effect.run d (.create name)).lookup name = some [] := by
  simp [Effect.run]

private theorem lookup_create_ne {other : Name} (h : other ≠ name) (d : Directory Name Symbol) :
    (Effect.run d (.create other)).lookup name = d.lookup name := by
  have hfilter : (d.filter fun p => decide (p.1 ≠ other)).lookup name = d.lookup name := by
    induction d with
    | nil => rfl
    | cons p d ih =>
      by_cases hp : p.1 = other
      · have hname : name ≠ p.1 := fun heq => h (hp.symm.trans heq.symm)
        rw [List.filter_cons_of_neg (by simpa using hp), ih, List.lookup_cons,
          beq_eq_false_iff_ne.mpr hname]
      · rw [List.filter_cons_of_pos (by simpa using hp), List.lookup_cons, List.lookup_cons, ih]
  rw [Effect.run, List.lookup_cons, beq_eq_false_iff_ne.mpr h.symm]
  exact hfilter

/-- Effects that do not open a file extend it. -/
theorem lookup_run (h : Untouched name effects) :
    (run d effects).lookup name = (d.lookup name).map (· ++ appended name effects) := by
  induction effects generalizing d with
  | nil => simp [run, appended]
  | cons e effects ih =>
    obtain ⟨he, h⟩ := List.forall_mem_cons.mp h
    have hcons : run d (e :: effects) = run (Effect.run d e) effects := rfl
    rw [hcons, ih h]
    cases e with
    | create other =>
      have hother : other ≠ name := fun heq => he (heq ▸ rfl)
      rw [lookup_create_ne hother]
      rfl
    | append other symbol =>
      rw [lookup_append, Option.map_map]
      congr 1
      funext text
      simp [appended, Effect.adds]

/-- Effects that avoid a name leave its text. -/
theorem lookup_run_of_avoids (h : Avoids name effects) :
    (run d effects).lookup name = d.lookup name := by
  rw [lookup_run h.untouched, appended_of_avoids h]
  simp

/-- A file opened once holds what is added to it afterwards. -/
theorem lookup_run_create (h : Untouched name after) :
    (run d (before ++ .create name :: after)).lookup name = some (appended name after) := by
  have hcons : run (run d before) (.create name :: after) =
      run (Effect.run (run d before) (.create name)) after := rfl
  rw [run_append, hcons, lookup_run h, lookup_create_self]
  rfl

/-- A written file that nothing touches afterwards has the written text. -/
theorem lookup_run_writeText (h : Avoids name after) (text : List Symbol) :
    (run d (before ++ (writeText name text ++ after))).lookup name = some text := by
  rw [writeText, List.cons_append, lookup_run_create ((untouched_appendText name name text).append
    h.untouched), appended_append, appended_appendText, appended_of_avoids h, List.append_nil]

/-- No effect removes a file. -/
theorem lookup_run_isSome (h : (d.lookup name).isSome = true)
    (effects : List (Effect Name Symbol)) : ((run d effects).lookup name).isSome = true := by
  induction effects generalizing d with
  | nil => exact h
  | cons e effects ih =>
    refine ih ?_
    cases e with
    | create other =>
      by_cases hother : other = name
      · rw [hother, lookup_create_self]
        rfl
      · rwa [lookup_create_ne hother]
    | append other symbol => rwa [lookup_append, Option.isSome_map]

/-- A program that opens a new file last has done all the rest where the file is found. -/
theorem exists_of_lookup_run_take {text content : List Symbol} {cut : ℕ}
    (hnew : d.lookup name = none)
    (hbefore : Avoids name before)
    (h : (run d ((before ++ writeText name text).take cut)).lookup name = some content) :
    content <+: text ∧
      run d ((before ++ writeText name text).take cut) =
        run d (before ++ writeText name content) := by
  rw [List.take_append] at h ⊢
  cases hcut : cut - before.length with
  | zero =>
    rw [hcut, List.take_zero, List.append_nil,
      lookup_run_of_avoids fun e he => hbefore e (List.mem_of_mem_take he), hnew] at h
    cases h
  | succ k =>
    have htake : (writeText name text).take (k + 1) = writeText name (text.take k) := by
      rw [writeText, List.take_succ_cons, appendText, ← List.map_take]
      rfl
    rw [hcut, List.take_of_length_le (by omega), htake] at h
    rw [List.take_of_length_le (by omega), htake]
    have hcontent := @lookup_run_writeText Name Symbol _ name d before [] (by simp [Avoids])
      (text.take k)
    rw [List.append_nil, h] at hcontent
    obtain rfl := Option.some.inj hcontent
    exact ⟨List.take_prefix _ _, rfl⟩

end File

/-- A run of a program on the directory it finds, interrupted after some of its effects. -/
structure Attempt (Name Symbol : Type) where
  program : Directory Name Symbol → List (Effect Name Symbol)
  cut : ℕ

def Attempt.apply (a : Attempt Name Symbol) (d : Directory Name Symbol) : Directory Name Symbol :=
  run d ((a.program d).take a.cut)

/-- The directory after the attempts, in order. -/
def session (d : Directory Name Symbol) (attempts : List (Attempt Name Symbol)) :
    Directory Name Symbol :=
  attempts.foldl (fun d a => a.apply d) d

/-- Where a written directory is refused and the first effect of a run marks it as written, the
attempts leave the effects of at most one of them. -/
theorem session_single {written : Directory Name Symbol → Prop}
    {attempts : List (Attempt Name Symbol)}
    (hrefuses : ∀ a ∈ attempts, ∀ d, written d → a.program d = [])
    (hmarks : ∀ a ∈ attempts, ∀ d e rest, a.program d = e :: rest →
      ∀ effects, effects <+: rest → written (run d (e :: effects)))
    (d : Directory Name Symbol) :
    session d attempts = d ∨
      ∃ a ∈ attempts, written (session d attempts) ∧ session d attempts = a.apply d := by
  have hwritten : ∀ {l : List (Attempt Name Symbol)} {d : Directory Name Symbol},
      (∀ a ∈ l, ∀ d, written d → a.program d = []) → written d → session d l = d := by
    intro l
    induction l with
    | nil => intro d _ _; rfl
    | cons a l ih =>
      intro d hl hd
      have happly : a.apply d = d := by
        rw [Attempt.apply, hl a List.mem_cons_self d hd, List.take_nil]
        rfl
      rw [session, List.foldl_cons, happly]
      exact ih (fun b hb => hl b (List.mem_cons_of_mem _ hb)) hd
  induction attempts generalizing d with
  | nil => exact Or.inl rfl
  | cons a attempts ih =>
    have hrest : ∀ b ∈ attempts, ∀ d, written d → b.program d = [] := fun b hb =>
      hrefuses b (List.mem_cons_of_mem _ hb)
    have hcons : session d (a :: attempts) = session (a.apply d) attempts := rfl
    cases htaken : (a.program d).take a.cut with
    | nil =>
      have happly : a.apply d = d := by
        rw [Attempt.apply, htaken]
        rfl
      rw [hcons, happly]
      rcases ih hrest (fun b hb => hmarks b (List.mem_cons_of_mem _ hb)) d with h | ⟨b, hb, h⟩
      · exact Or.inl h
      · exact Or.inr ⟨b, List.mem_cons_of_mem _ hb, h⟩
    | cons e effects =>
      right
      obtain ⟨more, hmore⟩ := List.take_prefix a.cut (a.program d)
      rw [htaken, List.cons_append] at hmore
      have hmarked : written (a.apply d) := by
        rw [Attempt.apply, htaken]
        exact hmarks a List.mem_cons_self d e _ hmore.symm effects (List.prefix_append _ _)
      rw [hcons, hwritten hrest hmarked]
      exact ⟨a, List.mem_cons_self, hmarked, rfl⟩

end Journal
