import RowReduce.Correctness.JsonDocuments

/-!
# The two readers

One step of either reader as a case distinction, for values, items and members.
What the strict reader accepts the library's accepts with the same value, the
fuel only has to cover the text that is taken, and what is taken does not depend
on the text behind it.
-/

namespace RowReduce

open BinaryFloat Fallible Hexadecimal

/-! ## One step -/

/-- The values written as one word. -/
def literals : List (List Char × Json) :=
  [("null".toList, .null), ("true".toList, .bool true), ("false".toList, .bool false)]

def nonfiniteLiterals : List (List Char × Json) :=
  [("NaN".toList, .float .nan), ("Infinity".toList, .float (.infinity false)),
    ("-Infinity".toList, .float (.infinity true))]

/-- A text that starts a number. -/
def NumeralHead (text : List Char) : Prop :=
  ∃ c tail, text = c :: tail ∧
    (c.isDigit = true ∨ c = '-' ∧ ∃ d ds, tail = d :: ds ∧ d.isDigit = true)

private theorem signedNumber_head {sign : ℤ} {text : List Char} {p : Json × List Char}
    (h : signedNumber sign text = some p) : ∃ d ds, text = d :: ds ∧ d.isDigit = true := by
  cases text with
  | nil => cases h
  | cons d ds =>
    refine ⟨d, ds, rfl, ?_⟩
    by_contra hd
    have hwhole : scanWhole (d :: ds) = ([], d :: ds) := by
      rw [scanWhole.eq_2 _ fun _ h => hd (by rw [(List.cons.inj h).1]; rfl),
        List.span_eq_takeWhile_dropWhile, List.takeWhile_cons_of_neg hd,
        List.dropWhile_cons_of_neg hd]
    simp [signedNumber, hwhole] at h

/-- A numeral is read behind its sign. -/
theorem scanNumber_cases (text : List Char) :
    (∃ tail, text = '-' :: tail ∧ scanNumber text = signedNumber (-1) tail) ∨
      (text.head? ≠ some '-' ∧ scanNumber text = signedNumber 1 text) := by
  by_cases h : ∃ tail, text = '-' :: tail
  · obtain ⟨tail, rfl⟩ := h
    exact Or.inl ⟨tail, rfl, rfl⟩
  · refine Or.inr ⟨fun hhead => h ?_, ?_⟩
    · cases text with
      | nil => cases hhead
      | cons c tail => exact ⟨tail, by rw [Option.some.inj hhead]⟩
    · unfold scanNumber
      split
      rename_i hsign
      split at hsign
      · exact absurd ⟨_, rfl⟩ h
      · obtain ⟨rfl, rfl⟩ := Prod.mk.inj hsign
        rfl

/-- What a numeral starts with. -/
theorem numeralHead_of_scanNumber {text : List Char} {p : Json × List Char}
    (h : scanNumber text = some p) : NumeralHead text := by
  rcases scanNumber_cases text with ⟨tail, rfl, hscan⟩ | ⟨_, hscan⟩
  · exact ⟨'-', tail, rfl, Or.inr ⟨rfl, signedNumber_head (hscan.symm.trans h)⟩⟩
  · obtain ⟨d, ds, rfl, hd⟩ := signedNumber_head (hscan.symm.trans h)
    exact ⟨d, ds, rfl, Or.inl hd⟩

/-- A numeral is read as a number. -/
theorem NumeralHead.scanOnce {maxDigits : Option ℕ} {text : List Char} (h : NumeralHead text)
    (fuel : ℕ) : scanOnce maxDigits (fuel + 1) text = scanNumeral maxDigits text := by
  obtain ⟨c, tail, rfl, hc | ⟨rfl, d, ds, rfl, hd⟩⟩ := h
  · exact scanOnce_digit hc fuel tail
  · obtain ⟨h1, h2⟩ := charIsDigit_iff.mp hd
    rw [← Char.ofNat_toNat d]
    generalize d.toNat = n at h1 h2
    interval_cases n <;> rfl

/-- A value off the front of a text, where its items and members are read by the given relations. -/
inductive ReadStep (Items : List Char → List Json → List Char → Prop)
    (Members : List Char → List (String × Json) → List Char → Prop)
    (Object : List (String × Json) → List (String × Json) → Prop) (Number : Json → Prop)
    (words : List (List Char × Json)) : List Char → Json → List Char → Prop
  | string {body rest : List Char} {s : String} (h : scanString body = some (s, rest)) :
    ReadStep Items Members Object Number words ('"' :: body) (.str s) rest
  | emptyObject {body rest : List Char} (h : skipBlanks body = '\x7d' :: rest) :
    ReadStep Items Members Object Number words ('\x7b' :: body) (.dict []) rest
  | object {body rest : List Char} {pairs fields : List (String × Json)}
    (hopen : ∀ r, skipBlanks body ≠ '\x7d' :: r) (h : Members (skipBlanks body) pairs rest)
    (hobject : Object pairs fields) :
    ReadStep Items Members Object Number words ('\x7b' :: body) (.dict fields) rest
  | emptyList {body rest : List Char} (h : skipBlanks body = ']' :: rest) :
    ReadStep Items Members Object Number words ('[' :: body) (.list []) rest
  | list {body rest : List Char} {items : List Json} (hopen : ∀ r, skipBlanks body ≠ ']' :: r)
    (h : Items (skipBlanks body) items rest) :
    ReadStep Items Members Object Number words ('[' :: body) (.list items) rest
  | word (w : List Char) {rest : List Char} {value : Json} (h : (w, value) ∈ words) :
    ReadStep Items Members Object Number words (w ++ rest) value rest
  | number {text rest : List Char} {value : Json} (hhead : NumeralHead text)
    (h : scanNumber text = some (value, rest)) (hvalue : Number value) :
    ReadStep Items Members Object Number words text value rest

/-- Items up to the closing bracket. -/
inductive ItemsStep (Value : List Char → Json → List Char → Prop)
    (Items : List Char → List Json → List Char → Prop) : List Char → List Json → List Char → Prop
  | last {text after rest : List Char} {value : Json} (h : Value text value after)
    (hclose : skipBlanks after = ']' :: rest) : ItemsStep Value Items text [value] rest
  | next {text after body rest : List Char} {value : Json} {items : List Json}
    (h : Value text value after) (hcomma : skipBlanks after = ',' :: body)
    (hitems : Items (skipBlanks body) items rest) : ItemsStep Value Items text (value :: items) rest

/-- Members up to the closing brace. -/
inductive MembersStep (Value : List Char → Json → List Char → Prop)
    (Members : List Char → List (String × Json) → List Char → Prop) :
    List Char → List (String × Json) → List Char → Prop
  | last {text colon body after rest : List Char} {key : String} {value : Json}
    (hkey : scanString text = some (key, colon)) (hcolon : skipBlanks colon = ':' :: body)
    (h : Value (skipBlanks body) value after) (hclose : skipBlanks after = '\x7d' :: rest) :
    MembersStep Value Members ('"' :: text) [(key, value)] rest
  | next {text colon body after more rest : List Char} {key : String} {value : Json}
    {members : List (String × Json)} (hkey : scanString text = some (key, colon))
    (hcolon : skipBlanks colon = ':' :: body) (h : Value (skipBlanks body) value after)
    (hcomma : skipBlanks after = ',' :: more) (hmembers : Members (skipBlanks more) members rest) :
    MembersStep Value Members ('"' :: text) ((key, value) :: members) rest

section Imp

variable {Value Value' : List Char → Json → List Char → Prop}
  {Items Items' : List Char → List Json → List Char → Prop}
  {Members Members' : List Char → List (String × Json) → List Char → Prop}
  {Object Object' : List (String × Json) → List (String × Json) → Prop}
  {Number Number' : Json → Prop}
  {words words' : List (List Char × Json)} {text rest : List Char}

/-- A step of a reader is one of any reader that takes more. -/
theorem ReadStep.imp {value : Json} (hitems : ∀ t vs r, Items t vs r → Items' t vs r)
    (hmembers : ∀ t ms r, Members t ms r → Members' t ms r)
    (hobject : ∀ pairs fields, Object pairs fields → Object' pairs fields)
    (hnumber : ∀ v, Number v → Number' v) (hwords : ∀ p ∈ words, p ∈ words')
    (h : ReadStep Items Members Object Number words text value rest) :
    ReadStep Items' Members' Object' Number' words' text value rest := by
  cases h with
  | string h => exact .string h
  | emptyObject h => exact .emptyObject h
  | object hopen h hfields => exact .object hopen (hmembers _ _ _ h) (hobject _ _ hfields)
  | emptyList h => exact .emptyList h
  | list hopen h => exact .list hopen (hitems _ _ _ h)
  | word w h => exact .word w (hwords _ h)
  | number hhead h hvalue => exact .number hhead h (hnumber _ hvalue)

/-- A step over items is one of any reader that takes more. -/
theorem ItemsStep.imp {items : List Json} (hvalue : ∀ t v r, Value t v r → Value' t v r)
    (hitems : ∀ t vs r, Items t vs r → Items' t vs r) (h : ItemsStep Value Items text items rest) :
    ItemsStep Value' Items' text items rest := by
  cases h with
  | last h hclose => exact .last (hvalue _ _ _ h) hclose
  | next h hcomma htail => exact .next (hvalue _ _ _ h) hcomma (hitems _ _ _ htail)

/-- So is a step over members. -/
theorem MembersStep.imp {members : List (String × Json)}
    (hvalue : ∀ t v r, Value t v r → Value' t v r)
    (hmembers : ∀ t ms r, Members t ms r → Members' t ms r)
    (h : MembersStep Value Members text members rest) :
    MembersStep Value' Members' text members rest := by
  cases h with
  | last hkey hcolon h hclose => exact .last hkey hcolon (hvalue _ _ _ h) hclose
  | next hkey hcolon h hcomma htail =>
    exact .next hkey hcolon (hvalue _ _ _ h) hcomma (hmembers _ _ _ htail)

end Imp

section Reader

/-- The library's reader with some fuel. -/
def ScanValue (maxDigits : Option ℕ) (fuel : ℕ) (text : List Char) (value : Json)
    (rest : List Char) : Prop :=
  scanOnce maxDigits fuel text = some (value, rest)

def ScanItems (maxDigits : Option ℕ) (fuel : ℕ) (text : List Char) (items : List Json)
    (rest : List Char) : Prop :=
  scanItems maxDigits fuel text = some (items, rest)

def ScanMembers (maxDigits : Option ℕ) (fuel : ℕ) (text : List Char)
    (members : List (String × Json)) (rest : List Char) : Prop :=
  scanMembers maxDigits fuel text = some (members, rest)

variable {maxDigits : Option ℕ} {fuel : ℕ} {text rest : List Char} {value : Json}

/-- With one more level `json.loads` takes a step. -/
theorem scanValue_succ_iff : ScanValue maxDigits (fuel + 1) text value rest ↔
    ReadStep (ScanItems maxDigits fuel) (ScanMembers maxDigits fuel)
      (fun pairs fields => fields = dictOf pairs) (fun value => withinDigits maxDigits value = true)
      (literals ++ nonfiniteLiterals) text value rest := by
  constructor
  · intro h
    unfold ScanValue scanOnce at h
    split at h
    · obtain ⟨⟨s, after⟩, hs, heq⟩ := Option.map_eq_some_iff.mp h
      obtain ⟨rfl, rfl⟩ := Prod.mk.inj heq
      exact .string hs
    · split at h
      · obtain ⟨rfl, rfl⟩ := Prod.mk.inj (Option.some.inj h)
        exact .emptyObject ‹_›
      · obtain ⟨⟨pairs, after⟩, hpairs, heq⟩ := Option.map_eq_some_iff.mp h
        obtain ⟨rfl, rfl⟩ := Prod.mk.inj heq
        exact .object ‹_› hpairs rfl
    · split at h
      · obtain ⟨rfl, rfl⟩ := Prod.mk.inj (Option.some.inj h)
        exact .emptyList ‹_›
      · obtain ⟨⟨items, after⟩, hitems, heq⟩ := Option.map_eq_some_iff.mp h
        obtain ⟨rfl, rfl⟩ := Prod.mk.inj heq
        exact .list ‹_› hitems
    · obtain ⟨rfl, rfl⟩ := Prod.mk.inj (Option.some.inj h)
      exact .word "null".toList (by simp [literals])
    · obtain ⟨rfl, rfl⟩ := Prod.mk.inj (Option.some.inj h)
      exact .word "true".toList (by simp [literals])
    · obtain ⟨rfl, rfl⟩ := Prod.mk.inj (Option.some.inj h)
      exact .word "false".toList (by simp [literals])
    · obtain ⟨rfl, rfl⟩ := Prod.mk.inj (Option.some.inj h)
      exact .word "NaN".toList (by simp [nonfiniteLiterals])
    · obtain ⟨rfl, rfl⟩ := Prod.mk.inj (Option.some.inj h)
      exact .word "Infinity".toList (by simp [nonfiniteLiterals])
    · obtain ⟨rfl, rfl⟩ := Prod.mk.inj (Option.some.inj h)
      exact .word "-Infinity".toList (by simp [nonfiniteLiterals])
    · obtain ⟨hscan, hwithin⟩ := scanNumeral_eq_some_iff.mp h
      exact .number (numeralHead_of_scanNumber hscan) hscan hwithin
  · intro h
    cases h with
    | string h => rw [ScanValue, scanOnce, h]; rfl
    | emptyObject h => rw [ScanValue, scanOnce, h]; rfl
    | object hopen h hobject =>
      subst hobject
      rw [ScanValue, scanOnce]
      split
      · exact absurd ‹_› (hopen _)
      · rw [h]
        rfl
    | emptyList h => rw [ScanValue, scanOnce, h]; rfl
    | list hopen h =>
      rw [ScanValue, scanOnce]
      split
      · exact absurd ‹_› (hopen _)
      · rw [h]
        rfl
    | word w h =>
      simp only [literals, nonfiniteLiterals, List.cons_append, List.nil_append, List.mem_cons,
        Prod.mk.injEq, List.not_mem_nil, or_false] at h
      rcases h with ⟨rfl, rfl⟩ | ⟨rfl, rfl⟩ | ⟨rfl, rfl⟩ | ⟨rfl, rfl⟩ | ⟨rfl, rfl⟩ | ⟨rfl,
        rfl⟩ <;> rfl
    | number hhead h hwithin =>
      exact (hhead.scanOnce fuel).trans (scanNumeral_eq_some_iff.mpr ⟨h, hwithin⟩)

/-- So it does over items. -/
theorem scanItems_succ_iff {items : List Json} : ScanItems maxDigits (fuel + 1) text items rest ↔
    ItemsStep (ScanValue maxDigits fuel) (ScanItems maxDigits fuel) text items rest := by
  constructor
  · intro h
    rw [ScanItems, scanItems, Option.bind_eq_bind, Option.bind_eq_some_iff] at h
    obtain ⟨⟨value, after⟩, hvalue, h⟩ := h
    dsimp only at h
    split at h
    · obtain ⟨rfl, rfl⟩ := Prod.mk.inj (Option.some.inj h)
      exact .last hvalue ‹_›
    · rw [Option.bind_eq_bind, Option.bind_eq_some_iff] at h
      obtain ⟨⟨items, after⟩, hitems, h⟩ := h
      obtain ⟨rfl, rfl⟩ := Prod.mk.inj (Option.some.inj h)
      exact .next hvalue ‹_› hitems
    · cases h
  · intro h
    cases h with
    | last h hclose =>
      rw [ScanItems, scanItems, h]
      simp only [Option.bind_eq_bind, Option.bind_some, hclose]
      rfl
    | next h hcomma hitems =>
      rw [ScanItems, scanItems, h]
      simp only [Option.bind_eq_bind, Option.bind_some, hcomma]
      rw [hitems]
      rfl

/-- And over members. -/
theorem scanMembers_succ_iff {members : List (String × Json)} :
    ScanMembers maxDigits (fuel + 1) text members rest ↔
      MembersStep (ScanValue maxDigits fuel) (ScanMembers maxDigits fuel) text members rest := by
  constructor
  · intro h
    unfold ScanMembers scanMembers at h
    split at h
    · rw [Option.bind_eq_bind, Option.bind_eq_some_iff] at h
      obtain ⟨⟨key, colon⟩, hkey, h⟩ := h
      dsimp only at h
      split at h
      · rw [Option.bind_eq_bind, Option.bind_eq_some_iff] at h
        obtain ⟨⟨value, after⟩, hvalue, h⟩ := h
        dsimp only at h
        split at h
        · obtain ⟨rfl, rfl⟩ := Prod.mk.inj (Option.some.inj h)
          exact .last hkey ‹_› hvalue ‹_›
        · rw [Option.bind_eq_bind, Option.bind_eq_some_iff] at h
          obtain ⟨⟨members, after⟩, hmembers, h⟩ := h
          obtain ⟨rfl, rfl⟩ := Prod.mk.inj (Option.some.inj h)
          exact .next hkey ‹_› hvalue ‹_› hmembers
        · cases h
      · cases h
    · cases h
  · intro h
    cases h with
    | last hkey hcolon h hclose =>
      rw [ScanMembers, scanMembers]
      simp only [hkey, Option.bind_eq_bind, Option.bind_some, hcolon]
      rw [h]
      simp only [Option.bind_some, hclose]
      rfl
    | next hkey hcolon h hcomma hmembers =>
      rw [ScanMembers, scanMembers]
      simp only [hkey, Option.bind_eq_bind, Option.bind_some, hcolon]
      rw [h]
      simp only [Option.bind_some, hcomma]
      rw [hmembers]
      rfl

end Reader

section Strict

variable {maxDigits : Option ℕ} {fuel : ℕ} {text rest : List Char} {value : Json}

def StrictValue (maxDigits : Option ℕ) (fuel : ℕ) (text : List Char) (value : Json)
    (rest : List Char) : Prop :=
  Audit.readValue maxDigits fuel text = .ok (value, rest)

def StrictItems (maxDigits : Option ℕ) (fuel : ℕ) (text : List Char) (items : List Json)
    (rest : List Char) : Prop :=
  Audit.readItems maxDigits fuel text = .ok (items, rest)

def StrictMembers (maxDigits : Option ℕ) (fuel : ℕ) (text : List Char)
    (members : List (String × Json)) (rest : List Char) : Prop :=
  Audit.readMembers maxDigits fuel text = .ok (members, rest)

/-- What decodes is taken as it is. -/
theorem decoded_eq_ok_iff {α : Type} {x : Option α} {a : α} :
    Audit.decoded x = .ok a ↔ x = some a := by
  cases x <;> simp [Audit.decoded]

/-- Only distinct names pass. -/
theorem nodup_of_uniqueObject {pairs fields : List (String × Json)}
    (h : Audit.uniqueObject pairs = .ok fields) : (pairs.map Prod.fst).Nodup ∧ fields = pairs := by
  have hnodup : ∀ (l acc result : List (String × Json)), (acc.map Prod.fst).Nodup →
      l.foldlM Audit.addUnique acc = .ok result → ((acc ++ l).map Prod.fst).Nodup := by
    intro l
    induction l with
    | nil => intro acc result hacc _; rwa [List.append_nil]
    | cons p l ih =>
      intro acc result hacc hfold
      rw [List.foldlM_cons, bind_eq_ok_iff] at hfold
      obtain ⟨next, hadd, hfold⟩ := hfold
      rw [Audit.addUnique, bind_eq_ok_iff] at hadd
      obtain ⟨_, hnew, hadd⟩ := hadd
      obtain rfl := Except.ok.inj hadd
      have hlookup : acc.lookup p.1 = none := not_not.mp (throwIf_eq_ok_iff.mp hnew)
      rw [List.lookup_eq_none_iff] at hlookup
      have hlast : ((acc ++ [p]).map Prod.fst).Nodup := by
        rw [List.map_append, List.nodup_append]
        refine ⟨hacc, by simp, fun a ha b hb heq => ?_⟩
        obtain ⟨q, hq, rfl⟩ := List.mem_map.mp ha
        rw [List.map_singleton, List.mem_singleton] at hb
        exact absurd (heq.trans hb).symm (by simpa using hlookup q hq)
      have hassoc : acc ++ p :: l = acc ++ [p] ++ l := by simp
      rw [hassoc]
      exact ih _ _ hlast hfold
  have hpairs : (pairs.map Prod.fst).Nodup := by
    simpa using hnodup pairs [] fields List.nodup_nil h
  rw [uniqueObject_eq_ok hpairs] at h
  exact ⟨hpairs, (Except.ok.inj h).symm⟩

/-- Without duplicates the object keeps its pairs, which is what `dict` makes of them. -/
theorem dictOf_of_uniqueObject {pairs fields : List (String × Json)}
    (h : Audit.uniqueObject pairs = .ok fields) : fields = dictOf pairs := by
  obtain ⟨hpairs, rfl⟩ := nodup_of_uniqueObject h
  exact (dictOf_eq hpairs).symm

/-- With one more level the strict reader takes a step. -/
theorem StrictValue.step (h : StrictValue maxDigits (fuel + 1) text value rest) :
    ReadStep (StrictItems maxDigits fuel) (StrictMembers maxDigits fuel)
      (fun pairs fields => Audit.uniqueObject pairs = .ok fields)
      (fun value => withinDigits maxDigits value = true) literals text value rest := by
  unfold StrictValue Audit.readValue at h
  split at h
  · rw [bind_eq_ok_iff] at h
    obtain ⟨⟨s, after⟩, hs, heq⟩ := h
    obtain ⟨rfl, rfl⟩ := Prod.mk.inj (Except.ok.inj heq)
    exact .string (decoded_eq_ok_iff.mp hs)
  · split at h
    · obtain ⟨rfl, rfl⟩ := Prod.mk.inj (Except.ok.inj h)
      exact .emptyObject ‹_›
    · rw [bind_eq_ok_iff] at h
      obtain ⟨⟨pairs, after⟩, hpairs, h⟩ := h
      rw [bind_eq_ok_iff] at h
      obtain ⟨fields, hfields, heq⟩ := h
      obtain ⟨rfl, rfl⟩ := Prod.mk.inj (Except.ok.inj heq)
      exact .object ‹_› hpairs hfields
  · split at h
    · obtain ⟨rfl, rfl⟩ := Prod.mk.inj (Except.ok.inj h)
      exact .emptyList ‹_›
    · rw [bind_eq_ok_iff] at h
      obtain ⟨⟨items, after⟩, hitems, heq⟩ := h
      obtain ⟨rfl, rfl⟩ := Prod.mk.inj (Except.ok.inj heq)
      exact .list ‹_› hitems
  · obtain ⟨rfl, rfl⟩ := Prod.mk.inj (Except.ok.inj h)
    exact .word "null".toList (by simp [literals])
  · obtain ⟨rfl, rfl⟩ := Prod.mk.inj (Except.ok.inj h)
    exact .word "true".toList (by simp [literals])
  · obtain ⟨rfl, rfl⟩ := Prod.mk.inj (Except.ok.inj h)
    exact .word "false".toList (by simp [literals])
  · cases h
  · cases h
  · cases h
  · rw [Audit.readNumeral, bind_eq_ok_iff] at h
    obtain ⟨⟨number, after⟩, hnumber, h⟩ := h
    rw [bind_eq_ok_iff] at h
    obtain ⟨_, hdigits, heq⟩ := h
    obtain ⟨rfl, rfl⟩ := Prod.mk.inj (Except.ok.inj heq)
    have hscan := decoded_eq_ok_iff.mp hnumber
    exact .number (numeralHead_of_scanNumber hscan) hscan (checkDigits_eq_ok_iff.mp hdigits)

/-- So it does over items. -/
theorem StrictItems.step {items : List Json}
    (h : StrictItems maxDigits (fuel + 1) text items rest) :
    ItemsStep (StrictValue maxDigits fuel) (StrictItems maxDigits fuel) text items rest := by
  rw [StrictItems, Audit.readItems, bind_eq_ok_iff] at h
  obtain ⟨⟨value, after⟩, hvalue, h⟩ := h
  dsimp only at h
  split at h
  · obtain ⟨rfl, rfl⟩ := Prod.mk.inj (Except.ok.inj h)
    exact .last hvalue ‹_›
  · rw [bind_eq_ok_iff] at h
    obtain ⟨⟨items, after⟩, hitems, h⟩ := h
    obtain ⟨rfl, rfl⟩ := Prod.mk.inj (Except.ok.inj h)
    exact .next hvalue ‹_› hitems
  · cases h

/-- And over members. -/
theorem StrictMembers.step {members : List (String × Json)}
    (h : StrictMembers maxDigits (fuel + 1) text members rest) :
    MembersStep (StrictValue maxDigits fuel) (StrictMembers maxDigits fuel) text members rest := by
  unfold StrictMembers Audit.readMembers at h
  split at h
  · rw [bind_eq_ok_iff] at h
    obtain ⟨⟨key, colon⟩, hkey, h⟩ := h
    dsimp only at h
    split at h
    · rw [bind_eq_ok_iff] at h
      obtain ⟨⟨value, after⟩, hvalue, h⟩ := h
      dsimp only at h
      split at h
      · obtain ⟨rfl, rfl⟩ := Prod.mk.inj (Except.ok.inj h)
        exact .last (decoded_eq_ok_iff.mp hkey) ‹_› hvalue ‹_›
      · rw [bind_eq_ok_iff] at h
        obtain ⟨⟨members, after⟩, hmembers, h⟩ := h
        obtain ⟨rfl, rfl⟩ := Prod.mk.inj (Except.ok.inj h)
        exact .next (decoded_eq_ok_iff.mp hkey) ‹_› hvalue ‹_› hmembers
      · cases h
    · cases h
  · cases h

/-- With any fuel the library's reader takes what the strict reader takes. -/
theorem scan_of_strict (maxDigits : Option ℕ) (fuel : ℕ) :
    (∀ text value rest, StrictValue maxDigits fuel text value rest →
      ScanValue maxDigits fuel text value rest) ∧
    (∀ text items rest, StrictItems maxDigits fuel text items rest →
      ScanItems maxDigits fuel text items rest) ∧
    (∀ text members rest, StrictMembers maxDigits fuel text members rest →
      ScanMembers maxDigits fuel text members rest) := by
  induction fuel with
  | zero => refine ⟨?_, ?_, ?_⟩ <;> intro _ _ _ h <;> cases h
  | succ fuel ih =>
    obtain ⟨hvalue, hitems, hmembers⟩ := ih
    refine ⟨fun text value rest h => ?_, fun text items rest h => ?_, fun text members rest h => ?_⟩
    · exact scanValue_succ_iff.mpr (h.step.imp hitems hmembers (fun _ _ => dictOf_of_uniqueObject)
        (fun _ => id) fun _ hp => List.mem_append_left _ hp)
    · exact scanItems_succ_iff.mpr (h.step.imp hvalue hitems)
    · exact scanMembers_succ_iff.mpr (h.step.imp hvalue hmembers)

end Strict

/-! ## Text behind a value -/

section Behind

variable {maxDigits : Option ℕ} {text rest : List Char}

/-- A text that ends what was read before it. -/
def Delimited (rest : List Char) : Prop := rest ≠ [] ∧ Follows rest

/-- Text behind the end of a span does not change it. -/
theorem span_append {p : Char → Bool} {taken : List Char} (h : text.span p = (taken, rest))
    (hrest : rest ≠ []) (more : List Char) : (text ++ more).span p = (taken, rest ++ more) := by
  rw [List.span_eq_takeWhile_dropWhile] at h ⊢
  obtain ⟨rfl, rfl⟩ := Prod.mk.inj h
  rw [List.takeWhile_append, List.dropWhile_append]
  have hlt : ¬(text.takeWhile p).length = text.length := by
    intro heq
    have hlen := congrArg List.length (List.takeWhile_append_dropWhile (p := p) (l := text))
    rw [List.length_append, heq] at hlen
    exact hrest (List.length_eq_zero_iff.mp (by omega))
  have hne : (text.dropWhile p).isEmpty = false := by
    rw [List.isEmpty_eq_false_iff]
    exact hrest
  rw [if_neg hlt, hne]
  rfl

/-- Text behind something else is not skipped. -/
theorem skipBlanks_append_of_ne (h : skipBlanks text ≠ []) (more : List Char) :
    skipBlanks (text ++ more) = skipBlanks text ++ more := by
  have hspan : text.span isJsonBlank = (text.takeWhile isJsonBlank, skipBlanks text) :=
    List.span_eq_takeWhile_dropWhile ..
  have happend := span_append hspan h more
  rw [List.span_eq_takeWhile_dropWhile] at happend
  exact (Prod.mk.inj happend).2

private theorem length_skipBlanks_le (text : List Char) : (skipBlanks text).length ≤ text.length :=
  (List.dropWhile_sublist _).length_le

/-- What leads to a comma or a closing bracket ends the value before it. -/
theorem delimited_of_skipBlanks {c : Char} (h : skipBlanks text = c :: rest)
    (hc : c = ',' ∨ c = ']' ∨ c = '\x7d') : Delimited text := by
  cases text with
  | nil => cases h
  | cons b text =>
    refine ⟨List.cons_ne_nil _ _, follows_cons ?_ text⟩
    cases hb : isJsonBlank b with
    | true => exact Or.inr (Or.inr (Or.inr rfl))
    | false =>
      rw [skipBlanks_cons hb] at h
      obtain ⟨rfl, _⟩ := List.cons.inj h
      rcases hc with h | h | h
      exacts [Or.inl h, Or.inr (Or.inl h), Or.inr (Or.inr (Or.inl h))]

/-- Text behind a whole part does not change it. -/
theorem scanWhole_append {whole : List Char} (h : scanWhole text = (whole, rest))
    (hrest : rest ≠ [])
    (more : List Char) : scanWhole (text ++ more) = (whole, rest ++ more) := by
  by_cases hzero : ∃ tail, text = '0' :: tail
  · obtain ⟨tail, rfl⟩ := hzero
    obtain ⟨rfl, rfl⟩ := Prod.mk.inj h
    rfl
  · have hne : text ≠ [] := by
      rintro rfl
      exact hrest (Prod.mk.inj h).2.symm
    rw [scanWhole.eq_2 _ fun tail heq => hzero ⟨tail, heq⟩] at h
    rw [scanWhole.eq_2]
    · exact span_append h hrest more
    · intro tail heq
      cases text with
      | nil => exact hne rfl
      | cons c text => exact hzero ⟨text, by rw [(List.cons.inj heq).1]⟩

private theorem scanExponent_cons_of_ne {e : Char} (he : ¬(e = 'e' ∨ e = 'E')) (tail : List Char) :
    scanExponent (e :: tail) = (none, e :: tail) := by
  simp only [scanExponent, he, false_and, if_false]

private theorem scanFraction_cons_of_ne {c : Char} (hc : c ≠ '.') (tail : List Char) :
    scanFraction (c :: tail) = (none, c :: tail) :=
  scanFraction.eq_2 _ fun _ h => hc (List.cons.inj h).1

/-- No delimiter continues a number. -/
theorem Delimited.ne {c : Char} {tail : List Char} (h : Delimited (c :: tail)) :
    c ≠ '.' ∧ ¬(c = 'e' ∨ c = 'E') := by
  have hc := h.2 c rfl
  rw [isJsonBlank_iff] at hc
  rcases hc with rfl | rfl | rfl | rfl | rfl | rfl | rfl <;> decide

/-- The exponent after its letter and sign. -/
def exponentAfter (e : Char) (tail : List Char) (negative : Bool) (body : List Char) :
    Option ℤ × List Char :=
  let taken := body.span Char.isDigit
  if (e = 'e' ∨ e = 'E') ∧ taken.1 ≠ [] then
    (some (if negative then -(decimalValue taken.1 : ℤ) else decimalValue taken.1), taken.2)
  else (none, e :: tail)

/-- An exponent is its sign and its digits. -/
theorem scanExponent_cases (e : Char) {tail : List Char} (hne : tail ≠ []) : ∃ negative sign body,
    tail = sign ++ body ∧ ∀ more, scanExponent (e :: (tail ++ more)) =
      exponentAfter e (tail ++ more) negative (body ++ more) := by
  by_cases hminus : ∃ body, tail = '-' :: body
  · obtain ⟨body, rfl⟩ := hminus
    exact ⟨true, ['-'], body, rfl, fun more => rfl⟩
  · by_cases hplus : ∃ body, tail = '+' :: body
    · obtain ⟨body, rfl⟩ := hplus
      exact ⟨false, ['+'], body, rfl, fun more => rfl⟩
    · refine ⟨false, [], tail, rfl, fun more => ?_⟩
      obtain ⟨c, tail, rfl⟩ := List.exists_cons_of_ne_nil hne
      have hminus' : ∀ body, c :: tail ++ more ≠ '-' :: body := fun body h =>
        hminus ⟨tail, by rw [(List.cons.inj h).1]⟩
      have hplus' : ∀ body, c :: tail ++ more ≠ '+' :: body := fun body h =>
        hplus ⟨tail, by rw [(List.cons.inj h).1]⟩
      generalize c :: tail ++ more = text at hminus' hplus'
      unfold scanExponent
      dsimp only
      split
      · exact absurd rfl (hminus' _)
      · exact absurd rfl (hplus' _)
      · rfl

/-- Text behind an exponent does not change it. -/
theorem scanExponent_append {exponent : Option ℤ} (h : scanExponent text = (exponent, rest))
    (hrest : Delimited rest) (more : List Char) :
    scanExponent (text ++ more) = (exponent, rest ++ more) := by
  cases text with
  | nil => exact absurd (Prod.mk.inj h).2.symm hrest.1
  | cons e tail =>
    by_cases he : e = 'e' ∨ e = 'E'
    · by_cases hnil : tail = []
      · subst hnil
        obtain ⟨rfl, rfl⟩ := Prod.mk.inj ((show scanExponent [e] = (none, [e]) by
          simp [scanExponent]).symm.trans h)
        exact absurd he hrest.ne.2
      · obtain ⟨negative, sign, body, rfl, hscan⟩ := scanExponent_cases e hnil
        have h0 := hscan []
        rw [List.append_nil, List.append_nil, h] at h0
        rw [List.cons_append, hscan more]
        by_cases hdigits : (e = 'e' ∨ e = 'E') ∧ (body.span Char.isDigit).1 ≠ []
        · rw [exponentAfter, if_pos hdigits] at h0
          obtain ⟨rfl, rfl⟩ := Prod.mk.inj h0
          have happend := span_append (@Prod.mk.eta _ _ (body.span Char.isDigit)).symm hrest.1 more
          rw [exponentAfter, happend, if_pos hdigits]
        · rw [exponentAfter, if_neg hdigits] at h0
          obtain ⟨rfl, rfl⟩ := Prod.mk.inj h0
          exact absurd he hrest.ne.2
    · rw [scanExponent_cons_of_ne he] at h
      obtain ⟨rfl, rfl⟩ := Prod.mk.inj h
      rw [List.cons_append, scanExponent_cons_of_ne he]

/-- Nor does text behind a fraction. -/
theorem scanFraction_append {fraction : Option (List Char)}
    (h : scanFraction text = (fraction, rest)) (hrest : rest ≠ [])
    (hpoint : rest.head? ≠ some '.') (more : List Char) :
    scanFraction (text ++ more) = (fraction, rest ++ more) := by
  cases text with
  | nil => exact absurd (Prod.mk.inj h).2.symm hrest
  | cons c tail =>
    by_cases hc : c = '.'
    · subst hc
      have hscan : ∀ tail, scanFraction ('.' :: tail) =
          if (tail.span Char.isDigit).1 = [] then (none, '.' :: tail)
          else (some (tail.span Char.isDigit).1, (tail.span Char.isDigit).2) := fun _ => rfl
      rw [hscan] at h
      split_ifs at h with hdigits
      · obtain ⟨rfl, rfl⟩ := Prod.mk.inj h
        exact absurd rfl hpoint
      · obtain ⟨rfl, rfl⟩ := Prod.mk.inj h
        have happend := span_append (@Prod.mk.eta _ _ (tail.span Char.isDigit)).symm hrest more
        rw [List.cons_append, hscan, happend, if_neg hdigits]
    · rw [scanFraction_cons_of_ne hc] at h
      obtain ⟨rfl, rfl⟩ := Prod.mk.inj h
      rw [List.cons_append, scanFraction_cons_of_ne hc]

/-- A number that something delimits does not change with the text behind it. -/
theorem signedNumber_append {sign : ℤ} {value : Json}
    (h : signedNumber sign text = some (value, rest)) (hrest : Delimited rest) (more : List Char) :
    signedNumber sign (text ++ more) = some (value, rest ++ more) := by
  unfold signedNumber at h ⊢
  dsimp only at h ⊢
  have hexponent : ∀ {e : Option ℤ × List Char}, e.2 = rest →
      scanExponent (scanFraction (scanWhole text).2).2 = e →
        (scanFraction (scanWhole text).2).2 ≠ [] ∧
        (scanFraction (scanWhole text).2).2.head? ≠ some '.' := by
    rintro e rfl he
    constructor
    · intro hnil
      rw [hnil] at he
      exact hrest.1 (congrArg Prod.snd he).symm
    · intro hpoint
      obtain ⟨tail, htail⟩ : ∃ tail, (scanFraction (scanWhole text).2).2 = '.' :: tail := by
        cases hlist : (scanFraction (scanWhole text).2).2 with
        | nil => rw [hlist] at hpoint; cases hpoint
        | cons c tail => rw [hlist] at hpoint; exact ⟨tail, by rw [Option.some.inj hpoint]⟩
      rw [htail, scanExponent_cons_of_ne (by decide)] at he
      rw [← congrArg Prod.snd he] at hrest
      exact hrest.ne.1 rfl
  have hall : (scanExponent (scanFraction (scanWhole text).2).2).2 = rest →
      scanWhole (text ++ more) = ((scanWhole text).1, (scanWhole text).2 ++ more) ∧
      scanFraction ((scanWhole text).2 ++ more) =
        ((scanFraction (scanWhole text).2).1, (scanFraction (scanWhole text).2).2 ++ more) ∧
      scanExponent ((scanFraction (scanWhole text).2).2 ++ more) =
        ((scanExponent (scanFraction (scanWhole text).2).2).1, rest ++ more) := by
    intro heq
    obtain ⟨hfraction, hpoint⟩ := hexponent heq rfl
    have hwhole : (scanWhole text).2 ≠ [] := by
      intro hnil
      rw [hnil] at hfraction
      exact hfraction rfl
    exact ⟨scanWhole_append Prod.mk.eta.symm hwhole more,
      scanFraction_append Prod.mk.eta.symm hfraction hpoint more,
      scanExponent_append (by rw [← heq]) hrest more⟩
  split_ifs at h with hempty hint
  · obtain ⟨rfl, hafter⟩ := Prod.mk.inj (Option.some.inj h)
    obtain ⟨h1, h2, h3⟩ := hall hafter
    rw [h1]
    dsimp only
    rw [h2]
    dsimp only
    rw [h3, if_neg hempty, if_pos hint]
  · obtain ⟨rfl, hafter⟩ := Prod.mk.inj (Option.some.inj h)
    obtain ⟨h1, h2, h3⟩ := hall hafter
    rw [h1]
    dsimp only
    rw [h2]
    dsimp only
    rw [h3, if_neg hempty, if_neg hint]

/-- Nor does text behind a numeral. -/
theorem scanNumber_append {value : Json} (h : scanNumber text = some (value, rest))
    (hrest : Delimited rest) (more : List Char) :
    scanNumber (text ++ more) = some (value, rest ++ more) := by
  obtain ⟨c, tail, rfl, hc | ⟨rfl, _⟩⟩ := numeralHead_of_scanNumber h
  · rw [scanNumber_digit hc] at h
    rw [List.cons_append, scanNumber_digit hc]
    exact signedNumber_append h hrest more
  · rw [scanNumber_minus] at h
    rw [List.cons_append, scanNumber_minus]
    exact signedNumber_append h hrest more

private theorem span_suffix (p : Char → Bool) (text : List Char) : (text.span p).2 <:+ text := by
  rw [List.span_eq_takeWhile_dropWhile]
  exact List.dropWhile_suffix p

private theorem scanFraction_suffix (text : List Char) : (scanFraction text).2 <:+ text := by
  unfold scanFraction
  split
  · dsimp only
    split_ifs
    · exact List.suffix_refl _
    · exact (span_suffix _ _).trans (List.suffix_cons _ _)
  · exact List.suffix_refl _

private theorem scanExponent_suffix (text : List Char) : (scanExponent text).2 <:+ text := by
  cases text with
  | nil => exact List.suffix_refl _
  | cons e tail =>
    by_cases hnil : tail = []
    · subst hnil
      simp [scanExponent]
    · obtain ⟨negative, sign, body, rfl, hscan⟩ := scanExponent_cases e hnil
      have h0 := hscan []
      rw [List.append_nil, List.append_nil] at h0
      rw [h0, exponentAfter]
      by_cases hdigits : (e = 'e' ∨ e = 'E') ∧ (body.span Char.isDigit).1 ≠ []
      · rw [if_pos hdigits]
        exact ((span_suffix _ _).trans (List.suffix_append _ _)).trans (List.suffix_cons _ _)
      · rw [if_neg hdigits]

private theorem signedNumber_length {sign : ℤ} {value : Json}
    (h : signedNumber sign text = some (value, rest)) : rest.length < text.length := by
  have hwhole : (scanWhole text).1 ≠ [] → (scanWhole text).2.length < text.length := by
    intro hne
    by_cases hzero : ∃ tail, text = '0' :: tail
    · obtain ⟨tail, rfl⟩ := hzero
      exact Nat.lt_succ_self _
    · have hspan : scanWhole text = text.span Char.isDigit :=
        scanWhole.eq_2 _ fun tail heq => hzero ⟨tail, heq⟩
      rw [hspan, List.span_eq_takeWhile_dropWhile] at hne ⊢
      have hlen := congrArg List.length (@List.takeWhile_append_dropWhile _ Char.isDigit text)
      rw [List.length_append] at hlen
      dsimp only at hne ⊢
      have := List.length_pos_of_ne_nil hne
      omega
  have hafter := (scanExponent_suffix (scanFraction (scanWhole text).2).2).length_le.trans
    (scanFraction_suffix (scanWhole text).2).length_le
  unfold signedNumber at h
  dsimp only at h
  split_ifs at h with hempty hint
  · rw [← (Prod.mk.inj (Option.some.inj h)).2]
    exact hafter.trans_lt (hwhole hempty)
  · rw [← (Prod.mk.inj (Option.some.inj h)).2]
    exact hafter.trans_lt (hwhole hempty)

/-- A numeral is not empty. -/
theorem scanNumber_length {value : Json} (h : scanNumber text = some (value, rest)) :
    rest.length < text.length := by
  obtain ⟨c, tail, rfl, hc | ⟨rfl, _⟩⟩ := numeralHead_of_scanNumber h
  · rw [scanNumber_digit hc] at h
    exact signedNumber_length h
  · rw [scanNumber_minus] at h
    exact (signedNumber_length h).trans (Nat.lt_succ_self _)

private theorem scanUnits_escape {letter : Char} (h : letter ≠ 'u') (rest : List Char) :
    scanUnits ('\\' :: letter :: rest) = (escapedCharacter letter).bind fun character =>
      (scanUnits rest).bind fun p => some (character.toNat :: p.1, p.2) := by
  rw [scanUnits.eq_def]
  dsimp only
  rw [if_neg (by decide), if_pos rfl]
  split
  · rename_i heq
    exact absurd (List.cons.inj heq).1 h
  · rename_i heq
    obtain ⟨rfl, rfl⟩ := List.cons.inj heq
    rfl
  · rename_i heq
    cases heq

private theorem scanUnits_plain {c : Char} (h : c ≠ '"' ∧ c ≠ '\\' ∧ ¬c.toNat < 32)
    (rest : List Char) :
    scanUnits (c :: rest) = (scanUnits rest).bind fun p => some (c.toNat :: p.1, p.2) := by
  rw [scanUnits.eq_def]
  dsimp only
  rw [if_neg h.1, if_neg h.2.1, if_neg h.2.2]
  rfl

/-- A closed string does not change with the text behind it. -/
theorem scanUnits_append {text rest : List Char} {units : List ℕ}
    (h : scanUnits text = some (units, rest)) (more : List Char) :
    scanUnits (text ++ more) = some (units, rest ++ more) ∧ rest.length < text.length := by
  have hnext : ∀ {x : Option (List ℕ × List Char)} {n : ℕ} {units : List ℕ} {rest : List Char},
      (x.bind fun p => some (n :: p.1, p.2)) = some (units, rest) →
        ∃ tail, x = some (tail, rest) ∧ units = n :: tail := by
    intro x n units rest h
    obtain ⟨⟨tail, after⟩, hx, heq⟩ := Option.bind_eq_some_iff.mp h
    obtain ⟨rfl, rfl⟩ := Prod.mk.inj (Option.some.inj heq)
    exact ⟨tail, hx, rfl⟩
  fun_induction scanUnits text generalizing units rest with
  | case1 => cases h
  | case2 tail =>
    obtain ⟨rfl, rfl⟩ := Prod.mk.inj (Option.some.inj h)
    exact ⟨by simp [scanUnits.eq_def], Nat.lt_succ_self _⟩
  | case3 a b c d tail hquote ih =>
    obtain ⟨unit, hunit, h⟩ := Option.bind_eq_some_iff.mp h
    obtain ⟨units, hunits, rfl⟩ := hnext h
    obtain ⟨happend, hlen⟩ := ih hunits
    refine ⟨?_, by simp only [List.length_cons]; omega⟩
    have hstep : scanUnits ('\\' :: 'u' :: a :: b :: c :: d :: (tail ++ more)) =
        (hexUnit a b c d).bind fun unit => (scanUnits (tail ++ more)).bind fun p =>
          some (unit :: p.1, p.2) := rfl
    simp only [List.cons_append, hstep, hunit, happend, Option.bind_some]
  | case4 letter tail _ hquote ih =>
    obtain ⟨character, hcharacter, h⟩ := Option.bind_eq_some_iff.mp h
    obtain ⟨units, hunits, rfl⟩ := hnext h
    obtain ⟨happend, hlen⟩ := ih hunits
    refine ⟨?_, by simp only [List.length_cons]; omega⟩
    have hletter : letter ≠ 'u' := by
      rintro rfl
      rw [show escapedCharacter 'u' = none by decide] at hcharacter
      cases hcharacter
    simp only [List.cons_append, scanUnits_escape hletter, hcharacter, happend, Option.bind_some]
  | case5 => cases h
  | case6 => cases h
  | case7 c tail hquote hslash hcontrol ih =>
    obtain ⟨units, hunits, rfl⟩ := hnext h
    obtain ⟨happend, hlen⟩ := ih hunits
    refine ⟨?_, by simp only [List.length_cons]; omega⟩
    simp only [List.cons_append, scanUnits_plain ⟨hquote, hslash, hcontrol⟩, happend,
      Option.bind_some]

/-- Text behind a string does not change it. -/
theorem scanString_append {text rest : List Char} {s : String}
    (h : scanString text = some (s, rest)) (more : List Char) :
    scanString (text ++ more) = some (s, rest ++ more) ∧ rest.length < text.length := by
  obtain ⟨⟨units, after⟩, hunits, heq⟩ := Option.map_eq_some_iff.mp h
  obtain ⟨rfl, rfl⟩ := Prod.mk.inj heq
  obtain ⟨happend, hlen⟩ := scanUnits_append hunits more
  exact ⟨by rw [scanString, happend]; rfl, hlen⟩
private theorem length_skipBlanks_eq {c : Char} (h : skipBlanks text = c :: rest) :
    rest.length < text.length := by
  have hle := length_skipBlanks_le text
  rw [h, List.length_cons] at hle
  omega

private theorem word_ne_nil {w : List Char} {value : Json}
    (h : (w, value) ∈ literals ++ nonfiniteLiterals) :
    w ≠ [] := by
  simp only [literals, nonfiniteLiterals, List.cons_append, List.nil_append, List.mem_cons,
    Prod.mk.injEq, List.not_mem_nil, or_false] at h
  rcases h with ⟨rfl, _⟩ | ⟨rfl, _⟩ | ⟨rfl, _⟩ | ⟨rfl, _⟩ | ⟨rfl, _⟩ | ⟨rfl, _⟩ <;> decide

/-- Whatever is read leaves a shorter text. -/
theorem scan_length (fuel : ℕ) :
    (∀ text value rest, ScanValue maxDigits fuel text value rest → rest.length < text.length) ∧
    (∀ text items rest, ScanItems maxDigits fuel text items rest → rest.length < text.length) ∧
    (∀ text members rest, ScanMembers maxDigits fuel text members rest →
      rest.length < text.length) := by
  induction fuel with
  | zero => refine ⟨?_, ?_, ?_⟩ <;> intro _ _ _ h <;> cases h
  | succ fuel ih =>
    obtain ⟨hvalue, hitems, hmembers⟩ := ih
    refine ⟨fun text value rest hread => ?_, fun text items rest hread => ?_,
      fun text members rest hread => ?_⟩
    · cases scanValue_succ_iff.mp hread with
      | string h => exact (scanString_append h []).2.trans (Nat.lt_succ_self _)
      | emptyObject h => exact (length_skipBlanks_eq h).trans (Nat.lt_succ_self _)
      | object hopen h hobject =>
        exact ((hmembers _ _ _ h).trans_le (length_skipBlanks_le _)).trans (Nat.lt_succ_self _)
      | emptyList h => exact (length_skipBlanks_eq h).trans (Nat.lt_succ_self _)
      | list hopen h =>
        exact ((hitems _ _ _ h).trans_le (length_skipBlanks_le _)).trans (Nat.lt_succ_self _)
      | word w h =>
        have := List.length_pos_of_ne_nil (word_ne_nil h)
        rw [List.length_append]
        omega
      | number hhead h _ => exact scanNumber_length h
    · cases scanItems_succ_iff.mp hread with
      | last h hclose => exact (length_skipBlanks_eq hclose).trans (hvalue _ _ _ h)
      | next h hcomma htail =>
        exact (((hitems _ _ _ htail).trans_le (length_skipBlanks_le _)).trans
          (length_skipBlanks_eq hcomma)).trans (hvalue _ _ _ h)
    · cases scanMembers_succ_iff.mp hread with
      | last hkey hcolon h hclose =>
        have hbody := (length_skipBlanks_eq hcolon).trans (scanString_append hkey []).2
        have hafter := ((length_skipBlanks_eq hclose).trans (hvalue _ _ _ h)).trans_le
          (length_skipBlanks_le _)
        exact (hafter.trans hbody).trans (Nat.lt_succ_self _)
      | next hkey hcolon h hcomma htail =>
        have hbody := (length_skipBlanks_eq hcolon).trans (scanString_append hkey []).2
        have hafter := ((length_skipBlanks_eq hcomma).trans (hvalue _ _ _ h)).trans_le
          (length_skipBlanks_le _)
        have hrest := (hmembers _ _ _ htail).trans_le (length_skipBlanks_le _)
        exact (hrest.trans (hafter.trans hbody)).trans (Nat.lt_succ_self _)

/-- Fuel for the characters taken is enough. -/
theorem scan_enough (fuel : ℕ) :
    (∀ text value rest, ScanValue maxDigits fuel text value rest →
      ∀ n, text.length < n + rest.length → ScanValue maxDigits n text value rest) ∧
    (∀ text items rest, ScanItems maxDigits fuel text items rest →
      ∀ n, text.length < n + rest.length → ScanItems maxDigits n text items rest) ∧
    (∀ text members rest, ScanMembers maxDigits fuel text members rest →
      ∀ n, text.length < n + rest.length → ScanMembers maxDigits n text members rest) := by
  induction fuel with
  | zero => refine ⟨?_, ?_, ?_⟩ <;> intro _ _ _ h <;> cases h
  | succ fuel ih =>
    obtain ⟨hvalue, hitems, hmembers⟩ := ih
    obtain ⟨hvalueLength, hitemsLength, hmembersLength⟩ := scan_length fuel
    refine ⟨fun text value rest hread n hn => ?_, fun text items rest hread n hn => ?_,
      fun text members rest hread n hn => ?_⟩
    · have hlen := (scan_length (fuel + 1)).1 _ _ _ hread
      obtain ⟨k, rfl⟩ : ∃ k, n = k + 1 := ⟨n - 1, by omega⟩
      rw [scanValue_succ_iff] at hread ⊢
      cases hread with
      | string h => exact .string h
      | emptyObject h => exact .emptyObject h
      | object hopen h hobject =>
        rw [List.length_cons] at hn
        have := length_skipBlanks_le ‹List Char›
        exact .object hopen (hmembers _ _ _ h k
          ((length_skipBlanks_le _).trans_lt (by omega))) hobject
      | emptyList h => exact .emptyList h
      | list hopen h =>
        rw [List.length_cons] at hn
        exact .list hopen (hitems _ _ _ h k ((length_skipBlanks_le _).trans_lt (by omega)))
      | word w h => exact .word w h
      | number hhead h hnumber => exact .number hhead h hnumber
    · have hlen := (scan_length (fuel + 1)).2.1 _ _ _ hread
      obtain ⟨k, rfl⟩ : ∃ k, n = k + 1 := ⟨n - 1, by omega⟩
      rw [scanItems_succ_iff] at hread ⊢
      cases hread with
      | last h hclose =>
        have hafter := length_skipBlanks_eq hclose
        exact .last (hvalue _ _ _ h k (by omega)) hclose
      | next h hcomma htail =>
        have hafter := length_skipBlanks_eq hcomma
        have hrest := hitemsLength _ _ _ htail
        have hbody := hrest.trans_le (length_skipBlanks_le _)
        have htext := hvalueLength _ _ _ h
        exact .next (hvalue _ _ _ h k (by omega)) hcomma
          (hitems _ _ _ htail k ((length_skipBlanks_le _).trans_lt (by omega)))
    · have hlen := (scan_length (fuel + 1)).2.2 _ _ _ hread
      obtain ⟨k, rfl⟩ : ∃ k, n = k + 1 := ⟨n - 1, by omega⟩
      rw [scanMembers_succ_iff] at hread ⊢
      cases hread with
      | last hkey hcolon h hclose =>
        rw [List.length_cons] at hn
        have hbody := (length_skipBlanks_eq hcolon).trans (scanString_append hkey []).2
        have hafter := length_skipBlanks_eq hclose
        exact .last hkey hcolon
          (hvalue _ _ _ h k ((length_skipBlanks_le _).trans_lt (by omega))) hclose
      | next hkey hcolon h hcomma htail =>
        rw [List.length_cons] at hn
        have hbody := (length_skipBlanks_eq hcolon).trans (scanString_append hkey []).2
        have hafter := length_skipBlanks_eq hcomma
        have hvalueText := (hvalueLength _ _ _ h).trans_le (length_skipBlanks_le _)
        have hrest := (hmembersLength _ _ _ htail).trans_le (length_skipBlanks_le _)
        exact .next hkey hcolon
          (hvalue _ _ _ h k ((length_skipBlanks_le _).trans_lt (by omega))) hcomma
          (hmembers _ _ _ htail k ((length_skipBlanks_le _).trans_lt (by omega)))

/-- What is read does not change with the text behind it, once a number is delimited. -/
theorem scan_append (fuel : ℕ) (more : List Char) :
    (∀ text value rest, ScanValue maxDigits fuel text value rest →
      (NumeralHead text → Delimited rest) →
      ScanValue maxDigits fuel (text ++ more) value (rest ++ more)) ∧
    (∀ text items rest, ScanItems maxDigits fuel text items rest →
      ScanItems maxDigits fuel (text ++ more) items (rest ++ more)) ∧
    (∀ text members rest, ScanMembers maxDigits fuel text members rest →
      ScanMembers maxDigits fuel (text ++ more) members (rest ++ more)) := by
  have hhead : ∀ {text : List Char} {c : Char} {r : List Char}, skipBlanks text = c :: r →
      skipBlanks (text ++ more) = c :: (r ++ more) := by
    intro text c r h
    rw [skipBlanks_append_of_ne (by simp [h]), h, List.cons_append]
  have hne : ∀ {text rest : List Char}, rest.length < (skipBlanks text).length →
      skipBlanks (text ++ more) = skipBlanks text ++ more := fun h =>
    skipBlanks_append_of_ne (List.ne_nil_of_length_pos (Nat.zero_lt_of_lt h)) more
  have hopened : ∀ {text rest : List Char} {c : Char}, rest.length < (skipBlanks text).length →
      (∀ r, skipBlanks text ≠ c :: r) → ∀ r, skipBlanks (text ++ more) ≠ c :: r := by
    intro text rest c hlen hopen r heq
    rw [hne hlen] at heq
    cases hskip : skipBlanks text with
    | nil => rw [hskip] at hlen; exact absurd hlen (Nat.not_lt_zero _)
    | cons d tail =>
      rw [hskip, List.cons_append] at heq
      exact hopen tail (by rw [hskip, (List.cons.inj heq).1])
  induction fuel with
  | zero => refine ⟨?_, ?_, ?_⟩ <;> intro _ _ _ h <;> cases h
  | succ fuel ih =>
    obtain ⟨hvalue, hitems, hmembers⟩ := ih
    obtain ⟨_, hitemsLength, hmembersLength⟩ := scan_length fuel
    refine ⟨fun text value rest hread hrest => ?_, fun text items rest hread => ?_,
      fun text members rest hread => ?_⟩
    · rw [scanValue_succ_iff] at hread ⊢
      cases hread with
      | string h => exact .string (scanString_append h more).1
      | emptyObject h => exact .emptyObject (hhead h)
      | object hopen h hobject =>
        have hlen := hmembersLength _ _ _ h
        rw [List.cons_append]
        refine .object (hopened hlen hopen) ?_ hobject
        rw [hne hlen]
        exact hmembers _ _ _ h
      | emptyList h => exact .emptyList (hhead h)
      | list hopen h =>
        have hlen := hitemsLength _ _ _ h
        rw [List.cons_append]
        refine .list (hopened hlen hopen) ?_
        rw [hne hlen]
        exact hitems _ _ _ h
      | word w h =>
        rw [List.append_assoc]
        exact .word w h
      | number hnumeral h hnumber =>
        have hscan := scanNumber_append h (hrest hnumeral) more
        exact .number (numeralHead_of_scanNumber hscan) hscan hnumber
    · rw [scanItems_succ_iff] at hread ⊢
      cases hread with
      | last h hclose =>
        exact .last (hvalue _ _ _ h fun _ =>
          delimited_of_skipBlanks hclose (Or.inr (Or.inl rfl))) (hhead hclose)
      | next h hcomma htail =>
        refine .next (hvalue _ _ _ h fun _ => delimited_of_skipBlanks hcomma (Or.inl rfl))
          (hhead hcomma) ?_
        rw [hne (hitemsLength _ _ _ htail)]
        exact hitems _ _ _ htail
    · rw [scanMembers_succ_iff] at hread ⊢
      have hbody : ∀ {body after : List Char} {v : Json},
          ScanValue maxDigits fuel (skipBlanks body) v after → Delimited after →
          ScanValue maxDigits fuel (skipBlanks (body ++ more)) v (after ++ more) := by
        intro body after v h hafter
        rw [hne ((scan_length fuel).1 _ _ _ h)]
        exact hvalue _ _ _ h fun _ => hafter
      cases hread with
      | last hkey hcolon h hclose =>
        exact .last (scanString_append hkey more).1 (hhead hcolon)
          (hbody h (delimited_of_skipBlanks hclose (Or.inr (Or.inr rfl)))) (hhead hclose)
      | next hkey hcolon h hcomma htail =>
        refine .next (scanString_append hkey more).1 (hhead hcolon)
          (hbody h (delimited_of_skipBlanks hcomma (Or.inl rfl))) (hhead hcomma) ?_
        rw [hne (hmembersLength _ _ _ htail)]
        exact hmembers _ _ _ htail

end Behind

/-! ## Whole documents -/

section Documents

variable {repr : ℚ → String} {maxDigits : Option ℕ} {value : Json}

/-- A text is loaded where it is one value and blanks. -/
theorem jsonLoads_eq_some_iff {text : String} : jsonLoads maxDigits text = some value ↔
    text.toList.head? ≠ some '\uFEFF' ∧ ∃ rest,
      ScanValue maxDigits (text.length + 1) (skipBlanks text.toList) value rest ∧
        skipBlanks rest = [] := by
  rw [jsonLoads]
  split_ifs with hbom
  · simp [hbom]
  · simp only [Option.bind_eq_bind, Option.bind_eq_some_iff, Prod.exists]
    constructor
    · rintro ⟨v, rest, hscan, hv⟩
      split_ifs at hv with hblank
      obtain rfl := Option.some.inj hv
      exact ⟨hbom, rest, hscan, hblank⟩
    · rintro ⟨_, rest, hscan, hblank⟩
      exact ⟨value, rest, hscan, if_pos hblank⟩

/-- What the strict reader accepts, the library's reader accepts with the same value. -/
theorem jsonLoads_of_loads {text : String} (h : Audit.loads maxDigits text = .ok value) :
    jsonLoads maxDigits text = some value := by
  rw [Audit.loads] at h
  split_ifs at h with hbom
  rw [bind_eq_ok_iff] at h
  obtain ⟨⟨v, rest⟩, hread, hv⟩ := h
  dsimp only at hv
  split_ifs at hv with hblank
  obtain rfl := Except.ok.inj hv
  have hscan := (scan_of_strict maxDigits _).1 _ _ _ hread
  have hlen := length_skipBlanks_le text.toList
  have hrest := (scan_length _).1 _ _ _ hscan
  have htext : text.toList.length = text.length := String.length_toList
  exact jsonLoads_eq_some_iff.mpr ⟨hbom, rest, (scan_enough _).1 _ _ _ hscan _ (by omega), hblank⟩

/-- Both readers take a written document back, with blanks after it. -/
theorem loads_dumpValue (style : JsonStyle) (h : value.Dumpable repr maxDigits) {blanks : List Char}
    (hblanks : ∀ c ∈ blanks, isJsonBlank c = true) :
    Audit.loads maxDigits (String.ofList (dumpValue repr style 0 value ++ blanks)) = .ok value := by
  obtain ⟨c, tail, hhead, _, _, _, hbom⟩ := exists_dumpValue_eq style h 0
  have hfollows : Follows blanks := by
    intro b hb
    exact Or.inr (Or.inr (Or.inr (hblanks b (List.mem_of_mem_head? hb))))
  have hread := (readsDumped repr maxDigits style
    (2 * (dumpValue repr style 0 value ++ blanks).length + 2)).value value 0 blanks h
    (by rw [List.length_append]; omega) hfollows
  have hend : skipBlanks blanks = [] := by
    rw [← List.append_nil blanks, skipBlanks_append hblanks]
    rfl
  rw [Audit.loads, String.toList_ofList, String.length_ofList, skipBlanks_dumpValue h, hread,
    if_neg (by rw [hhead]; simpa using hbom)]
  simp only [ok_bind, hend]
  rfl

/-- A dumped value is loaded. -/
theorem jsonLoads_dumpValue (style : JsonStyle) (h : value.Dumpable repr maxDigits)
    {blanks : List Char} (hblanks : ∀ c ∈ blanks, isJsonBlank c = true) :
    jsonLoads maxDigits (String.ofList (dumpValue repr style 0 value ++ blanks)) = some value :=
  jsonLoads_of_loads (loads_dumpValue style h hblanks)

/-- The written text of an object or array starts with its bracket. -/
theorem not_numeralHead_dumpValue (style : JsonStyle) (level : ℕ)
    (hvalue : (∃ items, value = .list items) ∨ ∃ fields, value = .dict fields) :
    ∃ c tail, dumpValue repr style level value = c :: tail ∧ (c = '[' ∨ c = '\x7b') := by
  rcases hvalue with ⟨items, rfl⟩ | ⟨fields, rfl⟩
  · cases items <;> exact ⟨'[', _, by rw [dumpValue], Or.inl rfl⟩
  · cases fields <;> exact ⟨'\x7b', _, by rw [dumpValue], Or.inr rfl⟩

/-- A written object or array that is cut before its last bracket is not read; one that is not cut
there is read as itself. -/
theorem jsonLoads_interrupted (style : JsonStyle) (h : value.Dumpable repr maxDigits)
    (hvalue : (∃ items, value = .list items) ∨ ∃ fields, value = .dict fields)
    {blanks cut : List Char} (hblanks : ∀ c ∈ blanks, isJsonBlank c = true)
    (hcut : cut <+: dumpValue repr style 0 value ++ blanks) {v : Json}
    (hread : jsonLoads maxDigits (String.ofList cut) = some v) :
    v = value ∧ dumpValue repr style 0 value <+: cut := by
  obtain ⟨c, tail, hhead, hbracket⟩ := @not_numeralHead_dumpValue repr value style 0 hvalue
  obtain ⟨_, rest, hscan, hblank⟩ := jsonLoads_eq_some_iff.mp hread
  rw [String.toList_ofList, String.length_ofList] at hscan
  obtain ⟨more, hmore⟩ := hcut
  cases cut with
  | nil => cases hscan
  | cons d cut =>
    rw [hhead, List.cons_append, List.cons_append] at hmore
    obtain ⟨rfl, htail⟩ := List.cons.inj hmore
    have hnumeral : ¬NumeralHead (d :: cut) := by
      rintro ⟨e, body, heq, he⟩
      obtain ⟨rfl, _⟩ := List.cons.inj heq
      rcases hbracket with rfl | rfl <;> simp at he
    rw [skipBlanks_cons (by rcases hbracket with rfl | rfl <;> rfl)] at hscan
    have hlonger := (scan_append _ more).1 _ _ _ hscan fun h => absurd h hnumeral
    have hwhole : d :: cut ++ more = dumpValue repr style 0 value ++ blanks := by
      rw [hhead, List.cons_append, List.cons_append, htail]
    have hfollows : Follows blanks := fun b hb =>
      Or.inr (Or.inr (Or.inr (hblanks b (List.mem_of_mem_head? hb))))
    rw [hwhole] at hlonger
    have hfull := (scan_of_strict maxDigits _).1 _ _ _ ((readsDumped repr maxDigits style
      ((dumpValue repr style 0 value ++ blanks).length + 1)).value value 0 blanks h
        (by rw [List.length_append]; omega) hfollows)
    have hsame := (scan_enough _).1 _ _ _ hlonger
      ((dumpValue repr style 0 value ++ blanks).length + 1) (by omega)
    obtain ⟨rfl, hrest⟩ := Prod.mk.inj (Option.some.inj (hsame.symm.trans hfull))
    refine ⟨rfl, rest, ?_⟩
    rw [← hrest, ← List.append_assoc] at hwhole
    exact (List.append_cancel_right hwhole).symm

end Documents

end RowReduce
