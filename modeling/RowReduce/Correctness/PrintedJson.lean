import RowReduce.Runner.HostRecord
import RowReduce.Runner.JsonLoads

/-!
# Reading back what the host prints

The decoder undoes the host's escaping character by character, reads printed
naturals and arrays, and reads a printed object member by member. A string cut
before its closing quote is not read at all.
-/

namespace RowReduce

open BinaryFloat Hexadecimal

variable {maxDigits : Option ℕ}

/-- The decoder takes one printed character as its code. -/
theorem scanUnits_jsonCharacter (c : Char) (rest : List Char) :
    scanUnits (jsonCharacter c ++ rest) =
      (scanUnits rest).map fun p => (c.toNat :: p.1, p.2) := by
  have hbind : ∀ n : ℕ, ((scanUnits rest).bind fun p => some (n :: p.1, p.2)) =
      (scanUnits rest).map fun p => (n :: p.1, p.2) := by
    intro n
    cases scanUnits rest <;> rfl
  unfold jsonCharacter
  split_ifs with hescape hcontrol
  · rcases hescape with rfl | rfl
    · exact hbind 92
    · exact hbind 34
  · have hunit : hexUnit '0' '0' (digit (c.toNat / 16)) (digit (c.toNat % 16)) = some c.toNat := by
      have h0 : digitValue '0' = some 0 := rfl
      simp only [hexUnit, h0, digitValue_digit (show c.toNat / 16 < 16 by omega),
        digitValue_digit (show c.toNat % 16 < 16 by omega), Option.bind_eq_bind, Option.bind_some,
        pure, Option.some.injEq]
      omega
    have hscan : scanUnits ('\\' :: 'u' :: '0' :: '0' :: digit (c.toNat / 16) ::
        digit (c.toNat % 16) :: rest) =
          (hexUnit '0' '0' (digit (c.toNat / 16)) (digit (c.toNat % 16))).bind fun unit =>
            (scanUnits rest).bind fun p => some (unit :: p.1, p.2) := rfl
    rw [hunit] at hscan
    exact hscan.trans (hbind c.toNat)
  · rw [not_or] at hescape
    rw [List.singleton_append, scanUnits.eq_def]
    dsimp only
    rw [if_neg hescape.2, if_neg hescape.1, if_neg hcontrol]
    exact hbind c.toNat

/-- A printed string reads as its characters. -/
theorem scanUnits_flatMap (text rest : List Char) :
    scanUnits (text.flatMap jsonCharacter ++ '"' :: rest) = some (text.map Char.toNat, rest) := by
  induction text with
  | nil => simp [scanUnits.eq_def]
  | cons c text ih =>
    rw [List.flatMap_cons, List.append_assoc, scanUnits_jsonCharacter, ih]
    rfl

/-- Without its closing quote a string is malformed. -/
theorem scanUnits_unterminated (text : List Char) :
    scanUnits (text.flatMap jsonCharacter) = none := by
  induction text with
  | nil => rfl
  | cons c text ih =>
    rw [List.flatMap_cons, scanUnits_jsonCharacter, ih]
    rfl

/-- A character is the one of its own unit. -/
theorem unitCharacter_toNat (c : Char) : unitCharacter c.toNat = c := by
  have hvalid : c.toNat.isValidChar := c.valid
  rw [unitCharacter, if_pos hvalid, Char.ofNat_toNat]

/-- No character is a surrogate. -/
theorem unitCharacters_map (text : List Char) : unitCharacters (text.map Char.toNat) = text := by
  induction text with
  | nil => rfl
  | cons c text ih =>
    cases text with
    | nil =>
      simp only [List.map_cons, List.map_nil, unitCharacters, unitCharacter_toNat]
    | cons d text =>
      have hc : ¬((0xd800 ≤ c.toNat ∧ c.toNat < 0xdc00) ∧
          (0xdc00 ≤ d.toNat ∧ d.toNat < 0xe000)) := by
        rintro ⟨⟨h1, h2⟩, _⟩
        have hvalid : c.toNat < 0xd800 ∨ 0xdfff < c.toNat ∧ c.toNat < 0x110000 := c.valid
        omega
      rw [List.map_cons] at ih
      rw [List.map_cons, List.map_cons, unitCharacters, if_neg hc, ih, unitCharacter_toNat]

/-- A printed string is read back. -/
theorem scanString_printed (s : String) (rest : List Char) :
    scanString (s.toList.flatMap jsonCharacter ++ '"' :: rest) = some (s, rest) := by
  rw [scanString, scanUnits_flatMap, Option.map_some, unitCharacters_map, String.ofList_toList]

/-- Nothing is skipped before another character. -/
theorem skipBlanks_cons {c : Char} (h : isJsonBlank c = false) (rest : List Char) :
    skipBlanks (c :: rest) = c :: rest := by
  rw [skipBlanks, List.dropWhile_cons_of_neg (by rw [h]; decide)]

/-- The bounds an interpreter can be given: none, or at least 640 digits. -/
def DigitLimit (maxDigits : Option ℕ) : Prop := ∀ digits, maxDigits = some digits → 640 ≤ digits

/-- The interpreter's own bound. -/
theorem digitLimit_default : DigitLimit (some 4300) := by
  intro digits h
  rw [← Option.some.inj h]
  norm_num

/-- An integer is converted where the interpreter has no bound or the bound admits it. -/
theorem withinDigits_int_iff {n : ℤ} : withinDigits maxDigits (.int n) = true ↔
    ∀ digits, maxDigits = some digits → |n| < 10 ^ digits := by
  cases maxDigits <;> simp [withinDigits]

/-- Far fewer digits are converted everywhere. -/
theorem DigitLimit.withinDigits (h : DigitLimit maxDigits) {n : ℤ} (hn : |n| ≤ 10 ^ 20) :
    withinDigits maxDigits (.int n) = true := by
  refine withinDigits_int_iff.mpr fun digits hdigits => hn.trans_lt ?_
  have hlimit := h digits hdigits
  exact pow_lt_pow_right₀ (by norm_num) (by omega)

/-- A number within the bound is converted. -/
theorem scanNumeral_eq_some_iff {text rest : List Char} {value : Json} :
    scanNumeral maxDigits text = some (value, rest) ↔
      scanNumber text = some (value, rest) ∧ withinDigits maxDigits value = true :=
  Option.filter_eq_some_iff

/-- A text that reads as a value wherever a comma or a closing bracket follows. -/
def ReadsAs (maxDigits : Option ℕ) (text : List Char) (value : Json) : Prop :=
  ∀ fuel c rest, text.length ≤ fuel → c = ',' ∨ c = ']' ∨ c = '\x7d' →
    scanOnce maxDigits (fuel + 1) (skipBlanks (text ++ c :: rest)) = some (value, c :: rest)

/-- A printed string reads as itself. -/
theorem readsAs_jsonString (s : String) : ReadsAs maxDigits (jsonString s) (.str s) := by
  intro fuel c rest _ _
  rw [jsonString, List.cons_append, List.append_assoc, List.singleton_append,
    skipBlanks_cons (by decide), scanOnce, scanString_printed]
  rfl

/-- So does a flag. -/
theorem readsAs_flag (b : Bool) :
    ReadsAs maxDigits (if b then "true" else "false").toList (.bool b) := by
  intro fuel c rest _ _
  cases b <;> rfl

/-- And `null`. -/
theorem readsAs_null : ReadsAs maxDigits "null".toList .null := fun _ _ _ _ _ => rfl

/-- The digits by their code points. -/
theorem charIsDigit_iff {d : Char} : d.isDigit = true ↔ 48 ≤ d.toNat ∧ d.toNat ≤ 57 := by
  simp only [Char.isDigit, Bool.and_eq_true, decide_eq_true_eq]
  exact Iff.rfl

/-- A value that starts with a digit is a number. -/
theorem scanOnce_digit {d : Char} (hd : d.isDigit = true) (fuel : ℕ) (rest : List Char) :
    scanOnce maxDigits (fuel + 1) (d :: rest) = scanNumeral maxDigits (d :: rest) := by
  obtain ⟨h1, h2⟩ := charIsDigit_iff.mp hd
  rw [← Char.ofNat_toNat d]
  generalize d.toNat = n at h1 h2
  interval_cases n <;> rfl

/-- Digits are read up to the next character. -/
theorem span_digits {l : List Char} (hl : ∀ c ∈ l, c.isDigit = true) {c : Char}
    (hc : c.isDigit = false) (rest : List Char) :
    (l ++ c :: rest).span Char.isDigit = (l, c :: rest) := by
  rw [List.span_eq_takeWhile_dropWhile, List.takeWhile_append_of_pos hl,
    List.dropWhile_append_of_pos hl, List.takeWhile_cons_of_neg (by simp [hc]),
    List.dropWhile_cons_of_neg (by simp [hc]), List.append_nil]

/-- A positive number is printed without a leading zero. -/
theorem toDigits_head {n : ℕ} (h : 0 < n) : ∃ d ds, Nat.toDigits 10 n = d :: ds ∧ d ≠ '0' := by
  induction n using Nat.strong_induction_on with
  | h n ih =>
    rw [Nat.toDigits_eq_if (by norm_num)]
    split_ifs with hlt
    · refine ⟨_, [], rfl, ?_⟩
      interval_cases n <;> decide
    · obtain ⟨d, ds, hd, hne⟩ := ih (n / 10) (by omega) (by omega)
      exact ⟨d, ds ++ [(n % 10).digitChar], by rw [hd]; rfl, hne⟩

/-- Printed digits have no leading zero. -/
theorem scanWhole_toDigits (n : ℕ) {c : Char} (hc : c.isDigit = false) (rest : List Char) :
    scanWhole (Nat.toDigits 10 n ++ c :: rest) = (Nat.toDigits 10 n, c :: rest) := by
  have hdigits : ∀ d ∈ Nat.toDigits 10 n, d.isDigit = true :=
    fun d hd => Nat.isDigit_of_mem_toDigits (by norm_num) (by norm_num) hd
  rcases Nat.eq_zero_or_pos n with rfl | hpos
  · rfl
  · obtain ⟨d, ds, hd, hne⟩ := toDigits_head hpos
    rw [← span_digits hdigits hc rest, hd, List.cons_append]
    exact scanWhole.eq_2 _ fun _ h => hne (List.cons.inj h).1

/-- An unsigned text of digits is an integer. -/
theorem scanNumber_natural (n : ℕ) {c : Char} (hc : c = ',' ∨ c = ']' ∨ c = '\x7d')
    (rest : List Char) :
    scanNumber (Nat.toDigits 10 n ++ c :: rest) = some (.int n, c :: rest) := by
  have hend : c.isDigit = false ∧ scanFraction (c :: rest) = (none, c :: rest) ∧
      scanExponent (c :: rest) = (none, c :: rest) := by
    rcases hc with rfl | rfl | rfl <;> exact ⟨rfl, rfl, by simp [scanExponent]⟩
  obtain ⟨hdigit, hfraction, hexponent⟩ := hend
  have hwhole := scanWhole_toDigits n hdigit rest
  have hunsigned : ∀ d text, d.isDigit = true → scanNumber (d :: text) =
      let whole := scanWhole (d :: text)
      let fraction := scanFraction whole.2
      let exponent := scanExponent fraction.2
      if whole.1 = [] then none
      else if fraction.1 = none ∧ exponent.1 = none then
        some (.int (1 * decimalValue whole.1), exponent.2)
      else
        let digits := fraction.1.getD []
        let value : ℚ := (1 : ℤ) * decimalValue (whole.1 ++ digits) *
          10 ^ (exponent.1.getD 0 - (digits.length : ℤ))
        some (.float (binary64.decode (binary64.encode value)), exponent.2) := by
    intro d text hd
    obtain ⟨h1, h2⟩ := charIsDigit_iff.mp hd
    rw [← Char.ofNat_toNat d]
    generalize d.toNat = n at h1 h2
    interval_cases n <;> rfl
  obtain ⟨d, ds, hds⟩ := List.exists_cons_of_ne_nil (@Nat.toDigits_ne_nil n 10)
  have hd : d.isDigit = true :=
    Nat.isDigit_of_mem_toDigits (b := 10) (n := n) (by norm_num) (by norm_num) (by simp [hds])
  have hvalue := decimalValue_toDigits n
  rw [hds] at hwhole hvalue ⊢
  rw [List.cons_append] at hwhole ⊢
  rw [hunsigned d _ hd, hwhole]
  simp only [hfraction, hexponent, hvalue, List.cons_ne_nil, if_false, and_self, if_true, one_mul]

/-- A printed counter reads as itself. -/
theorem readsAs_natural (hlimit : DigitLimit maxDigits) {n : ℕ} (hn : n < 2 ^ 64) :
    ReadsAs maxDigits (toString n).toList (.int n) := by
  intro fuel c rest _ hc
  have hwithin : withinDigits maxDigits (.int n) = true := hlimit.withinDigits (by
    rw [Nat.abs_cast]
    omega)
  have hdigits : (toString n).toList = Nat.toDigits 10 n := Nat.toList_repr
  obtain ⟨d, ds, hds⟩ := List.exists_cons_of_ne_nil (@Nat.toDigits_ne_nil n 10)
  have hd : d.isDigit = true :=
    Nat.isDigit_of_mem_toDigits (b := 10) (n := n) (by norm_num) (by norm_num) (by simp [hds])
  have hblank : isJsonBlank d = false := by
    obtain ⟨h1, h2⟩ := charIsDigit_iff.mp hd
    rw [← Char.ofNat_toNat d]
    generalize d.toNat = n at h1 h2
    interval_cases n <;> rfl
  have hscan := scanNumber_natural n hc rest
  rw [hds, List.cons_append] at hscan
  rw [hdigits, hds, List.cons_append, skipBlanks_cons hblank, scanOnce_digit hd]
  exact scanNumeral_eq_some_iff.mpr ⟨hscan, hwithin⟩

/-- Printed items are read in order, up to the closing bracket. -/
theorem scanItems_printed {l : List (List Char × Json)} (hne : l ≠ [])
    (hvalues : ∀ p ∈ l, ReadsAs maxDigits p.1 p.2) {fuel : ℕ}
    (hfuel : ([','].intercalate (l.map Prod.fst)).length + 1 ≤ fuel) (rest : List Char) :
    scanItems maxDigits (fuel + 1)
        (skipBlanks ([','].intercalate (l.map Prod.fst) ++ ']' :: rest)) =
      some (l.map Prod.snd, rest) := by
  induction l generalizing fuel with
  | nil => exact absurd rfl hne
  | cons p l ih =>
    obtain ⟨hvalue, hvalues⟩ := List.forall_mem_cons.mp hvalues
    obtain ⟨n, rfl⟩ : ∃ n, fuel = n + 1 := ⟨fuel - 1, by omega⟩
    cases l with
    | nil =>
      have hprinted : [','].intercalate ([p].map Prod.fst) = p.1 := by simp [List.intercalate]
      rw [hprinted] at hfuel ⊢
      have hread := hvalue n ']' rest (by omega) (by simp)
      simp only [scanItems, hread, Option.bind_eq_bind, Option.bind_some,
        skipBlanks_cons (show isJsonBlank ']' = false by decide)]
      rfl
    | cons q l =>
      have hprinted : [','].intercalate ((p :: q :: l).map Prod.fst) =
          p.1 ++ ',' :: [','].intercalate ((q :: l).map Prod.fst) := by simp [List.intercalate]
      rw [hprinted, List.length_append, List.length_cons] at hfuel
      rw [hprinted, List.append_assoc, List.cons_append]
      have hread := hvalue n ',' ([','].intercalate ((q :: l).map Prod.fst) ++ ']' :: rest)
        (by omega) (by simp)
      obtain ⟨k, rfl⟩ : ∃ k, n = k + 1 := ⟨n - 1, by omega⟩
      have htail := @ih (by simp) hvalues (k + 1) (by omega)
      rw [scanItems]
      simp only [hread, Option.bind_eq_bind, Option.bind_some,
        skipBlanks_cons (show isJsonBlank ',' = false by decide), htail]
      rfl

/-- A printed array reads as its values. -/
theorem readsAs_jsonArray {l : List (List Char × Json)}
    (hvalues : ∀ p ∈ l, ReadsAs maxDigits p.1 p.2) :
    ReadsAs maxDigits (jsonArray (l.map Prod.fst)) (.list (l.map Prod.snd)) := by
  intro fuel c rest hfuel _
  rw [jsonArray, List.length_cons, List.length_append, List.length_singleton] at hfuel
  rw [jsonArray, List.cons_append, List.append_assoc, List.singleton_append,
    skipBlanks_cons (by decide)]
  cases l with
  | nil => rfl
  | cons p l =>
    obtain ⟨n, rfl⟩ : ∃ n, fuel = n + 1 := ⟨fuel - 1, by omega⟩
    have hitems := @scanItems_printed _ _ (List.cons_ne_nil p l) hvalues n (by omega) (c :: rest)
    have hopen : ∀ r, skipBlanks ([','].intercalate ((p :: l).map Prod.fst) ++ ']' :: c :: rest) ≠
        ']' :: r := by
      intro r h
      have hnone : scanOnce maxDigits n (']' :: r) = none := by cases n <;> rfl
      simp only [h, scanItems, hnone, Option.bind_eq_bind, Option.bind_none, reduceCtorEq] at hitems
    have harray : ∀ text, (∀ r, skipBlanks text ≠ ']' :: r) →
        scanOnce maxDigits (n + 1 + 1) ('[' :: text) =
          (scanItems maxDigits (n + 1) (skipBlanks text)).map fun p => (.list p.1, p.2) := by
      intro text hne
      rw [scanOnce]
      split
      · exact absurd ‹_› (hne _)
      · rfl
    rw [harray _ hopen, hitems]
    rfl

/-- The printed members of an object. -/
def printedMembers (members : List (String × List Char)) : List Char :=
  [','].intercalate (members.map fun p => '"' :: (p.1.toList ++ '"' :: ':' :: p.2))

/-- The text of one member. -/
theorem printedMembers_singleton (p : String × List Char) :
    printedMembers [p] = '"' :: (p.1.toList ++ '"' :: ':' :: p.2) := by
  simp [printedMembers, List.intercalate]

/-- A comma follows every member but the last. -/
theorem printedMembers_cons_cons (p q : String × List Char) (l : List (String × List Char)) :
    printedMembers (p :: q :: l) =
      '"' :: (p.1.toList ++ '"' :: ':' :: (p.2 ++ ',' :: printedMembers (q :: l))) := by
  simp [printedMembers, List.intercalate]

/-- A name the host prints as it stands. -/
def PlainName (name : String) : Prop := name.toList.flatMap jsonCharacter = name.toList

instance (name : String) : Decidable (PlainName name) := inferInstanceAs (Decidable (_ = _))

section Members

variable {name : String} {text : List Char} {value : Json} {fuel : ℕ}

/-- One printed member in front of its end. -/
theorem scanMembers_member (hname : PlainName name) (hvalue : ReadsAs maxDigits text value)
    (hfuel : text.length + 1 ≤ fuel) (rest : List Char) :
    scanMembers maxDigits (fuel + 1)
        ('"' :: (name.toList ++ '"' :: ':' :: (text ++ '\x7d' :: rest))) =
        some ([(name, value)], rest) ∧
      scanMembers maxDigits (fuel + 1)
        ('"' :: (name.toList ++ '"' :: ':' :: (text ++ ',' :: rest))) =
        (scanMembers maxDigits fuel (skipBlanks rest)).map
          fun p => ((name, value) :: p.1, p.2) := by
  have hkey : ∀ tail, scanString (name.toList ++ '"' :: tail) = some (name, tail) := by
    intro tail
    have h := scanString_printed name tail
    rwa [hname] at h
  have hread : ∀ c, c = ',' ∨ c = ']' ∨ c = '\x7d' →
      scanOnce maxDigits fuel (skipBlanks (text ++ c :: rest)) = some (value, c :: rest) := by
    intro c hc
    obtain ⟨n, rfl⟩ : ∃ n, fuel = n + 1 := ⟨fuel - 1, by omega⟩
    exact hvalue n c rest (by omega) hc
  constructor
  · simp only [scanMembers, hkey, Option.bind_eq_bind, Option.bind_some,
      skipBlanks_cons (show isJsonBlank ':' = false by decide), hread '\x7d' (by simp),
      skipBlanks_cons (show isJsonBlank '\x7d' = false by decide), pure]
  · simp only [scanMembers, hkey, Option.bind_eq_bind, Option.bind_some,
      skipBlanks_cons (show isJsonBlank ':' = false by decide), hread ',' (by simp),
      skipBlanks_cons (show isJsonBlank ',' = false by decide)]
    cases scanMembers maxDigits fuel (skipBlanks rest) <;> rfl

/-- A member whose value is malformed. -/
theorem scanMembers_malformed {tail : List Char} (hname : PlainName name)
    (htail : scanOnce maxDigits fuel (skipBlanks tail) = none) :
    scanMembers maxDigits (fuel + 1) ('"' :: (name.toList ++ '"' :: ':' :: tail)) = none := by
  have hkey := scanString_printed name (':' :: tail)
  rw [hname] at hkey
  simp only [scanMembers, hkey, Option.bind_eq_bind, Option.bind_some,
    skipBlanks_cons (show isJsonBlank ':' = false by decide), htail, Option.bind_none]

end Members

/-- The members start with a quote. -/
theorem exists_printedMembers_eq {l : List (String × List Char)} (hne : l ≠ []) :
    ∃ tail, printedMembers l = '"' :: tail := by
  match l with
  | [p] => exact ⟨_, printedMembers_singleton p⟩
  | p :: q :: l => exact ⟨_, printedMembers_cons_cons p q l⟩

section Printed

variable {l : List (String × List Char × Json)} {fuel : ℕ}

/-- Printed members are read in order, up to the closing brace. -/
theorem scanMembers_printed (hne : l ≠ []) (hnames : ∀ p ∈ l, PlainName p.1)
    (hvalues : ∀ p ∈ l, ReadsAs maxDigits p.2.1 p.2.2)
    (hfuel : (printedMembers (l.map fun p => (p.1, p.2.1))).length ≤ fuel) (rest : List Char) :
    scanMembers maxDigits (fuel + 1)
        (printedMembers (l.map fun p => (p.1, p.2.1)) ++ '\x7d' :: rest) =
      some (l.map fun p => (p.1, p.2.2), rest) := by
  induction l generalizing fuel with
  | nil => exact absurd rfl hne
  | cons p l ih =>
    obtain ⟨hname, hnames⟩ := List.forall_mem_cons.mp hnames
    obtain ⟨hvalue, hvalues⟩ := List.forall_mem_cons.mp hvalues
    cases l with
    | nil =>
      rw [List.map_singleton, printedMembers_singleton] at hfuel ⊢
      have hlen : p.2.1.length + 1 ≤ fuel := by
        simp only [List.length_cons, List.length_append] at hfuel
        omega
      have h := (scanMembers_member hname hvalue hlen rest).1
      simpa only [List.cons_append, List.append_assoc, List.map_singleton] using h
    | cons q l =>
      simp only [List.map_cons, printedMembers_cons_cons] at hfuel ih ⊢
      simp only [List.length_cons, List.length_append] at hfuel
      have h := (scanMembers_member hname hvalue (show p.2.1.length + 1 ≤ fuel by omega)
        (printedMembers ((q.1, q.2.1) :: l.map fun p => (p.1, p.2.1)) ++ '\x7d' :: rest)).2
      obtain ⟨n, rfl⟩ : ∃ n, fuel = n + 1 := ⟨fuel - 1, by omega⟩
      have hhead : skipBlanks (printedMembers ((q.1, q.2.1) :: l.map fun p => (p.1, p.2.1)) ++
          '\x7d' :: rest) = printedMembers ((q.1, q.2.1) :: l.map fun p => (p.1, p.2.1)) ++
            '\x7d' :: rest := by
        obtain ⟨tail, htail⟩ := @exists_printedMembers_eq
          ((q.1, q.2.1) :: l.map fun p => (p.1, p.2.1)) (by simp)
        rw [htail]
        exact skipBlanks_cons (by decide) _
      rw [hhead, ih (by simp) hnames hvalues (by omega)] at h
      simpa only [List.cons_append, List.append_assoc, Option.map_some] using h

end Printed

/-- Distinct names keep their order and values. -/
theorem dictOf_eq {pairs : List (String × Json)} (h : (pairs.map Prod.fst).Nodup) :
    dictOf pairs = pairs := by
  have hfold : ∀ (l acc : List (String × Json)), ((acc ++ l).map Prod.fst).Nodup →
      l.foldl (fun fields p => setItem fields p.1 p.2) acc = acc ++ l := by
    intro l
    induction l with
    | nil => simp
    | cons p l ih =>
      intro acc hacc
      have hnew : acc.any (fun q => q.1 == p.1) = false := by
        rw [List.any_eq_false]
        intro q hq heq
        rw [List.map_append, List.nodup_append] at hacc
        exact hacc.2.2 q.1 (List.mem_map_of_mem hq) p.1 (by simp) (beq_iff_eq.mp heq)
      have hassoc : acc ++ p :: l = acc ++ [p] ++ l := by simp
      rw [List.foldl_cons, setItem, hnew, if_neg (by decide), hassoc]
      exact ih _ (hassoc ▸ hacc)
  have h' := hfold pairs [] (by simpa using h)
  rwa [List.nil_append] at h'

/-- The printed object of some members. -/
def printedObject (members : List (String × List Char)) : List Char :=
  '\x7b' :: (printedMembers members ++ ['\x7d'])

/-- Decoding a text that opens an object with its first name. -/
theorem jsonLoads_object (tail : List Char) :
    jsonLoads maxDigits (String.ofList ('\x7b' :: '"' :: tail)) =
      (scanMembers maxDigits (tail.length + 2) ('"' :: tail)).bind fun p =>
        if skipBlanks p.2 = [] then some (.dict (dictOf p.1)) else none := by
  have hblank : isJsonBlank '\x7b' = false := by decide
  have hquote : isJsonBlank '"' = false := by decide
  have hscan : scanOnce maxDigits (tail.length + 2 + 1) ('\x7b' :: '"' :: tail) =
      (scanMembers maxDigits (tail.length + 2) ('"' :: tail)).map
        fun p => (.dict (dictOf p.1), p.2) := by
    simp only [scanOnce, skipBlanks_cons hquote]
    rfl
  rw [jsonLoads, String.toList_ofList, String.length_ofList, if_neg (by simp),
    skipBlanks_cons hblank, List.length_cons, List.length_cons, hscan]
  cases scanMembers maxDigits (tail.length + 2) ('"' :: tail) <;> rfl

/-- A printed object is read back member by member. -/
theorem jsonLoads_printedObject {l : List (String × List Char × Json)} (hne : l ≠ [])
    (hnames : ∀ p ∈ l, PlainName p.1) (hvalues : ∀ p ∈ l, ReadsAs maxDigits p.2.1 p.2.2)
    (hnodup : (l.map Prod.fst).Nodup) :
    jsonLoads maxDigits (String.ofList (printedObject (l.map fun p => (p.1, p.2.1)))) =
      some (.dict (l.map fun p => (p.1, p.2.2))) := by
  obtain ⟨tail, htail⟩ := exists_printedMembers_eq (l := l.map fun p => (p.1, p.2.1)) (by simpa)
  have hscan := @scanMembers_printed _ _ (tail.length + 2) hne hnames hvalues
    (by rw [htail, List.length_cons]; omega) []
  rw [htail, List.cons_append] at hscan
  rw [printedObject, htail, List.cons_append, jsonLoads_object]
  have hdict : dictOf (l.map fun p => (p.1, p.2.2)) = l.map fun p => (p.1, p.2.2) :=
    dictOf_eq (by rwa [List.map_map])
  have hfuel : (tail ++ ['\x7d']).length + 2 = tail.length + 2 + 1 := by simp
  rw [hfuel, hscan, Option.bind_some, hdict]
  rfl

end RowReduce
