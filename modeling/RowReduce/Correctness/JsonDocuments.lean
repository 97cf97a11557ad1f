import RowReduce.Audit.Parse
import RowReduce.Correctness.PrintedJson
import RowReduce.Runner.JsonDumps

/-!
# Documents written and read back

What `json.dumps` writes, both the strict reader of the audit and the library's
own read back as the value written, in either layout. A document that is cut
anywhere before its last bracket is not read at all.
-/

namespace RowReduce

open BinaryFloat Fallible Hexadecimal

/-! ## Strings -/

/-- An escaped code unit is read as it stands. -/
theorem scanUnits_unitEscape {unit : ℕ} (h : unit < 0x10000) (rest : List Char) :
    scanUnits (unitEscape unit ++ rest) = (scanUnits rest).map fun p => (unit :: p.1, p.2) := by
  have hunit : hexUnit (digit (unit / 0x1000)) (digit (unit / 0x100 % 16))
      (digit (unit / 16 % 16)) (digit (unit % 16)) = some unit := by
    simp only [hexUnit, digitValue_digit (show unit / 0x1000 < 16 by omega),
      digitValue_digit (show unit / 0x100 % 16 < 16 by omega),
      digitValue_digit (show unit / 16 % 16 < 16 by omega),
      digitValue_digit (show unit % 16 < 16 by omega), Option.bind_eq_bind, Option.bind_some, pure,
      Option.some.injEq]
    omega
  have hscan : scanUnits (unitEscape unit ++ rest) =
      (hexUnit (digit (unit / 0x1000)) (digit (unit / 0x100 % 16)) (digit (unit / 16 % 16))
        (digit (unit % 16))).bind fun unit =>
          (scanUnits rest).bind fun p => some (unit :: p.1, p.2) := rfl
  rw [hscan, hunit, Option.bind_some]
  cases scanUnits rest <;> rfl

private theorem utf16Units_lt (c : Char) : ∀ unit ∈ utf16Units c, unit < 0x10000 := by
  have hvalid : c.toNat < 0xd800 ∨ 0xdfff < c.toNat ∧ c.toNat < 0x110000 := c.valid
  intro unit hunit
  unfold utf16Units at hunit
  split_ifs at hunit with h
  · rw [List.mem_singleton.mp hunit]
    exact h
  · simp only [List.mem_cons, List.not_mem_nil, or_false] at hunit
    omega

/-- A written character is read as its code units. -/
theorem scanUnits_asciiCharacter (c : Char) (rest : List Char) :
    scanUnits (asciiCharacter c ++ rest) =
      (scanUnits rest).map fun p => (utf16Units c ++ p.1, p.2) := by
  have hbind : ∀ n : ℕ, ((scanUnits rest).bind fun p => some (n :: p.1, p.2)) =
      (scanUnits rest).map fun p => (n :: p.1, p.2) := by
    intro n
    cases scanUnits rest <;> rfl
  have hunits : ∀ units : List ℕ, (∀ unit ∈ units, unit < 0x10000) →
      scanUnits (units.flatMap unitEscape ++ rest) =
        (scanUnits rest).map fun p => (units ++ p.1, p.2) := by
    intro units
    induction units with
    | nil => simp
    | cons unit units ih =>
      intro h
      obtain ⟨hunit, h⟩ := List.forall_mem_cons.mp h
      rw [List.flatMap_cons, List.append_assoc, scanUnits_unitEscape hunit, ih h, Option.map_map]
      rfl
  by_cases hquote : c = '"' ∨ c = '\\'
  · rcases hquote with rfl | rfl <;> exact hbind _
  · by_cases hcontrol : c ∈ ['\n', '\r', '\t', '\x0c', '\x08']
    · simp only [List.mem_cons, List.not_mem_nil, or_false] at hcontrol
      rcases hcontrol with rfl | rfl | rfl | rfl | rfl <;> exact hbind _
    · have hnone : [('\n', 'n'), ('\r', 'r'), ('\t', 't'), ('\x0c', 'f'), ('\x08', 'b')].lookup c =
          none := by
        rw [List.lookup_eq_none_iff]
        simp only [List.mem_cons, List.not_mem_nil, or_false, not_or] at hcontrol
        simpa using hcontrol
      have hwritten : asciiCharacter c =
          if 32 ≤ c.toNat ∧ c.toNat ≤ 126 then [c] else (utf16Units c).flatMap unitEscape := by
        rw [asciiCharacter, if_neg hquote, hnone]
      rw [hwritten]
      split_ifs with hplain
      · have hunit : utf16Units c = [c.toNat] := if_pos (by omega)
        rw [not_or] at hquote
        rw [hunit, List.singleton_append, scanUnits.eq_def]
        dsimp only
        rw [if_neg hquote.1, if_neg hquote.2, if_neg (by omega)]
        exact hbind c.toNat
      · exact hunits _ (utf16Units_lt c)

/-- The units of a dumped string are read up to its closing quote. -/
theorem scanUnits_dumped (text rest : List Char) :
    scanUnits (text.flatMap asciiCharacter ++ '"' :: rest) =
      some (text.flatMap utf16Units, rest) := by
  induction text with
  | nil => simp [scanUnits.eq_def]
  | cons c text ih =>
    rw [List.flatMap_cons, List.append_assoc, scanUnits_asciiCharacter, ih]
    rfl

/-- Surrogates stand in pairs, which join to their characters. -/
theorem unitCharacters_flatMap (text : List Char) :
    unitCharacters (text.flatMap utf16Units) = text := by
  induction text with
  | nil => rfl
  | cons c text ih =>
    have hvalid : c.toNat < 0xd800 ∨ 0xdfff < c.toNat ∧ c.toNat < 0x110000 := c.valid
    rw [List.flatMap_cons]
    by_cases h : c.toNat < 0x10000
    · have hunit : utf16Units c = [c.toNat] := if_pos h
      rw [hunit, List.singleton_append]
      cases htail : text.flatMap utf16Units with
      | nil =>
        rw [htail] at ih
        obtain rfl : [] = text := ih
        simp only [unitCharacters, unitCharacter_toNat]
      | cons unit units =>
        rw [htail] at ih
        rw [unitCharacters, if_neg (by omega), ih, unitCharacter_toNat]
    · have hunits : utf16Units c =
          [0xd800 + (c.toNat - 0x10000) / 0x400, 0xdc00 + (c.toNat - 0x10000) % 0x400] := if_neg h
      have hjoin : 0x10000 + (0xd800 + (c.toNat - 0x10000) / 0x400 - 0xd800) * 0x400 +
          (0xdc00 + (c.toNat - 0x10000) % 0x400 - 0xdc00) = c.toNat := by omega
      rw [hunits, List.cons_append, List.singleton_append, unitCharacters, if_pos (by omega),
        ih, hjoin,
        Char.ofNat_toNat]

/-- A dumped string is read back. -/
theorem scanString_dumped (s : String) (rest : List Char) :
    scanString (s.toList.flatMap asciiCharacter ++ '"' :: rest) = some (s, rest) := by
  rw [scanString, scanUnits_dumped, Option.map_some, unitCharacters_flatMap, String.ofList_toList]

/-! ## Numerals -/

/-- What may stand after a value: the end, a blank, a comma or a closing bracket. -/
def Follows (rest : List Char) : Prop :=
  ∀ c ∈ rest.head?, c = ',' ∨ c = ']' ∨ c = '\x7d' ∨ isJsonBlank c = true

/-- What may follow a numeral. -/
theorem follows_cons {c : Char} (h : c = ',' ∨ c = ']' ∨ c = '\x7d' ∨ isJsonBlank c = true)
    (rest : List Char) : Follows (c :: rest) := by
  simpa [Follows] using h

/-- The blanks of JSON. -/
theorem isJsonBlank_iff {c : Char} :
    isJsonBlank c = true ↔ c = ' ' ∨ c = '\t' ∨ c = '\n' ∨ c = '\r' := by
  simp [isJsonBlank, or_assoc]

/-- Nothing that follows a value continues a numeral. -/
theorem Follows.scan {rest : List Char} (h : Follows rest) :
    (∀ c ∈ rest.head?, c.isDigit = false) ∧ scanFraction rest = (none, rest) ∧
      scanExponent rest = (none, rest) := by
  cases rest with
  | nil => exact ⟨by simp, rfl, rfl⟩
  | cons c rest =>
    have hc := h c rfl
    rw [isJsonBlank_iff] at hc
    rcases hc with rfl | rfl | rfl | rfl | rfl | rfl | rfl <;>
      exact ⟨by simp, rfl, by simp [scanExponent]⟩

/-- The number after the sign. -/
def signedNumber (sign : ℤ) (text : List Char) : Option (Json × List Char) :=
  let whole := scanWhole text
  let fraction := scanFraction whole.2
  let exponent := scanExponent fraction.2
  if whole.1 = [] then none
  else if fraction.1 = none ∧ exponent.1 = none then
    some (.int (sign * decimalValue whole.1), exponent.2)
  else
    let digits := fraction.1.getD []
    let value : ℚ := sign * decimalValue (whole.1 ++ digits) *
      10 ^ (exponent.1.getD 0 - (digits.length : ℤ))
    some (.float (binary64.decode (binary64.encode value)), exponent.2)

/-- A numeral without a sign. -/
theorem scanNumber_digit {d : Char} (hd : d.isDigit = true) (text : List Char) :
    scanNumber (d :: text) = signedNumber 1 (d :: text) := by
  obtain ⟨h1, h2⟩ := charIsDigit_iff.mp hd
  rw [← Char.ofNat_toNat d]
  generalize d.toNat = n at h1 h2
  interval_cases n <;> rfl

/-- A negative numeral. -/
theorem scanNumber_minus (text : List Char) :
    scanNumber ('-' :: text) = signedNumber (-1) text := rfl

/-- Digits are read up to the first other character. -/
theorem span_digits_append {l rest : List Char} (hl : ∀ c ∈ l, c.isDigit = true)
    (hrest : ∀ c ∈ rest.head?, c.isDigit = false) : (l ++ rest).span Char.isDigit = (l, rest) := by
  cases rest with
  | nil =>
    rw [List.span_eq_takeWhile_dropWhile, List.takeWhile_append_of_pos hl,
      List.dropWhile_append_of_pos hl, List.takeWhile_nil, List.dropWhile_nil, List.append_nil]
  | cons c rest => exact span_digits hl (hrest c rfl) rest

/-- Printed digits are digits. -/
theorem isDigit_toDigits (n : ℕ) : ∀ d ∈ Nat.toDigits 10 n, d.isDigit = true := fun _ hd =>
  Nat.isDigit_of_mem_toDigits (by norm_num) (by norm_num) hd

/-- The digits of a natural number, in front of anything but a digit. -/
theorem scanWhole_digits (n : ℕ) {rest : List Char} (h : ∀ c ∈ rest.head?, c.isDigit = false) :
    scanWhole (Nat.toDigits 10 n ++ rest) = (Nat.toDigits 10 n, rest) := by
  rcases Nat.eq_zero_or_pos n with rfl | hpos
  · rfl
  · obtain ⟨d, ds, hd, hne⟩ := toDigits_head hpos
    rw [← span_digits_append (isDigit_toDigits n) h, hd, List.cons_append]
    exact scanWhole.eq_2 _ fun _ h => hne (List.cons.inj h).1

/-- A natural number is read as an integer. -/
theorem signedNumber_toDigits (sign : ℤ) (n : ℕ) {rest : List Char} (h : Follows rest) :
    signedNumber sign (Nat.toDigits 10 n ++ rest) = some (.int (sign * n), rest) := by
  obtain ⟨hdigit, hfraction, hexponent⟩ := h.scan
  simp only [signedNumber, scanWhole_digits n hdigit, hfraction, hexponent, decimalValue_toDigits,
    Nat.toDigits_ne_nil, if_false, and_self, if_true]

/-- The text of a negative exponent. -/
def exponentText (k : ℕ) : List Char := 'e' :: '-' :: Nat.toDigits 10 k

/-- A natural number with an exponent is read as a double. -/
theorem signedNumber_exponentText (sign : ℤ) (n k : ℕ) {rest : List Char} (h : Follows rest) :
    signedNumber sign (Nat.toDigits 10 n ++ (exponentText k ++ rest)) =
      some (.float (binary64.decode (binary64.encode (sign * n * 10 ^ (-(k : ℤ))))), rest) := by
  have hwhole : scanWhole (Nat.toDigits 10 n ++ (exponentText k ++ rest)) =
      (Nat.toDigits 10 n, exponentText k ++ rest) := scanWhole_digits n (by simp [exponentText])
  have hfraction : scanFraction (exponentText k ++ rest) = (none, exponentText k ++ rest) := rfl
  have hexponent : scanExponent (exponentText k ++ rest) = (some (-(k : ℤ)), rest) := by
    have hspan := span_digits_append (isDigit_toDigits k) h.scan.1
    simp only [exponentText, List.cons_append, scanExponent, hspan, decimalValue_toDigits]
    rw [if_pos ⟨Or.inl trivial, Nat.toDigits_ne_nil⟩, if_pos trivial]
  simp only [signedNumber, hwhole, hfraction, hexponent, Nat.toDigits_ne_nil, if_false,
    reduceCtorEq, and_false, Option.getD_some, Option.getD_none, List.append_nil,
    decimalValue_toDigits, List.length_nil, Nat.cast_zero, sub_zero]

/-- A text both readers take as this number in front of anything that may follow. -/
structure NumeralReads (text : List Char) (value : Json) : Prop where
  head : ∃ c tail, text = c :: tail ∧
    (c.isDigit = true ∨ c = '-' ∧ ∃ d ds, tail = d :: ds ∧ d.isDigit = true)
  scan : ∀ rest, Follows rest → scanNumber (text ++ rest) = some (value, rest)

private theorem exists_toDigits_eq (n : ℕ) :
    ∃ d ds, Nat.toDigits 10 n = d :: ds ∧ d.isDigit = true := by
  obtain ⟨d, ds, hds⟩ := List.exists_cons_of_ne_nil (@Nat.toDigits_ne_nil n 10)
  exact ⟨d, ds, hds, isDigit_toDigits n d (by simp [hds])⟩

/-- The text of a natural number. -/
theorem toList_toString_ofNat (n : ℕ) : (toString (Int.ofNat n)).toList = Nat.toDigits 10 n :=
  Nat.toList_repr

/-- The text of a negative number. -/
theorem toList_toString_negSucc (n : ℕ) :
    (toString (Int.negSucc n)).toList = '-' :: Nat.toDigits 10 (n + 1) := by
  change ("-" ++ Nat.repr (n + 1)).toList = _
  rw [String.toList_append, Nat.toList_repr]
  rfl

/-- The text of an integer, with what the scan of its magnitude leaves. -/
theorem numeralReads_of_signed {n : ℤ} {tail : List Char} {value : Json}
    (h : ∀ sign : ℤ, ∀ k : ℕ, n = sign * k → ∀ rest, Follows rest →
      signedNumber sign (Nat.toDigits 10 k ++ (tail ++ rest)) = some (value, rest)) :
    NumeralReads ((toString n).toList ++ tail) value := by
  cases n with
  | ofNat n =>
    obtain ⟨d, ds, hds, hd⟩ := exists_toDigits_eq n
    rw [toList_toString_ofNat, hds, List.cons_append]
    refine ⟨⟨d, _, rfl, Or.inl hd⟩, fun rest hrest => ?_⟩
    have hscan := h 1 n (by simp) rest hrest
    rw [hds, List.cons_append, ← scanNumber_digit hd] at hscan
    rwa [List.cons_append, List.append_assoc]
  | negSucc n =>
    obtain ⟨d, ds, hds, hd⟩ := exists_toDigits_eq (n + 1)
    rw [toList_toString_negSucc, hds, List.cons_append]
    refine ⟨⟨'-', _, rfl, Or.inr ⟨rfl, d, _, rfl, hd⟩⟩, fun rest hrest => ?_⟩
    have hscan := h (-1) (n + 1) (by rw [Int.negSucc_eq]; push_cast; ring) rest hrest
    rw [hds] at hscan
    rw [List.cons_append, scanNumber_minus, List.append_assoc]
    exact hscan

/-- A printed integer is read back. -/
theorem numeralReads_int (n : ℤ) : NumeralReads (toString n).toList (.int n) := by
  have hreads := @numeralReads_of_signed n [] (.int n) fun sign k hn rest hrest => by
    rw [hn]
    exact signedNumber_toDigits sign k hrest
  rwa [List.append_nil] at hreads

/-- So is an integer with a power of ten. -/
theorem numeralReads_exponentText (n : ℤ) (k : ℕ) :
    NumeralReads ((toString n).toList ++ exponentText k)
    (.float (binary64.decode (binary64.encode (n * 10 ^ (-(k : ℤ)))))) :=
  numeralReads_of_signed fun sign m hn rest hrest => by
    rw [hn, signedNumber_exponentText sign m k hrest]
    push_cast
    rfl

/-! ## Documents -/

section Documents

variable (repr : ℚ → String) (maxDigits : Option ℕ)

mutual

/-- What is written is read back: names are distinct, doubles are finite and read back from their
`repr`, and integers stay below the reader's bound. -/
def Json.Dumpable : Json → Prop
  | .float x => ∃ q, x = .finite q ∧ NumeralReads (repr q).toList (.float (.finite q))
  | .int n => ∀ digits, maxDigits = some digits → |n| < 10 ^ digits
  | .list items => ItemsDumpable items
  | .dict fields => (fields.map Prod.fst).Nodup ∧ FieldsDumpable fields
  | _ => True

def ItemsDumpable : List Json → Prop
  | [] => True
  | item :: items => item.Dumpable ∧ ItemsDumpable items

def FieldDumpable : String × Json → Prop
  | (_, value) => value.Dumpable

def FieldsDumpable : List (String × Json) → Prop
  | [] => True
  | field :: fields => FieldDumpable field ∧ FieldsDumpable fields

end

variable {repr maxDigits} {style : JsonStyle}

/-- Items are dumpable where each of them is. -/
theorem itemsDumpable_iff {items : List Json} :
    ItemsDumpable repr maxDigits items ↔ ∀ item ∈ items, item.Dumpable repr maxDigits := by
  induction items with
  | nil => simp [ItemsDumpable]
  | cons item items ih => simp [ItemsDumpable, ih]

/-- Fields are dumpable where each of their values is. -/
theorem fieldsDumpable_iff {fields : List (String × Json)} :
    FieldsDumpable repr maxDigits fields ↔ ∀ p ∈ fields, p.2.Dumpable repr maxDigits := by
  induction fields with
  | nil => simp [FieldsDumpable]
  | cons p fields ih =>
    obtain ⟨key, value⟩ := p
    rw [FieldsDumpable, FieldDumpable, List.forall_mem_cons, ih]

/-- Pairs with different names make an object. -/
theorem uniqueObject_eq_ok {fields : List (String × Json)} (h : (fields.map Prod.fst).Nodup) :
    Audit.uniqueObject fields = .ok fields := by
  have hfold : ∀ (l acc : List (String × Json)), ((acc ++ l).map Prod.fst).Nodup →
      l.foldlM Audit.addUnique acc = .ok (acc ++ l) := by
    intro l
    induction l with
    | nil => simp [pure_eq_ok]
    | cons p l ih =>
      intro acc hacc
      have hnew : acc.lookup p.1 = none := by
        rw [List.lookup_eq_none_iff]
        intro q hq
        rw [List.map_append, List.nodup_append] at hacc
        simpa using Ne.symm (hacc.2.2 q.1 (List.mem_map_of_mem hq) p.1 (by simp))
      have hadd : Audit.addUnique acc p = .ok (acc ++ [p]) := by
        rw [Audit.addUnique, hnew]
        rfl
      have hassoc : acc ++ p :: l = acc ++ [p] ++ l := by simp
      rw [List.foldlM_cons, hadd, ok_bind, hassoc]
      exact ih _ (hassoc ▸ hacc)
  exact hfold fields [] h

/-- The gaps of every style are blanks. -/
theorem gap_blank (style : JsonStyle) (level : ℕ) :
    ∀ c ∈ style.gap level, isJsonBlank c = true := by
  unfold JsonStyle.gap
  cases style.indent with
  | none => simp
  | some width =>
    refine List.forall_mem_cons.mpr ⟨rfl, fun c hc => ?_⟩
    rw [List.eq_of_mem_replicate hc]
    rfl

/-- A separator is a comma and blanks. -/
theorem exists_separator_eq (style : JsonStyle) (level : ℕ) : ∃ blanks,
    style.separator level = ',' :: blanks ∧ ∀ c ∈ blanks, isJsonBlank c = true := by
  unfold JsonStyle.separator
  cases h : style.indent with
  | none => exact ⟨[' '], rfl, by simp [isJsonBlank]⟩
  | some width => exact ⟨style.gap level, rfl, gap_blank style level⟩

/-- Leading blanks are skipped. -/
theorem skipBlanks_append {blanks : List Char} (h : ∀ c ∈ blanks, isJsonBlank c = true)
    (rest : List Char) : skipBlanks (blanks ++ rest) = skipBlanks rest :=
  List.dropWhile_append_of_pos h

/-- A written value starts with a character that is neither blank nor a closing bracket. -/
theorem exists_dumpValue_eq (style : JsonStyle) {v : Json} (h : v.Dumpable repr maxDigits)
    (level : ℕ) :
    ∃ c tail, dumpValue repr style level v = c :: tail ∧ isJsonBlank c = false ∧ c ≠ ']' ∧
      c ≠ '\x7d' ∧ c ≠ '\uFEFF' := by
  have hnumeral : ∀ {text value}, NumeralReads text value → ∃ c tail, text = c :: tail ∧
      isJsonBlank c = false ∧ c ≠ ']' ∧ c ≠ '\x7d' ∧ c ≠ '\uFEFF' := by
    rintro text value ⟨⟨c, tail, rfl, hc | ⟨rfl, _⟩⟩, _⟩
    · refine ⟨c, tail, rfl, ?_⟩
      obtain ⟨h1, h2⟩ := charIsDigit_iff.mp hc
      rw [← Char.ofNat_toNat c]
      generalize c.toNat = n at h1 h2
      interval_cases n <;> decide
    · exact ⟨'-', tail, rfl, by decide⟩
  cases v with
  | null => exact ⟨'n', _, rfl, by decide⟩
  | bool b => cases b <;> exact ⟨_, _, rfl, by decide⟩
  | int n => exact hnumeral (numeralReads_int n)
  | float x =>
    obtain ⟨q, rfl, hq⟩ := h
    exact hnumeral hq
  | str s => exact ⟨'"', _, rfl, by decide⟩
  | list items => cases items <;> exact ⟨'[', _, by rw [dumpValue], by decide⟩
  | dict fields => cases fields <;> exact ⟨'\x7b', _, by rw [dumpValue], by decide⟩

/-- Both readers bound the digits of an integer alike. -/
theorem checkDigits_eq_ok_iff {value : Json} :
    Audit.checkDigits maxDigits value = .ok () ↔ withinDigits maxDigits value = true := by
  rw [Audit.checkDigits, Audit.require, throwIf_eq_ok_iff, not_not]

/-- The strict reader reads a numeral wherever one may end. -/
theorem readValue_numeral {text : List Char} {value : Json} (h : NumeralReads text value)
    (hwithin : withinDigits maxDigits value = true) (fuel : ℕ) {rest : List Char}
    (hrest : Follows rest) :
      Audit.readValue maxDigits (fuel + 1) (text ++ rest) = .ok (value, rest) := by
  have hread : Audit.readNumeral maxDigits (text ++ rest) = .ok (value, rest) := by
    rw [Audit.readNumeral, h.scan rest hrest]
    simp only [Audit.decoded, ok_bind, checkDigits_eq_ok_iff.mpr hwithin]
    rfl
  rw [← hread]
  obtain ⟨c, tail, rfl, hc | ⟨rfl, d, ds, rfl, hd⟩⟩ := h.head
  · obtain ⟨h1, h2⟩ := charIsDigit_iff.mp hc
    rw [← Char.ofNat_toNat c]
    generalize c.toNat = n at h1 h2
    interval_cases n <;> rfl
  · obtain ⟨h1, h2⟩ := charIsDigit_iff.mp hd
    rw [← Char.ofNat_toNat d]
    generalize d.toNat = n at h1 h2
    interval_cases n <;> rfl

private theorem length_dumpValue_pos (style : JsonStyle) {v : Json} (hv : v.Dumpable repr maxDigits)
    (level : ℕ) :
    0 < (dumpValue repr style level v).length := by
  obtain ⟨c, tail, h, _⟩ := exists_dumpValue_eq style hv level
  rw [h]
  exact Nat.succ_pos _

/-- A dumped value starts with no blank. -/
theorem skipBlanks_dumpValue {v : Json} (hv : v.Dumpable repr maxDigits) (level : ℕ)
    (rest : List Char) : skipBlanks (dumpValue repr style level v ++ rest) =
      dumpValue repr style level v ++ rest := by
  obtain ⟨c, tail, h, hblank, _⟩ := exists_dumpValue_eq style hv level
  rw [h, List.cons_append, skipBlanks_cons hblank]

/-- After the last item or member: the closing bracket on its line. -/
theorem skipBlanks_close (style : JsonStyle) (level : ℕ) {c : Char} (hc : isJsonBlank c = false)
    (rest : List Char) : skipBlanks (style.gap level ++ c :: rest) = c :: rest := by
  rw [skipBlanks_append (gap_blank style level), skipBlanks_cons hc]

private theorem follows_close (style : JsonStyle) (level : ℕ) {c : Char} (hc : c = ']' ∨ c = '\x7d')
    (rest : List Char) : Follows (style.gap level ++ c :: rest) := by
  cases hgap : style.gap level with
  | nil => exact follows_cons (Or.inr (hc.imp_right Or.inl)) rest
  | cons b blanks =>
    exact follows_cons (Or.inr (Or.inr (Or.inr (gap_blank style level b (by simp [hgap]))))) _

private theorem exists_dumpField_eq (repr : ℚ → String) (style : JsonStyle) (level : ℕ)
    (key : String)
    (value : Json) : ∃ tail, dumpField repr style level (key, value) = '"' :: tail :=
  ⟨_, rfl⟩

/-- With this fuel the strict reader takes what was written off any text in front of what may
follow it. -/
structure ReadsDumped (repr : ℚ → String) (maxDigits : Option ℕ) (style : JsonStyle) (fuel : ℕ) :
    Prop where
  value : ∀ (v : Json) (level : ℕ) (rest : List Char), v.Dumpable repr maxDigits →
    (dumpValue repr style level v).length < fuel → Follows rest →
    Audit.readValue maxDigits fuel (dumpValue repr style level v ++ rest) = .ok (v, rest)
  items : ∀ (item : Json) (items : List Json) (level close : ℕ) (rest : List Char),
    item.Dumpable repr maxDigits → ItemsDumpable repr maxDigits items →
    (dumpValue repr style level item).length + (dumpItems repr style level items).length +
      1 < fuel →
    Audit.readItems maxDigits fuel (dumpValue repr style level item ++
      (dumpItems repr style level items ++ (style.gap close ++ ']' :: rest))) =
        .ok (item :: items, rest)
  members : ∀ (key : String) (value : Json) (fields : List (String × Json)) (level close : ℕ)
    (rest : List Char), value.Dumpable repr maxDigits → FieldsDumpable repr maxDigits fields →
    (dumpField repr style level (key, value)).length +
      (dumpFields repr style level fields).length + 1 < fuel →
    Audit.readMembers maxDigits fuel (dumpField repr style level (key, value) ++
      (dumpFields repr style level fields ++ (style.gap close ++ '\x7d' :: rest))) =
        .ok ((key, value) :: fields, rest)

section Step

variable {fuel : ℕ} (ih : ReadsDumped repr maxDigits style fuel)

include ih

/-- With one more level a dumped value is read. -/
theorem ReadsDumped.value_succ (v : Json) (level : ℕ) (rest : List Char)
    (hv : v.Dumpable repr maxDigits)
    (hfuel : (dumpValue repr style level v).length < fuel + 1) (hrest : Follows rest) :
    Audit.readValue maxDigits (fuel + 1) (dumpValue repr style level v ++ rest) =
      .ok (v, rest) := by
  cases v with
  | null => rfl
  | bool b => cases b <;> rfl
  | int n => exact readValue_numeral (numeralReads_int n) (withinDigits_int_iff.mpr hv) fuel hrest
  | float x =>
    obtain ⟨q, rfl, hq⟩ := hv
    exact readValue_numeral hq rfl fuel hrest
  | str s =>
    rw [dumpValue, dumpString, List.cons_append, List.append_assoc, List.singleton_append]
    simp only [Audit.readValue, scanString_dumped, Audit.decoded, ok_bind]
    rfl
  | list items =>
    cases items with
    | nil => rfl
    | cons item items =>
      obtain ⟨hitem, hitems⟩ := hv
      rw [dumpValue] at hfuel ⊢
      simp only [List.length_cons, List.length_append] at hfuel
      have hread := ih.items item items (level + 1) level rest hitem hitems (by omega)
      obtain ⟨c, tail, hhead, hblank, hclose, _⟩ :=
        exists_dumpValue_eq style hitem (level + 1)
      simp only [List.cons_append, List.append_assoc, List.nil_append] at hread ⊢
      rw [hhead, List.cons_append] at hread ⊢
      rw [Audit.readValue, skipBlanks_append (gap_blank style (level + 1)), skipBlanks_cons hblank]
      split
      · exact absurd (List.cons.inj ‹_›).1 hclose
      · rw [hread]
        rfl
  | dict fields =>
    cases fields with
    | nil => rfl
    | cons field fields =>
      obtain ⟨key, value⟩ := field
      obtain ⟨hnodup, hvalue, hfields⟩ := hv
      rw [dumpValue] at hfuel ⊢
      simp only [List.length_cons, List.length_append] at hfuel
      have hread := ih.members key value fields (level + 1) level rest hvalue hfields (by omega)
      simp only [List.cons_append, List.append_assoc, List.nil_append] at hread ⊢
      obtain ⟨tail, hhead⟩ := exists_dumpField_eq repr style (level + 1) key value
      rw [hhead, List.cons_append] at hread ⊢
      rw [Audit.readValue, skipBlanks_append (gap_blank style (level + 1)),
        skipBlanks_cons (by decide)]
      split
      · exact absurd (List.cons.inj ‹_›).1 (by decide)
      · rw [hread, ok_bind]
        simp only [uniqueObject_eq_ok hnodup, ok_bind]
        rfl

/-- Items are read in order, up to the closing bracket. -/
theorem ReadsDumped.items_succ (item : Json) (items : List Json) (level close : ℕ)
    (rest : List Char) (hitem : item.Dumpable repr maxDigits)
    (hitems : ItemsDumpable repr maxDigits items)
    (hfuel : (dumpValue repr style level item).length +
      (dumpItems repr style level items).length + 1 < fuel + 1) :
    Audit.readItems maxDigits (fuel + 1) (dumpValue repr style level item ++
      (dumpItems repr style level items ++ (style.gap close ++ ']' :: rest))) =
        .ok (item :: items, rest) := by
  cases items with
  | nil =>
    have hvalue := ih.value item level (style.gap close ++ ']' :: rest) hitem (by omega)
      (follows_close style close (Or.inl rfl) rest)
    rw [dumpItems, List.nil_append, Audit.readItems]
    simp only [hvalue, ok_bind, skipBlanks_close style close
      (show isJsonBlank ']' = false by decide)]
    rfl
  | cons next items =>
    obtain ⟨hnext, hitems⟩ := hitems
    obtain ⟨blanks, hseparator, hblanks⟩ := exists_separator_eq style level
    rw [dumpItems, hseparator] at hfuel ⊢
    simp only [List.length_cons, List.length_append] at hfuel
    have hpos := length_dumpValue_pos style hitem level
    have htail := ih.items next items level close rest hnext hitems (by omega)
    have hvalue := ih.value item level (',' :: (blanks ++ (dumpValue repr style level next ++
      (dumpItems repr style level items ++ (style.gap close ++ ']' :: rest))))) hitem (by omega)
      (follows_cons (Or.inl rfl) _)
    simp only [List.cons_append, List.append_assoc]
    rw [Audit.readItems]
    simp only [hvalue, ok_bind, skipBlanks_cons (show isJsonBlank ',' = false by decide),
      skipBlanks_append hblanks, skipBlanks_dumpValue hnext, htail]
    rfl

/-- Members are read in order, up to the closing brace. -/
theorem ReadsDumped.members_succ (key : String) (value : Json) (fields : List (String × Json))
    (level close : ℕ) (rest : List Char) (hvalue : value.Dumpable repr maxDigits)
    (hfields : FieldsDumpable repr maxDigits fields)
    (hfuel : (dumpField repr style level (key, value)).length +
      (dumpFields repr style level fields).length + 1 < fuel + 1) :
    Audit.readMembers maxDigits (fuel + 1) (dumpField repr style level (key, value) ++
      (dumpFields repr style level fields ++ (style.gap close ++ '\x7d' :: rest))) =
        .ok ((key, value) :: fields, rest) := by
  have hkey : ∀ tail, dumpField repr style level (key, value) ++ tail =
      '"' :: (key.toList.flatMap asciiCharacter ++
        '"' :: ':' :: ' ' :: (dumpValue repr style level value ++ tail)) := by
    intro tail
    simp [dumpField, dumpString]
  have hblank : ∀ tail, skipBlanks (' ' :: (dumpValue repr style level value ++ tail)) =
      dumpValue repr style level value ++ tail := fun tail =>
    (@skipBlanks_append [' '] (by simp [isJsonBlank]) _).trans (skipBlanks_dumpValue hvalue _ _)
  have hlen := congrArg List.length (hkey [])
  simp only [List.append_nil, List.length_cons, List.length_append] at hlen
  cases fields with
  | nil =>
    have hread := ih.value value level (style.gap close ++ '\x7d' :: rest) hvalue (by omega)
      (follows_close style close (Or.inr rfl) rest)
    rw [dumpFields, List.nil_append, hkey, Audit.readMembers]
    simp only [scanString_dumped, Audit.decoded, ok_bind,
      skipBlanks_cons (show isJsonBlank ':' = false by decide), hblank, hread,
      skipBlanks_close style close (show isJsonBlank '\x7d' = false by decide)]
    rfl
  | cons field fields =>
    obtain ⟨name, next⟩ := field
    obtain ⟨hnext, hfields⟩ := hfields
    obtain ⟨blanks, hseparator, hblanks⟩ := exists_separator_eq style level
    rw [dumpFields, hseparator] at hfuel ⊢
    simp only [List.length_cons, List.length_append] at hfuel
    have htail := ih.members name next fields level close rest hnext hfields (by omega)
    have hread :=
      ih.value value level (',' :: (blanks ++ (dumpField repr style level (name, next) ++
      (dumpFields repr style level fields ++ (style.gap close ++ '\x7d' :: rest)))))
        hvalue (by omega)
      (follows_cons (Or.inl rfl) _)
    have hfield : ∀ tail, skipBlanks (dumpField repr style level (name, next) ++ tail) =
        dumpField repr style level (name, next) ++ tail := by
      intro tail
      obtain ⟨body, hbody⟩ := exists_dumpField_eq repr style level name next
      rw [hbody, List.cons_append, skipBlanks_cons (by decide)]
    simp only [List.cons_append, List.append_assoc]
    rw [hkey, Audit.readMembers]
    simp only [scanString_dumped, Audit.decoded, ok_bind,
      skipBlanks_cons (show isJsonBlank ':' = false by decide), hblank, hread,
      skipBlanks_cons (show isJsonBlank ',' = false by decide), skipBlanks_append hblanks, hfield,
      htail]
    rfl

end Step

/-- With enough fuel every dumped value, item and field is read. -/
theorem readsDumped (repr : ℚ → String) (maxDigits : Option ℕ) (style : JsonStyle) (fuel : ℕ) :
    ReadsDumped repr maxDigits style fuel := by
  induction fuel with
  | zero => exact ⟨by simp, by simp, by simp⟩
  | succ fuel ih => exact ⟨ih.value_succ, ih.items_succ, ih.members_succ⟩

end Documents

section Ascii

def IsAscii (text : List Char) : Prop := ∀ c ∈ text, c.toNat < 128

instance : DecidablePred IsAscii := fun text =>
  inferInstanceAs (Decidable (∀ c ∈ text, c.toNat < 128))

/-- A text is ASCII where both parts are. -/
theorem isAscii_append {a b : List Char} : IsAscii (a ++ b) ↔ IsAscii a ∧ IsAscii b :=
  List.forall_mem_append

/-- A text is ASCII where its first character and its rest are. -/
theorem isAscii_cons {c : Char} {text : List Char} :
    IsAscii (c :: text) ↔ c.toNat < 128 ∧ IsAscii text :=
  List.forall_mem_cons

/-- So is every prefix. -/
theorem IsAscii.take {text : List Char} (h : IsAscii text) (n : ℕ) : IsAscii (text.take n) :=
  fun c hc => h c (List.mem_of_mem_take hc)

/-- ASCII bytes are decoded to their text. -/
theorem asciiText_asciiBytes {text : List Char} (h : IsAscii text) :
    asciiText (asciiBytes text) = text := by
  induction text with
  | nil => rfl
  | cons c text ih =>
    obtain ⟨hc, htext⟩ := isAscii_cons.mp h
    have hbyte : (BitVec.ofNat 8 c.toNat).toNat = c.toNat := by
      rw [BitVec.toNat_ofNat]
      omega
    change Char.ofNat (BitVec.ofNat 8 c.toNat).toNat :: asciiText (asciiBytes text) = c :: text
    rw [hbyte, Char.ofNat_toNat, ih htext]

/-- Different ASCII texts have different bytes. -/
theorem asciiBytes_injective {a b : List Char} (ha : IsAscii a) (hb : IsAscii b)
    (h : asciiBytes a = asciiBytes b) : a = b := by
  rw [← asciiText_asciiBytes ha, h, asciiText_asciiBytes hb]

private theorem isAscii_unitEscape (unit : ℕ) (h : unit < 0x10000) : IsAscii (unitEscape unit) := by
  have hdigit : ∀ n < 16, (digit n).toNat < 128 := by decide
  simp only [unitEscape, isAscii_cons]
  exact ⟨by decide, by decide, hdigit _ (by omega), hdigit _ (by omega), hdigit _ (by omega),
    hdigit _ (by omega), by simp [IsAscii]⟩

private theorem isAscii_asciiCharacter (c : Char) : IsAscii (asciiCharacter c) := by
  unfold asciiCharacter
  split
  · rename_i hquote
    rcases hquote with rfl | rfl <;> decide
  · split
    · rename_i letter hletter
      obtain ⟨_, _, hmem, _⟩ := List.lookup_eq_some_iff.mp hletter
      have hnamed : (c, letter) ∈ [('\n', 'n'), ('\r', 'r'), ('\t', 't'), ('\x0c', 'f'),
          ('\x08', 'b')] := by
        rw [hmem]
        exact List.mem_append_right _ List.mem_cons_self
      have hletters : ∀ p ∈ [('\n', 'n'), ('\r', 'r'), ('\t', 't'), ('\x0c', 'f'), ('\x08', 'b')],
          IsAscii ['\\', p.2] := by decide
      exact hletters _ hnamed
    · split
      · rename_i hprint
        exact isAscii_cons.mpr ⟨by omega, by simp [IsAscii]⟩
      · intro d hd
        obtain ⟨unit, hunit, hd⟩ := List.mem_flatMap.mp hd
        exact isAscii_unitEscape unit (utf16Units_lt c unit hunit) d hd

/-- Dumped strings are ASCII. -/
theorem isAscii_dumpString (s : String) : IsAscii (dumpString s) := by
  refine isAscii_cons.mpr ⟨by decide, isAscii_append.mpr ⟨fun c hc => ?_, by simp [IsAscii]⟩⟩
  obtain ⟨d, _, hc⟩ := List.mem_flatMap.mp hc
  exact isAscii_asciiCharacter d c hc

/-- Printed integers are ASCII. -/
theorem isAscii_toString (n : ℤ) : IsAscii (toString n).toList := by
  have hdigits : ∀ k, IsAscii (Nat.toDigits 10 k) := by
    intro k c hc
    have := charIsDigit_iff.mp (isDigit_toDigits k c hc)
    omega
  cases n with
  | ofNat k =>
    rw [toList_toString_ofNat]
    exact hdigits k
  | negSucc k =>
    rw [toList_toString_negSucc]
    exact isAscii_cons.mpr ⟨by decide, hdigits _⟩

private theorem isAscii_gap (style : JsonStyle) (level : ℕ) : IsAscii (style.gap level) := by
  intro c hc
  have hblank := gap_blank style level c hc
  rw [isJsonBlank_iff] at hblank
  rcases hblank with rfl | rfl | rfl | rfl <;> decide

private theorem isAscii_separator (style : JsonStyle) (level : ℕ) :
    IsAscii (style.separator level) := by
  obtain ⟨blanks, hblanks, hall⟩ := exists_separator_eq style level
  rw [hblanks]
  refine isAscii_cons.mpr ⟨by decide, fun c hc => ?_⟩
  rcases isJsonBlank_iff.mp (hall c hc) with rfl | rfl | rfl | rfl <;> decide

/-- What is written is ASCII where the numbers are. -/
theorem isAscii_dumpValue {repr : ℚ → String} (hrepr : ∀ q, IsAscii (repr q).toList)
    (style : JsonStyle) (value : Json) (level : ℕ) :
      IsAscii (dumpValue repr style level value) := by
  refine @Json.rec (fun v => ∀ level, IsAscii (dumpValue repr style level v))
    (fun items => ∀ level, IsAscii (dumpItems repr style level items))
    (fun fields => ∀ level, IsAscii (dumpFields repr style level fields))
    (fun field => ∀ level, IsAscii (dumpField repr style level field))
    (fun _ => by simp [dumpValue, IsAscii]) (fun b _ => by cases b <;> simp [dumpValue, IsAscii])
      (fun n _ => isAscii_toString n)
    (fun x _ => ?_) (fun s _ => isAscii_dumpString s) (fun items ih level => ?_)
    (fun fields ih level => ?_) (fun _ => by simp [dumpItems, IsAscii])
    (fun item items hitem hitems level => ?_) (fun _ => by simp [dumpFields, IsAscii])
    (fun field fields hfield hfields level => ?_) (fun key value hvalue level => ?_) value level
  · cases x with
    | finite q => exact hrepr q
    | infinity negative => cases negative <;> simp [dumpValue, dumpFloat, IsAscii]
    | nan => simp [dumpValue, dumpFloat, IsAscii]
  · cases items with
    | nil => simp [dumpValue, IsAscii]
    | cons item items =>
      have hitems := ih (level + 1)
      rw [dumpItems, isAscii_append, isAscii_append] at hitems
      rw [dumpValue, isAscii_cons]
      simp only [isAscii_append]
      exact ⟨by decide, isAscii_gap style _, hitems.2.1, hitems.2.2, isAscii_gap style _, by decide⟩
  · cases fields with
    | nil => simp [dumpValue, IsAscii]
    | cons field fields =>
      have hfields := ih (level + 1)
      rw [dumpFields, isAscii_append, isAscii_append] at hfields
      rw [dumpValue, isAscii_cons]
      simp only [isAscii_append]
      exact ⟨by decide, isAscii_gap style _, hfields.2.1, hfields.2.2,
        isAscii_gap style _, by decide⟩
  · rw [dumpItems]
    exact isAscii_append.mpr ⟨isAscii_separator style level,
      isAscii_append.mpr ⟨hitem level, hitems level⟩⟩
  · rw [dumpFields]
    exact isAscii_append.mpr ⟨isAscii_separator style level,
      isAscii_append.mpr ⟨hfield level, hfields level⟩⟩
  · rw [dumpField]
    exact isAscii_append.mpr ⟨isAscii_dumpString key,
      isAscii_cons.mpr ⟨by decide, isAscii_cons.mpr ⟨by decide, hvalue level⟩⟩⟩

end Ascii

end RowReduce
