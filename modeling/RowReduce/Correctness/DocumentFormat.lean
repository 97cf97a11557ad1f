import RowReduce.Core.FloatOrder
import RowReduce.Correctness.StrictReader

/-!
# The format of the evidence

What the runner writes both readers read back, whole or not at all, and what the
audit accepts names every member once and means the same to the library's reader.
-/

namespace RowReduce

open BinaryFloat Fallible Hexadecimal

/-- A double is representable. -/
theorem IsDouble.representable {q : ℚ} (h : IsDouble q) : binary64.Representable q :=
  binary64.representable_of_decode h

/-- Every double exactly, zero and one as the interpreter writes them. -/
def exactRepr (q : ℚ) : String :=
  if q = 0 then "0.0" else if q = 1 then "1.0"
  else String.ofList ((toString (q * 10 ^ 1074).num).toList ++ exponentText 1074)

private theorem numeralReads_pointZero {d : Char} {q : ℚ} (hd : d.isDigit = true)
    (hscan : ∀ rest, scanWhole (d :: '.' :: '0' :: rest) = ([d], '.' :: '0' :: rest))
    (hvalue : binary64.decode (binary64.encode (decimalValue [d, '0'] * 10 ^ (-1 : ℤ))) =
      .finite q) :
    NumeralReads [d, '.', '0'] (.float (.finite q)) := by
  refine ⟨⟨d, _, rfl, Or.inl hd⟩, fun rest hrest => ?_⟩
  have hfraction : scanFraction ('.' :: '0' :: rest) = (some ['0'], rest) := by
    have hspan := span_digits_append (l := ['0']) (by decide) hrest.scan.1
    rw [List.singleton_append] at hspan
    simp only [scanFraction, hspan]
    rfl
  rw [List.cons_append, List.cons_append, List.cons_append, List.nil_append, scanNumber_digit hd,
    signedNumber]
  simp only [hscan, hfraction, hrest.scan.2.2]
  rw [if_neg (by simp), if_neg (by simp), ← hvalue]
  norm_num

/-- Enough decimal digits hold a binary fraction. -/
theorem num_mul_ten_pow (n e : ℤ) {k : ℕ} (he : -(k : ℤ) ≤ e) :
    (((n * 2 ^ e * 10 ^ k : ℚ).num : ℤ) : ℚ) * 10 ^ (-(k : ℤ)) = n * 2 ^ e := by
  obtain ⟨j, rfl⟩ : ∃ j : ℕ, e = j - k := ⟨(e + k).toNat, by omega⟩
  have hinteger : (n * 2 ^ ((j : ℤ) - k) * 10 ^ k : ℚ) = ((n * 2 ^ j * 5 ^ k : ℤ) : ℚ) := by
    rw [zpow_sub₀ (by norm_num), zpow_natCast, zpow_natCast, show (10 : ℚ) = 2 * 5 by norm_num,
      mul_pow]
    push_cast
    field_simp
  have hten : (10 : ℚ) ^ k * 10 ^ (-(k : ℤ)) = 1 := by
    rw [zpow_neg, zpow_natCast]
    exact mul_inv_cancel₀ (pow_ne_zero k (by norm_num))
  have hnum := congrArg Rat.num hinteger
  rw [Rat.num_intCast] at hnum
  rw [hnum, ← hinteger, mul_assoc, hten, mul_one]

/-- Every double reads back from its exact numeral. -/
theorem exactRepr_reads {q : ℚ} (h : IsDouble q) :
    NumeralReads (exactRepr q).toList (.float (.finite q)) := by
  unfold exactRepr
  split_ifs with hzero hone
  · subst hzero
    exact numeralReads_pointZero rfl (fun _ => rfl) (by decide +kernel)
  · subst hone
    exact numeralReads_pointZero rfl (fun _ => rfl) (by decide +kernel)
  · obtain ⟨n, e, _, he, rfl⟩ := h.representable
    have hmin : -((1074 : ℕ) : ℤ) ≤ e := by
      have hexponent : binary64.minExponent = -1074 := by decide
      omega
    have hreads := numeralReads_exponentText (n * 2 ^ e * 10 ^ 1074 : ℚ).num 1074
    rw [num_mul_ten_pow n e hmin, h] at hreads
    rwa [String.toList_ofList]

/-- That numeral is plain text. -/
theorem exactRepr_ascii (q : ℚ) : IsAscii (exactRepr q).toList := by
  unfold exactRepr
  split_ifs
  · decide
  · decide
  · rw [String.toList_ofList, isAscii_append]
    refine ⟨isAscii_toString _, ?_⟩
    rw [exponentText, isAscii_cons, isAscii_cons]
    refine ⟨by decide, by decide, fun c hc => ?_⟩
    have := charIsDigit_iff.mp (isDigit_toDigits _ c hc)
    omega

section Written

variable {repr : ℚ → String} {maxDigits : Option ℕ} {value : Json}

/-- A written object or array is read back by both readers; interrupted before its last
bracket it is read by neither. -/
theorem dumps_readBack (style : JsonStyle) (h : value.Dumpable repr maxDigits)
    (hvalue : (∃ items, value = .list items) ∨ ∃ fields, value = .dict fields) :
    Audit.loads maxDigits (String.ofList (dumpValue repr style 0 value ++ ['\n'])) = .ok value ∧
      jsonLoads maxDigits (String.ofList (dumpValue repr style 0 value ++ ['\n'])) = some value ∧
      ∀ cut, cut <+: dumpValue repr style 0 value ++ ['\n'] → ∀ v,
        jsonLoads maxDigits (String.ofList cut) = some v ∨
          Audit.loads maxDigits (String.ofList cut) = .ok v →
          v = value ∧ dumpValue repr style 0 value <+: cut := by
  refine ⟨loads_dumpValue style h (by decide), jsonLoads_dumpValue style h (by decide),
    fun cut hcut v hread => ?_⟩
  exact jsonLoads_interrupted style h hvalue (by decide) hcut (hread.elim id jsonLoads_of_loads)

/-- The fields of a record line that are no text. -/
def sampleRecord : Json :=
  .dict [("status", .str "pass"), ("wall_seconds", .float (.finite 1)), ("nodes", .int 1)]

private theorem sampleRecord_dumpable : sampleRecord.Dumpable exactRepr (some 4300) := by
  rw [sampleRecord, Json.Dumpable, fieldsDumpable_iff]
  refine ⟨by simp, ?_⟩
  simp only [List.forall_mem_cons, List.not_mem_nil, false_imp_iff, implies_true, and_true]
  refine ⟨by simp [Json.Dumpable.eq_def], ?_, ?_⟩
  · rw [Json.Dumpable]
    exact ⟨1, rfl, exactRepr_reads (by rw [IsDouble]; decide +kernel)⟩
  · rw [Json.Dumpable]
    intro digits hdigits
    rw [← Option.some.inj hdigits]
    exact_mod_cast one_lt_pow₀ (by norm_num : (1 : ℤ) < 10) (by norm_num)

/-- The sample is read back. -/
theorem dumps_readBack_sample :
    jsonLoads (some 4300) (String.ofList (dumpValue exactRepr {} 0 sampleRecord ++ ['\n'])) =
      some sampleRecord :=
  (dumps_readBack {} sampleRecord_dumpable (Or.inr ⟨_, rfl⟩)).2.1

end Written

section Accepted

variable (maxDigits : Option ℕ)

mutual

/-- Members are named once, at every depth, and integers stay below the bound. -/
def Json.Strict : Json → Prop
  | .int n => ∀ digits, maxDigits = some digits → |n| < 10 ^ digits
  | .list items => ItemsStrict items
  | .dict fields => (fields.map Prod.fst).Nodup ∧ FieldsStrict fields
  | _ => True

def ItemsStrict : List Json → Prop
  | [] => True
  | item :: items => item.Strict ∧ ItemsStrict items

def FieldStrict : String × Json → Prop
  | (_, value) => value.Strict

def FieldsStrict : List (String × Json) → Prop
  | [] => True
  | field :: fields => FieldStrict field ∧ FieldsStrict fields

end

variable {maxDigits} {value : Json}

/-- A numeral is an integer or a float. -/
theorem scanNumber_value {text rest : List Char} (h : scanNumber text = some (value, rest)) :
    (∃ n, value = .int n) ∨ ∃ x, value = .float x := by
  have hsigned : ∀ {sign : ℤ} {text : List Char}, signedNumber sign text = some (value, rest) →
      (∃ n, value = .int n) ∨ ∃ x, value = .float x := by
    intro sign text h
    unfold signedNumber at h
    dsimp only at h
    split_ifs at h
    · exact Or.inl ⟨_, (Prod.mk.inj (Option.some.inj h)).1.symm⟩
    · exact Or.inr ⟨_, (Prod.mk.inj (Option.some.inj h)).1.symm⟩
  rcases scanNumber_cases text with ⟨_, _, hscan⟩ | ⟨_, hscan⟩ <;>
    exact hsigned (hscan.symm.trans h)

/-- With few digits it is a strict value. -/
theorem strict_of_scanNumber {text rest : List Char} (h : scanNumber text = some (value, rest))
    (hwithin : withinDigits maxDigits value = true) : value.Strict maxDigits := by
  rcases scanNumber_value h with ⟨n, rfl⟩ | ⟨x, rfl⟩
  · rw [Json.Strict]
    exact withinDigits_int_iff.mp hwithin
  · rw [Json.Strict.eq_def]
    trivial

/-- What the strict reader takes is strict. -/
theorem strict_of_read (fuel : ℕ) :
    (∀ text value rest, StrictValue maxDigits fuel text value rest → value.Strict maxDigits) ∧
    (∀ text items rest, StrictItems maxDigits fuel text items rest → ItemsStrict maxDigits items) ∧
    (∀ text members rest, StrictMembers maxDigits fuel text members rest →
      FieldsStrict maxDigits members) := by
  induction fuel with
  | zero => refine ⟨?_, ?_, ?_⟩ <;> intro _ _ _ h <;> cases h
  | succ fuel ih =>
    obtain ⟨hvalue, hitems, hmembers⟩ := ih
    refine ⟨fun text value rest hread => ?_, fun text items rest hread => ?_,
      fun text members rest hread => ?_⟩
    · cases hread.step with
      | string _ => rw [Json.Strict.eq_def]; trivial
      | emptyObject _ => rw [Json.Strict]; exact ⟨List.nodup_nil, trivial⟩
      | object _ h hobject =>
        obtain ⟨hnodup, rfl⟩ := nodup_of_uniqueObject hobject
        rw [Json.Strict]
        exact ⟨hnodup, hmembers _ _ _ h⟩
      | emptyList _ => rw [Json.Strict]; trivial
      | list _ h => rw [Json.Strict]; exact hitems _ _ _ h
      | word w h =>
        have hwords : ∀ p ∈ literals, p.2.Strict maxDigits := by
          simp [literals, Json.Strict.eq_def]
        exact hwords _ h
      | number _ h hdigits => exact strict_of_scanNumber h hdigits
    · cases hread.step with
      | last h _ => exact ⟨hvalue _ _ _ h, trivial⟩
      | next h _ htail => exact ⟨hvalue _ _ _ h, hitems _ _ _ htail⟩
    · cases hread.step with
      | last _ _ h _ => exact ⟨hvalue _ _ _ h, trivial⟩
      | next _ _ h _ htail => exact ⟨hvalue _ _ _ h, hmembers _ _ _ htail⟩

/-- What the audit accepts as a document names every member once, and the library's reader takes it
with the same value. -/
theorem loads_strict {text : String} (h : Audit.loads maxDigits text = .ok value) :
    jsonLoads maxDigits text = some value ∧ value.Strict maxDigits := by
  refine ⟨jsonLoads_of_loads h, ?_⟩
  rw [Audit.loads] at h
  split_ifs at h with hbom
  rw [bind_eq_ok_iff] at h
  obtain ⟨⟨v, rest⟩, hread, hv⟩ := h
  dsimp only at hv
  split_ifs at hv with hblank
  obtain rfl := Except.ok.inj hv
  exact (strict_of_read _).1 _ _ _ hread

/-- The sample is a strict value. -/
theorem loads_strict_sample :
    jsonLoads (some 4300) (String.ofList (dumpValue exactRepr {} 0 sampleRecord ++ ['\n'])) =
      some sampleRecord ∧
      sampleRecord.Strict (some 4300) :=
  loads_strict (loads_dumpValue {} sampleRecord_dumpable (by decide))

end Accepted

end RowReduce
