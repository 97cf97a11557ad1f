import Mathlib.Tactic

/-!
# Hexadecimal text and little-endian bytes

Lower-case hexadecimal output, and input that accepts either case and skips
blanks between bytes. Sixteen-bit words travel as two bytes, low byte first.
Decimal digits are read as they are on every side.
-/

namespace Hexadecimal

abbrev Byte := BitVec 8

/-- A property of the characters of a text is decided along the text. -/
instance decidableForallMem {P : Char → Prop} [DecidablePred P] (text : List Char) :
    Decidable (∀ c ∈ text, P c) :=
  List.decidableBAll P text

/-- The lower-case digit of a value below sixteen. -/
def digit (n : ℕ) : Char := "0123456789abcdef".toList.getD n '0'

def digitValue (c : Char) : Option ℕ :=
  if '0' ≤ c ∧ c ≤ '9' then some (c.toNat - '0'.toNat)
  else if 'a' ≤ c ∧ c ≤ 'f' then some (c.toNat - 'a'.toNat + 10)
  else if 'A' ≤ c ∧ c ≤ 'F' then some (c.toNat - 'A'.toNat + 10)
  else none

/-- The value of decimal digits. -/
def decimalValue (digits : List Char) : ℕ :=
  digits.foldl (fun n c => 10 * n + (c.toNat - '0'.toNat)) 0

/-- The decimal digits of a number have its value. -/
theorem decimalValue_toDigits (n : ℕ) : decimalValue (Nat.toDigits 10 n) = n := by
  rw [decimalValue, ← Nat.ofDigitChars_eq_foldl, Nat.ofDigitChars_ten_toDigits]

def isDigit (c : Char) : Bool := (digitValue c).isSome

/-- The blanks of ASCII. -/
def isSpace (c : Char) : Bool :=
  c == ' ' || c == '\t' || c == '\n' || c == '\x0b' || c == '\x0c' || c == '\r'

def encodeByte (b : Byte) : List Char := [digit (b.toNat / 16), digit (b.toNat % 16)]

def encode (bytes : List Byte) : List Char := bytes.flatMap encodeByte

/-- Digit pairs with blanks allowed before, between and after them. -/
def decode : List Char → Option (List Byte)
  | [] => some []
  | [c] => if isSpace c then some [] else none
  | c :: d :: rest =>
    if isSpace c then decode (d :: rest)
    else match digitValue c, digitValue d with
      | some high, some low => (decode rest).map (BitVec.ofNat 8 (16 * high + low) :: ·)
      | _, _ => none

/-- The two bytes of a word, low byte first. -/
def wordBytes (w : BitVec 16) : List Byte := [w.setWidth 8, (w >>> 8).setWidth 8]

/-- The word of two bytes, low byte first. -/
def bytesWord (low high : Byte) : BitVec 16 := high ++ low

/-- A digit has its value. -/
theorem digitValue_digit {n : ℕ} (h : n < 16) : digitValue (digit n) = some n := by
  interval_cases n <;> rfl

private theorem isDigit_digit {n : ℕ} (h : n < 16) : isDigit (digit n) = true := by
  rw [isDigit, digitValue_digit h]
  rfl

/-- No blank is a digit. -/
theorem isSpace_of_isDigit {c : Char} (h : isDigit c = true) : isSpace c = false := by
  by_contra hs
  rw [Bool.not_eq_false, isSpace] at hs
  simp only [Bool.or_eq_true, beq_iff_eq] at hs
  rcases hs with ((((rfl | rfl) | rfl) | rfl) | rfl) | rfl <;> exact absurd h (by decide)

private theorem byte_eq_digits (b : Byte) :
    BitVec.ofNat 8 (16 * (b.toNat / 16) + b.toNat % 16) = b := by
  rw [Nat.div_add_mod, BitVec.ofNat_toNat, BitVec.setWidth_eq]

/-- Two digits in front of a text decode to their byte. -/
theorem decode_cons_cons {c d : Char} {rest : List Char} {high low : ℕ}
    (hc : digitValue c = some high) (hd : digitValue d = some low) :
    decode (c :: d :: rest) = (decode rest).map (BitVec.ofNat 8 (16 * high + low) :: ·) := by
  have hs : isSpace c = false := isSpace_of_isDigit (by rw [isDigit, hc]; rfl)
  rw [decode, hs, hc, hd]
  rfl

private theorem decode_encodeByte_append (b : Byte) (rest : List Char) :
    decode (encodeByte b ++ rest) = (decode rest).map (b :: ·) := by
  have hb := b.isLt
  have h := @decode_cons_cons _ _ rest _ _
    (digitValue_digit (show b.toNat / 16 < 16 by omega))
    (digitValue_digit (show b.toNat % 16 < 16 by omega))
  rwa [byte_eq_digits] at h

/-- Encoded bytes decode to themselves. -/
theorem decode_encode (bytes : List Byte) : decode (encode bytes) = some bytes := by
  induction bytes with
  | nil => rfl
  | cons b bytes ih =>
    rw [encode, List.flatMap_cons, decode_encodeByte_append]
    exact congrArg (Option.map (b :: ·)) ih

/-- Different bytes have different digits. -/
theorem encode_injective : Function.Injective encode := fun bytes bytes' h =>
  Option.some.inj
    ((decode_encode bytes).symm.trans ((congrArg decode h).trans (decode_encode bytes')))

/-- Two digits for each byte. -/
@[simp] theorem length_encode (bytes : List Byte) : (encode bytes).length = 2 * bytes.length := by
  induction bytes with
  | nil => rfl
  | cons b bytes ih =>
    rw [encode, List.flatMap_cons, List.length_append]
    change 2 + (encode bytes).length = _
    rw [ih, List.length_cons]
    omega

/-- Encoded bytes are digits only. -/
theorem isDigit_encode {bytes : List Byte} {c : Char} (h : c ∈ encode bytes) :
    isDigit c = true := by
  obtain ⟨b, _, hc⟩ := List.mem_flatMap.mp h
  have hb := b.isLt
  simp only [encodeByte, List.mem_cons, List.not_mem_nil, or_false] at hc
  rcases hc with rfl | rfl
  · exact isDigit_digit (by omega)
  · exact isDigit_digit (by omega)

/-- An even number of digits decodes to half as many bytes. -/
theorem decode_of_isDigit : ∀ {n : ℕ} {text : List Char}, (∀ c ∈ text, isDigit c = true) →
    text.length = 2 * n → ∃ bytes, decode text = some bytes ∧ bytes.length = n
  | 0, text, _, hlen => ⟨[], by rw [List.length_eq_zero_iff.mp hlen]; rfl, rfl⟩
  | n + 1, c :: d :: rest, hdigit, hlen => by
    obtain ⟨high, hc⟩ := Option.isSome_iff_exists.mp (hdigit c (by simp))
    obtain ⟨low, hd⟩ := Option.isSome_iff_exists.mp (hdigit d (by simp))
    have hrest : ∀ c ∈ rest, isDigit c = true := fun c hc => hdigit c (by simp [hc])
    obtain ⟨bytes, hb, hn⟩ := decode_of_isDigit hrest
      (show rest.length = 2 * n by simp only [List.length_cons] at hlen; omega)
    exact ⟨_, by rw [decode_cons_cons hc hd, hb]; rfl, by simp [hn]⟩

/-- A text without blanks that decodes consists of digits. -/
theorem isDigit_of_decode : ∀ {text : List Char} {bytes : List Byte}, decode text = some bytes →
    (∀ c ∈ text, isSpace c = false) → ∀ c ∈ text, isDigit c = true
  | [], _, _, _ => by simp
  | [c], _, h, hspace => by
    rw [decode, hspace c (by simp)] at h
    cases h
  | c :: d :: rest, bytes, h, hspace => by
    rw [decode, hspace c (by simp)] at h
    cases hhigh : digitValue c with
    | none => simp [hhigh] at h
    | some high =>
      cases hlow : digitValue d with
      | none => simp [hhigh, hlow] at h
      | some low =>
        rw [hhigh, hlow] at h
        obtain ⟨tail, htail, _⟩ := Option.map_eq_some_iff.mp h
        have hrest := isDigit_of_decode htail fun c hc => hspace c (by simp [hc])
        simp only [List.mem_cons, forall_eq_or_imp]
        exact ⟨by rw [isDigit, hhigh]; rfl, by rw [isDigit, hlow]; rfl, hrest⟩

/-- Blanks decode to nothing. -/
theorem decode_replicate_blank : ∀ n, decode (List.replicate n ' ') = some []
  | 0 => rfl
  | 1 => rfl
  | n + 2 => by
    rw [List.replicate_succ, List.replicate_succ, decode, if_pos (by decide),
      ← List.replicate_succ, decode_replicate_blank (n + 1)]

/-- A word is made of its own bytes. -/
theorem bytesWord_wordBytes (w : BitVec 16) :
    bytesWord (w.setWidth 8) ((w >>> 8).setWidth 8) = w := by
  apply BitVec.eq_of_toNat_eq
  have := w.isLt
  simp only [bytesWord, BitVec.toNat_append, BitVec.toNat_setWidth, BitVec.toNat_ushiftRight,
    Nat.shiftRight_eq_div_pow]
  rw [← Nat.shiftLeft_add_eq_or_of_lt (by omega), Nat.shiftLeft_eq]
  omega

/-- The low byte comes first. -/
theorem toNat_bytesWord (low high : Byte) :
    (bytesWord low high).toNat = low.toNat + 256 * high.toNat := by
  have := low.isLt
  rw [bytesWord, BitVec.toNat_append, ← Nat.shiftLeft_add_eq_or_of_lt this, Nat.shiftLeft_eq]
  omega

/-- The bytes of a word made of two. -/
theorem wordBytes_bytesWord (low high : Byte) : wordBytes (bytesWord low high) = [low, high] := by
  have h1 := low.isLt
  have h2 := high.isLt
  simp only [wordBytes, List.cons.injEq, and_true]
  constructor <;> apply BitVec.eq_of_toNat_eq <;>
    simp only [BitVec.toNat_setWidth, BitVec.toNat_ushiftRight, toNat_bytesWord,
      Nat.shiftRight_eq_div_pow] <;> omega

end Hexadecimal
