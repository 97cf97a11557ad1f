import RowReduce.Host.Emit
import RowReduce.Runner.RunCase

/-!
# Lines of printed text

Escaping leaves three line boundaries of the recorder as they are and removes
all others, so a printed string stays on its line unless it holds one of them.
-/

namespace RowReduce

/-- A line boundary of the recorder that the host prints as it stands. -/
def separates (c : Char) : Bool := c == '\u0085' || c == '\u2028' || c == '\u2029'

/-- A property that the frame of an escape has, every digit, and the character itself when kept. -/
theorem forall_mem_jsonCharacter {P : Char → Prop} {c : Char}
    (hframe : ∀ b ∈ ['\\', 'u', '0'], P b) (hdigit : ∀ n < 16, P (Hexadecimal.digit n))
    (hc : 32 ≤ c.toNat → P c) : ∀ b ∈ jsonCharacter c, P b := by
  simp only [List.forall_mem_cons] at hframe
  unfold jsonCharacter
  split_ifs with hescape hcontrol
  · have hprinted : 32 ≤ c.toNat := by
      rcases hescape with rfl | rfl <;> decide
    simp [hframe.1, hc hprinted]
  · simp only [List.forall_mem_cons]
    exact ⟨hframe.1, hframe.2.1, hframe.2.2.1, hframe.2.2.1, hdigit _ (by omega),
      hdigit _ (by omega), by simp⟩
  · simpa using hc (by omega)

/-- Every character is printed as something. -/
theorem jsonCharacter_ne_nil (c : Char) : jsonCharacter c ≠ [] := by
  unfold jsonCharacter
  split_ifs <;> simp

/-- A class of characters without the separators. -/
theorem separates_eq_false {P : Char → Bool}
    (h : ∀ d ∈ ['\u0085', '\u2028', '\u2029'], P d = false) {c : Char} (hc : P c = true) :
    separates c = false := by
  rw [← Bool.not_eq_true]
  intro hseparates
  simp only [separates, Bool.or_eq_true, beq_iff_eq] at hseparates
  have hfalse := h c (by rcases hseparates with (rfl | rfl) | rfl <;> simp)
  rw [hc] at hfalse
  cases hfalse

/-- A separator outside the escapes is printed as it stands. -/
theorem jsonCharacter_separator {c : Char} (hc : separates c = true) : jsonCharacter c = [c] := by
  simp only [separates, Bool.or_eq_true, beq_iff_eq] at hc
  rcases hc with (rfl | rfl) | rfl <;> decide

/-- A separator ends a line and is no carriage return. -/
theorem isLineBoundary_of_separates {c : Char} (hc : separates c = true) :
    isLineBoundary c = true ∧ c ≠ '\r' := by
  simp only [separates, Bool.or_eq_true, beq_iff_eq] at hc
  rcases hc with (rfl | rfl) | rfl <;> decide

/-- A printed character ends a line only when it is a separator. -/
theorem isLineBoundary_of_mem_jsonCharacter {c : Char} (hc : separates c = false) :
    ∀ b ∈ jsonCharacter c, isLineBoundary b = false := by
  refine forall_mem_jsonCharacter (by decide) (by decide) fun hprinted => ?_
  simp only [separates, Bool.or_eq_false_iff, beq_eq_false_iff_ne] at hc
  have hcontrol : ∀ d ∈ ['\n', '\r', '\x0b', '\x0c', '\x1c', '\x1d', '\x1e'], c ≠ d := by
    rintro d hd rfl
    have hsmall : ∀ d ∈ ['\n', '\r', '\x0b', '\x0c', '\x1c', '\x1d', '\x1e'], d.toNat < 32 := by
      decide
    exact absurd (hsmall c hd) (not_lt.mpr hprinted)
  simp only [List.forall_mem_cons] at hcontrol
  simp [isLineBoundary, hc, hcontrol]

/-- Escaped texts without separators stay on one line. -/
theorem isLineBoundary_of_mem_flatMap {text : List Char}
    (h : ∀ c ∈ text, separates c = false) :
    ∀ b ∈ text.flatMap jsonCharacter, isLineBoundary b = false := by
  intro b hb
  obtain ⟨c, hc, hb⟩ := List.mem_flatMap.mp hb
  exact isLineBoundary_of_mem_jsonCharacter (h c hc) b hb

end RowReduce
