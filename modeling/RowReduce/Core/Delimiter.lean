import Mathlib.Data.List.Infix
import Mathlib.Tactic.Cases

/-!
# The first occurrence of a delimiter

Text that ends at the first occurrence of a delimiter is read back exactly when
the delimiter occurs neither in the text nor across its end.
-/

namespace Delimiter

variable {α : Type} [DecidableEq α] {word a b : List α}

/-- The entries before the first occurrence of a word, and those after it. -/
def splitFirst (word : List α) : List α → Option (List α × List α)
  | [] => none
  | x :: xs =>
    if word <+: x :: xs then some ([], (x :: xs).drop word.length)
    else (splitFirst word xs).map fun r => (x :: r.1, r.2)

omit [DecidableEq α] in
/-- After a nonempty start, a word that begins the list begins before its last entry is needed. -/
theorem prefix_append_dropLast_iff (ha : a ≠ []) (hne : word ≠ []) :
    word <+: a ++ word.dropLast ↔ word <+: a ++ word ++ b := by
  have hstart : a ++ word.dropLast <+: a ++ word ++ b := by
    rw [List.append_assoc, List.prefix_append_right_inj]
    exact (List.dropLast_prefix word).trans (List.prefix_append word b)
  have hlength : word.length ≤ (a ++ word.dropLast).length := by
    have h1 := List.length_pos_iff.mpr ha
    have h2 := List.length_pos_iff.mpr hne
    rw [List.length_append, List.length_dropLast]
    omega
  exact ⟨fun h => h.trans hstart, fun h => List.prefix_of_prefix_length_le h hstart hlength⟩

/-- The split is at the occurrence that no earlier one overlaps. -/
theorem splitFirst_eq_some_iff (hne : word ≠ []) {xs : List α} :
    splitFirst word xs = some (a, b) ↔ xs = a ++ word ++ b ∧ ¬word <:+: a ++ word.dropLast := by
  induction xs generalizing a with
  | nil =>
    simp only [splitFirst, reduceCtorEq, false_iff]
    rintro ⟨h, -⟩
    simp [hne] at h
  | cons x xs ih =>
    rw [splitFirst]
    split_ifs with hprefix
    · constructor
      · intro h
        obtain ⟨rfl, rfl⟩ := Prod.mk.inj (Option.some.inj h)
        refine ⟨List.prefix_iff_eq_append.mp hprefix |>.symm, fun hin => ?_⟩
        have hlength := hin.length_le
        have hpos := List.length_pos_iff.mpr hne
        rw [List.nil_append, List.length_dropLast] at hlength
        omega
      · rintro ⟨h, hfirst⟩
        cases a with
        | nil =>
          rw [h, List.nil_append, List.drop_left]
        | cons y a =>
          rw [h] at hprefix
          exact absurd ((prefix_append_dropLast_iff (List.cons_ne_nil y a) hne).mpr hprefix).isInfix
            hfirst
    · constructor
      · intro h
        obtain ⟨⟨a', b'⟩, hsplit, hpair⟩ := Option.map_eq_some_iff.mp h
        obtain ⟨rfl, rfl⟩ := Prod.mk.inj hpair
        obtain ⟨rfl, hfirst⟩ := ih.mp hsplit
        refine ⟨rfl, fun hin => ?_⟩
        rw [List.cons_append, List.infix_cons_iff] at hin
        refine hin.elim (fun hp => hprefix ?_) hfirst
        exact (prefix_append_dropLast_iff (List.cons_ne_nil x a') hne).mp hp
      · rintro ⟨h, hfirst⟩
        cases a with
        | nil => exact absurd (h ▸ List.prefix_append word b) hprefix
        | cons y a =>
          obtain ⟨rfl, rfl⟩ := List.cons.inj h
          rw [List.cons_append, List.infix_cons_iff, not_or] at hfirst
          rw [ih.mpr ⟨rfl, hfirst.2⟩]
          rfl

/-- Text before a delimiter is read back unless the delimiter occurs in it or across its end. -/
theorem splitFirst_append_iff (hne : word ≠ []) :
    splitFirst word (a ++ word ++ b) = some (a, b) ↔ ¬word <:+: a ++ word.dropLast := by
  rw [splitFirst_eq_some_iff hne]
  exact and_iff_right rfl

omit [DecidableEq α] in
/-- A word whose first entry returns only at its end overlaps a text in all but that entry. -/
theorem infix_append_dropLast_iff {x : α} {mid : List α} (hx : x ∉ mid) {text : List α} :
    x :: (mid ++ [x]) <:+: text ++ (x :: mid) ↔
      x :: (mid ++ [x]) <:+: text ∨ x :: mid <:+ text := by
  constructor
  · rintro ⟨s, t, h⟩
    have hsplit : (s ++ x :: mid) ++ x :: t = text ++ x :: mid := by
      rw [← h]
      simp
    rcases List.append_eq_append_iff.mp hsplit with ⟨r, htext, hrest⟩ | ⟨r, hstart, hrest⟩
    · cases r with
      | nil =>
        rw [List.append_nil] at htext
        exact .inr ⟨s, htext.symm⟩
      | cons y r =>
        obtain ⟨rfl, -⟩ := List.cons.inj hrest
        exact .inl ⟨s, r, by rw [htext]; simp⟩
    · cases r with
      | nil =>
        rw [List.append_nil] at hstart
        exact .inr ⟨s, hstart⟩
      | cons y r =>
        obtain ⟨-, hmid⟩ := List.cons.inj hrest
        exact absurd (hmid ▸ List.mem_append_right r List.mem_cons_self) hx
  · rintro (h | ⟨s, rfl⟩)
    · exact List.infix_append_of_infix_left h
    · exact ⟨s, mid, by simp⟩

end Delimiter
