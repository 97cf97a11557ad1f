import Mathlib.Tactic

/-!
# Words over an alphabet inside longer lists

A nonempty word whose letters all satisfy a predicate lies inside a list exactly
when it lies between two of the other entries. Escaping that only touches the
other entries therefore neither hides nor creates an occurrence.
-/

namespace Infix

variable {α : Type} {p : α → Prop} {word xs ys : List α} {c : α}

/-- A separator ends every prefix over the alphabet. -/
theorem prefix_append_cons_iff (hword : ∀ a ∈ word, p a) (hc : ¬p c) :
    word <+: xs ++ c :: ys ↔ word <+: xs := by
  induction xs generalizing word with
  | nil =>
    cases word with
    | nil => simp
    | cons a word =>
      have hne : a ≠ c := fun h => hc (h ▸ hword a List.mem_cons_self)
      simp [List.cons_prefix_cons, hne]
  | cons x xs ih =>
    cases word with
    | nil => simp
    | cons a word =>
      rw [List.cons_append, List.cons_prefix_cons, List.cons_prefix_cons,
        ih fun b hb => hword b (List.mem_cons_of_mem _ hb)]

/-- A word over the alphabet lies on one side of a separator. -/
theorem infix_append_cons_iff (hne : word ≠ []) (hword : ∀ a ∈ word, p a) (hc : ¬p c) :
    word <:+: xs ++ c :: ys ↔ word <:+: xs ∨ word <:+: ys := by
  induction xs with
  | nil =>
    have hmarker : ¬word <+: c :: ys := by
      have h := @prefix_append_cons_iff _ _ _ [] ys _ hword hc
      rw [List.nil_append, List.prefix_nil] at h
      exact fun hp => hne (h.mp hp)
    rw [List.nil_append, List.infix_cons_iff, List.infix_nil]
    simp [hmarker, hne]
  | cons x xs ih =>
    rw [List.cons_append, List.infix_cons_iff, List.infix_cons_iff, ih, ← List.cons_append,
      prefix_append_cons_iff hword hc, or_assoc]

/-- Separators in front hold no part of a word. -/
theorem infix_append_of_forall_not (hne : word ≠ []) (hword : ∀ a ∈ word, p a)
    (hxs : ∀ a ∈ xs, ¬p a) : word <:+: xs ++ ys ↔ word <:+: ys := by
  induction xs with
  | nil => rfl
  | cons x xs ih =>
    rw [List.cons_append, ← List.nil_append (x :: (xs ++ ys)),
      infix_append_cons_iff hne hword (hxs x List.mem_cons_self), List.infix_nil,
      ih fun a ha => hxs a (List.mem_cons_of_mem _ ha)]
    simp [hne]

section Escape

variable {escape : α → List α} (hkeep : ∀ a, p a → escape a = [a])
  (hother : ∀ a, ¬p a → escape a ≠ [] ∧ ∀ b ∈ escape a, ¬p b)

include hkeep hother

private theorem prefix_flatMap_iff (hword : ∀ a ∈ word, p a) :
    word <+: xs.flatMap escape ↔ word <+: xs := by
  induction xs generalizing word with
  | nil => rfl
  | cons x xs ih =>
    cases word with
    | nil => simp
    | cons a word =>
      rw [List.flatMap_cons, List.cons_prefix_cons]
      by_cases hx : p x
      · rw [hkeep x hx, List.singleton_append, List.cons_prefix_cons,
          ih fun b hb => hword b (List.mem_cons_of_mem _ hb)]
      · obtain ⟨hnil, hescape⟩ := hother x hx
        have hax : a ≠ x := fun h => hx (h ▸ hword a List.mem_cons_self)
        obtain ⟨b, l, hl⟩ := List.exists_cons_of_ne_nil hnil
        have hab : a ≠ b := fun h =>
          hescape b (hl ▸ List.mem_cons_self) (h ▸ hword a List.mem_cons_self)
        rw [hl, List.cons_append, List.cons_prefix_cons]
        simp [hax, hab]

/-- Escaping the other entries keeps the occurrences of a word. -/
theorem infix_flatMap_iff (hne : word ≠ []) (hword : ∀ a ∈ word, p a) :
    word <:+: xs.flatMap escape ↔ word <:+: xs := by
  induction xs with
  | nil => rfl
  | cons x xs ih =>
    have hmarker := @prefix_flatMap_iff _ _ _ (x :: xs) _ hkeep hother hword
    rw [List.flatMap_cons] at hmarker ⊢
    by_cases hx : p x
    · rw [hkeep x hx, List.singleton_append] at hmarker ⊢
      rw [List.infix_cons_iff, List.infix_cons_iff, ih, hmarker]
    · have hcons : ¬word <+: x :: xs := by
        intro h
        have hnil := (@prefix_append_cons_iff _ _ _ [] xs _ hword hx).mp h
        exact hne (List.prefix_nil.mp hnil)
      rw [infix_append_of_forall_not hne hword (hother x hx).2, ih, List.infix_cons_iff]
      simp [hcons]

end Escape

end Infix
