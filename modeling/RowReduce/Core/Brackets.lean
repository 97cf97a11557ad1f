import Mathlib.Data.List.Lemmas
import Mathlib.Data.List.Perm.Basic
import Mathlib.Logic.Function.Basic
import Mathlib.Tactic.Cases

/-!
# Balanced brackets, one word per key

A grammar of balanced words that lists the matched pairs, the stack that
recognises it, and the stacks that read the words of many keys from one
interleaved sequence.
-/

namespace Brackets

variable {α κ : Type} (fits : α → α → Prop)

/-- An opening or closing bracket, with what it carries. -/
inductive Bracket (α : Type) where
  | opens (a : α)
  | closes (a : α)

def Bracket.opener? : Bracket α → Option α
  | .opens a => some a
  | .closes _ => none

def Bracket.closer? : Bracket α → Option α
  | .opens _ => none
  | .closes a => some a

/-- A balanced word whose matched brackets fit, with the pairs in the order of their ends. -/
inductive Balanced : List (Bracket α) → List (α × α) → Prop where
  | nil : Balanced [] []
  | nest {a b : α} {inner rest : List (Bracket α)} {pairs pairs' : List (α × α)} :
      Balanced inner pairs → fits a b → Balanced rest pairs' →
      Balanced (.opens a :: (inner ++ .closes b :: rest)) (pairs ++ (a, b) :: pairs')

variable {fits} in
/-- Every opening bracket lies in one pair, and the pairs list the closing brackets. -/
theorem Balanced.pairs {word : List (Bracket α)} {pairs : List (α × α)}
    (h : Balanced fits word pairs) :
    (pairs.map Prod.fst).Perm (word.filterMap Bracket.opener?) ∧
      pairs.map Prod.snd = word.filterMap Bracket.closer? := by
  induction h with
  | nil => exact ⟨.nil, rfl⟩
  | @nest a b inner rest pairs pairs' _ _ _ ihInner ihRest =>
    constructor
    · have hmiddle : ((pairs ++ (a, b) :: pairs').map Prod.fst).Perm
          (a :: (pairs.map Prod.fst ++ pairs'.map Prod.fst)) := by
        rw [List.map_append, List.map_cons]
        exact List.perm_middle
      refine hmiddle.trans ?_
      simp only [List.filterMap_cons, List.filterMap_append, Bracket.opener?]
      exact (ihInner.1.append ihRest.1).cons a
    · simp only [List.filterMap_cons, List.filterMap_append, Bracket.closer?, List.map_append,
        List.map_cons, ihInner.2, ihRest.2]

section Stack

variable [DecidableRel fits]

/-- What a stack of open brackets is left with, and the pairs it closes. -/
def scan : List α → List (Bracket α) → Option (List α × List (α × α))
  | stack, [] => some (stack, [])
  | stack, .opens a :: word => scan (a :: stack) word
  | [], .closes _ :: _ => none
  | a :: stack, .closes b :: word =>
    if fits a b then (scan stack word).map fun r => (r.1, (a, b) :: r.2) else none

variable {fits}

/-- A balanced word is read without touching the stack. -/
theorem Balanced.scan_append {word : List (Bracket α)} {pairs : List (α × α)}
    (h : Balanced fits word pairs) (stack : List α) (rest : List (Bracket α)) :
    scan fits stack (word ++ rest) = (scan fits stack rest).map fun r => (r.1, pairs ++ r.2) := by
  induction h generalizing stack rest with
  | nil =>
    rw [List.nil_append]
    cases scan fits stack rest <;> rfl
  | nest _ hfits _ ihInner ihRest =>
    rw [List.cons_append, List.append_assoc, scan, ihInner, List.cons_append, scan, if_pos hfits,
      ihRest]
    cases scan fits stack rest <;> simp

omit [DecidableRel fits] in
variable (fits) in
/-- A word that closes a whole stack: balanced words, with a closing bracket after each but the
last. -/
inductive ClosesAll : List α → List (Bracket α) → List (α × α) → Prop where
  | nil {word : List (Bracket α)} {pairs : List (α × α)} :
      Balanced fits word pairs → ClosesAll [] word pairs
  | cons {a b : α} {stack : List α} {inner rest : List (Bracket α)} {pairs pairs' : List (α × α)} :
      Balanced fits inner pairs → fits a b → ClosesAll stack rest pairs' →
      ClosesAll (a :: stack) (inner ++ .closes b :: rest) (pairs ++ (a, b) :: pairs')

omit [DecidableRel fits] in
/-- A pair of brackets around a balanced word may stand in front. -/
theorem ClosesAll.nest {a b : α} {stack : List α} {inner rest : List (Bracket α)}
    {pairs pairs' : List (α × α)} (hinner : Balanced fits inner pairs) (hfits : fits a b)
    (h : ClosesAll fits stack rest pairs') :
    ClosesAll fits stack (.opens a :: (inner ++ .closes b :: rest))
      (pairs ++ (a, b) :: pairs') := by
  cases h with
  | nil hrest => exact .nil (.nest hinner hfits hrest)
  | cons hfirst hfits' hrest =>
    have := ClosesAll.cons (.nest hinner hfits hfirst) hfits' hrest
    simpa using this

/-- A complete scan closes every bracket it read. -/
theorem closesAll_of_scan {word : List (Bracket α)} {stack : List α} {pairs : List (α × α)}
    (h : scan fits stack word = some ([], pairs)) : ClosesAll fits stack word pairs := by
  induction word generalizing stack pairs with
  | nil =>
    obtain ⟨rfl, rfl⟩ := Prod.mk.inj (Option.some.inj h)
    exact .nil .nil
  | cons bracket word ih =>
    cases bracket with
    | opens a =>
      cases ih h with
      | cons hinner hfits hrest => exact hrest.nest hinner hfits
    | closes b =>
      cases stack with
      | nil => cases h
      | cons a stack =>
        rw [scan] at h
        split_ifs at h with hfits
        obtain ⟨r, hscan, hr⟩ := Option.map_eq_some_iff.mp h
        obtain ⟨hstack, rfl⟩ := Prod.mk.inj hr
        exact .cons .nil hfits (ih (hscan.trans (by rw [← hstack])))

/-- The stack accepts exactly the balanced words, with their pairs. -/
theorem scan_eq_some_iff {word : List (Bracket α)} {pairs : List (α × α)} :
    scan fits [] word = some ([], pairs) ↔ Balanced fits word pairs := by
  constructor
  · intro h
    cases closesAll_of_scan h with
    | nil hbalanced => exact hbalanced
  · intro h
    have hscan := h.scan_append [] []
    rwa [List.append_nil, scan, Option.map_some, List.append_nil] at hscan

/-- A word has one list of pairs. -/
theorem Balanced.unique {word : List (Bracket α)} {pairs pairs' : List (α × α)}
    (h : Balanced fits word pairs) (h' : Balanced fits word pairs') : pairs = pairs' := by
  rw [← scan_eq_some_iff] at h h'
  exact (Prod.mk.inj (Option.some.inj (h.symm.trans h'))).2

end Stack

section Keys

variable [DecidableEq κ]

/-- The entries of one key, in order. -/
def ofKey {β : Type} (key : κ) (entries : List (κ × β)) : List β :=
  entries.filterMap fun entry => if entry.1 = key then some entry.2 else none

/-- An entry of the key comes first among those of the key. -/
theorem ofKey_cons_self {β : Type} (key : κ) (b : β) (entries : List (κ × β)) :
    ofKey key ((key, b) :: entries) = b :: ofKey key entries := by
  simp [ofKey]

/-- An entry of another key is left out. -/
theorem ofKey_cons_ne {β : Type} {key key' : κ} (h : key' ≠ key) (b : β)
    (entries : List (κ × β)) : ofKey key ((key', b) :: entries) = ofKey key entries := by
  simp [ofKey, h]

/-- The entries of a key are those recorded under it. -/
theorem mem_ofKey {β : Type} {key : κ} {b : β} {entries : List (κ × β)} :
    b ∈ ofKey key entries ↔ (key, b) ∈ entries := by
  rw [ofKey, List.mem_filterMap]
  constructor
  · rintro ⟨⟨key', b'⟩, hentry, h⟩
    split_ifs at h with hkey
    obtain rfl := Option.some.inj h
    rwa [← hkey]
  · intro h
    exact ⟨_, h, if_pos rfl⟩

variable [DecidableRel fits]

/-- All stacks read one interleaved sequence. -/
def scanKeys : (κ → List α) → List (κ × Bracket α) →
    Option ((κ → List α) × List (κ × (α × α)))
  | opened, [] => some (opened, [])
  | opened, (key, .opens a) :: word => scanKeys (Function.update opened key (a :: opened key)) word
  | opened, (key, .closes b) :: word =>
    match opened key with
    | [] => none
    | a :: stack =>
      if fits a b then
        (scanKeys (Function.update opened key stack) word).map fun r => (r.1, (key, (a, b)) :: r.2)
      else none

variable {fits} {opened opened' : κ → List α} {word : List (κ × Bracket α)}
  {closed : List (κ × (α × α))}

/-- A closing bracket ends the innermost open one of its key. -/
theorem scanKeys_closes {key : κ} {b : α}
    (h : scanKeys fits opened ((key, .closes b) :: word) = some (opened', closed)) :
    ∃ a stack closed', opened key = a :: stack ∧ fits a b ∧
      scanKeys fits (Function.update opened key stack) word = some (opened', closed') ∧
      closed = (key, (a, b)) :: closed' := by
  rw [scanKeys] at h
  split at h
  · cases h
  · rename_i a stack hstack
    split_ifs at h with hfits
    obtain ⟨r, hscan, hr⟩ := Option.map_eq_some_iff.mp h
    obtain ⟨hopened, rfl⟩ := Prod.mk.inj hr
    exact ⟨a, stack, r.2, hstack, hfits, hscan.trans (by rw [← hopened]), rfl⟩

/-- Each key's stack reads that key's own word. -/
theorem scan_ofKey (h : scanKeys fits opened word = some (opened', closed)) (key : κ) :
    scan fits (opened key) (ofKey key word) = some (opened' key, ofKey key closed) := by
  induction word generalizing opened closed with
  | nil =>
    obtain ⟨rfl, rfl⟩ := Prod.mk.inj (Option.some.inj h)
    rfl
  | cons entry word ih =>
    obtain ⟨key', bracket⟩ := entry
    cases bracket with
    | opens a =>
      have hscan := ih h
      by_cases hkey : key' = key
      · subst hkey
        rw [Function.update_self] at hscan
        rw [ofKey_cons_self, scan, hscan]
      · rw [Function.update_of_ne (Ne.symm hkey)] at hscan
        rw [ofKey_cons_ne hkey, hscan]
    | closes b =>
      obtain ⟨a, stack, closed', hstack, hfits, hrest, rfl⟩ := scanKeys_closes h
      have hscan := ih hrest
      by_cases hkey : key' = key
      · subst hkey
        rw [Function.update_self] at hscan
        rw [ofKey_cons_self, ofKey_cons_self, hstack, scan, if_pos hfits, hscan]
        rfl
      · rw [Function.update_of_ne (Ne.symm hkey)] at hscan
        rw [ofKey_cons_ne hkey, ofKey_cons_ne hkey, hscan]

/-- When every key's own word can be read, so can the interleaved sequence. -/
theorem exists_scanKeys (h : ∀ key, (scan fits (opened key) (ofKey key word)).isSome) :
    ∃ r, scanKeys fits opened word = some r := by
  induction word generalizing opened with
  | nil => exact ⟨_, rfl⟩
  | cons entry word ih =>
    obtain ⟨key, bracket⟩ := entry
    have hkey := h key
    rw [ofKey_cons_self] at hkey
    have hother : ∀ stack key', key' ≠ key →
        (scan fits (Function.update opened key stack key') (ofKey key' word)).isSome := by
      intro stack key' hne
      rw [Function.update_of_ne hne, ← ofKey_cons_ne hne.symm bracket]
      exact h key'
    have hupdate : ∀ stack, (scan fits stack (ofKey key word)).isSome →
        ∃ r, scanKeys fits (Function.update opened key stack) word = some r := by
      intro stack hstack
      refine ih fun key' => ?_
      by_cases hne : key' = key
      · rwa [hne, Function.update_self]
      · exact hother stack key' hne
    cases bracket with
    | opens a => exact hupdate _ hkey
    | closes b =>
      rw [scanKeys]
      cases hopened : opened key with
      | nil => simp [hopened, scan] at hkey
      | cons a stack =>
        rw [hopened, scan] at hkey
        split_ifs at hkey with hfits
        · rw [Option.isSome_map] at hkey
          obtain ⟨r, hr⟩ := hupdate stack hkey
          exact ⟨(r.1, (key, (a, b)) :: r.2), by simp [hfits, hr]⟩
        · cases hkey

/-- The interleaved sequence is read from and to empty stacks exactly when every key's own word is
balanced. -/
theorem scanKeys_nil_iff :
    (∃ closed, scanKeys fits (fun _ => []) word = some (fun _ => [], closed)) ↔
      ∀ key, ∃ pairs, Balanced fits (ofKey key word) pairs := by
  constructor
  · rintro ⟨closed, h⟩ key
    exact ⟨_, scan_eq_some_iff.mp (scan_ofKey h key)⟩
  · intro h
    obtain ⟨⟨opened', closed⟩, hread⟩ := @exists_scanKeys _ _ _ _ _ (fun _ => []) word
      fun key => by
        obtain ⟨pairs, hpairs⟩ := h key
        rw [scan_eq_some_iff.mpr hpairs]
        rfl
    have hempty : opened' = fun _ => [] := by
      funext key
      obtain ⟨pairs, hpairs⟩ := h key
      have hscan := scan_ofKey hread key
      rw [scan_eq_some_iff.mpr hpairs] at hscan
      exact (Prod.mk.inj (Option.some.inj hscan)).1.symm
    exact ⟨closed, hempty ▸ hread⟩

/-- What the interleaved sequence closes for a key are that key's pairs. -/
theorem balanced_ofKey (h : scanKeys fits (fun _ => []) word = some (fun _ => [], closed))
    (key : κ) : Balanced fits (ofKey key word) (ofKey key closed) :=
  scan_eq_some_iff.mp (scan_ofKey h key)

end Keys

end Brackets
