import Mathlib.Tactic

/-!
# Sequencing fallible steps

Inversion of binds and of conditional throws in the `Except` monad, so that a
function built from many checks is read as the conjunction of its conditions.
-/

namespace Fallible

variable {ε α β ι : Type}

/-- Raise `e` when the condition holds. -/
def throwIf (p : Prop) [Decidable p] (e : ε) : Except ε Unit := if p then .error e else .ok ()

/-- A check passes where its condition does not hold. -/
@[simp] theorem throwIf_eq_ok_iff {p : Prop} [Decidable p] {e : ε} {u : Unit} :
    throwIf p e = .ok u ↔ ¬p := by
  unfold throwIf
  split <;> simp_all

/-- The passing check. -/
theorem throwIf_of_not {p : Prop} [Decidable p] {e : ε} (h : ¬p) : throwIf p e = .ok () :=
  if_neg h

/-- The failing check. -/
theorem throwIf_of {p : Prop} [Decidable p] {e : ε} (h : p) : throwIf p e = .error e := if_pos h

/-- What a check raises, and when. -/
theorem throwIf_eq_error_iff {p : Prop} [Decidable p] {e e' : ε} :
    throwIf p e = .error e' ↔ p ∧ e = e' := by
  unfold throwIf
  split <;> simp_all

@[simp] theorem ok_bind (a : α) (f : α → Except ε β) : (Except.ok a >>= f) = f a := rfl

@[simp] theorem error_bind (e : ε) (f : α → Except ε β) : (Except.error e >>= f) = .error e := rfl

@[simp] theorem pure_eq_ok (a : α) : (pure a : Except ε α) = .ok a := rfl

@[simp] theorem throw_eq_error (e : ε) : (throw e : Except ε α) = .error e := rfl

/-- A sequence succeeds exactly when its first step does and the rest does after it. -/
theorem bind_eq_ok_iff {x : Except ε α} {f : α → Except ε β} {b : β} :
    (x >>= f) = .ok b ↔ ∃ a, x = .ok a ∧ f a = .ok b := by
  cases x <;> simp

/-- A sequence fails in its first step or, that step having succeeded, in the rest. -/
theorem bind_eq_error_iff {x : Except ε α} {f : α → Except ε β} {e : ε} :
    (x >>= f) = .error e ↔ x = .error e ∨ ∃ a, x = .ok a ∧ f a = .error e := by
  cases x <;> simp

/-- Mapping a fallible function succeeds exactly when it succeeds on every element. -/
theorem mapM_eq_ok_iff {l : List ι} {f : ι → Except ε α} {bs : List α} :
    l.mapM f = .ok bs ↔ List.Forall₂ (fun i b => f i = .ok b) l bs := by
  induction l generalizing bs with
  | nil => cases bs <;> simp
  | cons i l ih =>
    rw [List.mapM_cons]
    constructor
    · intro h
      obtain ⟨b, hb, h⟩ := bind_eq_ok_iff.mp h
      obtain ⟨bs', hbs, h⟩ := bind_eq_ok_iff.mp h
      obtain rfl := Except.ok.inj h
      exact List.Forall₂.cons hb (ih.mp hbs)
    · rintro (_ | ⟨hb, hbs⟩)
      rw [hb, ok_bind, ih.mpr hbs]
      rfl

/-- Every result of a map is the result of one of its elements. -/
theorem exists_of_mem_mapM {l : List ι} {f : ι → Except ε α} {bs : List α} (h : l.mapM f = .ok bs)
    {b : α} (hb : b ∈ bs) : ∃ i ∈ l, f i = .ok b := by
  rw [mapM_eq_ok_iff] at h
  induction h with
  | nil => cases hb
  | cons hi _ ih =>
    rcases List.mem_cons.mp hb with rfl | hb
    · exact ⟨_, List.mem_cons_self, hi⟩
    · obtain ⟨j, hj, hfj⟩ := ih hb
      exact ⟨j, List.mem_cons_of_mem _ hj, hfj⟩

/-- A map that never fails is the pure map. -/
theorem mapM_ok {l : List ι} {f : ι → Except ε α} {g : ι → α} (h : ∀ i ∈ l, f i = .ok (g i)) :
    l.mapM f = .ok (l.map g) := by
  rw [mapM_eq_ok_iff]
  induction l with
  | nil => exact List.Forall₂.nil
  | cons i l ih =>
    exact List.Forall₂.cons (h i List.mem_cons_self)
      (ih fun j hj => h j (List.mem_cons_of_mem _ hj))

/-- A map whose elements each check a condition and compute a value. -/
theorem mapM_eq_ok_iff_forall {l : List ι} {f : ι → Except ε α} {g : ι → α} {C : ι → Prop}
    (h : ∀ i ∈ l, ∀ b, f i = .ok b ↔ C i ∧ b = g i) {bs : List α} :
    l.mapM f = .ok bs ↔ (∀ i ∈ l, C i) ∧ bs = l.map g := by
  induction l generalizing bs with
  | nil => simp [eq_comm]
  | cons i l ih =>
    simp only [List.mapM_cons, bind_eq_ok_iff, List.forall_mem_cons, List.map_cons, pure_eq_ok,
      Except.ok.injEq, h i List.mem_cons_self, ih fun j hj => h j (List.mem_cons_of_mem _ hj)]
    constructor
    · rintro ⟨_, ⟨hi, rfl⟩, _, ⟨hl, rfl⟩, rfl⟩
      exact ⟨⟨hi, hl⟩, rfl⟩
    · rintro ⟨⟨hi, hl⟩, rfl⟩
      exact ⟨_, ⟨hi, rfl⟩, _, ⟨hl, rfl⟩, rfl⟩

/-- A loop whose passes each check a condition and update the state. -/
theorem foldlM_eq_ok_iff {l : List ι} {f : α → ι → Except ε α} {g : α → ι → α} {C : ι → Prop}
    (h : ∀ i ∈ l, ∀ a b, f a i = .ok b ↔ C i ∧ b = g a i) {a b : α} :
    l.foldlM f a = .ok b ↔ (∀ i ∈ l, C i) ∧ b = l.foldl g a := by
  induction l generalizing a with
  | nil => simp [eq_comm]
  | cons i l ih =>
    rw [List.foldlM_cons, bind_eq_ok_iff, List.forall_mem_cons, List.foldl_cons]
    simp only [h i List.mem_cons_self, ih fun j hj => h j (List.mem_cons_of_mem _ hj)]
    constructor
    · rintro ⟨_, ⟨hi, rfl⟩, hl, hb⟩
      exact ⟨⟨hi, hl⟩, hb⟩
    · rintro ⟨⟨hi, hl⟩, hb⟩
      exact ⟨_, ⟨hi, rfl⟩, hl, hb⟩

/-- Each member on the right is related to one on the left. -/
theorem exists_left_of_forall₂ {α β : Type} {R : α → β → Prop} {l : List α} {m : List β}
    (h : List.Forall₂ R l m) {b : β} (hb : b ∈ m) : ∃ a ∈ l, R a b := by
  induction h with
  | nil => exact absurd hb List.not_mem_nil
  | @cons a b' l m hab _ ih =>
    rcases List.mem_cons.mp hb with rfl | hb
    · exact ⟨a, List.mem_cons_self, hab⟩
    · obtain ⟨a', ha', hR⟩ := ih hb
      exact ⟨a', List.mem_cons_of_mem _ ha', hR⟩

/-- A run of a loop each of whose passes adds a witness of its item to those collected. -/
theorem exists_of_foldlM_eq_ok {γ : Type*} {l : List ι} {f : α → ι → Except ε α}
    {R : ι → γ → Prop} {I : α → List γ → Prop}
    (hstep : ∀ a gs i b, I a gs → f a i = .ok b → ∃ g, R i g ∧ I b (gs ++ [g])) {a b : α}
    {gs : List γ} (ha : I a gs) (h : l.foldlM f a = .ok b) :
    ∃ new, List.Forall₂ R l new ∧ I b (gs ++ new) := by
  induction l generalizing a gs with
  | nil =>
    obtain rfl := Except.ok.inj h
    exact ⟨[], .nil, by rwa [List.append_nil]⟩
  | cons i l ih =>
    rw [List.foldlM_cons, bind_eq_ok_iff] at h
    obtain ⟨c, hi, hl⟩ := h
    obtain ⟨g, hg, hc⟩ := hstep a gs i c ha hi
    obtain ⟨new, hnew, hb⟩ := ih hc hl
    refine ⟨g :: new, .cons hg hnew, ?_⟩
    rwa [List.append_assoc] at hb

/-- Every exception the computation can raise satisfies `P`. -/
def RaisesOnly (P : ε → Prop) (x : Except ε α) : Prop := ∀ e, x = .error e → P e

section RaisesOnly

variable {P : ε → Prop}

/-- A result raises nothing. -/
theorem raisesOnly_ok (a : α) : RaisesOnly P (.ok a : Except ε α) := by
  intro e h
  cases h

/-- An allowed exception. -/
theorem raisesOnly_error {e : ε} (h : P e) : RaisesOnly P (.error e : Except ε α) := by
  intro e' he
  cases he
  exact h

/-- Fewer exceptions are among more. -/
theorem RaisesOnly.mono {Q : ε → Prop} {x : Except ε α} (h : RaisesOnly P x)
    (hpq : ∀ e, P e → Q e) : RaisesOnly Q x :=
  fun e he => hpq e (h e he)

/-- A check raises its one exception. -/
theorem raisesOnly_throwIf {p : Prop} [Decidable p] {e : ε} (h : P e) :
    RaisesOnly P (throwIf p e) := by
  intro e' he
  obtain ⟨_, rfl⟩ := throwIf_eq_error_iff.mp he
  exact h

/-- Both branches raise only allowed exceptions. -/
theorem raisesOnly_ite {p : Prop} [Decidable p] {x y : Except ε α} (hx : RaisesOnly P x)
    (hy : RaisesOnly P y) : RaisesOnly P (if p then x else y) := by
  split_ifs
  · exact hx
  · exact hy

/-- A sequence raises what its steps raise. -/
theorem RaisesOnly.bind {x : Except ε α} {f : α → Except ε β} (hx : RaisesOnly P x)
    (hf : ∀ a, x = .ok a → RaisesOnly P (f a)) : RaisesOnly P (x >>= f) := by
  intro e h
  rcases bind_eq_error_iff.mp h with h | ⟨a, ha, h⟩
  · exact hx e h
  · exact hf a ha e h

/-- So does a loop whose body does. -/
theorem raisesOnly_forM {l : List ι} {f : ι → Except ε Unit}
    (h : ∀ i ∈ l, RaisesOnly P (f i)) : RaisesOnly P (forM l f) := by
  induction l with
  | nil => exact raisesOnly_ok ()
  | cons i l ih =>
    rw [List.forM_cons]
    exact (h i List.mem_cons_self).bind fun _ _ => ih fun j hj => h j (List.mem_cons_of_mem _ hj)

/-- So does a list of results. -/
theorem raisesOnly_mapM {l : List ι} {f : ι → Except ε α}
    (h : ∀ i ∈ l, RaisesOnly P (f i)) : RaisesOnly P (l.mapM f) := by
  induction l with
  | nil => exact raisesOnly_ok []
  | cons i l ih =>
    rw [List.mapM_cons]
    refine (h i List.mem_cons_self).bind fun _ _ => ?_
    exact (ih fun j hj => h j (List.mem_cons_of_mem _ hj)).bind fun _ _ => raisesOnly_ok _

/-- So does a loop with a state. -/
theorem raisesOnly_foldlM {l : List ι} {f : α → ι → Except ε α}
    (h : ∀ a, ∀ i ∈ l, RaisesOnly P (f a i)) (a : α) : RaisesOnly P (l.foldlM f a) := by
  induction l generalizing a with
  | nil => exact raisesOnly_ok a
  | cons i l ih =>
    rw [List.foldlM_cons]
    exact (h a i List.mem_cons_self).bind fun b _ =>
      ih (fun c j hj => h c j (List.mem_cons_of_mem _ hj)) b

/-- A map fails at the first element that fails. -/
theorem mapM_eq_error_iff {l : List ι} {f : ι → Except ε α} {e : ε} :
    l.mapM f = .error e ↔ ∃ before i after, l = before ++ i :: after ∧
      (∀ j ∈ before, ∃ a, f j = .ok a) ∧ f i = .error e := by
  induction l with
  | nil => simp
  | cons i l ih =>
    rw [List.mapM_cons, bind_eq_error_iff]
    constructor
    · rintro (h | ⟨a, ha, h⟩)
      · exact ⟨[], i, l, rfl, by simp, h⟩
      · rcases bind_eq_error_iff.mp h with h | ⟨_, _, h⟩
        · obtain ⟨before, j, after, rfl, hok, hj⟩ := ih.mp h
          exact ⟨i :: before, j, after, rfl, List.forall_mem_cons.mpr ⟨⟨a, ha⟩, hok⟩, hj⟩
        · cases h
    · rintro ⟨before, j, after, hl, hok, hj⟩
      cases before with
      | nil =>
        obtain ⟨rfl, rfl⟩ := List.cons.inj hl
        exact Or.inl hj
      | cons k before =>
        obtain ⟨rfl, rfl⟩ := List.cons.inj hl
        obtain ⟨⟨a, ha⟩, hok⟩ := List.forall_mem_cons.mp hok
        exact Or.inr ⟨a, ha,
          bind_eq_error_iff.mpr (Or.inl (ih.mpr ⟨before, j, after, rfl, hok, hj⟩))⟩

/-- The computation raises an exception outside `P`. -/
def Escapes (P : ε → Prop) (x : Except ε α) : Prop := ∃ e, x = .error e ∧ ¬P e

/-- Where only allowed exceptions are raised none escapes. -/
theorem RaisesOnly.not_escapes {x : Except ε α} (h : RaisesOnly P x) : ¬Escapes P x :=
  fun ⟨e, he, hn⟩ => hn (h e he)

/-- An exception escapes from the first part, or from the second after the first is done. -/
theorem escapes_bind_iff {x : Except ε α} {f : α → Except ε β} :
    Escapes P (x >>= f) ↔ Escapes P x ∨ ∃ a, x = .ok a ∧ Escapes P (f a) := by
  simp only [Escapes, bind_eq_error_iff]
  constructor
  · rintro ⟨e, h | ⟨a, ha, h⟩, hn⟩
    · exact Or.inl ⟨e, h, hn⟩
    · exact Or.inr ⟨a, ha, e, h, hn⟩
  · rintro (⟨e, h, hn⟩ | ⟨a, ha, e, h, hn⟩)
    · exact ⟨e, Or.inl h, hn⟩
    · exact ⟨e, Or.inr ⟨a, ha, h⟩, hn⟩

/-- After a step that raises nothing else, an exception escapes from the rest. -/
theorem RaisesOnly.escapes_bind_iff {x : Except ε α} {f : α → Except ε β} (hx : RaisesOnly P x) :
    Escapes P (x >>= f) ↔ ∃ a, x = .ok a ∧ Escapes P (f a) := by
  rw [Fallible.escapes_bind_iff]
  exact or_iff_right hx.not_escapes

/-- An exception escapes a map at the first element that fails. -/
theorem escapes_mapM_iff {l : List ι} {f : ι → Except ε α} :
    Escapes P (l.mapM f) ↔ ∃ before i after, l = before ++ i :: after ∧
      (∀ j ∈ before, ∃ a, f j = .ok a) ∧ Escapes P (f i) := by
  simp only [Escapes, mapM_eq_error_iff]
  constructor
  · rintro ⟨e, ⟨before, i, after, hl, hok, he⟩, hn⟩
    exact ⟨before, i, after, hl, hok, e, he, hn⟩
  · rintro ⟨before, i, after, hl, hok, e, he, hn⟩
    exact ⟨e, ⟨before, i, after, hl, hok, he⟩, hn⟩

end RaisesOnly

/-- A loop over pairs completes where every state of the invariant accepts a related second
component beside the first. -/
theorem exists_zip_foldlM {σ : Type} {step : σ → (α × β) × ℕ → Except ε σ} {I : ℕ → σ → Prop}
    {R : ℕ → α → β → Prop} {l : List α} {k : ℕ}
    (h : ∀ n a, l[n]? = some a → ∀ s, I (k + n) s →
      ∃ b s', R (k + n) a b ∧ step s ((a, b), k + n) = .ok s' ∧ I (k + n + 1) s')
    {s : σ} (hs : I k s) :
    ∃ bs done, List.Forall₂ (fun a b => R a.2 a.1 b) (l.zipIdx k) bs ∧
      ((l.zip bs).zipIdx k).foldlM step s = .ok done ∧ I (k + l.length) done := by
  induction l generalizing k s with
  | nil => exact ⟨[], s, .nil, rfl, hs⟩
  | cons a l ih =>
    obtain ⟨b, s', hrel, hstep, hs'⟩ := h 0 a rfl s hs
    have hrest : ∀ n a, l[n]? = some a → ∀ s, I (k + 1 + n) s →
        ∃ b s', R (k + 1 + n) a b ∧ step s ((a, b), k + 1 + n) = .ok s' ∧
          I (k + 1 + n + 1) s' := by
      intro n a hn s hs
      have hnext := h (n + 1) a (by simpa using hn) s
      rw [show k + (n + 1) = k + 1 + n by omega] at hnext
      exact hnext hs
    obtain ⟨bs, done, hrels, hloop, hdone⟩ := ih hrest hs'
    refine ⟨b :: bs, done, ?_, ?_, ?_⟩
    · rw [List.zipIdx_cons]
      exact .cons hrel hrels
    · rw [List.zip_cons_cons, List.zipIdx_cons, List.foldlM_cons]
      exact bind_eq_ok_iff.mpr ⟨s', hstep, hloop⟩
    · rwa [List.length_cons, show k + (l.length + 1) = k + 1 + l.length by omega]

section MapError

variable {ε' : Type} {f : ε → ε'} {x : Except ε α}

/-- Renaming exceptions keeps the results. -/
@[simp] theorem mapError_eq_ok_iff {a : α} : x.mapError f = .ok a ↔ x = .ok a := by
  cases x <;> simp [Except.mapError]

end MapError

/-- A state-passing step followed by a stateless fallible one. -/
theorem bind_lift_apply {σ : Type} {x : StateT σ (Except ε) α} {f : α → Except ε β} {s s' : σ}
    {a : α} {b : β} (hx : x s = .ok (a, s')) (hf : f a = .ok b) :
    (x >>= fun a => (liftM (f a) : StateT σ (Except ε) β)) s = .ok (b, s') := by
  change (x s >>= fun r => f r.1 >>= fun b => .ok (b, r.2)) = _
  rw [hx, ok_bind, hf, ok_bind]

/-- A stateful loop has one result for each item. -/
theorem length_mapM_state {σ : Type} (f : ι → StateM σ α) (l : List ι) (s : σ) :
    (l.mapM f s).1.length = l.length := by
  induction l generalizing s with
  | nil => rfl
  | cons i l ih =>
    rw [List.mapM_cons]
    exact congrArg (· + 1) (ih (f i s).2)

section Simulation

variable {σ τ : Type} {f : ι → StateM σ α} {g : ι → StateT τ (Except ε) β} {R : σ → τ → Prop}
  {rel : α → β → Prop}

/-- Two loops whose bodies keep their states related produce related results. -/
theorem mapM_simulation {l : List ι}
    (h : ∀ i ∈ l, ∀ s t, R s t →
      ∃ b t', g i t = .ok (b, t') ∧ rel (f i s).1 b ∧ R (f i s).2 t')
    {s : σ} {t : τ} (hst : R s t) :
    ∃ bs t', l.mapM g t = .ok (bs, t') ∧ List.Forall₂ rel (l.mapM f s).1 bs ∧
      R (l.mapM f s).2 t' := by
  induction l generalizing s t with
  | nil => exact ⟨[], t, rfl, List.Forall₂.nil, hst⟩
  | cons i l ih =>
    obtain ⟨b, t₁, hg, hb, h1⟩ := h i List.mem_cons_self s t hst
    obtain ⟨bs, t₂, hgs, hbs, h2⟩ := ih (fun j hj => h j (List.mem_cons_of_mem _ hj)) h1
    refine ⟨b :: bs, t₂, ?_, ?_, ?_⟩
    · rw [List.mapM_cons]
      change ((g i t) >>= fun p => (l.mapM g p.2) >>= fun q => .ok (p.1 :: q.1, q.2)) = _
      rw [hg, ok_bind, hgs, ok_bind]
    · rw [List.mapM_cons]
      exact List.Forall₂.cons hb hbs
    · rw [List.mapM_cons]
      exact h2

end Simulation

end Fallible
