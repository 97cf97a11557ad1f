import Mathlib.Tactic

/-!
# Bounded ring buffers

A producer reserves, fills and publishes the slot after the last published one;
a consumer waits for, reads and frees the oldest. Counters run without wrapping
and address the ring modulo its size. `Holds` ties the published slots to the
abstract sequence of values they carry.
-/

/-- A ring of `entries` slots with the numbers of values ever published and freed. -/
structure BoundedFifo (α : Type) (entries : ℕ) where
  slots : ℕ → α
  pushed : ℕ
  popped : ℕ

namespace BoundedFifo

variable {α : Type} {entries : ℕ}

/-- An empty ring with arbitrary slot contents. -/
def launch (slots : ℕ → α) : BoundedFifo α entries := ⟨slots, 0, 0⟩

/-- `reserve_back(1)` does not block. -/
def CanReserve (f : BoundedFifo α entries) : Prop := f.pushed < f.popped + entries

/-- `wait_front(1)` does not block. -/
def CanWait (f : BoundedFifo α entries) : Prop := f.popped < f.pushed

instance (f : BoundedFifo α entries) : Decidable f.CanReserve := Nat.decLt _ _

instance (f : BoundedFifo α entries) : Decidable f.CanWait := Nat.decLt _ _

/-- Fill the reserved slot. -/
def write (f : BoundedFifo α entries) (a : α) : BoundedFifo α entries :=
  { f with slots := Function.update f.slots (f.pushed % entries) a }

/-- `push_back(1)`. -/
def push (f : BoundedFifo α entries) : BoundedFifo α entries := { f with pushed := f.pushed + 1 }

/-- `pop_front(1)`. -/
def pop (f : BoundedFifo α entries) : BoundedFifo α entries := { f with popped := f.popped + 1 }

/-- The oldest published slot. -/
def front (f : BoundedFifo α entries) : α := f.slots (f.popped % entries)

/-- The slot being filled. -/
def back (f : BoundedFifo α entries) : α := f.slots (f.pushed % entries)

section Fields

variable (f : BoundedFifo α entries) (a : α)

@[simp] theorem launch_pushed (slots : ℕ → α) :
    (launch slots : BoundedFifo α entries).pushed = 0 := rfl
@[simp] theorem launch_popped (slots : ℕ → α) :
    (launch slots : BoundedFifo α entries).popped = 0 := rfl
@[simp] theorem write_pushed : (f.write a).pushed = f.pushed := rfl
@[simp] theorem write_popped : (f.write a).popped = f.popped := rfl
@[simp] theorem push_pushed : f.push.pushed = f.pushed + 1 := rfl
@[simp] theorem push_popped : f.push.popped = f.popped := rfl
@[simp] theorem push_slots : f.push.slots = f.slots := rfl
@[simp] theorem pop_pushed : f.pop.pushed = f.pushed := rfl
@[simp] theorem pop_popped : f.pop.popped = f.popped + 1 := rfl
@[simp] theorem pop_slots : f.pop.slots = f.slots := rfl
@[simp] theorem pop_back : f.pop.back = f.back := rfl

@[simp] theorem write_back : (f.write a).back = a := by simp [back, write]

end Fields

/-- Occupancy is within bounds and every published slot carries its value. -/
structure Holds (f : BoundedFifo α entries) (value : ℕ → α) : Prop where
  popped_le : f.popped ≤ f.pushed
  pushed_le : f.pushed ≤ f.popped + entries
  slots : ∀ j, f.popped ≤ j → j < f.pushed → f.slots (j % entries) = value j

/-- The occupancy is between empty and full. -/
def WithinBounds (f : BoundedFifo α entries) : Prop :=
  f.popped ≤ f.pushed ∧ f.pushed ≤ f.popped + entries

/-- Every slot published and not yet freed in `f` has the same content in `g`. -/
def KeepsPublished (f g : BoundedFifo α entries) : Prop :=
  ∀ j, f.popped ≤ j → j < f.pushed → g.slots (j % entries) = f.slots (j % entries)

variable {f g : BoundedFifo α entries} {value : ℕ → α}

/-- The counters of a FIFO that holds the values are within its bounds. -/
theorem Holds.withinBounds (h : f.Holds value) : f.WithinBounds := ⟨h.popped_le, h.pushed_le⟩

/-- Where no slot changes the published ones are kept. -/
theorem KeepsPublished.of_slots (h : g.slots = f.slots) : f.KeepsPublished g :=
  fun _ _ _ => by rw [h]

/-- An empty FIFO holds any values. -/
theorem holds_launch (slots : ℕ → α) : (launch slots : BoundedFifo α entries).Holds value :=
  ⟨le_rfl, Nat.zero_le _, fun j _ hj => absurd hj (Nat.not_lt_zero j)⟩

/-- The reserved slot is none of the published ones. -/
theorem mod_ne_of_canReserve (hr : f.CanReserve) {j : ℕ} (h1 : f.popped ≤ j) (h2 : j < f.pushed) :
    j % entries ≠ f.pushed % entries := by
  intro he
  unfold CanReserve at hr
  have hdvd : entries ∣ f.pushed - j := (Nat.modEq_iff_dvd' h2.le).mp he
  have := Nat.le_of_dvd (by omega) hdvd
  omega

/-- Filling a reserved slot leaves every published slot alone. -/
theorem write_slots_of_canReserve (hr : f.CanReserve) (a : α) {j : ℕ} (h1 : f.popped ≤ j)
    (h2 : j < f.pushed) : (f.write a).slots (j % entries) = f.slots (j % entries) :=
  Function.update_of_ne (mod_ne_of_canReserve hr h1 h2) _ _

/-- A write to reserved space keeps the published slots. -/
theorem KeepsPublished.write (hr : f.CanReserve) (a : α) : f.KeepsPublished (f.write a) :=
  fun _ h1 h2 => write_slots_of_canReserve hr a h1 h2

/-- A write to reserved space keeps the values. -/
theorem Holds.write (h : f.Holds value) (hr : f.CanReserve) (a : α) : (f.write a).Holds value :=
  ⟨h.popped_le, h.pushed_le, fun j h1 h2 => by
    rw [write_slots_of_canReserve hr a h1 h2]
    exact h.slots j h1 h2⟩

/-- Publishing the next value keeps the values. -/
theorem Holds.push (h : f.Holds value) (hr : f.CanReserve) (hb : f.back = value f.pushed) :
    f.push.Holds value where
  popped_le := h.popped_le.trans (Nat.le_succ _)
  pushed_le := hr
  slots j h1 h2 := by
    rcases (Nat.lt_succ_iff_lt_or_eq.mp h2) with h2 | rfl
    · exact h.slots j h1 h2
    · exact hb

/-- Releasing the front keeps the values. -/
theorem Holds.pop (h : f.Holds value) (hw : f.CanWait) : f.pop.Holds value :=
  ⟨hw, h.pushed_le.trans (by simp), fun j h1 h2 => h.slots j (Nat.le_of_succ_le h1) h2⟩

/-- The front is the next value to be read. -/
theorem Holds.front (h : f.Holds value) (hw : f.CanWait) : f.front = value f.popped :=
  h.slots f.popped le_rfl hw

/-- A pop takes no space away. -/
theorem CanReserve.pop (h : f.CanReserve) : f.pop.CanReserve := by
  unfold CanReserve at *
  simp only [pop_pushed, pop_popped]
  omega

/-- A push takes no page away. -/
theorem CanWait.push (h : f.CanWait) : f.push.CanWait := Nat.lt_succ_of_lt h

/-- A blocked producer faces a full ring. -/
theorem Holds.full_of_not_canReserve (h : f.Holds value) (hr : ¬f.CanReserve) :
    f.pushed = f.popped + entries :=
  le_antisymm h.pushed_le (not_lt.mp hr)

/-- A blocked consumer faces an empty ring. -/
theorem Holds.empty_of_not_canWait (h : f.Holds value) (hw : ¬f.CanWait) : f.pushed = f.popped :=
  le_antisymm (not_lt.mp hw) h.popped_le

end BoundedFifo
