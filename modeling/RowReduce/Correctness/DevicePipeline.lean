import RowReduce.Correctness.RowSums
import RowReduce.Kernel.PipelineProgress

/-!
# Every schedule of the device pipeline

From any launch state and under any interleaving the pipeline cannot deadlock,
overrun a buffer or run forever, and it ends with each output page written once.
-/

namespace RowReduce

open Transition

variable {Tile Dest : Type} {cfg : PipelineConfig Tile Dest} {s t : PipelineState Tile Dest}

/-- All three occupancies are within the declared numbers of entries. -/
def PipelineState.WithinBounds (s : PipelineState Tile Dest) : Prop :=
  s.input.WithinBounds ∧ s.scaler.WithinBounds ∧ s.output.WithinBounds

/-- No published entry of any buffer changes between two states. -/
def PipelineState.KeepsPublished (s t : PipelineState Tile Dest) : Prop :=
  s.input.KeepsPublished t.input ∧ s.scaler.KeepsPublished t.scaler ∧
    s.output.KeepsPublished t.output

/-- The FIFO counters stay within their bounds. -/
theorem PipelineInvariant.withinBounds (h : PipelineInvariant cfg s) : s.WithinBounds :=
  ⟨h.input.withinBounds, h.scaler.withinBounds, h.output.withinBounds⟩

/-- The reader writes only into the slots it has reserved. -/
theorem PipelineInvariant.reader_keepsPublished (h : PipelineInvariant cfg s)
    (hs : readerStep cfg s = some t) : s.KeepsPublished t := by
  have hr := h.reader
  have hpop := h.scaler_popped
  cases hpc : s.reader <;> rw [hpc] at hr <;>
    simp only [readerStep, hpc, Option.ite_none_right_eq_some, Option.some.injEq,
      reduceCtorEq] at hs
  case fillScaler =>
    subst hs
    have hres : s.scaler.CanReserve := by
      have hzero : s.scaler.pushed = 0 := hr.1
      unfold BoundedFifo.CanReserve
      omega
    exact ⟨.of_slots rfl, .write hres _, .of_slots rfl⟩
  case readBarrier k =>
    subst hs
    exact ⟨.write hr.2.2.2 _, .of_slots rfl, .of_slots rfl⟩
  case reserveScaler | reserveInput =>
    obtain ⟨_, rfl⟩ := hs
    exact ⟨.of_slots rfl, .of_slots rfl, .of_slots rfl⟩
  all_goals
    subst hs
    exact ⟨.of_slots rfl, .of_slots rfl, .of_slots rfl⟩

/-- The compute kernel packs only into the slot it has reserved. -/
theorem PipelineInvariant.compute_keepsPublished (h : PipelineInvariant cfg s)
    (hs : computeStep cfg s = some t) : s.KeepsPublished t := by
  have hc := h.compute
  cases hpc : s.compute <;> rw [hpc] at hc <;>
    simp only [computeStep, hpc, Option.ite_none_right_eq_some, Option.some.injEq,
      reduceCtorEq] at hs
  case packTile k =>
    subst hs
    exact ⟨.of_slots rfl, .of_slots rfl, .write hc.2.2.2.2.1 _⟩
  case waitScaler | waitInput | reserveOutput =>
    obtain ⟨_, rfl⟩ := hs
    exact ⟨.of_slots rfl, .of_slots rfl, .of_slots rfl⟩
  all_goals
    subst hs
    exact ⟨.of_slots rfl, .of_slots rfl, .of_slots rfl⟩

private theorem writerStep_keepsPublished (hs : writerStep cfg s = some t) :
    s.KeepsPublished t := by
  cases hpc : s.writer <;>
    simp only [writerStep, hpc, Option.ite_none_right_eq_some, Option.some.injEq,
      reduceCtorEq] at hs
  case waitOutput =>
    obtain ⟨_, rfl⟩ := hs
    exact ⟨.of_slots rfl, .of_slots rfl, .of_slots rfl⟩
  all_goals
    subst hs
    exact ⟨.of_slots rfl, .of_slots rfl, .of_slots rfl⟩

/-- No step overwrites a published slot. -/
theorem PipelineInvariant.keepsPublished (h : PipelineInvariant cfg s)
    (hs : PipelineStep cfg s t) : s.KeepsPublished t := by
  rcases hs with hs | hs | hs
  exacts [h.reader_keepsPublished hs, h.compute_keepsPublished hs, writerStep_keepsPublished hs]

/-- A finished run has written every page once, in order. -/
theorem PipelineInvariant.written_of_finished (h : PipelineInvariant cfg s) (hf : s.Finished) :
    s.written = cfg.pages cfg.ht := by
  have hw := h.writer
  rw [hf.2.2] at hw
  exact hw.2

section Launch

variable (cfg) (inputSlots scalerSlots outputSlots : ℕ → Tile) (dest : Dest)

/-- The invariant holds in every reached state. -/
theorem pipelineInvariant_of_reachable
    (hs : Reachable (PipelineStep cfg) (launch cfg inputSlots scalerSlots outputSlots dest) s) :
    PipelineInvariant cfg s :=
  hs.invariant (pipelineInvariant_launch _ _ _ _) fun _ _ h => h.step

/-- Every schedule is safe, finite and ends with each page written exactly once. -/
theorem launch_everySchedule :
    (∀ s, Reachable (PipelineStep cfg) (launch cfg inputSlots scalerSlots outputSlots dest) s →
      (¬s.Finished → ∃ t, PipelineStep cfg s t) ∧ s.WithinBounds ∧
        (∀ t, PipelineStep cfg s t → s.KeepsPublished t) ∧
        (s.Finished → s.written = (List.range cfg.ht).map fun tileRow =>
          (tileRow, outputPage cfg.engine cfg.scalerTile cfg.wt cfg.source tileRow))) ∧
      ∀ run, ¬InfiniteRun (PipelineStep cfg)
        (launch cfg inputSlots scalerSlots outputSlots dest) run := by
  have hinv := fun {s} => pipelineInvariant_of_reachable (s := s) cfg inputSlots scalerSlots
    outputSlots dest
  refine ⟨fun s hs => ⟨(hinv hs).progress, (hinv hs).withinBounds,
    fun t => (hinv hs).keepsPublished, (hinv hs).written_of_finished⟩, ?_⟩
  exact not_infiniteRun (pipelineRank cfg) fun s t hs => (hinv hs).rank_lt

/-- Some schedule finishes, so the device output is the concatenation of the packed pages. -/
theorem exists_finished_deviceOutput {Dest : Type} (cfg : PipelineConfig (List Bf16Word) Dest)
    (tiled : List Bf16Word) (hsource : cfg.source = tilePage tiled)
    (inputSlots scalerSlots outputSlots : ℕ → List Bf16Word) (dest : Dest) :
    ∃ s, Reachable (PipelineStep cfg) (launch cfg inputSlots scalerSlots outputSlots dest) s ∧
      s.Finished ∧
      (s.written.flatMap fun page => page.2) =
        deviceOutput cfg.engine cfg.scalerTile cfg.ht cfg.wt tiled := by
  have hinv := fun {s} => pipelineInvariant_of_reachable (s := s) cfg inputSlots scalerSlots
    outputSlots dest
  obtain ⟨s, hs, hf⟩ := exists_reachable_finished (pipelineRank cfg)
    (fun s t hs => (hinv hs).rank_lt) (fun s hs => (hinv hs).progress) Relation.ReflTransGen.refl
  refine ⟨s, hs, hf, ?_⟩
  rw [(hinv hs).written_of_finished hf, PipelineConfig.pages, deviceOutput, List.flatMap_map]
  simp only [PipelineConfig.page, hsource]

end Launch

end RowReduce
