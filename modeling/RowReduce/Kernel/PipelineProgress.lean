import RowReduce.Kernel.PipelineInvariant

/-!
# Progress and termination of the pipeline

A blocked reader faces a full input ring, a blocked writer an empty output ring;
neither can hold while the compute kernel is blocked on the other side. Every
step uses up one of the finitely many calls its process still has to make.
-/

namespace RowReduce

variable {Tile Dest : Type} {cfg : PipelineConfig Tile Dest} {s t : PipelineState Tile Dest}

/-- The reader only stops at a full input ring. -/
theorem PipelineInvariant.reader_blocked (h : PipelineInvariant cfg s)
    (hb : readerStep cfg s = none) : s.reader = .done ∨
      s.scaler.pushed = 1 ∧ s.input.pushed < cfg.readerTiles ∧
        s.input.pushed = s.input.popped + 2 := by
  have hr := h.reader
  cases hpc : s.reader with
  | reserveScaler =>
    rw [hpc] at hr
    have hpop := h.scaler_popped
    simp only [readerStep, hpc, ite_eq_right_iff, reduceCtorEq, imp_false] at hb
    have hfull := h.scaler.full_of_not_canReserve hb
    have hzero : s.scaler.pushed = 0 := hr.1
    omega
  | reserveInput k =>
    rw [hpc] at hr
    simp only [readerStep, hpc, ite_eq_right_iff, reduceCtorEq, imp_false] at hb
    exact Or.inr ⟨hr.1, hr.2.1 ▸ hr.2.2, h.input.full_of_not_canReserve hb⟩
  | done => exact Or.inl rfl
  | _ => simp [readerStep, hpc] at hb

/-- The compute kernel only stops for the scaler, at an empty input or at a full output ring. -/
theorem PipelineInvariant.compute_blocked (h : PipelineInvariant cfg s)
    (hb : computeStep cfg s = none) :
    (s.compute = .done ∧ s.input.popped = cfg.readerTiles ∧ s.output.pushed = cfg.ht) ∨
      (s.scaler.pushed = 0 ∧ s.output.pushed = 0 ∧ s.input.popped = 0) ∨
      (s.input.popped < cfg.readerTiles ∧ s.output.pushed < cfg.ht ∧
        s.input.pushed = s.input.popped ∧ s.scaler.pushed ≠ 0) ∨
      (s.output.pushed < cfg.ht ∧ s.output.pushed = s.output.popped + 2) := by
  have hc := h.compute
  have hpop := h.scaler_popped
  cases hpc : s.compute with
  | waitScaler =>
    rw [hpc] at hc
    simp only [computeStep, hpc, ite_eq_right_iff, reduceCtorEq, imp_false] at hb
    have := h.scaler.empty_of_not_canWait hb
    exact Or.inr (Or.inl ⟨by omega, hc.2, hc.1⟩)
  | waitInput k c =>
    rw [hpc] at hc
    simp only [computeStep, hpc, ite_eq_right_iff, reduceCtorEq, imp_false] at hb
    obtain ⟨hwait, hk, hlt, hi, ho, _⟩ := hc
    have hbound : k * cfg.wt + c < cfg.readerTiles := by
      calc k * cfg.wt + c < (k + 1) * cfg.wt := by rw [Nat.succ_mul]; omega
        _ ≤ cfg.ht * cfg.wt := Nat.mul_le_mul_right _ hk
    unfold BoundedFifo.CanWait at hwait
    exact Or.inr (Or.inr (Or.inl ⟨by omega, by omega, h.input.empty_of_not_canWait hb, by omega⟩))
  | reserveOutput k =>
    rw [hpc] at hc
    simp only [computeStep, hpc, ite_eq_right_iff, reduceCtorEq, imp_false] at hb
    obtain ⟨_, hk, _, ho, _⟩ := hc
    exact Or.inr (Or.inr (Or.inr ⟨by omega, h.output.full_of_not_canReserve hb⟩))
  | done =>
    rw [hpc] at hc
    exact Or.inl ⟨rfl, hc⟩
  | _ => simp [computeStep, hpc] at hb

/-- The writer only stops at an empty output ring. -/
theorem PipelineInvariant.writer_blocked (h : PipelineInvariant cfg s)
    (hb : writerStep cfg s = none) : s.writer = .done ∧ s.output.popped = cfg.ht ∨
      s.output.popped < cfg.ht ∧ s.output.pushed = s.output.popped := by
  have hw := h.writer
  cases hpc : s.writer with
  | waitOutput k =>
    rw [hpc] at hw
    simp only [writerStep, hpc, ite_eq_right_iff, reduceCtorEq, imp_false] at hb
    exact Or.inr ⟨hw.2.1 ▸ hw.1, h.output.empty_of_not_canWait hb⟩
  | done =>
    rw [hpc] at hw
    exact Or.inl ⟨rfl, hw.1⟩
  | _ => simp [writerStep, hpc] at hb

/-- A finished reader has pushed the scaler and all its pages. -/
theorem PipelineInvariant.input_pushed_of_done (h : PipelineInvariant cfg s)
    (hr : s.reader = .done) : s.scaler.pushed = 1 ∧ s.input.pushed = cfg.readerTiles := by
  have := h.reader
  rwa [hr] at this

/-- No state of the invariant is stuck before all three kernels have returned. -/
theorem PipelineInvariant.progress (h : PipelineInvariant cfg s) (hf : ¬s.Finished) :
    ∃ t, PipelineStep cfg s t := by
  cases hr : readerStep cfg s with
  | some t => exact ⟨t, Or.inl hr⟩
  | none =>
    cases hc : computeStep cfg s with
    | some t => exact ⟨t, Or.inr (Or.inl hc)⟩
    | none =>
      cases hw : writerStep cfg s with
      | some t => exact ⟨t, Or.inr (Or.inr hw)⟩
      | none =>
        have houtle := h.output.popped_le
        rcases h.reader_blocked hr with hrd | ⟨hs1, hrlt, hrfull⟩
        · obtain ⟨hs1, hrall⟩ := h.input_pushed_of_done hrd
          rcases h.compute_blocked hc with ⟨hcd, _, hcall⟩ | ⟨hs0, _⟩ | ⟨hclt, _, hcempty, _⟩ |
            ⟨_, hofull⟩
          · rcases h.writer_blocked hw with ⟨hwd, _⟩ | ⟨hwlt, hwempty⟩
            · exact absurd ⟨hrd, hcd, hwd⟩ hf
            · omega
          · omega
          · omega
          · rcases h.writer_blocked hw with ⟨_, hwall⟩ | ⟨_, hwempty⟩ <;> omega
        · rcases h.compute_blocked hc with ⟨_, hcall, _⟩ | ⟨hs0, _⟩ | ⟨_, _, hcempty, _⟩ |
            ⟨_, hofull⟩
          · omega
          · omega
          · omega
          · rcases h.writer_blocked hw with ⟨_, hwall⟩ | ⟨_, hwempty⟩ <;> omega

/-- Calls the reader still has to make. -/
def readerRank (cfg : PipelineConfig Tile Dest) : ReaderPoint → ℕ
  | .reserveScaler => 4 * cfg.readerTiles + 3
  | .fillScaler => 4 * cfg.readerTiles + 2
  | .pushScaler => 4 * cfg.readerTiles + 1
  | .reserveInput k => 4 * (cfg.readerTiles - k)
  | .asyncRead k => 4 * (cfg.readerTiles - k) - 1
  | .readBarrier k => 4 * (cfg.readerTiles - k) - 2
  | .pushInput k => 4 * (cfg.readerTiles - k) - 3
  | .done => 0

/-- Calls of one tile-row of the compute kernel. -/
def rowRank (cfg : PipelineConfig Tile Dest) : ℕ := 3 * cfg.wt + 7

/-- Calls the compute kernel still has to make. -/
def computeRank (cfg : PipelineConfig Tile Dest) : ComputePoint → ℕ
  | .waitScaler => cfg.ht * rowRank cfg + 1
  | .regsAcquire k => (cfg.ht - k) * rowRank cfg
  | .regsWait k => (cfg.ht - k) * rowRank cfg - 1
  | .waitInput k c => (cfg.ht - k) * rowRank cfg - 2 - 3 * c
  | .reduceTile k c => (cfg.ht - k) * rowRank cfg - 3 - 3 * c
  | .popInput k c => (cfg.ht - k) * rowRank cfg - 4 - 3 * c
  | .reserveOutput k => (cfg.ht - k) * rowRank cfg - 2 - 3 * cfg.wt
  | .packTile k => (cfg.ht - k) * rowRank cfg - 3 - 3 * cfg.wt
  | .pushOutput k => (cfg.ht - k) * rowRank cfg - 4 - 3 * cfg.wt
  | .regsCommit k => (cfg.ht - k) * rowRank cfg - 5 - 3 * cfg.wt
  | .regsRelease k => (cfg.ht - k) * rowRank cfg - 6 - 3 * cfg.wt
  | .done => 0

/-- Calls the writer still has to make. -/
def writerRank (cfg : PipelineConfig Tile Dest) : WriterPoint → ℕ
  | .waitOutput k => 4 * (cfg.ht - k)
  | .asyncWrite k => 4 * (cfg.ht - k) - 1
  | .writeBarrier k => 4 * (cfg.ht - k) - 2
  | .popOutput k => 4 * (cfg.ht - k) - 3
  | .done => 0

def pipelineRank (cfg : PipelineConfig Tile Dest) (s : PipelineState Tile Dest) : ℕ :=
  readerRank cfg s.reader + computeRank cfg s.compute + writerRank cfg s.writer

/-- The rank of the reader at the head of its loop. -/
theorem readerRank_loop (cfg : PipelineConfig Tile Dest) (k : ℕ) :
    readerRank cfg (readerLoop cfg k) ≤ 4 * (cfg.readerTiles - k) := by
  unfold readerLoop
  split_ifs <;> simp [readerRank]

/-- The rank of the compute kernel at the head of its loop over rows. -/
theorem computeRank_rowLoop (cfg : PipelineConfig Tile Dest) (k : ℕ) :
    computeRank cfg (computeRowLoop cfg k) ≤ (cfg.ht - k) * rowRank cfg := by
  unfold computeRowLoop
  split_ifs <;> simp [computeRank]

/-- And at the head of the loop over the columns of a row. -/
theorem computeRank_colLoop (cfg : PipelineConfig Tile Dest) (k : ℕ) {c : ℕ} (hc : c ≤ cfg.wt) :
    computeRank cfg (computeColLoop cfg k c) ≤ (cfg.ht - k) * rowRank cfg - 2 - 3 * c := by
  unfold computeColLoop
  split_ifs
  · exact le_rfl
  · simp only [computeRank]
    omega

/-- The rank of the writer at the head of its loop. -/
theorem writerRank_loop (cfg : PipelineConfig Tile Dest) (k : ℕ) :
    writerRank cfg (writerLoop cfg k) ≤ 4 * (cfg.ht - k) := by
  unfold writerLoop
  split_ifs <;> simp [writerRank]

/-- A tile-row in progress has all its calls ahead of the later rows'. -/
theorem rowRank_of_lt {k : ℕ} (hk : k < cfg.ht) :
    (cfg.ht - k) * rowRank cfg = (cfg.ht - (k + 1)) * rowRank cfg + (3 * cfg.wt + 7) := by
  rw [show cfg.ht - k = cfg.ht - (k + 1) + 1 by omega, Nat.succ_mul]
  rfl

/-- A step of the reader decreases the rank. -/
theorem PipelineInvariant.readerRank_lt (h : PipelineInvariant cfg s)
    (hs : readerStep cfg s = some t) : pipelineRank cfg t < pipelineRank cfg s := by
  have hr := h.reader
  unfold pipelineRank
  cases hpc : s.reader <;> rw [hpc] at hr <;>
    simp only [readerStep, hpc, Option.ite_none_right_eq_some, Option.some.injEq,
      reduceCtorEq] at hs
  case reserveScaler | reserveInput =>
    obtain ⟨_, rfl⟩ := hs
    simp only [ReaderInvariant, readerRank] at hr ⊢
    omega
  case fillScaler | asyncRead | readBarrier =>
    subst hs
    simp only [ReaderInvariant, readerRank] at hr ⊢
    omega
  case pushScaler =>
    subst hs
    have := readerRank_loop cfg 0
    simp only [readerRank] at this ⊢
    omega
  case pushInput k =>
    subst hs
    have := readerRank_loop cfg (k + 1)
    simp only [ReaderInvariant, readerRank] at hr this ⊢
    omega

/-- So does one of the compute kernel. -/
theorem PipelineInvariant.computeRank_lt (h : PipelineInvariant cfg s)
    (hs : computeStep cfg s = some t) : pipelineRank cfg t < pipelineRank cfg s := by
  have hc := h.compute
  unfold pipelineRank
  cases hpc : s.compute <;> rw [hpc] at hc <;>
    simp only [computeStep, hpc, Option.ite_none_right_eq_some, Option.some.injEq,
      reduceCtorEq] at hs
  case waitScaler =>
    obtain ⟨_, rfl⟩ := hs
    have := computeRank_rowLoop cfg 0
    simp only [computeRank, Nat.sub_zero] at this ⊢
    omega
  case waitInput k c =>
    obtain ⟨_, rfl⟩ := hs
    have hrow := rowRank_of_lt hc.2.1
    have hlt := hc.2.2.1
    simp only [computeRank]
    omega
  case reserveOutput k =>
    obtain ⟨_, rfl⟩ := hs
    have hrow := rowRank_of_lt hc.2.1
    simp only [computeRank]
    omega
  case regsWait k =>
    subst hs
    have hrow := rowRank_of_lt hc.2.1
    have := computeRank_colLoop cfg k (Nat.zero_le _)
    simp only [computeRank] at this ⊢
    omega
  case popInput k c =>
    subst hs
    have hrow := rowRank_of_lt hc.2.1
    have hlt := hc.2.2.1
    have := computeRank_colLoop cfg k (show c + 1 ≤ cfg.wt from hlt)
    simp only [computeRank] at this ⊢
    omega
  case regsRelease k =>
    subst hs
    have hrow := rowRank_of_lt hc.2.1
    have := computeRank_rowLoop cfg (k + 1)
    simp only [computeRank] at this ⊢
    omega
  case reduceTile k c =>
    subst hs
    have hrow := rowRank_of_lt hc.2.1
    have hlt := hc.2.2.1
    simp only [computeRank]
    omega
  all_goals
    subst hs
    have hrow := rowRank_of_lt hc.2.1
    simp only [computeRank]
    omega

/-- And one of the writer. -/
theorem PipelineInvariant.writerRank_lt (h : PipelineInvariant cfg s)
    (hs : writerStep cfg s = some t) : pipelineRank cfg t < pipelineRank cfg s := by
  have hw := h.writer
  unfold pipelineRank
  cases hpc : s.writer <;> rw [hpc] at hw <;>
    simp only [writerStep, hpc, Option.ite_none_right_eq_some, Option.some.injEq,
      reduceCtorEq] at hs
  case waitOutput =>
    obtain ⟨_, rfl⟩ := hs
    simp only [WriterInvariant, writerRank] at hw ⊢
    omega
  case popOutput k =>
    subst hs
    have := writerRank_loop cfg (k + 1)
    simp only [WriterInvariant, writerRank] at hw this ⊢
    omega
  all_goals
    subst hs
    simp only [WriterInvariant, writerRank] at hw ⊢
    omega

/-- Every step decreases the rank. -/
theorem PipelineInvariant.rank_lt (h : PipelineInvariant cfg s) (hs : PipelineStep cfg s t) :
    pipelineRank cfg t < pipelineRank cfg s := by
  rcases hs with hs | hs | hs
  exacts [h.readerRank_lt hs, h.computeRank_lt hs, h.writerRank_lt hs]

end RowReduce
