import RowReduce.Kernel.Pipeline

/-!
# The pipeline invariant

Each process's program point fixes the counters it owns; what it has observed of
the others' counters stays true because those only move in its favour. Together
with the ring contents this determines Dest and every written page.
-/

namespace RowReduce

variable {Tile Dest : Type} (cfg : PipelineConfig Tile Dest)

/-- The page that ends up at tile-row `t` of the output. -/
def PipelineConfig.page (t : ℕ) : Tile := outputPage cfg.engine cfg.scalerTile cfg.wt cfg.source t

/-- The partially accumulated Dest of tile-row `t`. -/
def PipelineConfig.partialDest (t count : ℕ) : Dest :=
  reducedDest cfg.engine cfg.scalerTile cfg.wt cfg.source t count

/-- The writes of the first `count` output pages. -/
def PipelineConfig.pages (count : ℕ) : List (ℕ × Tile) :=
  (List.range count).map fun t => (t, cfg.page t)

private theorem PipelineConfig.pages_succ (count : ℕ) :
    cfg.pages (count + 1) = cfg.pages count ++ [(count, cfg.page count)] := by
  simp [pages, List.range_succ]

/-- What the reader's program point says about the counters it owns. -/
def ReaderInvariant (input : BoundedFifo Tile 2) (scaler : BoundedFifo Tile 1) :
    ReaderPoint → Prop
  | .reserveScaler | .fillScaler => scaler.pushed = 0 ∧ input.pushed = 0
  | .pushScaler => scaler.pushed = 0 ∧ scaler.back = cfg.scalerTile ∧ input.pushed = 0
  | .reserveInput k => scaler.pushed = 1 ∧ input.pushed = k ∧ k < cfg.readerTiles
  | .asyncRead k | .readBarrier k =>
    scaler.pushed = 1 ∧ input.pushed = k ∧ k < cfg.readerTiles ∧ input.CanReserve
  | .pushInput k => scaler.pushed = 1 ∧ input.pushed = k ∧ k < cfg.readerTiles ∧
      input.CanReserve ∧ input.back = cfg.source k
  | .done => scaler.pushed = 1 ∧ input.pushed = cfg.readerTiles

/-- What the compute kernel's program point says about its counters and Dest. -/
def ComputeInvariant (input : BoundedFifo Tile 2) (scaler : BoundedFifo Tile 1)
    (output : BoundedFifo Tile 2) (dest : Dest) : ComputePoint → Prop
  | .waitScaler => input.popped = 0 ∧ output.pushed = 0
  | .regsAcquire t => scaler.CanWait ∧ t < cfg.ht ∧ input.popped = t * cfg.wt ∧ output.pushed = t
  | .regsWait t => scaler.CanWait ∧ t < cfg.ht ∧ input.popped = t * cfg.wt ∧ output.pushed = t ∧
      dest = cfg.partialDest t 0
  | .waitInput t c => scaler.CanWait ∧ t < cfg.ht ∧ c < cfg.wt ∧
      input.popped = t * cfg.wt + c ∧ output.pushed = t ∧ dest = cfg.partialDest t c
  | .reduceTile t c => scaler.CanWait ∧ t < cfg.ht ∧ c < cfg.wt ∧
      input.popped = t * cfg.wt + c ∧ input.CanWait ∧ output.pushed = t ∧
      dest = cfg.partialDest t c
  | .popInput t c => scaler.CanWait ∧ t < cfg.ht ∧ c < cfg.wt ∧
      input.popped = t * cfg.wt + c ∧ input.CanWait ∧ output.pushed = t ∧
      dest = cfg.partialDest t (c + 1)
  | .reserveOutput t => scaler.CanWait ∧ t < cfg.ht ∧ input.popped = (t + 1) * cfg.wt ∧
      output.pushed = t ∧ dest = cfg.partialDest t cfg.wt
  | .packTile t => scaler.CanWait ∧ t < cfg.ht ∧ input.popped = (t + 1) * cfg.wt ∧
      output.pushed = t ∧ output.CanReserve ∧ dest = cfg.partialDest t cfg.wt
  | .pushOutput t => scaler.CanWait ∧ t < cfg.ht ∧ input.popped = (t + 1) * cfg.wt ∧
      output.pushed = t ∧ output.CanReserve ∧ output.back = cfg.page t
  | .regsCommit t | .regsRelease t => scaler.CanWait ∧ t < cfg.ht ∧
      input.popped = (t + 1) * cfg.wt ∧ output.pushed = t + 1
  | .done => input.popped = cfg.readerTiles ∧ output.pushed = cfg.ht

/-- What the writer's program point says about its counter and the completed writes. -/
def WriterInvariant (output : BoundedFifo Tile 2) (written : List (ℕ × Tile)) :
    WriterPoint → Prop
  | .waitOutput k => k < cfg.ht ∧ output.popped = k ∧ written = cfg.pages k
  | .asyncWrite k | .writeBarrier k =>
    k < cfg.ht ∧ output.popped = k ∧ output.CanWait ∧ written = cfg.pages k
  | .popOutput k => k < cfg.ht ∧ output.popped = k ∧ output.CanWait ∧ written = cfg.pages (k + 1)
  | .done => output.popped = cfg.ht ∧ written = cfg.pages cfg.ht

/-- The inductive invariant of the whole pipeline. -/
structure PipelineInvariant (s : PipelineState Tile Dest) : Prop where
  input : s.input.Holds cfg.source
  scaler : s.scaler.Holds fun _ => cfg.scalerTile
  scaler_popped : s.scaler.popped = 0
  output : s.output.Holds cfg.page
  reader : ReaderInvariant cfg s.input s.scaler s.reader
  compute : ComputeInvariant cfg s.input s.scaler s.output s.dest s.compute
  writer : WriterInvariant cfg s.output s.written s.writer

variable {cfg} {s t : PipelineState Tile Dest}

/-- The reader's invariant at the head of its loop. -/
theorem readerInvariant_loop {input : BoundedFifo Tile 2} {scaler : BoundedFifo Tile 1} {k : ℕ}
    (hs : scaler.pushed = 1) (hi : input.pushed = k) (hk : k ≤ cfg.readerTiles) :
    ReaderInvariant cfg input scaler (readerLoop cfg k) := by
  unfold readerLoop
  split_ifs with h
  · exact ⟨hs, hi, h⟩
  · exact ⟨hs, by omega⟩

/-- The compute kernel's invariant at the head of its loop over rows. -/
theorem computeInvariant_rowLoop {input : BoundedFifo Tile 2} {scaler : BoundedFifo Tile 1}
    {output : BoundedFifo Tile 2} {dest : Dest} {k : ℕ} (hs : scaler.CanWait)
    (hi : input.popped = k * cfg.wt) (ho : output.pushed = k) (hk : k ≤ cfg.ht) :
    ComputeInvariant cfg input scaler output dest (computeRowLoop cfg k) := by
  unfold computeRowLoop
  split_ifs with h
  · exact ⟨hs, h, hi, ho⟩
  · obtain rfl : k = cfg.ht := by omega
    exact ⟨hi, ho⟩

/-- And at the head of the loop over the columns of a row. -/
theorem computeInvariant_colLoop {input : BoundedFifo Tile 2} {scaler : BoundedFifo Tile 1}
    {output : BoundedFifo Tile 2} {k c : ℕ} (hs : scaler.CanWait) (hk : k < cfg.ht)
    (hi : input.popped = k * cfg.wt + c) (ho : output.pushed = k) (hc : c ≤ cfg.wt) :
    ComputeInvariant cfg input scaler output (cfg.partialDest k c) (computeColLoop cfg k c) := by
  unfold computeColLoop
  split_ifs with h
  · exact ⟨hs, hk, h, hi, ho, rfl⟩
  · obtain rfl : c = cfg.wt := by omega
    exact ⟨hs, hk, by rw [hi, Nat.succ_mul], ho, rfl⟩

/-- The writer's invariant at the head of its loop. -/
theorem writerInvariant_loop {output : BoundedFifo Tile 2} {k : ℕ} (ho : output.popped = k)
    (hk : k ≤ cfg.ht) : WriterInvariant cfg output (cfg.pages k) (writerLoop cfg k) := by
  unfold writerLoop
  split_ifs with h
  · exact ⟨h, ho, rfl⟩
  · obtain rfl : k = cfg.ht := by omega
    exact ⟨ho, rfl⟩

/-- The reader's facts survive the consumer freeing a slot. -/
theorem ReaderInvariant.pop {input : BoundedFifo Tile 2} {scaler : BoundedFifo Tile 1}
    {pc : ReaderPoint} (h : ReaderInvariant cfg input scaler pc) :
    ReaderInvariant cfg input.pop scaler pc := by
  cases pc with
  | asyncRead k => exact ⟨h.1, h.2.1, h.2.2.1, h.2.2.2.pop⟩
  | readBarrier k => exact ⟨h.1, h.2.1, h.2.2.1, h.2.2.2.pop⟩
  | pushInput k => exact ⟨h.1, h.2.1, h.2.2.1, h.2.2.2.1.pop, h.2.2.2.2⟩
  | _ => exact h

/-- The compute kernel's facts survive the reader filling or publishing input slots. -/
theorem ComputeInvariant.input {input input' : BoundedFifo Tile 2} {scaler : BoundedFifo Tile 1}
    {output : BoundedFifo Tile 2} {dest : Dest} {pc : ComputePoint}
    (h : ComputeInvariant cfg input scaler output dest pc) (hp : input'.popped = input.popped)
    (hw : input.CanWait → input'.CanWait) :
    ComputeInvariant cfg input' scaler output dest pc := by
  cases pc <;> simp only [ComputeInvariant, hp] at h ⊢ <;> tauto

/-- The compute kernel only asks of the scaler that it stays available. -/
theorem ComputeInvariant.scaler {input : BoundedFifo Tile 2} {scaler scaler' : BoundedFifo Tile 1}
    {output : BoundedFifo Tile 2} {dest : Dest} {pc : ComputePoint}
    (h : ComputeInvariant cfg input scaler output dest pc) (hw : scaler.CanWait → scaler'.CanWait) :
    ComputeInvariant cfg input scaler' output dest pc := by
  cases pc <;> simp only [ComputeInvariant] at h ⊢ <;> tauto

/-- The compute kernel's facts survive the writer freeing an output slot. -/
theorem ComputeInvariant.popOutput {input : BoundedFifo Tile 2} {scaler : BoundedFifo Tile 1}
    {output : BoundedFifo Tile 2} {dest : Dest} {pc : ComputePoint}
    (h : ComputeInvariant cfg input scaler output dest pc) :
    ComputeInvariant cfg input scaler output.pop dest pc := by
  have hr : output.CanReserve → output.pop.CanReserve := BoundedFifo.CanReserve.pop
  cases pc <;> simp only [ComputeInvariant, BoundedFifo.pop_pushed, BoundedFifo.pop_back] at h ⊢ <;>
    tauto

/-- The writer's facts survive the compute kernel filling or publishing output slots. -/
theorem WriterInvariant.output {output output' : BoundedFifo Tile 2} {written : List (ℕ × Tile)}
    {pc : WriterPoint} (h : WriterInvariant cfg output written pc)
    (hp : output'.popped = output.popped) (hw : output.CanWait → output'.CanWait) :
    WriterInvariant cfg output' written pc := by
  cases pc <;> simp only [WriterInvariant, hp] at h ⊢ <;> tauto

/-- The invariant holds at launch. -/
theorem pipelineInvariant_launch (inputSlots scalerSlots outputSlots : ℕ → Tile) (dest : Dest) :
    PipelineInvariant cfg (launch cfg inputSlots scalerSlots outputSlots dest) where
  input := BoundedFifo.holds_launch _
  scaler := BoundedFifo.holds_launch _
  scaler_popped := rfl
  output := BoundedFifo.holds_launch _
  reader := ⟨rfl, rfl⟩
  compute := ⟨rfl, rfl⟩
  writer := writerInvariant_loop rfl (Nat.zero_le _)

/-- The reader's steps keep the invariant. -/
theorem PipelineInvariant.reader_step (h : PipelineInvariant cfg s)
    (hs : readerStep cfg s = some t) : PipelineInvariant cfg t := by
  obtain ⟨reader, compute, writer, input, scaler, output, dest, written⟩ := s
  obtain ⟨hin, hsc, hsc0, hout, hr, hc, hw⟩ := h
  dsimp only at *
  cases reader with
  | reserveScaler =>
    simp only [readerStep, Option.ite_none_right_eq_some, Option.some.injEq] at hs
    obtain ⟨_, rfl⟩ := hs
    exact ⟨hin, hsc, hsc0, hout, hr, hc, hw⟩
  | fillScaler =>
    obtain rfl := Option.some.inj hs
    have hzero : scaler.pushed = 0 := hr.1
    have hres : scaler.CanReserve := by
      unfold BoundedFifo.CanReserve
      omega
    exact ⟨hin, hsc.write hres _, hsc0, hout, ⟨hr.1, by simp, hr.2⟩, hc.scaler id, hw⟩
  | pushScaler =>
    obtain rfl := Option.some.inj hs
    have hzero : scaler.pushed = 0 := hr.1
    have hres : scaler.CanReserve := by
      unfold BoundedFifo.CanReserve
      omega
    exact ⟨hin, hsc.push hres hr.2.1, hsc0, hout,
      readerInvariant_loop (by simp [hr.1]) hr.2.2 (Nat.zero_le _),
      hc.scaler BoundedFifo.CanWait.push, hw⟩
  | reserveInput k =>
    simp only [readerStep, Option.ite_none_right_eq_some, Option.some.injEq] at hs
    obtain ⟨hres, rfl⟩ := hs
    exact ⟨hin, hsc, hsc0, hout, ⟨hr.1, hr.2.1, hr.2.2, hres⟩, hc, hw⟩
  | asyncRead k =>
    obtain rfl := Option.some.inj hs
    exact ⟨hin, hsc, hsc0, hout, hr, hc, hw⟩
  | readBarrier k =>
    obtain rfl := Option.some.inj hs
    obtain ⟨hs1, hk, hlt, hres⟩ := hr
    exact ⟨hin.write hres _, hsc, hsc0, hout, ⟨hs1, hk, hlt, hres, by simp⟩,
      hc.input rfl id, hw⟩
  | pushInput k =>
    obtain rfl := Option.some.inj hs
    obtain ⟨hs1, hk, hlt, hres, hback⟩ := hr
    exact ⟨hin.push hres (by rw [hback, hk]), hsc, hsc0, hout,
      readerInvariant_loop hs1 (by simp [hk]) hlt, hc.input rfl BoundedFifo.CanWait.push, hw⟩
  | done => cases hs

/-- The compute kernel's steps keep the invariant. -/
theorem PipelineInvariant.compute_step (h : PipelineInvariant cfg s)
    (hs : computeStep cfg s = some t) : PipelineInvariant cfg t := by
  obtain ⟨reader, compute, writer, input, scaler, output, dest, written⟩ := s
  obtain ⟨hin, hsc, hsc0, hout, hr, hc, hw⟩ := h
  dsimp only at *
  cases compute with
  | waitScaler =>
    simp only [computeStep, Option.ite_none_right_eq_some, Option.some.injEq] at hs
    obtain ⟨hwait, rfl⟩ := hs
    exact ⟨hin, hsc, hsc0, hout, hr,
      computeInvariant_rowLoop hwait (by simp [hc.1]) hc.2 (Nat.zero_le _), hw⟩
  | regsAcquire k =>
    obtain rfl := Option.some.inj hs
    obtain ⟨hwait, hk, hi, ho⟩ := hc
    exact ⟨hin, hsc, hsc0, hout, hr, ⟨hwait, hk, hi, ho, rfl⟩, hw⟩
  | regsWait k =>
    obtain rfl := Option.some.inj hs
    obtain ⟨hwait, hk, hi, ho, rfl⟩ := hc
    exact ⟨hin, hsc, hsc0, hout, hr, computeInvariant_colLoop hwait hk hi ho (Nat.zero_le _), hw⟩
  | waitInput k c =>
    simp only [computeStep, Option.ite_none_right_eq_some, Option.some.injEq] at hs
    obtain ⟨hcan, rfl⟩ := hs
    obtain ⟨hwait, hk, hlt, hi, ho, hd⟩ := hc
    exact ⟨hin, hsc, hsc0, hout, hr, ⟨hwait, hk, hlt, hi, hcan, ho, hd⟩, hw⟩
  | reduceTile k c =>
    obtain rfl := Option.some.inj hs
    obtain ⟨hwait, hk, hlt, hi, hcan, ho, rfl⟩ := hc
    -- the fronts are the scaler tile and the page this accumulation expects next
    have hdest : cfg.engine.reduceTile input.front scaler.front (cfg.partialDest k c) =
        cfg.partialDest k (c + 1) := by
      rw [hin.front hcan, hsc.front hwait, hi]
      exact (reducedDest_succ _ _ _ _ _ _).symm
    exact ⟨hin, hsc, hsc0, hout, hr, ⟨hwait, hk, hlt, hi, hcan, ho, hdest⟩, hw⟩
  | popInput k c =>
    obtain rfl := Option.some.inj hs
    obtain ⟨hwait, hk, hlt, hi, hcan, ho, rfl⟩ := hc
    exact ⟨hin.pop hcan, hsc, hsc0, hout, hr.pop,
      computeInvariant_colLoop hwait hk (by simp [hi, Nat.add_assoc]) ho hlt, hw⟩
  | reserveOutput k =>
    simp only [computeStep, Option.ite_none_right_eq_some, Option.some.injEq] at hs
    obtain ⟨hres, rfl⟩ := hs
    obtain ⟨hwait, hk, hi, ho, hd⟩ := hc
    exact ⟨hin, hsc, hsc0, hout, hr, ⟨hwait, hk, hi, ho, hres, hd⟩, hw⟩
  | packTile k =>
    obtain rfl := Option.some.inj hs
    obtain ⟨hwait, hk, hi, ho, hres, rfl⟩ := hc
    exact ⟨hin, hsc, hsc0, hout.write hres _, hr,
      ⟨hwait, hk, hi, ho, hres, BoundedFifo.write_back _ _⟩, hw.output rfl id⟩
  | pushOutput k =>
    obtain rfl := Option.some.inj hs
    obtain ⟨hwait, hk, hi, ho, hres, hback⟩ := hc
    exact ⟨hin, hsc, hsc0, hout.push hres (by rw [hback, ho]), hr,
      ⟨hwait, hk, hi, by simp [ho]⟩, hw.output rfl BoundedFifo.CanWait.push⟩
  | regsCommit k =>
    obtain rfl := Option.some.inj hs
    exact ⟨hin, hsc, hsc0, hout, hr, hc, hw⟩
  | regsRelease k =>
    obtain rfl := Option.some.inj hs
    obtain ⟨hwait, hk, hi, ho⟩ := hc
    exact ⟨hin, hsc, hsc0, hout, hr, computeInvariant_rowLoop hwait hi ho hk, hw⟩
  | done => cases hs

/-- The writer's steps keep the invariant. -/
theorem PipelineInvariant.writer_step (h : PipelineInvariant cfg s)
    (hs : writerStep cfg s = some t) : PipelineInvariant cfg t := by
  obtain ⟨reader, compute, writer, input, scaler, output, dest, written⟩ := s
  obtain ⟨hin, hsc, hsc0, hout, hr, hc, hw⟩ := h
  dsimp only at *
  cases writer with
  | waitOutput k =>
    simp only [writerStep, Option.ite_none_right_eq_some, Option.some.injEq] at hs
    obtain ⟨hcan, rfl⟩ := hs
    obtain ⟨hk, ho, hwr⟩ := hw
    exact ⟨hin, hsc, hsc0, hout, hr, hc, ⟨hk, ho, hcan, hwr⟩⟩
  | asyncWrite k =>
    obtain rfl := Option.some.inj hs
    exact ⟨hin, hsc, hsc0, hout, hr, hc, hw⟩
  | writeBarrier k =>
    obtain rfl := Option.some.inj hs
    obtain ⟨hk, ho, hcan, rfl⟩ := hw
    refine ⟨hin, hsc, hsc0, hout, hr, hc, ⟨hk, ho, hcan, ?_⟩⟩
    rw [cfg.pages_succ, hout.front hcan, ho]
  | popOutput k =>
    obtain rfl := Option.some.inj hs
    obtain ⟨hk, ho, hcan, rfl⟩ := hw
    exact ⟨hin, hsc, hsc0, hout.pop hcan, hr, hc.popOutput,
      writerInvariant_loop (by simp [ho]) hk⟩
  | done => cases hs

/-- Every step of every kernel keeps the invariant. -/
theorem PipelineInvariant.step (h : PipelineInvariant cfg s) (hs : PipelineStep cfg s t) :
    PipelineInvariant cfg t := by
  rcases hs with hs | hs | hs
  exacts [h.reader_step hs, h.compute_step hs, h.writer_step hs]

end RowReduce
