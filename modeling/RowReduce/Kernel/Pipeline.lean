import RowReduce.Core.BoundedFifo
import RowReduce.Core.Transition
import RowReduce.Kernel.TileEngine

/-!
# The three kernels as communicating processes

Reader, compute and writer advance one API call at a time and share only the
three dataflow buffers. A NoC transfer takes effect at its barrier. Any enabled
process may take the next step.
-/

namespace RowReduce

/-- Program points of reader.cpp; the argument is the loop variable `tile`. -/
inductive ReaderPoint where
  | reserveScaler
  | fillScaler
  | pushScaler
  | reserveInput (tile : ℕ)
  | asyncRead (tile : ℕ)
  | readBarrier (tile : ℕ)
  | pushInput (tile : ℕ)
  | done
  deriving DecidableEq, Repr

/-- Program points of compute.cpp; the arguments are `tile_row` and `tile_col`. -/
inductive ComputePoint where
  | waitScaler
  | regsAcquire (tileRow : ℕ)
  | regsWait (tileRow : ℕ)
  | waitInput (tileRow tileCol : ℕ)
  | reduceTile (tileRow tileCol : ℕ)
  | popInput (tileRow tileCol : ℕ)
  | reserveOutput (tileRow : ℕ)
  | packTile (tileRow : ℕ)
  | pushOutput (tileRow : ℕ)
  | regsCommit (tileRow : ℕ)
  | regsRelease (tileRow : ℕ)
  | done
  deriving DecidableEq, Repr

/-- Program points of writer.cpp; the argument is the loop variable `tile`. -/
inductive WriterPoint where
  | waitOutput (tile : ℕ)
  | asyncWrite (tile : ℕ)
  | writeBarrier (tile : ℕ)
  | popOutput (tile : ℕ)
  | done
  deriving DecidableEq, Repr

/-- What the host binds before a launch: the specialization, the input pages and the scaler. -/
structure PipelineConfig (Tile Dest : Type) where
  ht : ℕ
  wt : ℕ
  source : ℕ → Tile
  scalerTile : Tile
  engine : TileEngine Tile Dest

/-- The reader's runtime argument `num_tiles`. -/
def PipelineConfig.readerTiles {Tile Dest : Type} (cfg : PipelineConfig Tile Dest) : ℕ :=
  cfg.ht * cfg.wt

structure PipelineState (Tile Dest : Type) where
  reader : ReaderPoint
  compute : ComputePoint
  writer : WriterPoint
  input : BoundedFifo Tile 2
  scaler : BoundedFifo Tile 1
  output : BoundedFifo Tile 2
  /-- Dest slot 0. -/
  dest : Dest
  /-- Completed page writes to the output tensor, oldest first. -/
  written : List (ℕ × Tile)

section Steps

variable {Tile Dest : Type} (cfg : PipelineConfig Tile Dest)

def readerLoop (tile : ℕ) : ReaderPoint :=
  if tile < cfg.readerTiles then .reserveInput tile else .done

def computeRowLoop (tileRow : ℕ) : ComputePoint :=
  if tileRow < cfg.ht then .regsAcquire tileRow else .done

def computeColLoop (tileRow tileCol : ℕ) : ComputePoint :=
  if tileCol < cfg.wt then .waitInput tileRow tileCol else .reserveOutput tileRow

def writerLoop (tile : ℕ) : WriterPoint :=
  if tile < cfg.ht then .waitOutput tile else .done

/-- One step of the reader, `none` when it is blocked or finished. -/
def readerStep (s : PipelineState Tile Dest) : Option (PipelineState Tile Dest) :=
  match s.reader with
  | .reserveScaler => if s.scaler.CanReserve then some { s with reader := .fillScaler } else none
  | .fillScaler => some { s with scaler := s.scaler.write cfg.scalerTile, reader := .pushScaler }
  | .pushScaler => some { s with scaler := s.scaler.push, reader := readerLoop cfg 0 }
  | .reserveInput tile =>
    if s.input.CanReserve then some { s with reader := .asyncRead tile } else none
  | .asyncRead tile => some { s with reader := .readBarrier tile }
  | .readBarrier tile =>
    some { s with input := s.input.write (cfg.source tile), reader := .pushInput tile }
  | .pushInput tile => some { s with input := s.input.push, reader := readerLoop cfg (tile + 1) }
  | .done => none

/-- One step of the compute kernel. -/
def computeStep (s : PipelineState Tile Dest) : Option (PipelineState Tile Dest) :=
  match s.compute with
  | .waitScaler =>
    if s.scaler.CanWait then some { s with compute := computeRowLoop cfg 0 } else none
  | .regsAcquire tileRow => some { s with dest := cfg.engine.acquire, compute := .regsWait tileRow }
  | .regsWait tileRow => some { s with compute := computeColLoop cfg tileRow 0 }
  | .waitInput tileRow tileCol =>
    if s.input.CanWait then some { s with compute := .reduceTile tileRow tileCol } else none
  | .reduceTile tileRow tileCol =>
    some { s with dest := cfg.engine.reduceTile s.input.front s.scaler.front s.dest,
                  compute := .popInput tileRow tileCol }
  | .popInput tileRow tileCol =>
    some { s with input := s.input.pop, compute := computeColLoop cfg tileRow (tileCol + 1) }
  | .reserveOutput tileRow =>
    if s.output.CanReserve then some { s with compute := .packTile tileRow } else none
  | .packTile tileRow =>
    some { s with output := s.output.write (cfg.engine.packTile s.dest),
                  compute := .pushOutput tileRow }
  | .pushOutput tileRow => some { s with output := s.output.push, compute := .regsCommit tileRow }
  | .regsCommit tileRow => some { s with compute := .regsRelease tileRow }
  | .regsRelease tileRow => some { s with compute := computeRowLoop cfg (tileRow + 1) }
  | .done => none

/-- One step of the writer. -/
def writerStep (s : PipelineState Tile Dest) : Option (PipelineState Tile Dest) :=
  match s.writer with
  | .waitOutput tile =>
    if s.output.CanWait then some { s with writer := .asyncWrite tile } else none
  | .asyncWrite tile => some { s with writer := .writeBarrier tile }
  | .writeBarrier tile =>
    some { s with written := s.written ++ [(tile, s.output.front)], writer := .popOutput tile }
  | .popOutput tile => some { s with output := s.output.pop, writer := writerLoop cfg (tile + 1) }
  | .done => none

/-- One step of whichever process moves next. -/
def PipelineStep (s t : PipelineState Tile Dest) : Prop :=
  readerStep cfg s = some t ∨ computeStep cfg s = some t ∨ writerStep cfg s = some t

/-- The state at launch: empty buffers with arbitrary contents, an arbitrary Dest. -/
def launch (inputSlots scalerSlots outputSlots : ℕ → Tile) (dest : Dest) :
    PipelineState Tile Dest where
  reader := .reserveScaler
  compute := .waitScaler
  writer := writerLoop cfg 0
  input := .launch inputSlots
  scaler := .launch scalerSlots
  output := .launch outputSlots
  dest := dest
  written := []

end Steps

/-- All three kernels have returned. -/
def PipelineState.Finished {Tile Dest : Type} (s : PipelineState Tile Dest) : Prop :=
  s.reader = .done ∧ s.compute = .done ∧ s.writer = .done

end RowReduce
