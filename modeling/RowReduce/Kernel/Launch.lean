import RowReduce.Host.Run
import RowReduce.Kernel.Pipeline

/-!
# A launch seen from the host

The scaler tile the reader fills, the output buffer under the pages the writer
completes, and the readback of kernels that have all returned.
-/

namespace RowReduce

open Grid Transition

/-- The runtime argument `scaler`, the bits of `1.0f`. -/
def scalerArgument : Word32 := 0x3f800000#32

/-- The first row of every face holds the upper half of the argument, all else is zero. -/
def fillScaler (scaler : Word32) : List Bf16Word :=
  let scaleBits : Bf16Word := (scaler >>> 16).setWidth 16
  (positions 4 16).foldl (fun values p => values.set (p.1 * 256 + p.2) scaleBits)
    (List.replicate 1024 0)

/-- One completed page write into a buffer of pages of 1024 words. -/
def writePage (buffer : List Bf16Word) (page : ℕ × List Bf16Word) : List Bf16Word :=
  buffer.take (1024 * page.1) ++ (page.2 ++ buffer.drop (1024 * (page.1 + 1)))

def writePages (buffer : List Bf16Word) (written : List (ℕ × List Bf16Word)) : List Bf16Word :=
  written.foldl writePage buffer

/-- The pipeline of a launch: `Ht` and `Wt` as specialised, the uploaded pages and the scaler. -/
def launchConfig {Dest : Type} (engine : TileEngine (List Bf16Word) Dest) (ht wt : ℕ)
    (upload : List Word32) : PipelineConfig (List Bf16Word) Dest where
  ht := ht
  wt := wt
  source := tilePage (resultBits upload)
  scalerTile := fillScaler scalerArgument
  engine := engine

/-- What some schedule of the three kernels leaves in the output buffer, whatever their buffers
and Dest held before the launch. -/
def KernelReadback {Dest : Type} (engine : TileEngine (List Bf16Word) Dest) (ht wt : ℕ)
    (upload output words : List Word32) : Prop :=
  ∃ (inputSlots scalerSlots outputSlots : ℕ → List Bf16Word) (dest : Dest)
    (s : PipelineState (List Bf16Word) Dest),
    Reachable (PipelineStep (launchConfig engine ht wt upload))
      (launch (launchConfig engine ht wt upload) inputSlots scalerSlots outputSlots dest) s ∧
    s.Finished ∧ words = packWords (writePages (resultBits output) s.written)

/-- A device that raises nothing and whose launches run the three kernels to their end. -/
structure Device.RunsKernels {Dest : Type} (d : Device) (engine : TileEngine (List Bf16Word) Dest)
    (ht wt : ℕ) : Prop where
  createUnitMesh : d.createUnitMesh = .ok ()
  wormhole : d.wormhole = true
  setup : d.setup = .ok ()
  launch : ∀ i upload output, output.length = ht * 512 →
    ∃ words, d.launch i upload output = .ok words ∧ KernelReadback engine ht wt upload output words
  readProfiler : ∀ i, d.readProfiler i = .ok ()
  close : d.close = .ok true

end RowReduce
