import RowReduce.Host.Output

/-!
# The tile engine under the compute kernel

The kernel calls three external operations on a Dest tile: acquire it zeroed,
reduce one input tile into it, and pack it. An output page is what the compute
loop leaves after the tiles of one tile-row.
-/

namespace RowReduce

open BinaryFloat

/-- The low-level operations compute.cpp calls, with Dest slot 0 as the only slot. -/
structure TileEngine (Tile Dest : Type) where
  /-- Dest after `tile_regs_acquire`. -/
  acquire : Dest
  /-- `reduce_tile` of a data tile under a scaler tile. -/
  reduceTile : Tile → Tile → Dest → Dest
  packTile : Dest → Tile

section OutputPage

variable {Tile Dest : Type} (engine : TileEngine Tile Dest)

/-- Dest after the first `count` tiles of tile-row `tileRow`. -/
def reducedDest (scaler : Tile) (wt : ℕ) (inputPage : ℕ → Tile) (tileRow count : ℕ) : Dest :=
  (List.range count).foldl (fun dest tileCol =>
    engine.reduceTile (inputPage (tileRow * wt + tileCol)) scaler dest) engine.acquire

/-- The page packed for tile-row `tileRow`. -/
def outputPage (scaler : Tile) (wt : ℕ) (inputPage : ℕ → Tile) (tileRow : ℕ) : Tile :=
  engine.packTile (reducedDest engine scaler wt inputPage tileRow wt)

@[simp] theorem reducedDest_zero (scaler : Tile) (wt : ℕ) (inputPage : ℕ → Tile) (tileRow : ℕ) :
    reducedDest engine scaler wt inputPage tileRow 0 = engine.acquire := rfl

/-- One more page is reduced onto those before. -/
theorem reducedDest_succ (scaler : Tile) (wt : ℕ) (inputPage : ℕ → Tile) (tileRow count : ℕ) :
    reducedDest engine scaler wt inputPage tileRow (count + 1) =
      engine.reduceTile (inputPage (tileRow * wt + count)) scaler
        (reducedDest engine scaler wt inputPage tileRow count) := by
  rw [reducedDest, List.range_succ, List.foldl_append]
  rfl

end OutputPage

/-- The 1024 words of page `page` of a tiled buffer. -/
def tilePage (tiled : List Bf16Word) (page : ℕ) : List Bf16Word :=
  (tiled.drop (1024 * page)).take 1024

/-- The words of a page are those of its place in the tiles. -/
theorem getElem?_tilePage (tiled : List Bf16Word) (page : ℕ) {k : ℕ} (hk : k < 1024) :
    (tilePage tiled page)[k]? = tiled[page * 1024 + k]? := by
  rw [tilePage, List.getElem?_take_of_lt hk, List.getElem?_drop, Nat.mul_comm]

/-- The BF16 word nearest to a rational, ties to even. -/
def roundToBf16 (q : ℚ) : Bf16Word := BitVec.ofNat 16 (bfloat16.encode q)

/-- The sum of one row of a face-layout tile. -/
def tileRowSum (tile : List Bf16Word) (row : ℕ) : ℚ :=
  ((List.range 32).map fun col => (bf16Value (outputWord tile row col)).toRat).sum

/-- What the row reduction needs of the engine, Dest being read as a grid of rationals. -/
structure RowSumLaws {Dest : Type} (engine : TileEngine (List Bf16Word) Dest)
    (scaler : List Bf16Word) (read : Dest → ℕ → ℕ → ℚ) : Prop where
  acquire : ∀ r c, r < 32 → c < 32 → read engine.acquire r c = 0
  /-- Finite tiles add their row sums to column zero. -/
  reduce_sum : ∀ data dest r, (∀ w ∈ data, (bf16Value w).isFinite = true) → r < 32 →
    read (engine.reduceTile data scaler dest) r 0 = read dest r 0 + tileRowSum data r
  reduce_other : ∀ data dest r c, (∀ w ∈ data, (bf16Value w).isFinite = true) → r < 32 → c < 32 →
    c ≠ 0 → read (engine.reduceTile data scaler dest) r c = read dest r c
  pack_length : ∀ dest, (engine.packTile dest).length = 1024
  pack : ∀ dest r c, r < 32 → c < 32 →
    (engine.packTile dest)[tileFaceIndexUnchecked r c 32]? = some (roundToBf16 (read dest r c))

/-- An engine that meets the laws: Dest is a grid of rationals. -/
def rationalEngine : TileEngine (List Bf16Word) (ℕ → ℕ → ℚ) where
  acquire := fun _ _ => 0
  reduceTile data _ dest := fun r c => if c = 0 then dest r 0 + tileRowSum data r else dest r c
  packTile dest := (List.range 1024).map fun k =>
    roundToBf16 (dest (tileFacePosition k 32).1 (tileFacePosition k 32).2)

/-- Exact arithmetic satisfies the laws of the engine. -/
theorem rationalEngine_laws (scaler : List Bf16Word) :
    RowSumLaws rationalEngine scaler fun dest r c => dest r c where
  acquire _ _ _ _ := rfl
  reduce_sum _ _ _ _ _ := rfl
  reduce_other _ _ _ _ _ _ _ hc := if_neg hc
  pack_length _ := by simp [rationalEngine]
  pack dest r c hr hc := by
    have hlt : tileFaceIndexUnchecked r c 32 < 1024 :=
      tileFaceIndex_lt (by norm_num : 32 % 32 = 0) (by norm_num) hr hc
    simp only [rationalEngine, List.getElem?_map, List.getElem?_range hlt, Option.map_some,
      tileFacePosition_index (by norm_num : 32 % 32 = 0) hc]

namespace RowSumLaws

variable {Dest : Type} {engine : TileEngine (List Bf16Word) Dest} {scaler : List Bf16Word}
  {read : Dest → ℕ → ℕ → ℚ} {wt tileRow : ℕ} {inputPage : ℕ → List Bf16Word}

/-- The accumulated column zero is the sum of the tiles' row sums. -/
theorem read_reducedDest (h : RowSumLaws engine scaler read) {count : ℕ}
    (hfinite : ∀ c < count, ∀ w ∈ inputPage (tileRow * wt + c), (bf16Value w).isFinite = true)
    {r : ℕ} (hr : r < 32) : read (reducedDest engine scaler wt inputPage tileRow count) r 0 =
      ((List.range count).map fun c => tileRowSum (inputPage (tileRow * wt + c)) r).sum := by
  induction count with
  | zero => exact h.acquire r 0 hr (by norm_num)
  | succ count ih =>
    rw [reducedDest_succ, h.reduce_sum _ _ _ (hfinite count (by omega)) hr,
      ih fun c hc => hfinite c (by omega), List.range_succ]
    simp

/-- Columns other than the first stay zero. -/
theorem read_reducedDest_other (h : RowSumLaws engine scaler read) {count : ℕ}
    (hfinite : ∀ c < count, ∀ w ∈ inputPage (tileRow * wt + c), (bf16Value w).isFinite = true)
    {r c : ℕ} (hr : r < 32) (hc : c < 32) (hc0 : c ≠ 0) :
    read (reducedDest engine scaler wt inputPage tileRow count) r c = 0 := by
  induction count with
  | zero => exact h.acquire r c hr hc
  | succ count ih =>
    rw [reducedDest_succ, h.reduce_other _ _ _ _ (hfinite count (by omega)) hr hc hc0]
    exact ih fun c hc => hfinite c (by omega)

end RowSumLaws

/-- A position of a grid is its tile's page and the position inside that tile. -/
theorem tileFaceIndex_tile (i j cols : ℕ) {r c : ℕ} (hr : r < 32) (hc : c < 32) :
    tileFaceIndexUnchecked (32 * i + r) (32 * j + c) cols =
      (i * (cols / 32) + j) * 1024 + tileFaceIndexUnchecked r c 32 := by
  have h1 : (32 * i + r) / 32 = i := by omega
  have h2 : (32 * i + r) % 32 = r := by omega
  have h3 : (32 * i + r) % 16 = r % 16 := by omega
  have h4 : (32 * j + c) / 32 = j := by omega
  have h5 : (32 * j + c) % 32 = c := by omega
  have h6 : (32 * j + c) % 16 = c % 16 := by omega
  simp only [tileFaceIndexUnchecked, h1, h2, h3, h4, h5, h6, Nat.mod_eq_of_lt hr,
    Nat.mod_eq_of_lt hc, Nat.div_eq_of_lt hr, Nat.div_eq_of_lt hc]
  omega

/-- An index within a tile. -/
theorem tileFaceIndex_lt_tile {r c : ℕ} (hr : r < 32) (hc : c < 32) :
    tileFaceIndexUnchecked r c 32 < 1024 :=
  tileFaceIndex_lt (by norm_num : 32 % 32 = 0) (by norm_num) hr hc

/-- Summing tile by tile sums the whole row. -/
theorem sum_tiles (g : ℕ → ℚ) (wt : ℕ) :
    ((List.range wt).map fun j => ((List.range 32).map fun c => g (32 * j + c)).sum).sum =
      ((List.range (32 * wt)).map g).sum := by
  induction wt with
  | zero => rfl
  | succ wt ih =>
    rw [List.range_succ (n := wt), List.map_append, List.sum_append, ih, Nat.mul_succ,
      List.range_add (n := 32 * wt), List.map_append, List.sum_append, List.map_map]
    simp only [List.map_cons, List.map_nil, List.sum_cons, List.sum_nil, add_zero,
      Function.comp_def]

/-- A row whose entries vanish past `cols` has the sum of its first `cols` entries. -/
theorem sum_range_of_zero_tail (g : ℕ → ℚ) {cols width : ℕ} (hle : cols ≤ width)
    (hzero : ∀ c, cols ≤ c → g c = 0) :
    ((List.range width).map g).sum = ((List.range cols).map g).sum := by
  obtain ⟨k, rfl⟩ := Nat.exists_eq_add_of_le hle
  rw [List.range_add, List.map_append, List.sum_append, List.map_map]
  rw [List.sum_eq_zero (l := (List.range k).map _), add_zero]
  intro q hq
  obtain ⟨c, _, rfl⟩ := List.mem_map.mp hq
  exact hzero _ (Nat.le_add_right _ _)

end RowReduce
