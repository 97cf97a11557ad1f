import RowReduce.Core.Grid

/-!
# Shapes and the physical tile layout

Shape validation, padding, and the 32×32 tile layout of four 16×16 faces. The
face index is a bijection between the grid and the buffer, so tilizing and
untilizing are the same relation between the two lists, read in two directions.
-/

namespace RowReduce

open Grid

/-- The standard exceptions the host throws, with their `what()` texts. -/
inductive HostException where
  | overflowError (what : String)
  | invalidArgument (what : String)
  | outOfRange (what : String)
  | runtimeError (what : String)
  deriving DecidableEq, Repr

def HostException.what : HostException → String
  | overflowError what | invalidArgument what | outOfRange what | runtimeError what => what

def tileSide : ℕ := 32
def maxDimension : ℕ := 128

/-- The largest `std::size_t`. -/
def sizeMax : ℕ := 2 ^ 64 - 1

structure Shape where
  rows : ℕ
  cols : ℕ
  deriving DecidableEq, Repr

def checkedProduct (a b : ℕ) : Except HostException ℕ :=
  if b ≠ 0 ∧ a > sizeMax / b then throw (.overflowError "shape multiplication overflow")
  else pure (a * b)

def validateShape (shape : Shape) (nodes : ℕ) : Except HostException Unit := do
  let _ ← checkedProduct shape.rows shape.cols
  if shape.rows = 0 ∨ shape.cols = 0 ∨ shape.rows > maxDimension ∨ shape.cols > maxDimension then
    throw (.invalidArgument "rows and cols must each be in [1,128]")
  if nodes ≠ 1 then
    throw (.invalidArgument "this single-node contract requires nodes=1")

def paddedDimension (dimension : ℕ) : Except HostException ℕ :=
  if dimension = 0 ∨ dimension > maxDimension then
    throw (.invalidArgument "padding dimension must be in [1,128]")
  else pure ((dimension + tileSide - 1) / tileSide * tileSide)

def validateTileShape (rows cols : ℕ) : Except HostException Unit := do
  let _ ← checkedProduct rows cols
  if rows = 0 ∨ cols = 0 ∨ rows % tileSide ≠ 0 ∨ cols % tileSide ≠ 0 then
    throw (.invalidArgument "physical dimensions must be positive multiples of 32")

/-- Faces are stored top-left, top-right, bottom-left, bottom-right, tiles row-major. -/
def tileFaceIndexUnchecked (row col paddedCols : ℕ) : ℕ :=
  let tile := row / 32 * (paddedCols / 32) + col / 32
  let face := row % 32 / 16 * 2 + col % 32 / 16
  tile * 1024 + face * 256 + row % 16 * 16 + col % 16

section Tilize

variable {α : Type} [Inhabited α]

def tilize (rowMajor : List α) (rows cols : ℕ) : Except HostException (List α) := do
  validateTileShape rows cols
  if rowMajor.length ≠ (← checkedProduct rows cols) then
    throw (.invalidArgument "tilize data length does not match shape")
  return (positions rows cols).foldl (fun tiled p =>
    tiled.set (tileFaceIndexUnchecked p.1 p.2 cols) (rowMajor.getD (p.1 * cols + p.2) default))
    (List.replicate rowMajor.length default)

def untilize (tiled : List α) (rows cols : ℕ) : Except HostException (List α) := do
  validateTileShape rows cols
  if tiled.length ≠ (← checkedProduct rows cols) then
    throw (.invalidArgument "untilize data length does not match shape")
  return (positions rows cols).foldl (fun rowMajor p =>
    rowMajor.set (p.1 * cols + p.2) (tiled.getD (tileFaceIndexUnchecked p.1 p.2 cols) default))
    (List.replicate tiled.length default)

end Tilize

/-- The shapes and node counts the contract accepts. -/
def Shape.Valid (shape : Shape) : Prop :=
  0 < shape.rows ∧ shape.rows ≤ 128 ∧ 0 < shape.cols ∧ shape.cols ≤ 128

instance (shape : Shape) : Decidable shape.Valid := inferInstanceAs (Decidable (_ ∧ _))

/-- A product in range is computed. -/
theorem checkedProduct_eq_ok {a b : ℕ} (h : a * b ≤ sizeMax) :
    checkedProduct a b = .ok (a * b) := by
  unfold checkedProduct
  rw [if_neg]
  · rfl
  · rintro ⟨hb, hgt⟩
    rw [gt_iff_lt, Nat.div_lt_iff_lt_mul (Nat.pos_of_ne_zero hb)] at hgt
    omega

/-- A valid shape on one node is accepted. -/
theorem validateShape_of_valid {shape : Shape} (h : shape.Valid) :
    validateShape shape 1 = .ok () := by
  obtain ⟨hr, hr', hc, hc'⟩ := h
  have hp : shape.rows * shape.cols ≤ 128 * 128 := Nat.mul_le_mul hr' hc'
  rw [validateShape, checkedProduct_eq_ok (by unfold sizeMax; omega)]
  simp [bind, Except.bind, pure, Except.pure, maxDimension]
  omega

/-- Shape validation accepts exactly the contract's shapes on one node. -/
theorem validateShape_eq_ok_iff {shape : Shape} {nodes : ℕ} :
    validateShape shape nodes = .ok () ↔ shape.Valid ∧ nodes = 1 := by
  constructor
  · intro h
    rw [validateShape] at h
    cases hp : checkedProduct shape.rows shape.cols with
    | error e => simp [hp, bind, Except.bind] at h
    | ok n =>
      simp only [hp, bind, Except.bind, maxDimension] at h
      by_cases hs : shape.rows = 0 ∨ shape.cols = 0 ∨ shape.rows > 128 ∨ shape.cols > 128
      · simp [hs, throw, throwThe, MonadExceptOf.throw] at h
      · by_cases hn : nodes = 1
        · exact ⟨⟨by omega, by omega, by omega, by omega⟩, hn⟩
        · simp [hs, hn, throw, throwThe, MonadExceptOf.throw] at h
  · rintro ⟨hs, rfl⟩
    exact validateShape_of_valid hs

/-- The padded size of a valid dimension. -/
def padded (dimension : ℕ) : ℕ := (dimension + 31) / 32 * 32

/-- A dimension in range is padded. -/
theorem paddedDimension_eq_ok {dimension : ℕ} (h0 : 0 < dimension) (h : dimension ≤ 128) :
    paddedDimension dimension = .ok (padded dimension) := by
  rw [paddedDimension, if_neg (by unfold maxDimension; omega)]
  rfl

/-- Padding does not shorten a dimension. -/
theorem le_padded (dimension : ℕ) : dimension ≤ padded dimension := by
  unfold padded
  omega

/-- A padded dimension stays in range. -/
theorem padded_le {dimension : ℕ} (h : dimension ≤ 128) : padded dimension ≤ 128 := by
  unfold padded
  omega

/-- A padded dimension is positive. -/
theorem padded_pos {dimension : ℕ} (h : 0 < dimension) : 0 < padded dimension := by
  unfold padded
  omega

/-- A padded dimension is a multiple of 32. -/
@[simp] theorem padded_mod (dimension : ℕ) : padded dimension % 32 = 0 := by
  unfold padded
  omega

/-- The grid position stored at a buffer index. -/
def tileFacePosition (k paddedCols : ℕ) : ℕ × ℕ :=
  (k / 1024 / (paddedCols / 32) * 32 + k / 512 % 2 * 16 + k / 16 % 16,
    k / 1024 % (paddedCols / 32) * 32 + k / 256 % 2 * 16 + k % 16)

section FaceIndex

variable {rows cols : ℕ}

/-- Tile, face and in-face offset of a coordinate. -/
theorem exists_tile_face_offset (x : ℕ) :
    ∃ tile face offset, face < 2 ∧ offset < 16 ∧ x = 32 * tile + 16 * face + offset :=
  ⟨x / 32, x % 32 / 16, x % 16, by omega, by omega, by omega⟩

/-- The face index of a position given by tile, face and in-face offsets. -/
theorem tileFaceIndex_split (i j cols : ℕ) {b r y c : ℕ} (hb : b < 2) (hr : r < 16) (hy : y < 2)
    (hc : c < 16) : tileFaceIndexUnchecked (32 * i + 16 * b + r) (32 * j + 16 * y + c) cols =
      (i * (cols / 32) + j) * 1024 + (b * 2 + y) * 256 + r * 16 + c := by
  have h1 : (32 * i + 16 * b + r) / 32 = i := by omega
  have h2 : (32 * i + 16 * b + r) % 32 / 16 = b := by omega
  have h3 : (32 * i + 16 * b + r) % 16 = r := by omega
  have h4 : (32 * j + 16 * y + c) / 32 = j := by omega
  have h5 : (32 * j + 16 * y + c) % 32 / 16 = y := by omega
  have h6 : (32 * j + 16 * y + c) % 16 = c := by omega
  simp only [tileFaceIndexUnchecked, h1, h2, h3, h4, h5, h6]

/-- The position of an index given by tile, face and in-face offsets. -/
theorem tileFacePosition_split (t cols : ℕ) {b r y c : ℕ} (hb : b < 2) (hr : r < 16) (hy : y < 2)
    (hc : c < 16) : tileFacePosition (t * 1024 + (b * 2 + y) * 256 + r * 16 + c) cols =
      (32 * (t / (cols / 32)) + 16 * b + r, 32 * (t % (cols / 32)) + 16 * y + c) := by
  have h1 : (t * 1024 + (b * 2 + y) * 256 + r * 16 + c) / 1024 = t := by omega
  have h2 : (t * 1024 + (b * 2 + y) * 256 + r * 16 + c) / 512 % 2 = b := by omega
  have h3 : (t * 1024 + (b * 2 + y) * 256 + r * 16 + c) / 256 % 2 = y := by omega
  have h4 : (t * 1024 + (b * 2 + y) * 256 + r * 16 + c) / 16 % 16 = r := by omega
  have h5 : (t * 1024 + (b * 2 + y) * 256 + r * 16 + c) % 16 = c := by omega
  simp only [tileFacePosition, h1, h2, h3, h4, h5, Prod.mk.injEq]
  constructor <;> ring

/-- A position is read back from its face index. -/
theorem tileFacePosition_index {row col : ℕ} (hcols : cols % 32 = 0) (hc : col < cols) :
    tileFacePosition (tileFaceIndexUnchecked row col cols) cols = (row, col) := by
  obtain ⟨i, b, r, hb, hr, rfl⟩ := exists_tile_face_offset row
  obtain ⟨j, y, c, hy, hc', rfl⟩ := exists_tile_face_offset col
  have hj : j < cols / 32 := by omega
  rw [tileFaceIndex_split i j cols hb hr hy hc', tileFacePosition_split _ cols hb hr hy hc',
    rowMajor_div hj, rowMajor_mod hj]

/-- A face index stays inside the buffer. -/
theorem tileFaceIndex_lt {row col : ℕ} (hrows : rows % 32 = 0) (hcols : cols % 32 = 0)
    (hr : row < rows) (hc : col < cols) :
    tileFaceIndexUnchecked row col cols < rows * cols := by
  obtain ⟨h, rfl⟩ : ∃ h, rows = 32 * h := ⟨rows / 32, by omega⟩
  obtain ⟨w, rfl⟩ : ∃ w, cols = 32 * w := ⟨cols / 32, by omega⟩
  obtain ⟨i, b, r, hb, hr', rfl⟩ := exists_tile_face_offset row
  obtain ⟨j, y, c, hy, hc', rfl⟩ := exists_tile_face_offset col
  have htile : i * w + j < h * w := rowMajor_lt (by omega) (by omega)
  have hmul : 32 * h * (32 * w) = 1024 * (h * w) := by ring
  rw [tileFaceIndex_split i j _ hb hr' hy hc', hmul, Nat.mul_div_cancel_left _ (by norm_num)]
  omega

/-- Positions of one matrix have different tile-face indices. -/
theorem tileFaceIndex_injective {p q : ℕ × ℕ} (hcols : cols % 32 = 0) (hp : p.2 < cols)
    (hq : q.2 < cols)
    (h : tileFaceIndexUnchecked p.1 p.2 cols = tileFaceIndexUnchecked q.1 q.2 cols) : p = q := by
  rw [← Prod.mk.eta (p := p), ← Prod.mk.eta (p := q), ← tileFacePosition_index hcols hp, h,
    tileFacePosition_index hcols hq]

/-- Every buffer index is the face index of a position inside the grid. -/
theorem tileFaceIndex_position {k : ℕ} (hrows : rows % 32 = 0) (hcols : cols % 32 = 0)
    (hk : k < rows * cols) :
    (tileFacePosition k cols).1 < rows ∧ (tileFacePosition k cols).2 < cols ∧
      tileFaceIndexUnchecked (tileFacePosition k cols).1 (tileFacePosition k cols).2 cols = k := by
  obtain ⟨h, rfl⟩ : ∃ h, rows = 32 * h := ⟨rows / 32, by omega⟩
  obtain ⟨w, rfl⟩ : ∃ w, cols = 32 * w := ⟨cols / 32, by omega⟩
  obtain ⟨t, b, y, r, c, hb, hy, hr, hc, rfl⟩ : ∃ t b y r c, b < 2 ∧ y < 2 ∧ r < 16 ∧ c < 16 ∧
      k = t * 1024 + (b * 2 + y) * 256 + r * 16 + c :=
    ⟨k / 1024, k / 512 % 2, k / 256 % 2, k / 16 % 16, k % 16, by omega, by omega, by omega,
      by omega, by omega⟩
  have hmul : 32 * h * (32 * w) = 1024 * (h * w) := by ring
  have ht : t < h * w := by omega
  have hw : 0 < w := Nat.pos_of_ne_zero (by rintro rfl; simp at ht)
  have hdiv : 32 * w / 32 = w := Nat.mul_div_cancel_left _ (by norm_num)
  have hi : t / w < h := Nat.div_lt_of_lt_mul (by rwa [Nat.mul_comm])
  have hj : t % w < w := Nat.mod_lt _ hw
  rw [tileFacePosition_split t _ hb hr hy hc, tileFaceIndex_split _ _ _ hb hr hy hc, hdiv,
    Nat.div_add_mod']
  exact ⟨by dsimp only; omega, by dsimp only; omega, rfl⟩

end FaceIndex

/-- Buffer dimensions both layout functions accept. -/
structure TileShape (rows cols : ℕ) : Prop where
  rows_pos : 0 < rows
  cols_pos : 0 < cols
  rows_mod : rows % 32 = 0
  cols_mod : cols % 32 = 0
  product_le : rows * cols ≤ sizeMax

/-- A tile shape is accepted. -/
theorem TileShape.validate {rows cols : ℕ} (h : TileShape rows cols) :
    validateTileShape rows cols = .ok () := by
  rw [validateTileShape, checkedProduct_eq_ok h.product_le]
  have h1 := h.rows_pos.ne'
  have h2 := h.cols_pos.ne'
  simp [bind, Except.bind, pure, Except.pure, tileSide, h1, h2, h.rows_mod, h.cols_mod]

/-- The padded rows of a padded width are a tile shape. -/
theorem TileShape.padded_row {dimension cols : ℕ} (h0 : 0 < dimension) (h : dimension ≤ 128)
    (hc0 : 0 < cols) (hc : cols ≤ 128) (hm : cols % 32 = 0) :
      TileShape (padded dimension) cols where
  rows_pos := padded_pos h0
  cols_pos := hc0
  rows_mod := padded_mod dimension
  cols_mod := hm
  product_le := by
    have := Nat.mul_le_mul (padded_le h) hc
    unfold sizeMax
    omega

section Spec

variable {α : Type} [Inhabited α] {rows cols : ℕ}

/-- A tilized list holds each grid element at its face index. -/
theorem tilize_spec (hs : TileShape rows cols) {rowMajor : List α}
    (hlen : rowMajor.length = rows * cols) :
    ∃ tiled, tilize rowMajor rows cols = .ok tiled ∧ tiled.length = rows * cols ∧
      ∀ r c, r < rows → c < cols →
        tiled[tileFaceIndexUnchecked r c cols]? = rowMajor[r * cols + c]? := by
  refine ⟨_, by rw [tilize, hs.validate, checkedProduct_eq_ok hs.product_le, hlen]
                simp [bind, Except.bind, pure, Except.pure]; rfl, by simp, ?_⟩
  intro r c hr hc
  have hget : rowMajor[r * cols + c]? = some (rowMajor.getD (r * cols + c) default) := by
    have := rowMajor_lt hr hc
    rw [List.getElem?_eq_getElem (by omega), List.getD_eq_getElem?_getD,
      List.getElem?_eq_getElem (by omega), Option.getD_some]
  rw [hget]
  refine getElem?_foldl_set (fun p : ℕ × ℕ => tileFaceIndexUnchecked p.1 p.2 cols)
    (fun p => rowMajor.getD (p.1 * cols + p.2) default) _ (nodup_positions rows cols) ?_
    (i := (r, c)) (mem_positions.mpr ⟨hr, hc⟩) ?_
  · intro p hp q hq h
    exact tileFaceIndex_injective hs.cols_mod (mem_positions.mp hp).2 (mem_positions.mp hq).2 h
  · rw [List.length_replicate]
    exact tileFaceIndex_lt hs.rows_mod hs.cols_mod hr hc

/-- An untilized list reads each grid element from its face index, in row-major order. -/
theorem untilize_spec (hs : TileShape rows cols) {tiled : List α}
    (hlen : tiled.length = rows * cols) :
    untilize tiled rows cols = .ok ((positions rows cols).map fun p =>
      tiled.getD (tileFaceIndexUnchecked p.1 p.2 cols) default) := by
  rw [untilize, hs.validate, checkedProduct_eq_ok hs.product_le, hlen]
  simp only [bind, Except.bind, pure, Except.pure, ne_eq, not_true_eq_false, ite_false,
    Except.ok.injEq]
  exact foldl_set_rowMajor rows cols _ (by simp)

/-- Untilizing undoes tilizing. -/
theorem untilize_tilize (hs : TileShape rows cols) {rowMajor tiled : List α}
    (hlen : rowMajor.length = rows * cols) (h : tilize rowMajor rows cols = .ok tiled) :
    untilize tiled rows cols = .ok rowMajor := by
  obtain ⟨tiled', h', hlen', hget⟩ := tilize_spec hs hlen
  obtain rfl : tiled' = tiled := Except.ok.inj (h'.symm.trans h)
  rw [untilize_spec hs hlen']
  congr 1
  refine (eq_map_positions _ hlen fun r c hr hc => ?_).symm
  have hlt := tileFaceIndex_lt hs.rows_mod hs.cols_mod hr hc
  rw [← hget r c hr hc, List.getD_eq_getElem?_getD, List.getElem?_eq_getElem (by omega),
    Option.getD_some]

end Spec

end RowReduce
