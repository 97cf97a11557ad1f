import RowReduce.Host.Layout

/-!
# The tile layout in machine arithmetic

The index functions on `std::size_t`, every operation taken modulo `2^64`, and
the two layout loops that use them. On buffers whose size fits nothing wraps.
-/

namespace RowReduce

open Grid

/-- A `std::size_t`. -/
abbrev Size := BitVec 64

/-- `tile_face_index_unchecked`, modulo `2^64`. -/
def tileFaceIndexSize (row col paddedCols : Size) : Size :=
  let tile := row / 32#64 * (paddedCols / 32#64) + col / 32#64
  let face := row % 32#64 / 16#64 * 2#64 + col % 32#64 / 16#64
  tile * 1024#64 + face * 256#64 + row % 16#64 * 16#64 + col % 16#64

/-- `row * cols + col`, modulo `2^64`. -/
def rowMajorSize (row col cols : Size) : Size := row * cols + col

section Loops

variable {α : Type} [Inhabited α]

/-- `tilize` with wrapping indices. -/
def tilizeSize (rowMajor : List α) (rows cols : Size) : Except HostException (List α) := do
  validateTileShape rows.toNat cols.toNat
  if rowMajor.length ≠ (← checkedProduct rows.toNat cols.toNat) then
    throw (.invalidArgument "tilize data length does not match shape")
  return (positions rows.toNat cols.toNat).foldl (fun tiled p =>
    tiled.set (tileFaceIndexSize (.ofNat 64 p.1) (.ofNat 64 p.2) cols).toNat
      (rowMajor.getD (rowMajorSize (.ofNat 64 p.1) (.ofNat 64 p.2) cols).toNat default))
    (List.replicate rowMajor.length default)

/-- `untilize` with wrapping indices. -/
def untilizeSize (tiled : List α) (rows cols : Size) : Except HostException (List α) := do
  validateTileShape rows.toNat cols.toNat
  if tiled.length ≠ (← checkedProduct rows.toNat cols.toNat) then
    throw (.invalidArgument "untilize data length does not match shape")
  return (positions rows.toNat cols.toNat).foldl (fun rowMajor p =>
    rowMajor.set (rowMajorSize (.ofNat 64 p.1) (.ofNat 64 p.2) cols).toNat
      (tiled.getD (tileFaceIndexSize (.ofNat 64 p.1) (.ofNat 64 p.2) cols).toNat default))
    (List.replicate tiled.length default)

end Loops

section NoWrap

variable {rows cols row col : Size}

/-- Inside the grid the wrapping face index is the plain one. -/
theorem toNat_tileFaceIndexSize (hs : TileShape rows.toNat cols.toNat)
    (hr : row.toNat < rows.toNat) (hc : col.toNat < cols.toNat) :
    (tileFaceIndexSize row col cols).toNat =
      tileFaceIndexUnchecked row.toNat col.toNat cols.toNat := by
  have hlt : tileFaceIndexUnchecked row.toNat col.toNat cols.toNat < 2 ^ 64 :=
    (tileFaceIndex_lt hs.rows_mod hs.cols_mod hr hc).trans_le
      (hs.product_le.trans (by unfold sizeMax; omega))
  simp only [tileFaceIndexUnchecked] at hlt ⊢
  simp only [tileFaceIndexSize, BitVec.toNat_add, BitVec.toNat_mul, BitVec.toNat_udiv,
    BitVec.toNat_umod, BitVec.toNat_ofNat]
  norm_num only
  generalize row.toNat / 32 * (cols.toNat / 32) = tiles at hlt ⊢
  omega

/-- So is the wrapping row-major index. -/
theorem toNat_rowMajorSize (hs : TileShape rows.toNat cols.toNat) (hr : row.toNat < rows.toNat)
    (hc : col.toNat < cols.toNat) :
    (rowMajorSize row col cols).toNat = row.toNat * cols.toNat + col.toNat := by
  have hlt : row.toNat * cols.toNat + col.toNat < 2 ^ 64 :=
    (rowMajor_lt hr hc).trans_le (hs.product_le.trans (by unfold sizeMax; omega))
  simp only [rowMajorSize, BitVec.toNat_add, BitVec.toNat_mul]
  generalize row.toNat * cols.toNat = start at hlt
  omega

end NoWrap

end RowReduce
