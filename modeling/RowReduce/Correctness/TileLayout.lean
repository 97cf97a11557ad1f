import Mathlib.Data.Set.Function
import RowReduce.Host.SizeLayout

/-!
# The tile layout is the face enumeration

The index formula counts positions in the order tile-row, tile-column, face,
face row, face column. Tilizing lists a matrix in that order, so it is a
bijection with untilizing as its inverse on both sides.
-/

namespace RowReduce

open Grid

/-- The positions by tile-row, tile-column, face, face row and face column. -/
def faceOrder (rows cols : ℕ) : List (ℕ × ℕ) :=
  (List.range (rows / 32)).flatMap fun tileRow =>
    (List.range (cols / 32)).flatMap fun tileCol =>
      -- top-left, top-right, bottom-left, bottom-right
      [(0, 0), (0, 16), (16, 0), (16, 16)].flatMap fun face =>
        (List.range 16).flatMap fun row =>
          (List.range 16).map fun col =>
            (32 * tileRow + face.1 + row, 32 * tileCol + face.2 + col)

/-- Two nested loops are one loop over quotient and remainder. -/
theorem flatMap_range_map {α : Type} (a b : ℕ) (g : ℕ → ℕ → α) :
    ((List.range a).flatMap fun i => (List.range b).map (g i)) =
      (List.range (a * b)).map fun k => g (k / b) (k % b) := by
  have h := congrArg (List.map fun p : ℕ × ℕ => g p.1 p.2) (positions_eq_map_range a b)
  simpa only [positions, List.map_flatMap, List.map_map, Function.comp_def] using h

/-- The faces of a tile by number. -/
theorem faces_eq : [(0, 0), (0, 16), (16, 0), (16, 16)] =
    (List.range 4).map fun face => (face / 2 * 16, face % 2 * 16) := by decide

section Order

variable {rows cols : ℕ}

/-- The enumeration visits the positions by increasing face index. -/
theorem faceOrder_eq (hrows : rows % 32 = 0) (hcols : cols % 32 = 0) :
    faceOrder rows cols = (List.range (rows * cols)).map fun k => tileFacePosition k cols := by
  obtain ⟨h, rfl⟩ : ∃ h, rows = 32 * h := ⟨rows / 32, by omega⟩
  obtain ⟨w, rfl⟩ : ∃ w, cols = 32 * w := ⟨cols / 32, by omega⟩
  have hsize : 32 * h * (32 * w) = h * (w * (4 * (16 * 16))) := by ring
  rw [faceOrder, faces_eq, Nat.mul_div_cancel_left _ (by norm_num),
    Nat.mul_div_cancel_left _ (by norm_num), hsize]
  simp only [List.flatMap_map, flatMap_range_map]
  apply List.map_congr_left
  intro k _
  have hrow : k / (w * (4 * (16 * 16))) = k / 1024 / w := by
    rw [Nat.div_div_eq_div_mul, mul_comm]
  have hcol : k % (w * (4 * (16 * 16))) / (4 * (16 * 16)) = k / 1024 % w := by
    rw [mul_comm, Nat.mod_mul_right_div_self]
  have htile : k % (w * (4 * (16 * 16))) % (4 * (16 * 16)) = k % 1024 :=
    Nat.mod_mul_left_mod _ _ _
  simp only [hrow, hcol, htile, tileFacePosition, Nat.mul_div_cancel_left w (by norm_num : 0 < 32),
    Prod.mk.injEq]
  generalize k / 1024 / w = tileRow
  generalize k / 1024 % w = tileCol
  constructor <;> omega

/-- The faces cover the positions. -/
theorem mem_faceOrder (hrows : rows % 32 = 0) (hcols : cols % 32 = 0) {p : ℕ × ℕ} :
    p ∈ faceOrder rows cols ↔ p ∈ positions rows cols := by
  rw [faceOrder_eq hrows hcols, List.mem_map, mem_positions]
  constructor
  · rintro ⟨k, hk, rfl⟩
    obtain ⟨hr, hc, _⟩ := tileFaceIndex_position hrows hcols (List.mem_range.mp hk)
    exact ⟨hr, hc⟩
  · rintro ⟨hr, hc⟩
    exact ⟨_, List.mem_range.mpr (tileFaceIndex_lt hrows hcols hr hc),
      tileFacePosition_index hcols hc⟩

/-- No position is in two faces. -/
theorem nodup_faceOrder (hrows : rows % 32 = 0) (hcols : cols % 32 = 0) :
    (faceOrder rows cols).Nodup := by
  rw [faceOrder_eq hrows hcols]
  refine List.nodup_range.map_on fun j hj k hk h => ?_
  have hj' := tileFaceIndex_position hrows hcols (List.mem_range.mp hj)
  have hk' := tileFaceIndex_position hrows hcols (List.mem_range.mp hk)
  rw [← hj'.2.2, ← hk'.2.2, h]

/-- The enumeration is a rearrangement of the row-major one. -/
theorem faceOrder_perm (hrows : rows % 32 = 0) (hcols : cols % 32 = 0) :
    (faceOrder rows cols).Perm (positions rows cols) :=
  (List.perm_ext_iff_of_nodup (nodup_faceOrder hrows hcols) (nodup_positions rows cols)).mpr
    fun _ => mem_faceOrder hrows hcols

end Order

section Layout

variable {α : Type} [Inhabited α] {rows cols : ℕ}

/-- A list is the entries at its positions. -/
theorem map_getD_positions {v : List α} (hlen : v.length = rows * cols) :
    ((positions rows cols).map fun p => v.getD (p.1 * cols + p.2) default) = v := by
  refine (eq_map_positions _ hlen fun r c hr hc => ?_).symm
  have hlt := rowMajor_lt hr hc
  rw [List.getD_eq_getElem?_getD, List.getElem?_eq_getElem (by omega), Option.getD_some]

/-- Tilizing lists the matrix in the order of the enumeration. -/
theorem tilize_eq_faceOrder (hs : TileShape rows cols) {v : List α}
    (hlen : v.length = rows * cols) :
    tilize v rows cols =
      .ok ((faceOrder rows cols).map fun p => v.getD (p.1 * cols + p.2) default) := by
  obtain ⟨tiled, htiled, hlen', hget⟩ := tilize_spec hs hlen
  rw [htiled, faceOrder_eq hs.rows_mod hs.cols_mod, List.map_map]
  congr 1
  apply List.ext_getElem?
  intro k
  by_cases hk : k < rows * cols
  · obtain ⟨hr, hc, he⟩ := tileFaceIndex_position hs.rows_mod hs.cols_mod hk
    have hlt := rowMajor_lt hr hc
    have hword := hget _ _ hr hc
    rw [he] at hword
    rw [hword, List.getElem?_map, List.getElem?_range hk, Option.map_some, Function.comp_apply,
      List.getD_eq_getElem?_getD, List.getElem?_eq_getElem (by omega), Option.getD_some]
  · rw [List.getElem?_eq_none (by omega), List.getElem?_eq_none (by simp; omega)]

/-- Tilizing undoes untilizing. -/
theorem tilize_untilize (hs : TileShape rows cols) {v u : List α} (hlen : v.length = rows * cols)
    (h : untilize v rows cols = .ok u) : tilize u rows cols = .ok v := by
  rw [untilize_spec hs hlen] at h
  obtain rfl := Except.ok.inj h
  rw [tilize_eq_faceOrder hs (by simp), faceOrder_eq hs.rows_mod hs.cols_mod, List.map_map]
  congr 1
  apply List.ext_getElem?
  intro k
  by_cases hk : k < rows * cols
  · obtain ⟨hr, hc, he⟩ := tileFaceIndex_position hs.rows_mod hs.cols_mod hk
    rw [List.getElem?_map, List.getElem?_range hk, Option.map_some, Function.comp_apply,
      List.getD_eq_getElem?_getD, getElem?_map_positions hr hc, he, Option.getD_some,
      List.getD_eq_getElem?_getD, List.getElem?_eq_getElem (by omega), Option.getD_some]
  · rw [List.getElem?_eq_none (by simp; omega), List.getElem?_eq_none (by omega)]

/-- The tiled list has the same elements as the matrix. -/
theorem tilize_perm (hs : TileShape rows cols) {v : List α} (hlen : v.length = rows * cols) :
    ((faceOrder rows cols).map fun p => v.getD (p.1 * cols + p.2) default).Perm v := by
  conv_rhs => rw [← map_getD_positions hlen]
  exact (faceOrder_perm hs.rows_mod hs.cols_mod).map _

end Layout

section Machine

variable {rows cols : Size}

/-- Loop counters are their own machine sizes. -/
theorem toNat_positions {p : ℕ × ℕ} (hp : p ∈ positions rows.toNat cols.toNat) :
    (BitVec.ofNat 64 p.1).toNat = p.1 ∧ (BitVec.ofNat 64 p.2).toNat = p.2 := by
  obtain ⟨hr, hc⟩ := mem_positions.mp hp
  exact ⟨Nat.mod_eq_of_lt (hr.trans rows.isLt), Nat.mod_eq_of_lt (hc.trans cols.isLt)⟩

variable (hs : TileShape rows.toNat cols.toNat)

include hs

/-- The 64-bit indices do not wrap. -/
theorem toNat_indices {p : ℕ × ℕ} (hp : p ∈ positions rows.toNat cols.toNat) :
    (tileFaceIndexSize (.ofNat 64 p.1) (.ofNat 64 p.2) cols).toNat =
        tileFaceIndexUnchecked p.1 p.2 cols.toNat ∧
      (rowMajorSize (.ofNat 64 p.1) (.ofNat 64 p.2) cols).toNat = p.1 * cols.toNat + p.2 := by
  obtain ⟨hr, hc⟩ := mem_positions.mp hp
  obtain ⟨h1, h2⟩ := toNat_positions hp
  have hface := @toNat_tileFaceIndexSize _ _ (.ofNat 64 p.1) (.ofNat 64 p.2) hs
    (h1.trans_lt hr) (h2.trans_lt hc)
  have hrowMajor := @toNat_rowMajorSize _ _ (.ofNat 64 p.1) (.ofNat 64 p.2) hs
    (h1.trans_lt hr) (h2.trans_lt hc)
  rw [h1, h2] at hface hrowMajor
  exact ⟨hface, hrowMajor⟩

/-- The wrapping loops are the plain ones. -/
theorem tilizeSize_eq {α : Type} [Inhabited α] (v : List α) :
    tilizeSize v rows cols = tilize v rows.toNat cols.toNat := by
  have hloop : ∀ init : List α, (positions rows.toNat cols.toNat).foldl (fun tiled p =>
      tiled.set (tileFaceIndexSize (.ofNat 64 p.1) (.ofNat 64 p.2) cols).toNat
        (v.getD (rowMajorSize (.ofNat 64 p.1) (.ofNat 64 p.2) cols).toNat default)) init =
      (positions rows.toNat cols.toNat).foldl (fun tiled p =>
        tiled.set (tileFaceIndexUnchecked p.1 p.2 cols.toNat)
          (v.getD (p.1 * cols.toNat + p.2) default)) init := by
    intro init
    refine List.foldl_ext _ _ _ fun tiled p hp => ?_
    rw [(toNat_indices hs hp).1, (toNat_indices hs hp).2]
  simp only [tilizeSize, tilize, hloop]

/-- The 64-bit untilizer is the one over the naturals. -/
theorem untilizeSize_eq {α : Type} [Inhabited α] (v : List α) :
    untilizeSize v rows cols = untilize v rows.toNat cols.toNat := by
  have hloop : ∀ init : List α, (positions rows.toNat cols.toNat).foldl (fun rowMajor p =>
      rowMajor.set (rowMajorSize (.ofNat 64 p.1) (.ofNat 64 p.2) cols).toNat
        (v.getD (tileFaceIndexSize (.ofNat 64 p.1) (.ofNat 64 p.2) cols).toNat default)) init =
      (positions rows.toNat cols.toNat).foldl (fun rowMajor p =>
        rowMajor.set (p.1 * cols.toNat + p.2)
          (v.getD (tileFaceIndexUnchecked p.1 p.2 cols.toNat) default)) init := by
    intro init
    refine List.foldl_ext _ _ _ fun rowMajor p hp => ?_
    rw [(toNat_indices hs hp).1, (toNat_indices hs hp).2]
  simp only [untilizeSize, untilize, hloop]

/-- The wrapping index maps the grid one-to-one onto the buffer. -/
theorem tileFaceIndexSize_bijOn : Set.BijOn (fun p : Size × Size => tileFaceIndexSize p.1 p.2 cols)
    {p | p.1.toNat < rows.toNat ∧ p.2.toNat < cols.toNat}
    {k | k.toNat < rows.toNat * cols.toNat} := by
  refine ⟨?_, ?_, ?_⟩
  · rintro p ⟨hr, hc⟩
    change (tileFaceIndexSize p.1 p.2 cols).toNat < _
    rw [toNat_tileFaceIndexSize hs hr hc]
    exact tileFaceIndex_lt hs.rows_mod hs.cols_mod hr hc
  · rintro p ⟨hr, hc⟩ q ⟨hr', hc'⟩ h
    have hnat := congrArg BitVec.toNat h
    simp only [toNat_tileFaceIndexSize hs hr hc, toNat_tileFaceIndexSize hs hr' hc'] at hnat
    have hpq := tileFaceIndex_injective (p := (p.1.toNat, p.2.toNat)) (q := (q.1.toNat, q.2.toNat))
      hs.cols_mod hc hc' hnat
    obtain ⟨h1, h2⟩ := Prod.mk.inj hpq
    exact Prod.ext (BitVec.eq_of_toNat_eq h1) (BitVec.eq_of_toNat_eq h2)
  · intro k hk
    obtain ⟨hr, hc, he⟩ := tileFaceIndex_position hs.rows_mod hs.cols_mod hk
    have hp := mem_positions.mpr ⟨hr, hc⟩
    obtain ⟨h1, h2⟩ := toNat_positions hp
    refine ⟨(.ofNat 64 (tileFacePosition k.toNat cols.toNat).1,
      .ofNat 64 (tileFacePosition k.toNat cols.toNat).2), ⟨h1.trans_lt hr, h2.trans_lt hc⟩, ?_⟩
    exact BitVec.eq_of_toNat_eq ((toNat_indices hs hp).1.trans he)

/-- The tile layout is a bijection in face order: the index neither wraps nor collides, tilizing
lists the matrix by tiles and faces, and the two layout functions are inverse to each other. -/
theorem tileLayout_bijective :
    Set.BijOn (fun p : Size × Size => tileFaceIndexSize p.1 p.2 cols)
      {p | p.1.toNat < rows.toNat ∧ p.2.toNat < cols.toNat}
      {k | k.toNat < rows.toNat * cols.toNat} ∧
    (∀ row col : Size, row.toNat < rows.toNat → col.toNat < cols.toNat →
      (tileFaceIndexSize row col cols).toNat =
        tileFaceIndexUnchecked row.toNat col.toNat cols.toNat) ∧
    ∀ (α : Type) [Inhabited α] (v : List α), v.length = rows.toNat * cols.toNat →
      (∃ tiled, tilizeSize v rows cols = .ok tiled ∧
        tiled = (faceOrder rows.toNat cols.toNat).map
          (fun p => v.getD (p.1 * cols.toNat + p.2) default) ∧
        tiled.Perm v ∧ untilizeSize tiled rows cols = .ok v) ∧
      ∃ rowMajor, untilizeSize v rows cols = .ok rowMajor ∧ rowMajor.Perm v ∧
        tilizeSize rowMajor rows cols = .ok v := by
  refine ⟨tileFaceIndexSize_bijOn hs, fun row col => toNat_tileFaceIndexSize hs, ?_⟩
  intro α _ v hlen
  simp only [tilizeSize_eq hs, untilizeSize_eq hs]
  have htilize := tilize_eq_faceOrder hs hlen
  have huntilize := untilize_spec hs hlen
  have hback := tilize_untilize hs hlen huntilize
  refine ⟨⟨_, htilize, rfl, tilize_perm hs hlen, untilize_tilize hs hlen htilize⟩,
    _, huntilize, ?_, hback⟩
  have hlist := tilize_perm hs (v := (positions rows.toNat cols.toNat).map fun p =>
    v.getD (tileFaceIndexUnchecked p.1 p.2 cols.toNat) default) (by simp)
  rw [tilize_eq_faceOrder hs (by simp)] at hback
  rw [Except.ok.inj hback] at hlist
  exact hlist.symm

end Machine

/-- Two tiles, one below the other. -/
theorem tileLayout_bijective_two_tiles :
    Set.BijOn (fun p : Size × Size => tileFaceIndexSize p.1 p.2 32#64)
      {p | p.1.toNat < 64 ∧ p.2.toNat < 32} {k | k.toNat < 2048} :=
  (@tileLayout_bijective 64#64 32#64
    ⟨by decide, by decide, by decide, by decide, by decide⟩).1

end RowReduce
