import NiosSnake.Draw
import NiosSnake.LinearAddress

/-!
# Where tiles lie

For a resolution from 32 to 32768 no step of the address computation of
`draw_square` wraps for a location on the board. Tiles of distinct locations
are disjoint, also where they run past the end of their rows. The tile of an
empty history slot starts half a tile before the frame buffer.
-/

namespace NiosSnake

open ByteMemory

section
variable (d : SnakeDriver)

def Res : Prop := 32 ≤ d.resolution.toNat ∧ d.resolution.toNat ≤ 32768

instance : Decidable (Res d) := inferInstanceAs (Decidable (_ ∧ _))

def offset (a : U32) : Nat := (a - d.frameBuffer).toNat

theorem offset_add {o : Nat} (h : o < 2 ^ 32) : offset d (d.frameBuffer + BitVec.ofNat 32 o) = o := by
  rw [offset, BitVec.add_comm, BitVec.add_sub_cancel, BitVec.toNat_ofNat, Nat.mod_eq_of_lt h]

theorem offset_inj {a b : U32} (h : offset d a = offset d b) : a = b := by
  have hsub := BitVec.eq_of_toNat_eq h
  rw [← BitVec.sub_add_cancel a d.frameBuffer, hsub, BitVec.sub_add_cancel]

def tileSize : Nat := d.resolution.toNat / 32

theorem squareSize_toNat : (squareSize d).toNat = tileSize d := by
  simp [squareSize, tileSize]

theorem squareDiameter_toNat : (squareDiameter d).toNat = tileSize d / 2 := by
  rw [squareDiameter, BitVec.toNat_udiv, squareSize_toNat]
  rfl

def rowOffset (p : Point) (i : Nat) : Nat :=
  d.resolution.toNat * (p.x.toNat * tileSize d + i) + p.y.toNat * tileSize d - tileSize d / 2

def rowStart (p : Point) (i : Nat) : U32 :=
  d.resolution * p.x.setWidth 32 * squareSize d - squareDiameter d + p.y.setWidth 32 * squareSize d +
    BitVec.ofNat 32 i * d.resolution

theorem tile_rows (p : Point) (a : U32) :
    Tile d p a ↔ ∃ i < tileSize d, Within (d.frameBuffer + rowStart d p i) (tileSize d) a := by
  simp only [Tile, RowsHold, squareSize_toNat]
  have assoc : ∀ i, tileStart d p + BitVec.ofNat 32 i * d.resolution = d.frameBuffer + rowStart d p i := by
    intro i
    rw [tileStart, rowStart, BitVec.add_assoc, BitVec.add_assoc, BitVec.add_assoc]
  simp only [assoc]

theorem half_le {p : Point} (hp : OnBoard p) : tileSize d / 2 ≤ p.y.toNat * tileSize d := by
  have : 1 * tileSize d ≤ p.y.toNat * tileSize d := Nat.mul_le_mul_right _ hp.2.2.1
  omega

end

section
variable {d : SnakeDriver} (hR : Res d)
include hR

theorem tileSize_bounds : 1 ≤ tileSize d ∧ tileSize d ≤ 1024 ∧ 32 * tileSize d ≤ d.resolution.toNat ∧
    d.resolution.toNat < 32 * tileSize d + 32 := by
  obtain ⟨h₁, h₂⟩ := hR
  unfold tileSize
  omega

theorem row_mul_size_le : d.resolution.toNat * tileSize d ≤ 2 ^ 25 := by
  obtain ⟨h₁, h₂, _⟩ := tileSize_bounds hR
  exact (Nat.mul_le_mul hR.2 h₂ : _ ≤ 32768 * 1024)

theorem product_bounds {p : Point} (hp : OnBoard p) :
    d.resolution.toNat * p.x.toNat ≤ 2 ^ 20 ∧
      tileSize d ≤ d.resolution.toNat * p.x.toNat * tileSize d ∧
      d.resolution.toNat * p.x.toNat * tileSize d ≤ 2 ^ 30 ∧
      tileSize d ≤ p.y.toNat * tileSize d ∧ p.y.toNat * tileSize d ≤ 2 ^ 15 := by
  obtain ⟨hx, hx', hy, hy'⟩ := hp
  obtain ⟨h₁, h₂, h₃, h₄⟩ := tileSize_bounds hR
  have hRx : d.resolution.toNat * p.x.toNat ≤ 32768 * 32 := Nat.mul_le_mul hR.2 hx'
  have hpos : 1 ≤ d.resolution.toNat * p.x.toNat := Nat.mul_pos (by omega) hx
  refine ⟨hRx, Nat.le_mul_of_pos_left _ hpos, ?_, Nat.le_mul_of_pos_left _ hy, ?_⟩
  · exact (Nat.mul_le_mul hRx h₂ : _ ≤ 32768 * 32 * 1024)
  · exact (Nat.mul_le_mul hy' h₂ : _ ≤ 32 * 1024)

theorem band_toNat {p : Point} (hp : OnBoard p) :
    (d.resolution * p.x.setWidth 32).toNat = d.resolution.toNat * p.x.toNat ∧
      (d.resolution * p.x.setWidth 32 * squareSize d).toNat = d.resolution.toNat * p.x.toNat * tileSize d := by
  obtain ⟨hRx, _, hP, _, _⟩ := product_bounds hR hp
  have hxw : (p.x.setWidth 32).toNat = p.x.toNat := BitVec.toNat_setWidth_of_le (by omega)
  have hrow : (d.resolution * p.x.setWidth 32).toNat = d.resolution.toNat * p.x.toNat := by
    rw [BitVec.toNat_mul_of_lt (by rw [hxw]; omega), hxw]
  refine ⟨hrow, ?_⟩
  rw [BitVec.toNat_mul_of_lt (by rw [hrow, squareSize_toNat]; omega), hrow, squareSize_toNat]

theorem half_toNat {p : Point} (hp : OnBoard p) :
    (d.resolution * p.x.setWidth 32 * squareSize d - squareDiameter d).toNat =
      d.resolution.toNat * p.x.toNat * tileSize d - tileSize d / 2 := by
  obtain ⟨_, hS, _, _, _⟩ := product_bounds hR hp
  rw [BitVec.toNat_sub_of_le, (band_toNat hR hp).2, squareDiameter_toNat]
  rw [BitVec.le_def, (band_toNat hR hp).2, squareDiameter_toNat]
  omega

theorem column_toNat {p : Point} (hp : OnBoard p) :
    (p.y.setWidth 32 * squareSize d).toNat = p.y.toNat * tileSize d := by
  obtain ⟨_, _, _, _, hY⟩ := product_bounds hR hp
  have hyw : (p.y.setWidth 32).toNat = p.y.toNat := BitVec.toNat_setWidth_of_le (by omega)
  rw [BitVec.toNat_mul_of_lt (by rw [hyw, squareSize_toNat]; omega), hyw, squareSize_toNat]

omit hR in
theorem rowStart_succ (p : Point) (i : Nat) : rowStart d p (i + 1) = rowStart d p i + d.resolution := by
  rw [rowStart, rowStart, BitVec.ofNat_add, BitVec.add_mul, BitVec.one_mul, ← BitVec.add_assoc]

omit hR in
theorem rowOffset_succ {p : Point} (hp : OnBoard p) (i : Nat) :
    rowOffset d p (i + 1) = rowOffset d p i + d.resolution.toNat := by
  have := half_le d hp
  unfold rowOffset
  rw [← Nat.add_assoc, Nat.mul_succ]
  omega

theorem rowOffset_lt {p : Point} (hp : OnBoard p) {i : Nat} (hi : i ≤ tileSize d) :
    rowOffset d p i + tileSize d < 2 ^ 31 := by
  obtain ⟨_, _, hP, _, hY⟩ := product_bounds hR hp
  obtain ⟨_, hS, _, _⟩ := tileSize_bounds hR
  have hI : d.resolution.toNat * i ≤ 32768 * 1024 := Nat.mul_le_mul hR.2 (by omega)
  have hrow : d.resolution.toNat * (p.x.toNat * tileSize d + i) =
      d.resolution.toNat * p.x.toNat * tileSize d + d.resolution.toNat * i := by
    rw [Nat.mul_add, Nat.mul_assoc]
  unfold rowOffset
  omega

theorem rowStart_toNat {p : Point} (hp : OnBoard p) : ∀ {i : Nat}, i ≤ tileSize d →
    (rowStart d p i).toNat = rowOffset d p i ∧ rowOffset d p i + tileSize d < 2 ^ 31
  | 0, hi => by
    have hb := rowOffset_lt hR hp hi
    obtain ⟨_, hS, hP, _, hY⟩ := product_bounds hR hp
    refine ⟨?_, hb⟩
    have h0 : rowStart d p 0 = d.resolution * p.x.setWidth 32 * squareSize d - squareDiameter d +
        p.y.setWidth 32 * squareSize d := by simp [rowStart]
    rw [h0, BitVec.toNat_add_of_lt, half_toNat hR hp, column_toNat hR hp]
    · rw [rowOffset, Nat.add_zero, ← Nat.mul_assoc]
      omega
    · rw [half_toNat hR hp, column_toNat hR hp]
      omega
  | i + 1, hi => by
    have hb := rowOffset_lt hR hp hi
    have ih := (rowStart_toNat hp (Nat.le_of_succ_le hi)).1
    refine ⟨?_, hb⟩
    rw [rowOffset_succ hp] at hb ⊢
    rw [rowStart_succ, BitVec.toNat_add_of_lt (by rw [ih]; omega), ih]

theorem tile_onBoard {p : Point} (hp : OnBoard p) (a : U32) :
    Tile d p a ↔ ∃ i < tileSize d, ∃ j < tileSize d, offset d a = rowOffset d p i + j := by
  rw [tile_rows]
  refine exists_congr fun i => and_congr_right fun hi => ?_
  obtain ⟨hs, hb⟩ := rowStart_toNat hR hp (Nat.le_of_lt hi)
  rw [within_add_iff _ _ _ (by omega), hs]
  refine exists_congr fun j => and_congr_right fun hj => ?_
  rw [Nat.mod_eq_of_lt (by omega), offset]

/-- **Tiles do not overlap.** -/
theorem tile_disjoint {p q : Point} (hp : OnBoard p) (hq : OnBoard q) (hne : p ≠ q) (a : U32)
    (ha : Tile d p a) : ¬ Tile d q a := by
  intro hb
  obtain ⟨i, hi, j, hj, h⟩ := (tile_onBoard hR hp a).mp ha
  obtain ⟨i', hi', j', hj', h'⟩ := (tile_onBoard hR hq a).mp hb
  obtain ⟨h₁, h₂, h₃, _⟩ := tileSize_bounds hR
  have hcol : ∀ {r : Point}, OnBoard r → tileSize d ≤ r.y.toNat * tileSize d ∧
      r.y.toNat * tileSize d ≤ 32 * tileSize d := fun hr =>
    ⟨Nat.le_mul_of_pos_left _ hr.2.2.1, Nat.mul_le_mul_right _ hr.2.2.2⟩
  have hp₁ := hcol hp
  have hq₁ := hcol hq
  -- the half tile is taken off both sides; what is left is a row and a column one row wide
  have haddr : d.resolution.toNat * (p.x.toNat * tileSize d + i) + (p.y.toNat * tileSize d + j) =
      d.resolution.toNat * (q.x.toNat * tileSize d + i') + (q.y.toNat * tileSize d + j') := by
    have hhp := half_le d hp
    have hhq := half_le d hq
    unfold rowOffset at h h'
    omega
  obtain ⟨hrow, hcolumn⟩ := LinearAddress.unique (tileSize d) haddr (by omega) (by omega) (by omega)
    (by omega)
  have hx := (LinearAddress.block_unique hrow hi hi').1
  have hy := (LinearAddress.block_unique hcolumn hj hj').1
  refine hne ?_
  cases p; cases q
  simp only [Point.mk.injEq]
  exact ⟨BitVec.eq_of_toNat_eq hx, BitVec.eq_of_toNat_eq hy⟩

theorem tile_nonempty {p : Point} (hp : OnBoard p) : ∃ a, Tile d p a := by
  obtain ⟨h₁, _⟩ := tileSize_bounds hR
  have hb := rowOffset_lt hR hp (Nat.zero_le _)
  exact ⟨d.frameBuffer + BitVec.ofNat 32 (rowOffset d p 0), (tile_onBoard hR hp _).mpr
    ⟨0, by omega, 0, by omega, offset_add d (by omega)⟩⟩

/-! ## The tile of an empty slot -/

/-- It starts half a tile before the frame buffer. -/
theorem tile_zero (a : U32) :
    Tile d .zero a ↔ ∃ i < tileSize d, ∃ j < tileSize d,
      offset d a = (2 ^ 32 - tileSize d / 2 + i * d.resolution.toNat + j) % 2 ^ 32 := by
  obtain ⟨h₁, h₂, _⟩ := tileSize_bounds hR
  rw [tile_rows]
  refine exists_congr fun i => and_congr_right fun hi => ?_
  have hs : (rowStart d .zero i).toNat =
      (2 ^ 32 - tileSize d / 2 + i * d.resolution.toNat) % 2 ^ 32 := by
    simp [rowStart, Point.zero, squareDiameter_toNat]
  rw [within_add_iff _ _ _ (by omega), hs]
  refine exists_congr fun j => and_congr_right fun hj => ?_
  rw [Nat.mod_add_mod, offset]

theorem tile_zero_offset {a : U32} (ha : Tile d .zero a) : 2 ^ 32 - tileSize d / 2 ≤ offset d a ∨
    offset d a + tileSize d / 2 + d.resolution.toNat < tileSize d * d.resolution.toNat + tileSize d := by
  obtain ⟨i, hi, j, hj, h⟩ := (tile_zero hR a).mp ha
  obtain ⟨h₁, h₂, _⟩ := tileSize_bounds hR
  have hI : (i + 1) * d.resolution.toNat ≤ tileSize d * d.resolution.toNat := Nat.mul_le_mul_right _ hi
  rw [Nat.succ_mul] at hI
  have hRS := row_mul_size_le hR
  rw [Nat.mul_comm] at hRS
  rcases Nat.lt_or_ge (i * d.resolution.toNat + j) (tileSize d / 2) with hlt | hge
  · left
    rw [h, Nat.mod_eq_of_lt (by omega)]
    omega
  · right
    rw [show 2 ^ 32 - tileSize d / 2 + i * d.resolution.toNat + j =
      (i * d.resolution.toNat + j - tileSize d / 2) + 2 ^ 32 by omega, Nat.add_mod_right,
      Nat.mod_eq_of_lt (by omega)] at h
    omega

/-- The rows of the empty slot's tile end before the first row of any tile on the board. -/
theorem tile_zero_disjoint {q : Point} (hq : OnBoard q) (a : U32) (ha : Tile d .zero a) :
    ¬ Tile d q a := by
  intro hb
  obtain ⟨i, hi, j, hj, h⟩ := (tile_onBoard hR hq a).mp hb
  obtain ⟨h₁, h₂, h₃, _⟩ := tileSize_bounds hR
  have hbound := (rowStart_toNat hR hq (Nat.le_of_lt hi)).2
  -- the first row of a tile on the board starts a whole band of rows further down
  have hrow : tileSize d * d.resolution.toNat + tileSize d - tileSize d / 2 ≤ rowOffset d q i := by
    have hx : d.resolution.toNat * tileSize d ≤ d.resolution.toNat * (q.x.toNat * tileSize d + i) :=
      Nat.mul_le_mul_left _ (Nat.le_trans (Nat.le_mul_of_pos_left _ hq.1) (Nat.le_add_right _ _))
    have hy : tileSize d ≤ q.y.toNat * tileSize d := Nat.le_mul_of_pos_left _ hq.2.2.1
    rw [Nat.mul_comm] at hx
    unfold rowOffset
    omega
  have hzero := tile_zero_offset hR ha
  omega

theorem tile_disjoint_slot {p q : Point} (hp : p = .zero ∨ OnBoard p) (hq : OnBoard q) (hne : q ≠ p) (a : U32)
    (ha : Tile d q a) : ¬ Tile d p a := by
  rcases hp with rfl | hp
  · exact fun hz => tile_zero_disjoint hR hq a hz ha
  · exact tile_disjoint hR hq hp hne a ha

end

end NiosSnake
