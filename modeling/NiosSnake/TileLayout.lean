import Mathlib.Data.Set.Card
import Mathlib.Order.CompletePartialOrder
import NiosSnake.Main
import NiosSnake.Play
import NiosSnake.Tiles

/-!
# Tiles do not overlap

The layout of all tiles at once: no step of the offset computation overflows,
a call of `draw_square` writes one byte for each row and column of a tile, and
the tiles of distinct locations have no byte in common.
-/

namespace NiosSnake

/-- The offset computation of `draw_square` for `p`, step by step, without overflow. -/
structure NoOverflow (d : SnakeDriver) (p : Point) : Prop where
  row : d.resolution.umulOverflow (p.x.setWidth 32) = false
  band : (d.resolution * p.x.setWidth 32).umulOverflow (squareSize d) = false
  half : (d.resolution * p.x.setWidth 32 * squareSize d).usubOverflow (squareDiameter d) = false
  column : (p.y.setWidth 32).umulOverflow (squareSize d) = false
  start : (d.resolution * p.x.setWidth 32 * squareSize d - squareDiameter d).uaddOverflow
    (p.y.setWidth 32 * squareSize d) = false
  step : ∀ i < tileSize d, (rowStart d p i).uaddOverflow d.resolution = false

def drawnOffsets (d : SnakeDriver) (p : Point) (c : U8) (m : Machine) : Set Nat :=
  {o | ∃ a, (drawSquare d p c { m with writes := [] }).Wrote a ∧ offset d a = o}

section
variable {d : SnakeDriver}

theorem mem_drawnOffsets (p : Point) (c : U8) (m : Machine) (o : Nat) :
    o ∈ drawnOffsets d p c m ↔ ∃ a, Tile d p a ∧ offset d a = o := by
  refine exists_congr fun a => and_congr_left fun _ => ?_
  rw [drawSquare_wrote]
  simp [Machine.Wrote]

variable (hR : Res d)
include hR

theorem noOverflow {p : Point} (hp : OnBoard p) : NoOverflow d p := by
  obtain ⟨hRx, hS, hP, hS', hY⟩ := product_bounds hR hp
  obtain ⟨hrow, hband⟩ := band_toNat hR hp
  have hxw : (p.x.setWidth 32).toNat = p.x.toNat := BitVec.toNat_setWidth_of_le (by omega)
  have hyw : (p.y.setWidth 32).toNat = p.y.toNat := BitVec.toNat_setWidth_of_le (by omega)
  constructor
  · simp [BitVec.umulOverflow, hxw]
    omega
  · simp [BitVec.umulOverflow, hrow, squareSize_toNat]
    omega
  · simp [BitVec.usubOverflow, hband, squareDiameter_toNat]
    omega
  · simp [BitVec.umulOverflow, hyw, squareSize_toNat]
    omega
  · simp [BitVec.uaddOverflow, half_toNat hR hp, column_toNat hR hp]
    omega
  · intro i hi
    have hs := (rowStart_toNat hR hp (Nat.le_of_lt hi)).1
    have hb := rowOffset_lt hR hp (Nat.succ_le_of_lt hi)
    rw [rowOffset_succ hp] at hb
    simp [BitVec.uaddOverflow, hs]
    omega

theorem drawnOffsets_eq {p : Point} (hp : OnBoard p) (c : U8) (m : Machine) :
    drawnOffsets d p c m = (fun ij : Nat × Nat => rowOffset d p ij.1 + ij.2) ''
      ↑(Finset.range (tileSize d) ×ˢ Finset.range (tileSize d)) := by
  ext o
  simp only [mem_drawnOffsets, tile_onBoard hR hp, Set.mem_image, Finset.mem_coe, Finset.mem_product,
    Finset.mem_range, Prod.exists]
  constructor
  · rintro ⟨a, ⟨i, hi, j, hj, h⟩, rfl⟩
    exact ⟨i, j, ⟨hi, hj⟩, h.symm⟩
  · rintro ⟨i, j, ⟨hi, hj⟩, rfl⟩
    have hb := rowOffset_lt hR hp (Nat.le_of_lt hi)
    have ho := offset_add d (show rowOffset d p i + j < 2 ^ 32 by omega)
    exact ⟨_, ⟨i, hi, j, hj, ho⟩, ho⟩

theorem drawnOffsets_ncard {p : Point} (hp : OnBoard p) (c : U8) (m : Machine) :
    (drawnOffsets d p c m).ncard = tileSize d ^ 2 := by
  obtain ⟨_, _, hwide, _⟩ := tileSize_bounds hR
  rw [drawnOffsets_eq hR hp, Set.InjOn.ncard_image, Set.ncard_coe_finset, Finset.card_product, Finset.card_range,
    Nat.pow_two]
  -- the offset of a byte determines its row and column
  rintro ⟨i, j⟩ hij ⟨i', j'⟩ hij' h
  simp only [Finset.coe_product, Finset.coe_range, Set.mem_prod, Set.mem_Iio] at hij hij'
  have hhalf := half_le d hp
  have haddr : d.resolution.toNat * (p.x.toNat * tileSize d + i) + j =
      d.resolution.toNat * (p.x.toNat * tileSize d + i') + j' := by
    simp only [rowOffset] at h
    omega
  obtain ⟨hrow, hcolumn⟩ := LinearAddress.unique 0 haddr (Nat.zero_le j) (by omega) (Nat.zero_le j') (by omega)
  rw [Prod.mk.injEq]
  exact ⟨by omega, hcolumn⟩

/-- **The tiles of two locations**: nothing wraps, each has `(resolution / 32)²` bytes, none shared. -/
theorem tiles_separate {p q : Point} (hp : OnBoard p) (hq : OnBoard q) (hne : p ≠ q) (c c' : U8) (m m' : Machine) :
    NoOverflow d p ∧ NoOverflow d q ∧
      (drawnOffsets d p c m).ncard = (d.resolution.toNat / 32) ^ 2 ∧
      (drawnOffsets d q c' m').ncard = (d.resolution.toNat / 32) ^ 2 ∧
      Disjoint (drawnOffsets d p c m) (drawnOffsets d q c' m') := by
  refine ⟨noOverflow hR hp, noOverflow hR hq, drawnOffsets_ncard hR hp c m, drawnOffsets_ncard hR hq c' m', ?_⟩
  rw [Set.disjoint_left]
  intro o ho ho'
  obtain ⟨a, ha, rfl⟩ := (mem_drawnOffsets p c m o).mp ho
  obtain ⟨b, hb, hab⟩ := (mem_drawnOffsets q c' m' _).mp ho'
  obtain rfl := offset_inj d hab
  exact tile_disjoint hR hp hq hne b ha hb

end

def oddDriver : SnakeDriver := { mainDriver someAddresses with resolution := 100 }

theorem tiles_separate_odd : NoOverflow oddDriver ⟨1, 32⟩ ∧ NoOverflow oddDriver ⟨2, 1⟩ ∧
    (drawnOffsets oddDriver ⟨1, 32⟩ 0 (entry fun _ => 0)).ncard = (oddDriver.resolution.toNat / 32) ^ 2 ∧
    (drawnOffsets oddDriver ⟨2, 1⟩ 0 (entry fun _ => 0)).ncard = (oddDriver.resolution.toNat / 32) ^ 2 ∧
    Disjoint (drawnOffsets oddDriver ⟨1, 32⟩ 0 (entry fun _ => 0))
      (drawnOffsets oddDriver ⟨2, 1⟩ 0 (entry fun _ => 0)) :=
  tiles_separate (by decide) (by decide) (by decide) (by decide) 0 0 _ _

end NiosSnake
