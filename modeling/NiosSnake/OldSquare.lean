import NiosSnake.TileLayout

/-!
# The old algorithm of `draw_square`

The code after the `return`: it looks at every pixel of the buffer. It centres a
tile on its location in rows and columns, while the loop of `memset`s in use
takes the half tile off the column only.
-/

namespace NiosSnake

section
variable (d : SnakeDriver)

/-- `c*square_size - square_diameter` and `c*square_size + square_diameter`, as `uint16_t`. -/
def lowerBound (c : U8) : U16 := (c.setWidth 32 * squareSize d - squareDiameter d).setWidth 16

def upperBound (c : U8) : U16 := (c.setWidth 32 * squareSize d + squareDiameter d).setWidth 16

/-- The test of the innermost loop. -/
def oldHit (location : Point) (x y : Nat) : Bool :=
  isBetween (lowerBound d location.x) (upperBound d location.x) (BitVec.ofNat 16 x) &&
    isBetween (lowerBound d location.y) (upperBound d location.y) (BitVec.ofNat 16 y)

def oldPixel (location : Point) (color : U8) (x y : Nat) (m : Machine) : Machine :=
  if oldHit d location x y then
    m.memset (d.frameBuffer + d.resolution * BitVec.ofNat 32 x + BitVec.ofNat 32 y) color 1
  else m

def oldDrawSquare (location : Point) (color : U8) (m : Machine) : Machine :=
  if location.x < SIZE ∧ location.y < SIZE then
    (List.range d.resolution.toNat).foldl
      (fun m x => (List.range d.resolution.toNat).foldl (fun m y => oldPixel d location color x y m) m) m
  else m

/-! ## What it writes -/

theorem oldPixel_wrote (p : Point) (c : U8) (x y : Nat) (m : Machine) (a : U32) :
    (oldPixel d p c x y m).Wrote a ↔
      (oldHit d p x y = true ∧ a = d.frameBuffer + d.resolution * BitVec.ofNat 32 x + BitVec.ofNat 32 y) ∨
        m.Wrote a := by
  unfold oldPixel
  split
  · rename_i h
    rw [Machine.memset_wrote, ByteMemory.within_one]
    simp [h]
  · simp_all

theorem oldDrawSquare_wrote (p : Point) (c : U8) (m : Machine) (a : U32) :
    (oldDrawSquare d p c m).Wrote a ↔
      ((p.x < SIZE ∧ p.y < SIZE) ∧ ∃ x < d.resolution.toNat, ∃ y < d.resolution.toNat,
        oldHit d p x y = true ∧ a = d.frameBuffer + d.resolution * BitVec.ofNat 32 x + BitVec.ofNat 32 y) ∨
        m.Wrote a := by
  unfold oldDrawSquare
  split
  · rename_i h
    rw [Machine.foldl_wrote fun m x =>
      Machine.foldl_wrote (fun m y => oldPixel_wrote d p c x y m a) (List.range d.resolution.toNat) m]
    simp [h]
  · rename_i h
    simp [h]

end

section
variable {d : SnakeDriver} (hpos : 0 < d.resolution.toNat) (hwhole : 64 ∣ d.resolution.toNat)
variable (hle : d.resolution.toNat ≤ 32768)
include hpos hwhole hle

theorem half_tile : Res d ∧ d.resolution.toNat = 32 * tileSize d ∧ tileSize d = 2 * (tileSize d / 2) ∧
    1 ≤ tileSize d / 2 ∧ tileSize d ≤ 1024 := by
  obtain ⟨k, hk⟩ := hwhole
  unfold Res tileSize
  omega

theorem bounds_toNat {c : U8} (h1 : 1 ≤ c.toNat) (h32 : c.toNat < 32) :
    (lowerBound d c).toNat = c.toNat * tileSize d - tileSize d / 2 ∧
      (upperBound d c).toNat = c.toNat * tileSize d + tileSize d / 2 := by
  obtain ⟨_, _, _, _, hS⟩ := half_tile hpos hwhole hle
  have hcS : c.toNat * tileSize d ≤ 31 * 1024 := Nat.mul_le_mul (by omega) hS
  have hcS' : tileSize d ≤ c.toNat * tileSize d := Nat.le_mul_of_pos_left _ h1
  have hcw : (c.setWidth 32).toNat = c.toNat := BitVec.toNat_setWidth_of_le (by omega)
  have hprod : (c.setWidth 32 * squareSize d).toNat = c.toNat * tileSize d := by
    rw [BitVec.toNat_mul_of_lt (by rw [hcw, squareSize_toNat]; omega), hcw, squareSize_toNat]
  constructor
  · rw [lowerBound, BitVec.toNat_setWidth, BitVec.toNat_sub_of_le, hprod, squareDiameter_toNat,
      Nat.mod_eq_of_lt (by omega)]
    rw [BitVec.le_def, hprod, squareDiameter_toNat]
    omega
  · rw [upperBound, BitVec.toNat_setWidth, BitVec.toNat_add_of_lt, hprod, squareDiameter_toNat,
      Nat.mod_eq_of_lt (by omega)]
    rw [hprod, squareDiameter_toNat]
    omega

theorem oldHit_iff {p : Point} (hx : 1 ≤ p.x.toNat ∧ p.x.toNat < 32) (hy : 1 ≤ p.y.toNat ∧ p.y.toNat < 32)
    {x y : Nat} (hxr : x < d.resolution.toNat) (hyr : y < d.resolution.toNat) :
    oldHit d p x y = true ↔
      (p.x.toNat * tileSize d ≤ x + tileSize d / 2 ∧ x < p.x.toNat * tileSize d + tileSize d / 2) ∧
        p.y.toNat * tileSize d ≤ y + tileSize d / 2 ∧ y < p.y.toNat * tileSize d + tileSize d / 2 := by
  obtain ⟨_, _, _, hhalf, hS⟩ := half_tile hpos hwhole hle
  have hbetween : ∀ {c : U8}, 1 ≤ c.toNat → c.toNat < 32 → ∀ {v}, v < d.resolution.toNat →
      (isBetween (lowerBound d c) (upperBound d c) (BitVec.ofNat 16 v) = true ↔
        c.toNat * tileSize d ≤ v + tileSize d / 2 ∧ v < c.toNat * tileSize d + tileSize d / 2) := by
    intro c h1 h32 v hv
    obtain ⟨hlo, hhi⟩ := bounds_toNat hpos hwhole hle h1 h32
    have hcS : tileSize d ≤ c.toNat * tileSize d := Nat.le_mul_of_pos_left _ h1
    have hvw : (BitVec.ofNat 16 v).toNat = v := by
      rw [BitVec.toNat_ofNat, Nat.mod_eq_of_lt (by omega)]
    rw [isBetween_iff, ← BitVec.toNat_inj, hlo, hhi, hvw]
    omega
  rw [oldHit, Bool.and_eq_true, hbetween hx.1 hx.2 hxr, hbetween hy.1 hy.2 hyr]

theorem oldDrawn_iff {p : Point} (hx : 1 ≤ p.x.toNat ∧ p.x.toNat < 32) (hy : 1 ≤ p.y.toNat ∧ p.y.toNat < 32)
    (c : U8) (m : Machine) (a : U32) : (oldDrawSquare d p c { m with writes := [] }).Wrote a ↔
      ∃ x < d.resolution.toNat, ∃ y < d.resolution.toNat,
        ((p.x.toNat * tileSize d ≤ x + tileSize d / 2 ∧ x < p.x.toNat * tileSize d + tileSize d / 2) ∧
          p.y.toNat * tileSize d ≤ y + tileSize d / 2 ∧ y < p.y.toNat * tileSize d + tileSize d / 2) ∧
        offset d a = d.resolution.toNat * x + y := by
  have hguard : p.x < SIZE ∧ p.y < SIZE := ⟨hx.2, hy.2⟩
  rw [oldDrawSquare_wrote]
  simp only [hguard, and_self, true_and, Machine.Wrote, List.not_mem_nil, false_and, exists_false, or_false]
  refine exists_congr fun x => and_congr_right fun hxr => exists_congr fun y => and_congr_right fun hyr => ?_
  rw [oldHit_iff hpos hwhole hle hx hy hxr hyr]
  refine and_congr_right fun _ => ?_
  have hrow : d.resolution.toNat * x ≤ 32768 * 32768 := Nat.mul_le_mul hle (by omega)
  have haddr : d.frameBuffer + d.resolution * BitVec.ofNat 32 x + BitVec.ofNat 32 y =
      d.frameBuffer + BitVec.ofNat 32 (d.resolution.toNat * x + y) := by
    rw [BitVec.add_assoc, BitVec.ofNat_add, BitVec.ofNat_mul, BitVec.ofNat_toNat, BitVec.setWidth_eq]
  rw [haddr]
  constructor
  · rintro rfl
    exact offset_add d (by omega)
  · intro h
    apply offset_inj d
    rw [h, offset_add d (by omega)]

/-- **Half a tile apart**: the loop in use paints the old tile, half a tile further down. -/
theorem oldDrawn_shift {p : Point} (hx : 1 ≤ p.x.toNat ∧ p.x.toNat < 32) (hy : 1 ≤ p.y.toNat ∧ p.y.toNat < 32)
    (c : U8) (m : Machine) {a b : U32} (hab : offset d b = offset d a + d.resolution.toNat * (tileSize d / 2)) :
    (oldDrawSquare d p c { m with writes := [] }).Wrote a ↔
      (drawSquare d p c { m with writes := [] }).Wrote b := by
  obtain ⟨hR, hres, heven, hhalf, hS⟩ := half_tile hpos hwhole hle
  have hp : OnBoard p := ⟨hx.1, by omega, hy.1, by omega⟩
  have hxS : tileSize d ≤ p.x.toNat * tileSize d := Nat.le_mul_of_pos_left _ hx.1
  have hyS : tileSize d ≤ p.y.toNat * tileSize d := Nat.le_mul_of_pos_left _ hy.1
  have hxS' : p.x.toNat * tileSize d ≤ 31 * tileSize d := Nat.mul_le_mul_right _ (by omega)
  have hyS' : p.y.toNat * tileSize d ≤ 31 * tileSize d := Nat.mul_le_mul_right _ (by omega)
  rw [oldDrawn_iff hpos hwhole hle hx hy, drawSquare_wrote, tile_onBoard hR hp]
  simp only [Machine.Wrote, List.not_mem_nil, false_and, exists_false, or_false]
  constructor
  · rintro ⟨x, _, y, _, ⟨⟨hx₁, hx₂⟩, hy₁, hy₂⟩, h⟩
    refine ⟨x + tileSize d / 2 - p.x.toNat * tileSize d, by omega, y + tileSize d / 2 - p.y.toNat * tileSize d,
      by omega, ?_⟩
    rw [hab, h, rowOffset, show p.x.toNat * tileSize d + (x + tileSize d / 2 - p.x.toNat * tileSize d) =
      x + tileSize d / 2 by omega, Nat.mul_add]
    omega
  · rintro ⟨i, hi, j, hj, h⟩
    refine ⟨p.x.toNat * tileSize d + i - tileSize d / 2, by omega, p.y.toNat * tileSize d + j - tileSize d / 2,
      by omega, ⟨⟨by omega, by omega⟩, by omega, by omega⟩, ?_⟩
    have hsplit : d.resolution.toNat * (p.x.toNat * tileSize d + i) =
        d.resolution.toNat * (p.x.toNat * tileSize d + i - tileSize d / 2) +
          d.resolution.toNat * (tileSize d / 2) := by
      rw [← Nat.mul_add]
      congr 1
      omega
    rw [hab, rowOffset, hsplit] at h
    omega

/-- **The optimised `draw_square` never agrees with the algorithm it replaced.** -/
theorem drawSquare_ne_old {p : Point} (hx : 1 ≤ p.x.toNat ∧ p.x.toNat < 32)
    (hy : 1 ≤ p.y.toNat ∧ p.y.toNat < 32) (c : U8) (m : Machine) :
    ¬ ∀ a, (drawSquare d p c { m with writes := [] }).Wrote a ↔
      (oldDrawSquare d p c { m with writes := [] }).Wrote a := by
  intro hsame
  obtain ⟨hR, hres, heven, hhalf, hS⟩ := half_tile hpos hwhole hle
  have hp : OnBoard p := ⟨hx.1, by omega, hy.1, by omega⟩
  have hb := rowOffset_lt hR hp (Nat.zero_le _)
  have hlow : 1 ≤ d.resolution.toNat * (tileSize d / 2) := Nat.mul_pos hpos hhalf
  have hhigh : d.resolution.toNat * (tileSize d / 2) ≤ rowOffset d p 0 := by
    have hxS : tileSize d ≤ p.x.toNat * tileSize d := Nat.le_mul_of_pos_left _ hx.1
    have hrow : d.resolution.toNat * (tileSize d / 2) ≤ d.resolution.toNat * (p.x.toNat * tileSize d + 0) :=
      Nat.mul_le_mul_left _ (by omega)
    have := half_le d hp
    unfold rowOffset
    omega
  obtain ⟨b, hfirst⟩ : ∃ b, offset d b = rowOffset d p 0 := ⟨_, offset_add d (by omega)⟩
  obtain ⟨a, habove⟩ : ∃ a, offset d a = rowOffset d p 0 - d.resolution.toNat * (tileSize d / 2) :=
    ⟨_, offset_add d (by omega)⟩
  -- half a tile above the first byte of the tile only the old algorithm paints
  have hnew : (drawSquare d p c { m with writes := [] }).Wrote b :=
    (drawSquare_wrote d p c _ _).mpr (Or.inl ((tile_onBoard hR hp b).mpr ⟨0, by omega, 0, by omega, hfirst⟩))
  have hold := (hsame a).mpr ((oldDrawn_shift hpos hwhole hle hx hy c m (by omega)).mpr hnew)
  rw [drawSquare_wrote, tile_onBoard hR hp] at hold
  simp only [Machine.Wrote, List.not_mem_nil, false_and, exists_false, or_false] at hold
  obtain ⟨i, _, j, _, h⟩ := hold
  have hrows : rowOffset d p 0 ≤ rowOffset d p i := by
    have := Nat.mul_le_mul_left d.resolution.toNat (Nat.add_le_add_left (Nat.zero_le i) (p.x.toNat * tileSize d))
    unfold rowOffset
    omega
  omega

end

theorem drawSquare_ne_old_main : ¬ ∀ a,
    (drawSquare (mainDriver someAddresses) ⟨5, 7⟩ 0xFF { entry fun _ => 0 with writes := [] }).Wrote a ↔
      (oldDrawSquare (mainDriver someAddresses) ⟨5, 7⟩ 0xFF { entry fun _ => 0 with writes := [] }).Wrote a :=
  drawSquare_ne_old (by decide) (by decide) (by decide) (by decide) (by decide) 0xFF (entry fun _ => 0)

/-- Row 72, the first one of the old tile of (5,7), is above the tile drawn. -/
theorem old_row_not_drawn : ∃ a,
    (oldDrawSquare (mainDriver someAddresses) ⟨5, 7⟩ 0xFF { entry fun _ => 0 with writes := [] }).Wrote a ∧
      ¬ (drawSquare (mainDriver someAddresses) ⟨5, 7⟩ 0xFF { entry fun _ => 0 with writes := [] }).Wrote a := by
  refine ⟨frameBufferBase + 36968, ?_, by decide +kernel⟩
  rw [oldDrawn_iff (by decide) (by decide) (by decide) (by decide) (by decide)]
  exact ⟨72, by decide, 104, by decide, by decide, by decide⟩

end NiosSnake
