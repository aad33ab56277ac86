import NiosSnake.Machine

/-!
# Drawing

`fill_buffer`, `draw_square` and `draw_game_over`. A tile is the set of
addresses `draw_square` writes for a location; drawing paints it and leaves
every other byte and the rest of the state alone.
-/

namespace NiosSnake

open ByteMemory

def gameOverPointsX : List U8 :=
  [2, 2, 2, 2, 2, 2, 2, 2, 2, 2, 2,
   3, 3, 3, 3, 3, 3, 3, 3,
   4, 4, 4, 4, 4, 4, 4, 4, 4, 4, 4, 4, 4, 4,
   5, 5, 5, 5, 5, 5, 5,
   6, 6, 6, 6, 6, 6, 6, 6, 6, 6, 6, 6,
   10, 10, 10, 10, 10, 10, 10, 10, 10, 10, 10,
   11, 11, 11, 11, 11, 11, 11,
   12, 12, 12, 12, 12, 12, 12, 12, 12, 12,
   13, 13, 13, 13, 13, 13, 13,
   14, 14, 14, 14, 14, 14, 14, 14, 14]

def gameOverPointsY : List U8 :=
  [5, 6, 7, 13, 14, 19, 23, 27, 28, 29, 30,
   4, 12, 15, 19, 20, 22, 23, 27,
   4, 6, 7, 8, 12, 13, 14, 15, 19, 21, 23, 27, 28, 29,
   4, 8, 12, 15, 19, 23, 27,
   5, 6, 7, 8, 12, 15, 19, 23, 27, 28, 29, 30,
   5, 6, 12, 14, 19, 20, 21, 22, 27, 28, 29,
   4, 7, 12, 14, 19, 27, 30,
   4, 7, 12, 14, 19, 20, 21, 27, 28, 29,
   4, 7, 12, 14, 19, 27, 29,
   5, 6, 13, 19, 20, 21, 22, 27, 30]

def gameOverPoint (i : Nat) : Point := ⟨gameOverPointsX.getD i 0, gameOverPointsY.getD i 0⟩

section
variable (d : SnakeDriver)

def fillBuffer (color : U8) (m : Machine) : Machine :=
  m.memset d.frameBuffer color (d.resolution * d.resolution).toNat

def squareSize : U32 := d.resolution / 32

def squareDiameter : U32 := squareSize d / 2

/-- The address of a tile's first row, in 32-bit arithmetic throughout. -/
def tileStart (location : Point) : U32 :=
  d.frameBuffer + (d.resolution * location.x.setWidth 32 * squareSize d - squareDiameter d) +
    location.y.setWidth 32 * squareSize d

def drawRows (color : U8) : Nat → U32 → Machine → Machine
  | 0, _, m => m
  | n + 1, start, m =>
    drawRows color n (start + d.resolution) (m.memset start color (squareSize d).toNat)

def drawSquare (location : Point) (color : U8) (m : Machine) : Machine :=
  drawRows d color (squareSize d).toNat (tileStart d location) m

def drawGameOver (m : Machine) : Machine :=
  (List.range 96).foldl
    (fun m i => drawSquare d (gameOverPoint i) d.snakeColor m)
    (fillBuffer d d.backgroundColor m)

/-! ## Tiles -/

def RowsHold (n : Nat) (start a : U32) : Prop :=
  ∃ i < n, Within (start + BitVec.ofNat 32 i * d.resolution) (squareSize d).toNat a

/-- The addresses `draw_square` writes for `location`. -/
def Tile (location : Point) (a : U32) : Prop :=
  RowsHold d (squareSize d).toNat (tileStart d location) a

instance (location : Point) (a : U32) : Decidable (Tile d location a) :=
  inferInstanceAs (Decidable (∃ i < (squareSize d).toNat, _))

theorem rowsHold_succ (n : Nat) (start a : U32) :
    RowsHold d (n + 1) start a ↔
      Within start (squareSize d).toNat a ∨ RowsHold d n (start + d.resolution) a := by
  have shift : ∀ i, start + BitVec.ofNat 32 (i + 1) * d.resolution =
      start + d.resolution + BitVec.ofNat 32 i * d.resolution := by
    intro i
    rw [BitVec.ofNat_add, BitVec.add_mul, BitVec.one_mul]
    ac_rfl
  constructor
  · rintro ⟨i, hi, h⟩
    cases i with
    | zero => left; simpa using h
    | succ i => right; exact ⟨i, by omega, by rwa [shift] at h⟩
  · rintro (h | ⟨i, hi, h⟩)
    · exact ⟨0, by omega, by simpa using h⟩
    · exact ⟨i + 1, by omega, by rwa [shift]⟩

theorem drawRows_mem (color : U8) : ∀ (n : Nat) (start : U32) (m : Machine) (a : U32),
    (RowsHold d n start a → (drawRows d color n start m).mem a = color) ∧
      (¬ RowsHold d n start a → (drawRows d color n start m).mem a = m.mem a)
  | 0, _, _, _ => ⟨fun ⟨_, h, _⟩ => absurd h (Nat.not_lt_zero _), fun _ => rfl⟩
  | n + 1, start, m, a => by
    have ih := drawRows_mem color n (start + d.resolution) (m.memset start color (squareSize d).toNat) a
    rw [rowsHold_succ]
    by_cases hr : RowsHold d n (start + d.resolution) a
    · exact ⟨fun _ => ih.1 hr, fun h => absurd (Or.inr hr) h⟩
    · rw [drawRows, ih.2 hr]
      exact ⟨fun h => memset_within (h.resolve_right hr), fun h => memset_frame fun hw => h (Or.inl hw)⟩

theorem drawRows_wrote (color : U8) : ∀ (n : Nat) (start : U32) (m : Machine) (a : U32),
    (drawRows d color n start m).Wrote a ↔ RowsHold d n start a ∨ m.Wrote a
  | 0, _, _, _ => ⟨Or.inr, fun h => h.resolve_left fun ⟨_, h, _⟩ => absurd h (Nat.not_lt_zero _)⟩
  | n + 1, start, m, a => by
    rw [drawRows, drawRows_wrote, rowsHold_succ, Machine.memset_wrote, ← or_assoc, or_comm (a := RowsHold ..)]

theorem drawRows_frame (color : U8) : ∀ (n : Nat) (start : U32) (m : Machine),
    drawRows d color n start m =
      { m with mem := (drawRows d color n start m).mem, writes := (drawRows d color n start m).writes }
  | 0, _, _ => rfl
  | n + 1, start, m => by
    rw [drawRows, drawRows_frame color n]
    rfl

theorem drawSquare_painted (p : Point) (c : U8) (m : Machine) :
    Paint.Painted (Tile d) m.mem (drawSquare d p c m).mem p c :=
  fun a => drawRows_mem d c _ _ m a

theorem drawSquare_wrote (p : Point) (c : U8) (m : Machine) (a : U32) :
    (drawSquare d p c m).Wrote a ↔ Tile d p a ∨ m.Wrote a := drawRows_wrote d c _ _ m a

theorem drawSquare_frame (p : Point) (c : U8) (m : Machine) :
    drawSquare d p c m =
      { m with mem := (drawSquare d p c m).mem, writes := (drawSquare d p c m).writes } :=
  drawRows_frame d c _ _ m

section
variable (p : Point) (c : U8) (m : Machine)

@[simp] theorem drawSquare_snake : (drawSquare d p c m).snake = m.snake := by rw [drawSquare_frame]
@[simp] theorem drawSquare_currentFood : (drawSquare d p c m).currentFood = m.currentFood := by
  rw [drawSquare_frame]
@[simp] theorem drawSquare_draws : (drawSquare d p c m).draws = m.draws := by rw [drawSquare_frame]
@[simp] theorem drawSquare_moves : (drawSquare d p c m).moves = m.moves := by rw [drawSquare_frame]
@[simp] theorem drawSquare_accesses : (drawSquare d p c m).accesses = m.accesses := by rw [drawSquare_frame]
@[simp] theorem drawSquare_calls : (drawSquare d p c m).calls = m.calls := by rw [drawSquare_frame]

end

/-! ## The game-over picture -/

def Letters (a : U32) : Prop := ∃ i < 96, Tile d (gameOverPoint i) a

theorem foldl_drawSquare_painted (pt : Nat → Point) (c : U8) : ∀ (l : List Nat) (m : Machine),
    Paint.Painted (fun (_ : Unit) a => ∃ i ∈ l, Tile d (pt i) a) m.mem
      (l.foldl (fun m i => drawSquare d (pt i) c m) m).mem () c
  | [], m, a => ⟨by simp, fun _ => rfl⟩
  | i :: l, m, a => by
    have ih := foldl_drawSquare_painted pt c l (drawSquare d (pt i) c m) a
    have hi := drawSquare_painted d (pt i) c m a
    rw [List.foldl_cons]
    simp only [List.mem_cons, exists_eq_or_imp, not_or]
    by_cases hl : ∃ i ∈ l, Tile d (pt i) a
    · exact ⟨fun _ => ih.1 hl, fun h => absurd hl h.2⟩
    · rw [ih.2 hl]
      exact ⟨fun h => hi.1 (h.resolve_right hl), fun h => hi.2 h.1⟩

theorem fillBuffer_painted (c : U8) (m : Machine) :
    Paint.Painted (fun (_ : Unit) => Within d.frameBuffer (d.resolution * d.resolution).toNat) m.mem
      (fillBuffer d c m).mem () c :=
  fun _ => ⟨memset_within, memset_frame⟩

theorem drawGameOver_painted (m : Machine) :
    Paint.Painted (fun (_ : Unit) => Letters d) (fillBuffer d d.backgroundColor m).mem (drawGameOver d m).mem ()
      d.snakeColor := by
  have h := foldl_drawSquare_painted d gameOverPoint d.snakeColor (List.range 96)
    (fillBuffer d d.backgroundColor m)
  simp only [List.mem_range] at h
  exact h

theorem foldl_drawSquare_frame (pt : Nat → Point) (c : U8) : ∀ (l : List Nat) (m : Machine),
    l.foldl (fun m i => drawSquare d (pt i) c m) m =
      { m with
        mem := (l.foldl (fun m i => drawSquare d (pt i) c m) m).mem,
        writes := (l.foldl (fun m i => drawSquare d (pt i) c m) m).writes }
  | [], m => rfl
  | i :: l, m => by
    rw [List.foldl_cons, foldl_drawSquare_frame pt c l]
    simp

theorem fillBuffer_wrote (c : U8) (m : Machine) (a : U32) :
    (fillBuffer d c m).Wrote a ↔
      Within d.frameBuffer (d.resolution * d.resolution).toNat a ∨ m.Wrote a :=
  m.memset_wrote d.frameBuffer c _ a

theorem drawGameOver_wrote (m : Machine) (a : U32) :
    (drawGameOver d m).Wrote a ↔ (∃ i < 96, Tile d (gameOverPoint i) a) ∨
      Within d.frameBuffer (d.resolution * d.resolution).toNat a ∨ m.Wrote a := by
  rw [drawGameOver, Machine.foldl_wrote fun m i => drawSquare_wrote d (gameOverPoint i) d.snakeColor m a,
    fillBuffer_wrote]
  simp only [List.mem_range]

theorem drawGameOver_frame (m : Machine) :
    drawGameOver d m =
      { m with mem := (drawGameOver d m).mem, writes := (drawGameOver d m).writes } :=
  foldl_drawSquare_frame d gameOverPoint d.snakeColor (List.range 96) (fillBuffer d d.backgroundColor m)

end

end NiosSnake
