import NiosSnake.Placement
import NiosSnake.Tiles

/-!
# Writes past the end of the frame buffer

`move_snake` walks into row and column 32, whose tiles may end behind the last
byte of the buffer, and the erase after growing may name an empty slot, whose
tile starts before the first. A run writes outside the `resolution * resolution`
bytes exactly when a round does one of the two.
-/

namespace NiosSnake

open ByteMemory

/-! ## Tiles that leave the buffer -/

def Spills (d : SnakeDriver) (p : Point) : Prop :=
  p.x.toNat = 32 ∧ d.resolution.toNat % 32 < tileSize d ∨
    p.x.toNat = 31 ∧ p.y.toNat = 32 ∧ d.resolution.toNat % 32 = 0

instance (d : SnakeDriver) (p : Point) : Decidable (Spills d p) := inferInstanceAs (Decidable (_ ∨ _))

/-- The number of bytes `fill_buffer` takes the buffer to have. -/
def bufferSize (d : SnakeDriver) : Nat := d.resolution.toNat * d.resolution.toNat

theorem bufferSize_eq (d : SnakeDriver) : bufferSize d =
    32 * (d.resolution.toNat * tileSize d) + d.resolution.toNat * (d.resolution.toNat % 32) := by
  have h : d.resolution.toNat = 32 * tileSize d + d.resolution.toNat % 32 := by
    unfold tileSize
    omega
  rw [← Nat.mul_assoc, Nat.mul_comm 32, Nat.mul_assoc, ← Nat.mul_add, ← h, bufferSize]

section
variable {d : SnakeDriver} (hR : Res d)
include hR

theorem lastRow_le_iff {p : Point} (hp : OnBoard p) :
    rowOffset d p (tileSize d - 1) + tileSize d ≤ bufferSize d ↔ ¬ Spills d p := by
  obtain ⟨hx, hx', hy, hy'⟩ := hp
  obtain ⟨h₁, h₂, h₃, h₄⟩ := tileSize_bounds hR
  have hsize := bufferSize_eq d
  have hmod : d.resolution.toNat = 32 * tileSize d + d.resolution.toNat % 32 := by
    unfold tileSize
    omega
  have hlast : d.resolution.toNat * (p.x.toNat * tileSize d + (tileSize d - 1)) + d.resolution.toNat =
      p.x.toNat * (d.resolution.toNat * tileSize d) + d.resolution.toNat * tileSize d := by
    rw [← Nat.mul_succ, show (p.x.toNat * tileSize d + (tileSize d - 1)).succ =
      p.x.toNat * tileSize d + tileSize d by omega, Nat.mul_add, Nat.mul_left_comm]
  have hy₁ : tileSize d ≤ p.y.toNat * tileSize d := Nat.le_mul_of_pos_left _ hy
  have hy₂ : p.y.toNat * tileSize d ≤ 32 * tileSize d := Nat.mul_le_mul_right _ hy'
  have hRS : d.resolution.toNat ≤ d.resolution.toNat * tileSize d := Nat.le_mul_of_pos_right _ h₁
  unfold Spills rowOffset
  rcases Nat.lt_or_ge p.x.toNat 31 with hlt | hge
  -- thirty columns of tiles end a whole band before the end
  · have hx30 : p.x.toNat * (d.resolution.toNat * tileSize d) ≤ 30 * (d.resolution.toNat * tileSize d) :=
      Nat.mul_le_mul_right _ (by omega)
    omega
  rcases (show p.x.toNat = 31 ∨ p.x.toNat = 32 by omega) with hx31 | hx32
  · rw [hx31] at hlast ⊢
    rcases Nat.eq_zero_or_pos (d.resolution.toNat % 32) with hr | hr
    · rw [hr, Nat.mul_zero] at hsize
      rcases (show p.y.toNat ≤ 31 ∨ p.y.toNat = 32 by omega) with hy31 | hy32
      · have : p.y.toNat * tileSize d ≤ 31 * tileSize d := Nat.mul_le_mul_right _ hy31
        omega
      · rw [hy32]
        omega
    · have : d.resolution.toNat ≤ d.resolution.toNat * (d.resolution.toNat % 32) :=
        Nat.le_mul_of_pos_right _ hr
      omega
  · rw [hx32] at hlast ⊢
    rcases Nat.lt_or_ge (d.resolution.toNat % 32) (tileSize d) with hr | hr
    · have : d.resolution.toNat * (d.resolution.toNat % 32 + 1) ≤ d.resolution.toNat * tileSize d :=
        Nat.mul_le_mul_left _ hr
      rw [Nat.mul_succ] at this
      omega
    · have : d.resolution.toNat * tileSize d ≤ d.resolution.toNat * (d.resolution.toNat % 32) :=
        Nat.mul_le_mul_left _ hr
      omega

theorem tile_inside_iff {p : Point} (hp : OnBoard p) :
    (∀ a, Tile d p a → offset d a < bufferSize d) ↔ ¬ Spills d p := by
  obtain ⟨h₁, _⟩ := tileSize_bounds hR
  rw [← lastRow_le_iff hR hp]
  constructor
  · intro h
    have hb := rowOffset_lt hR hp (show tileSize d - 1 ≤ tileSize d by omega)
    have ho := offset_add d (o := rowOffset d p (tileSize d - 1) + (tileSize d - 1)) (by omega)
    have := h _ ((tile_onBoard hR hp _).mpr ⟨_, by omega, _, by omega, ho⟩)
    omega
  · intro h a ha
    obtain ⟨i, hi, j, hj, ho⟩ := (tile_onBoard hR hp a).mp ha
    have hrow : d.resolution.toNat * (p.x.toNat * tileSize d + i) ≤
        d.resolution.toNat * (p.x.toNat * tileSize d + (tileSize d - 1)) := Nat.mul_le_mul_left _ (by omega)
    have : rowOffset d p i ≤ rowOffset d p (tileSize d - 1) := by
      unfold rowOffset
      omega
    omega

theorem bufferSize_lt : bufferSize d ≤ 2 ^ 30 := (Nat.mul_le_mul hR.2 hR.2 : _ ≤ 32768 * 32768)

theorem bufferSize_ge : 1024 ≤ bufferSize d := (Nat.mul_le_mul hR.1 hR.1 : 32 * 32 ≤ _)

theorem tile_zero_inside_iff : (∀ a, Tile d .zero a → offset d a < bufferSize d) ↔ d.resolution.toNat < 64 := by
  obtain ⟨h₁, h₂, h₃, h₄⟩ := tileSize_bounds hR
  have hsize := bufferSize_lt hR
  have hsize' := bufferSize_ge hR
  constructor
  · intro h
    refine Nat.lt_of_not_le fun hge => ?_
    have hS : 2 ≤ tileSize d := by
      unfold tileSize
      omega
    have ho := offset_add d (show 2 ^ 32 - tileSize d / 2 < 2 ^ 32 by omega)
    have := h _ ((tile_zero hR _).mpr ⟨0, by omega, 0, by omega, by rw [ho]; omega⟩)
    omega
  · intro h a ha
    obtain ⟨i, hi, j, hj, ho⟩ := (tile_zero hR a).mp ha
    have hS : tileSize d = 1 := by
      unfold tileSize
      omega
    rw [hS] at hi hj ho
    obtain rfl : i = 0 := by omega
    omega

theorem fill_within (a : U32) :
    Within d.frameBuffer (d.resolution * d.resolution).toNat a ↔ offset d a < bufferSize d := by
  have hsize := bufferSize_lt hR
  unfold bufferSize at hsize
  rw [Within, BitVec.toNat_mul, Nat.mod_eq_of_lt (by omega)]
  rfl

/-! ## Two readings of "past the end" -/

/-- A law for written bytes that the tiles of spilling cells break, and no other tile on the
board; the tile of an empty slot keeps it exactly under `Z`. -/
structure TileLaw (d : SnakeDriver) (P : U32 → Prop) (Z : Prop) : Prop where
  fill : ∀ a, offset d a < bufferSize d → P a
  board : ∀ p, OnBoard p → ((∀ a, Tile d p a → P a) ↔ ¬ Spills d p)
  empty : (∀ a, Tile d .zero a → P a) ↔ Z

/-- The offset as the code computes it, an unsigned 32-bit number. -/
theorem unsigned_law : TileLaw d (fun a => offset d a < bufferSize d) (d.resolution.toNat < 64) where
  fill _ h := h
  board _ hp := tile_inside_iff hR hp
  empty := tile_zero_inside_iff hR

omit hR in
theorem toInt_of_small {a : U32} (h : offset d a < 2 ^ 31) : (a - d.frameBuffer).toInt = offset d a :=
  BitVec.toInt_eq_toNat_of_lt (by unfold offset at h; omega)

/-- The offset as a signed distance, where half a tile before the buffer is not past its end. -/
theorem signed_law : TileLaw d (fun a => (a - d.frameBuffer).toInt < bufferSize d) True where
  fill a h := by
    have := bufferSize_lt hR
    rw [toInt_of_small (by omega)]
    exact Int.ofNat_lt.mpr h
  board p hp := by
    refine Iff.trans ?_ (tile_inside_iff hR hp)
    refine forall_congr' fun a => imp_congr_right fun ha => ?_
    obtain ⟨i, hi, j, hj, ho⟩ := (tile_onBoard hR hp a).mp ha
    have := (rowStart_toNat hR hp (Nat.le_of_lt hi)).2
    rw [toInt_of_small (by omega)]
    exact Int.ofNat_lt
  empty := by
    refine iff_true_intro fun a ha => ?_
    obtain ⟨h₁, h₂, h₃, h₄⟩ := tileSize_bounds hR
    have hRS := row_mul_size_le hR
    have hsize := bufferSize_eq d
    rcases tile_zero_offset hR ha with hbefore | hfirst
    · have hneg : (a - d.frameBuffer).toInt < 0 := by
        rw [BitVec.toInt_neg_iff]
        show 2 ^ 32 ≤ 2 * offset d a
        omega
      omega
    · rw [Nat.mul_comm] at hfirst
      rw [toInt_of_small (by omega)]
      omega

end

/-! ## Foods and the game-over picture stay inside -/

theorem FoodCell.not_spills {d : SnakeDriver} {p : Point} (h : FoodCell p) : ¬ Spills d p := by
  obtain ⟨_, _, _, _⟩ := h
  unfold Spills
  omega

theorem gameOverPoint_foodCell : ∀ i < 96, FoodCell (gameOverPoint i) := by decide

/-! ## What starting and ending a game writes -/

structure FoodLaw (d : SnakeDriver) (P : U32 → Prop) : Prop where
  fill : ∀ a, Within d.frameBuffer (d.resolution * d.resolution).toNat a → P a
  food : ∀ p, FoodCell p → ∀ a, Tile d p a → P a

section
variable {d : SnakeDriver} {P : U32 → Prop} (hP : FoodLaw d P)
include hP

theorem FoodLaw.endGame_iff (m : Machine) :
    (∀ a, (endGame d m).Wrote a → P a) ↔ ∀ a, m.Wrote a → P a := by
  refine ⟨fun h a ha => h a ((endGame_wrote d m a).mpr (Or.inr (Or.inr ha))), fun h a ha => ?_⟩
  rcases (endGame_wrote d m a).mp ha with ⟨i, hi, ht⟩ | hf | hw
  · exact hP.food _ (gameOverPoint_foodCell i hi) a ht
  · exact hP.fill a hf
  · exact h a hw

theorem FoodLaw.openGame {inp : Inputs} (hin : inp.Within 1 30) (mem : ByteMemory 32) :
    ∀ a, (openGame d inp mem).Wrote a → P a := by
  intro a ha
  rw [NiosSnake.openGame, drawSquare_wrote, fillBuffer_wrote] at ha
  rcases ha with ht | hf | ⟨w, hw, _⟩
  · exact hP.food _ (drawAt_foodCell hin 0) a ht
  · exact hP.fill a hf
  · cases hw

theorem FoodLaw.startPlay {inp : Inputs} (hin : inp.Within 1 30) (mem : ByteMemory 32) :
    ∀ a, (startPlay d inp mem).state.Wrote a → P a := by
  rcases startPlay_cases d inp mem with hs | ⟨message, hs⟩
  · rw [hs]
    exact hP.openGame hin mem
  · rw [hs]
    exact fun a ⟨w, hw, _⟩ => absurd hw List.not_mem_nil

end

/-! ## Runs -/

section
variable (d : SnakeDriver) (inp : Inputs)

/-- A round that only moves does not enter a spilling cell, and one that eats and goes on finds
no empty slot to erase unless `Z`. -/
def RoundInside (Z : Prop) (s : State) : Prop :=
  (¬ Bites inp s → ¬ Eats inp s → ¬ Spills d (nextHead inp s)) ∧
    (¬ Bites inp s → Eats inp s → ¬ Wins s d → s.snake.slot s.snake.length = .zero → Z)

structure DrawnInv (m : Machine) : Prop where
  slots : ∀ i, m.snake.slot i = .zero ∨ m.snake.slot i = ⟨16, 16⟩ ∨
    ∀ a, Tile d (m.snake.slot i) a → m.Wrote a
  food : FoodCell m.currentFood

end

section
variable {d : SnakeDriver} {inp : Inputs} {mem : ByteMemory 32}

theorem drawn_next (inp : Inputs) {m m' : Machine} (h : DrawnInv d m)
    (hslot : ∀ i, m'.snake.slot i = (movedSnake inp m.toState).slot i)
    (hhead : ∀ a, Tile d (nextHead inp m.toState) a → m'.Wrote a) (hold : ∀ a, m.Wrote a → m'.Wrote a)
    (i : Nat) : m'.snake.slot i = .zero ∨ m'.snake.slot i = ⟨16, 16⟩ ∨
      ∀ a, Tile d (m'.snake.slot i) a → m'.Wrote a := by
  rw [hslot i]
  rcases movedSnake_slot_cases inp m.toState i with hz | ⟨_, hn⟩ | ⟨j, _, hj⟩
  · exact Or.inl hz
  · rw [hn]
    exact Or.inr (Or.inr hhead)
  · rw [hj]
    rcases h.slots j with hz | h16 | hd
    · exact Or.inl hz
    · exact Or.inr (Or.inl h16)
    · exact Or.inr (Or.inr fun a ha => hold a (hd a ha))

theorem run_drawn (hin : inp.Within 1 30) (h2 : 2 ≤ d.snakeLength.toNat) (h33 : d.snakeLength.toNat ≤ 33) :
    ∀ n m, snakePlay d inp mem n = .running m → DrawnInv d m := by
  refine Outcome.running_invariant (fun _ m => DrawnInv d m) ?_ ?_
  · intro m hm
    rw [startPlay_running hm]
    refine ⟨fun i => ?_, ?_⟩
    · rw [openGame_snake]
      cases i with
      | zero => exact Or.inr (Or.inl rfl)
      | succ i => exact Or.inl (initialSnake_slot_succ i)
    · rw [openGame_currentFood]
      exact drawAt_foodCell hin 0
  · intro n m m' hr h hs
    have hb := (run_bodyInv h2 h33 n m hr).below
    rcases loopBody_running d inp m hs with ⟨_, _, _, rfl⟩ | ⟨_, _, rfl⟩
    · refine ⟨drawn_next inp h (fun i => ?_) (fun a ha => ?_) (fun a ha => ?_),
        eatRound_foodCell hin (show m.snake.length ≤ 32 by omega)⟩
      · rw [eatRound_snake d inp m (by omega)]
        rfl
      · exact (eatRound_wrote d inp m (by omega) a).mpr (Or.inl ha)
      · exact (eatRound_wrote d inp m (by omega) a).mpr (Or.inr (Or.inr (Or.inr ha)))
    · refine ⟨drawn_next inp h (fun i => ?_) (fun a ha => ?_) (fun a ha => ?_), ?_⟩
      · rw [walkRound_snake]
      · exact (walkRound_wrote d inp m a).mpr (Or.inl ha)
      · exact (walkRound_wrote d inp m a).mpr (Or.inr (Or.inr ha))
      · rw [walkRound_currentFood]
        exact h.food

end

section
variable {d : SnakeDriver} {inp : Inputs} {mem : ByteMemory 32} {P : U32 → Prop} {Z : Prop}
variable (hP : TileLaw d P Z)
include hP

theorem TileLaw.foodCell {p : Point} (h : FoodCell p) : ∀ a, Tile d p a → P a :=
  (hP.board p h.onBoard).mpr h.not_spills

theorem TileLaw.drawn {m : Machine} (hm : DrawnInv d m) (hw : ∀ a, m.Wrote a → P a) {i : Nat}
    (hne : m.snake.slot i ≠ .zero) : ∀ a, Tile d (m.snake.slot i) a → P a := by
  rcases hm.slots i with hz | h16 | hd
  · exact absurd hz hne
  · rw [h16]
    exact hP.foodCell (by decide)
  · exact fun a ha => hw a (hd a ha)

variable (hR : Res d)
include hR

theorem TileLaw.foodLaw : FoodLaw d P where
  fill a ha := hP.fill a ((fill_within hR a).mp ha)
  food _ hp := hP.foodCell hp

theorem TileLaw.round_iff (hin : inp.Within 1 30) (h33 : d.snakeLength.toNat ≤ 33) {m : Machine}
    (hi : BodyInv d m.toState) (hm : DrawnInv d m) :
    (∀ a, (loopBody d inp m).state.Wrote a → P a) ↔
      (∀ a, m.Wrote a → P a) ∧ RoundInside d inp Z m.toState := by
  have hb := hi.below
  have hhead : Eats inp m.toState → ∀ a, Tile d (nextHead inp m.toState) a → P a := by
    intro he
    rw [show nextHead inp m.toState = m.currentFood from he]
    exact hP.foodCell hm.food
  rcases loopBody_cases d inp m with ⟨h₁, hr⟩ | ⟨h₁, h₂, h₃, hr⟩ | ⟨h₁, h₂, h₃, hr⟩ | ⟨h₁, h₂, hr⟩ <;>
    rw [hr] <;> simp only [Outcome.state]
  · rw [(hP.foodLaw hR).endGame_iff]
    simp only [afterMove_wrote]
    exact ⟨fun h => ⟨h, fun h' => absurd h₁ h', fun h' => absurd h₁ h'⟩, And.left⟩
  · rw [(hP.foodLaw hR).endGame_iff]
    simp only [grow_wrote, afterMove_wrote, afterMove_snake, movedSnake_slot_zero]
    refine ⟨fun h => ⟨fun a ha => h a (Or.inr ha), fun _ h' => absurd h₂ h', fun _ _ h' => absurd h₃ h'⟩, ?_⟩
    rintro ⟨h, _⟩ a (ht | hw)
    · exact hhead h₂ a ht
    · exact h a hw
  · have hgrown := hi.length_of_not_wins h₃
    simp only [eatRound_wrote d inp m (show m.snake.length ≤ 254 by omega),
      movedSnake_slot_succ inp m.toState (show m.snake.length < 32 by omega)]
    constructor
    · intro h
      refine ⟨fun a ha => h a (Or.inr (Or.inr (Or.inr ha))), fun _ h' => absurd h₂ h', fun _ _ _ hz => ?_⟩
      exact hP.empty.mp fun a ha => h a (Or.inr (Or.inl (by rwa [hz])))
    · rintro ⟨h, _, hZ⟩ a (ht | ht | ht | hw)
      · exact hhead h₂ a ht
      · by_cases hz : m.snake.slot m.snake.length = .zero
        · exact hP.empty.mpr (hZ h₁ h₂ h₃ hz) a (by rwa [← hz])
        · exact hP.drawn hm h hz a ht
      · exact hP.foodCell (eatRound_foodCell hin (by omega)) a ht
      · exact h a hw
  · simp only [walkRound_wrote, movedSnake_slot_length inp hi.pos (show m.snake.length ≤ 32 by omega)]
    constructor
    · intro h
      refine ⟨fun a ha => h a (Or.inr (Or.inr ha)), fun _ _ => ?_, fun _ h' => absurd h' h₂⟩
      exact (hP.board _ hi.nextHead_onBoard).mp fun a ha => h a (Or.inl ha)
    · rintro ⟨h, hS, _⟩ a (ht | ht | hw)
      · exact (hP.board _ hi.nextHead_onBoard).mpr (hS h₁ h₂) a ht
      · -- the old tail is on the board, so it has been drawn
        exact hP.drawn hm h (hi.onBoard _ (by have := hi.pos; omega)).ne_zero a ht
      · exact h a hw

theorem TileLaw.run_iff (hin : inp.Within 1 30) (h2 : 2 ≤ d.snakeLength.toNat)
    (h33 : d.snakeLength.toNat ≤ 33) (n : Nat) :
    (∀ a, (snakePlay d inp mem n).state.Wrote a → P a) ↔
      ∀ k < n, ∀ m, snakePlay d inp mem k = .running m → RoundInside d inp Z m.toState := by
  refine Outcome.log_iff (fun m : Machine => ∀ a, m.Wrote a → P a)
    (fun _ m => RoundInside d inp Z m.toState) ?_ (fun k m hr => ?_) n
  · exact (hP.foodLaw hR).startPlay hin mem
  · exact hP.round_iff hR hin h33 (run_bodyInv h2 h33 k m hr) (run_drawn hin h2 h33 k m hr)

end

/-- **When a run writes nothing past the end of the frame buffer**, with the byte's offset taken
as a signed distance, and as the unsigned number the code computes. -/
theorem writes_inside_iff {d : SnakeDriver} {inp : Inputs} {mem : ByteMemory 32} (hR : Res d)
    (h2 : 2 ≤ d.snakeLength.toNat) (h33 : d.snakeLength.toNat ≤ 33) (hin : inp.Within 1 30) (n : Nat) :
    ((∀ a, (snakePlay d inp mem n).state.Wrote a → (a - d.frameBuffer).toInt < bufferSize d) ↔
      ∀ k < n, ∀ m, snakePlay d inp mem k = .running m →
        ¬ Bites inp m.toState → ¬ Eats inp m.toState → ¬ Spills d (nextHead inp m.toState)) ∧
    ((∀ a, (snakePlay d inp mem n).state.Wrote a → offset d a < bufferSize d) ↔
      ∀ k < n, ∀ m, snakePlay d inp mem k = .running m →
        RoundInside d inp (d.resolution.toNat < 64) m.toState) := by
  refine ⟨?_, (unsigned_law hR).run_iff hR hin h2 h33 n⟩
  rw [(signed_law hR).run_iff hR hin h2 h33 n]
  simp only [RoundInside, implies_true, and_true]

def edgeInputs : Inputs := .ofLists (.replicate 16 .right) [1, 1]

theorem writes_inside_iff_edge :
    ((∀ a, (snakePlay (mainDriver someAddresses) edgeInputs (fun _ => 0) 16).state.Wrote a →
        (a - frameBufferBase).toInt < bufferSize (mainDriver someAddresses)) ↔
      ∀ k < 16, ∀ m, snakePlay (mainDriver someAddresses) edgeInputs (fun _ => 0) k = .running m →
        ¬ Bites edgeInputs m.toState → ¬ Eats edgeInputs m.toState →
          ¬ Spills (mainDriver someAddresses) (nextHead edgeInputs m.toState)) ∧
    ((∀ a, (snakePlay (mainDriver someAddresses) edgeInputs (fun _ => 0) 16).state.Wrote a →
        offset (mainDriver someAddresses) a < bufferSize (mainDriver someAddresses)) ↔
      ∀ k < 16, ∀ m, snakePlay (mainDriver someAddresses) edgeInputs (fun _ => 0) k = .running m →
        RoundInside (mainDriver someAddresses) edgeInputs (512 < 64) m.toState) :=
  writes_inside_iff (by decide) (by decide) (by decide) (Inputs.ofLists_within (by decide) (by decide)) 16

/-- The head of the sixteenth move is in column 32, whose tiles are behind the buffer. -/
theorem edge_writes_past_end :
    Res (mainDriver someAddresses) ∧ 2 ≤ (mainDriver someAddresses).snakeLength.toNat ∧
      (mainDriver someAddresses).snakeLength.toNat ≤ 33 ∧ edgeInputs.Within 1 30 ∧
      ∃ a, (snakePlay (mainDriver someAddresses) edgeInputs (fun _ => 0) 16).state.Wrote a ∧
        bufferSize (mainDriver someAddresses) ≤ offset (mainDriver someAddresses) a ∧
        (bufferSize (mainDriver someAddresses) : Int) ≤ (a - frameBufferBase).toInt := by
  refine ⟨by decide, by decide, by decide, Inputs.ofLists_within (by decide) (by decide),
    frameBufferBase + 262392, ?_, by decide, by decide⟩
  decide +kernel

end NiosSnake
