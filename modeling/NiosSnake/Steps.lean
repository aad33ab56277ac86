import NiosSnake.Play

/-!
# What one round of the loop does

Each part of the loop body changes a few fields of the machine. `loopBody_cases`
lists the four ways a round can go, with their guards; every invariant is
proved from these.
-/

namespace NiosSnake

open Paint

/-! ## The move -/

section
variable (inp : Inputs) (s : State)

def nextDirection : Direction := filterDirection s.snake.currentDirection (inp.readDirection s.moves)

def nextHead : Point := moveLocation (nextDirection inp s) s.snake.currentLocation

def movedSnake : Snake where
  currentLocation := nextHead inp s
  currentDirection := nextDirection inp s
  length := s.snake.length
  pointHistory := s.snake.pointHistory.push (nextHead inp s)

def Bites : Prop := ∃ i, i + 1 < s.snake.length ∧ (movedSnake inp s).slot (i + 1) = nextHead inp s

def Eats : Prop := nextHead inp s = s.currentFood

instance : Decidable (Eats inp s) := inferInstanceAs (Decidable (_ = _))

def Wins (d : SnakeDriver) : Prop := (s.snake.length + 1) % 2 ^ 32 = d.snakeLength.toNat

@[simp] theorem movedSnake_slot_zero : (movedSnake inp s).slot 0 = nextHead inp s :=
  Window.getD_push_zero ..

theorem movedSnake_slot_succ {i : Nat} (hi : i < 32) : (movedSnake inp s).slot (i + 1) = s.snake.slot i :=
  Window.getD_push_succ _ _ _ hi

end

section
variable (d : SnakeDriver) (inp : Inputs) (m : Machine)

def afterMove : Machine := (detectCollisionSnake (moveSnake (steer inp m))).2

theorem afterMove_eq : afterMove inp m =
    { m with
      snake := movedSnake inp m.toState
      moves := m.moves + 1
      accesses := (afterMove inp m).accesses
      calls := ⟨.readDirectionCb (inp.readDirection m.moves), m.toState⟩ :: m.calls } := by
  rw [afterMove, detectCollisionSnake, scan_frame]
  rfl

@[simp] theorem afterMove_snake : (afterMove inp m).snake = movedSnake inp m.toState := by rw [afterMove_eq]
@[simp] theorem afterMove_currentFood : (afterMove inp m).currentFood = m.currentFood := by rw [afterMove_eq]
@[simp] theorem afterMove_mem : (afterMove inp m).mem = m.mem := by rw [afterMove_eq]
@[simp] theorem afterMove_draws : (afterMove inp m).draws = m.draws := by rw [afterMove_eq]
@[simp] theorem afterMove_moves : (afterMove inp m).moves = m.moves + 1 := by rw [afterMove_eq]
@[simp] theorem afterMove_writes : (afterMove inp m).writes = m.writes := by rw [afterMove_eq]

@[simp] theorem afterMove_shown : (afterMove inp m).shown = m.shown := by
  rw [Machine.shown, afterMove_eq]
  rfl
@[simp] theorem afterMove_scored : (afterMove inp m).scored = m.scored := by
  rw [Machine.scored, afterMove_eq]
  rfl

theorem afterMove_wrote (a : U32) : (afterMove inp m).Wrote a ↔ m.Wrote a := by
  rw [Machine.Wrote, afterMove_writes]
  rfl

theorem detect_iff :
    (detectCollisionSnake (moveSnake (steer inp m))).1 = true ↔ Bites inp m.toState := by
  rw [detectCollisionSnake, scan_found]
  simp only [pointTEquals_iff]
  constructor
  · rintro ⟨j, h₁, h₂, h⟩
    obtain ⟨i, rfl⟩ : ∃ i, j = i + 1 := ⟨j - 1, by omega⟩
    have : i + 1 < 1 + (m.snake.length - 1) := h₂
    exact ⟨i, by omega, h.symm⟩
  · rintro ⟨i, hi, h⟩
    exact ⟨i + 1, by omega, show i + 1 < 1 + (m.snake.length - 1) by omega, h.symm⟩

theorem afterMove_accesses {j : Nat} (h : j ∈ (afterMove inp m).accesses) :
    j ≤ 32 ∨ j < m.snake.length ∨ j ∈ m.accesses := by
  rw [afterMove, detectCollisionSnake] at h
  rcases scan_accesses _ _ _ _ _ h with h | h
  · have : j < 1 + (m.snake.length - 1) := h
    omega
  · simp only [moveSnake, shiftAccesses, List.mem_cons, List.mem_append, List.mem_map, List.mem_range] at h
    rcases h with rfl | (⟨i, hi, rfl⟩ | hj) | h
    · omega
    · omega
    · omega
    · exact Or.inr (Or.inr h)

/-! ## Growing -/

@[simp] theorem grow_snake : (grow d m).snake = { m.snake with length := (m.snake.length + 1) % 2 ^ 32 } := by
  simp [grow, Machine.access]
@[simp] theorem grow_currentFood : (grow d m).currentFood = m.currentFood := by simp [grow, Machine.access]
@[simp] theorem grow_draws : (grow d m).draws = m.draws := by simp [grow, Machine.access]
@[simp] theorem grow_moves : (grow d m).moves = m.moves := by simp [grow, Machine.access]
@[simp] theorem grow_accesses : (grow d m).accesses = 0 :: m.accesses := by simp [grow, Machine.access]
@[simp] theorem grow_calls : (grow d m).calls = m.calls := by simp [grow, Machine.access]

@[simp] theorem grow_shown : (grow d m).shown = m.shown := by rw [Machine.shown, grow_calls]; rfl
@[simp] theorem grow_scored : (grow d m).scored = m.scored := by rw [Machine.scored, grow_calls]; rfl

theorem grow_painted : Painted (Tile d) m.mem (grow d m).mem (m.snake.slot 0) d.snakeColor :=
  drawSquare_painted d (m.snake.slot 0) d.snakeColor _

theorem grow_wrote (a : U32) : (grow d m).Wrote a ↔ Tile d (m.snake.slot 0) a ∨ m.Wrote a :=
  drawSquare_wrote d _ _ _ a

/-! ## Placing the food -/

def drawAt (k : Nat) : Point := ⟨inp.randomNumber k, inp.randomNumber (k + 1)⟩

def OnScanned (s : Snake) (p : Point) : Prop := ∃ i < s.length, s.slot i = p

theorem placementLoop_eq : placementLoop inp false m = (placementPass inp m).2 := by
  rw [placementLoop, placementLoop]
  simp [placementPass]

def scanAccesses : List Nat :=
  (scan (fun p => pointTEquals p (drawAt inp m.draws)) m.snake.length 0 (drawFood inp m)).2.accesses

theorem mem_scanAccesses {j : Nat} (h : j ∈ scanAccesses inp m) : j < m.snake.length ∨ j ∈ m.accesses := by
  rcases scan_accesses _ _ _ _ _ h with h | h
  · exact Or.inl (by omega)
  · exact Or.inr h

theorem placement_found :
    (scan (fun p => pointTEquals p (drawAt inp m.draws)) m.snake.length 0 (drawFood inp m)).1 = true ↔
      OnScanned m.snake (drawAt inp m.draws) := by
  rw [scan_found]
  simp only [Nat.zero_le, true_and, Nat.zero_add, pointTEquals_iff]
  rfl

/-- A first draw on the snake: the second draw is the food, unseen. -/
theorem placement_hit (h : OnScanned m.snake (drawAt inp m.draws)) :
    placementLoop inp false (drawFood inp m) =
      { drawFood inp (drawFood inp m) with accesses := scanAccesses inp m } := by
  rw [placementLoop_eq, placementPass]
  exact (if_pos ((placement_found inp m).mpr h)).trans (congrArg (drawFood inp) (scan_frame _ _ _ _))

theorem placement_miss (h : ¬ OnScanned m.snake (drawAt inp m.draws)) :
    placementLoop inp false (drawFood inp m) = { drawFood inp m with accesses := scanAccesses inp m } := by
  rw [placementLoop_eq, placementPass]
  exact (if_neg fun hs => h ((placement_found inp m).mp hs)).trans (scan_frame _ _ _ _)

section
/-! Placing the food leaves the snake, the memory and what was shown alone. -/

theorem placementLoop_cases {α : Type} (f : Machine → α)
    (hfood : ∀ m' k, f { drawFood inp m' with accesses := k } = f m') :
    f (placementLoop inp false (drawFood inp m)) = f m := by
  by_cases h : OnScanned m.snake (drawAt inp m.draws)
  · rw [placement_hit inp m h, hfood]
    exact hfood m (drawFood inp m).accesses
  · rw [placement_miss inp m h, hfood]

theorem respawn_cases {α : Type} (f : Machine → α) (hdraw : ∀ p c m', f (drawSquare d p c m') = f m')
    (hfood : ∀ m' k, f { drawFood inp m' with accesses := k } = f m') : f (respawn d inp m) = f m := by
  unfold respawn
  rw [hdraw, placementLoop_cases inp m f hfood]

@[simp] theorem respawn_snake : (respawn d inp m).snake = m.snake :=
  respawn_cases d inp m (·.snake) (by simp) (fun _ _ => rfl)
@[simp] theorem respawn_moves : (respawn d inp m).moves = m.moves :=
  respawn_cases d inp m (·.moves) (by simp) (fun _ _ => rfl)
@[simp] theorem respawn_shown : (respawn d inp m).shown = m.shown :=
  respawn_cases d inp m (·.shown) (by simp [Machine.shown]) (fun _ _ => rfl)
@[simp] theorem respawn_scored : (respawn d inp m).scored = m.scored :=
  respawn_cases d inp m (·.scored) (by simp [Machine.scored]) (fun _ _ => rfl)

end

theorem respawn_currentFood [Decidable (OnScanned m.snake (drawAt inp m.draws))] :
    (respawn d inp m).currentFood =
      if OnScanned m.snake (drawAt inp m.draws) then drawAt inp (m.draws + 2) else drawAt inp m.draws := by
  unfold respawn
  by_cases h : OnScanned m.snake (drawAt inp m.draws)
  · rw [if_pos h, placement_hit inp m h]
    simp
    rfl
  · rw [if_neg h, placement_miss inp m h]
    simp
    rfl

theorem respawn_draws (h : ¬ OnScanned m.snake (drawAt inp m.draws)) :
    (respawn d inp m).draws = m.draws + 2 := by
  unfold respawn
  rw [placement_miss inp m h]
  simp
  rfl

theorem respawn_painted :
    Painted (Tile d) m.mem (respawn d inp m).mem (respawn d inp m).currentFood d.foodColor := by
  have hp := drawSquare_painted d (placementLoop inp false (drawFood inp m)).currentFood d.foodColor
    (placementLoop inp false (drawFood inp m))
  have hmem : (placementLoop inp false (drawFood inp m)).mem = m.mem :=
    placementLoop_cases inp m (·.mem) fun _ _ => rfl
  rw [hmem] at hp
  simpa [respawn] using hp

theorem respawn_wrote (a : U32) :
    (respawn d inp m).Wrote a ↔ Tile d (respawn d inp m).currentFood a ∨ m.Wrote a := by
  have hw := drawSquare_wrote d (placementLoop inp false (drawFood inp m)).currentFood d.foodColor
    (placementLoop inp false (drawFood inp m)) a
  have hold : (placementLoop inp false (drawFood inp m)).Wrote a ↔ m.Wrote a :=
    Iff.of_eq (placementLoop_cases inp m (·.Wrote a) fun _ _ => rfl)
  rw [hold] at hw
  simpa [respawn] using hw

theorem respawn_accesses {j : Nat} (h : j ∈ (respawn d inp m).accesses) :
    j < m.snake.length ∨ j ∈ m.accesses := by
  refine mem_scanAccesses inp m ?_
  unfold respawn at h
  by_cases hs : OnScanned m.snake (drawAt inp m.draws)
  · rw [placement_hit inp m hs] at h; simpa using h
  · rw [placement_miss inp m hs] at h; simpa using h

/-! ## Presenting a frame -/

section
variable {d m}

@[simp] theorem presentFrame_snake : (presentFrame d m).snake = m.snake := by
  simp [presentFrame, Machine.access, Machine.call]
@[simp] theorem presentFrame_currentFood : (presentFrame d m).currentFood = m.currentFood := by
  simp [presentFrame, Machine.access, Machine.call]
@[simp] theorem presentFrame_draws : (presentFrame d m).draws = m.draws := by
  simp [presentFrame, Machine.access, Machine.call]
@[simp] theorem presentFrame_moves : (presentFrame d m).moves = m.moves := by
  simp [presentFrame, Machine.access, Machine.call]
@[simp] theorem presentFrame_accesses :
    (presentFrame d m).accesses = 0 :: m.snake.length :: m.accesses := by
  simp [presentFrame, Machine.access, Machine.call]

end

theorem presentFrame_painted : ∃ mem,
    Painted (Tile d) m.mem mem (m.snake.slot m.snake.length) d.backgroundColor ∧
      Painted (Tile d) mem (presentFrame d m).mem (m.snake.slot 0) d.snakeColor := by
  refine ⟨_, drawSquare_painted d (m.snake.slot m.snake.length) d.backgroundColor
    (m.access m.snake.length), ?_⟩
  have h := drawSquare_painted d (m.snake.slot 0) d.snakeColor
    ((drawSquare d (m.snake.slot m.snake.length) d.backgroundColor (m.access m.snake.length)).access 0)
  simpa [presentFrame, Machine.access, Machine.call] using h

theorem presentFrame_wrote (a : U32) :
    (presentFrame d m).Wrote a ↔
      Tile d (m.snake.slot 0) a ∨ Tile d (m.snake.slot m.snake.length) a ∨ m.Wrote a := by
  have h₁ := drawSquare_wrote d (m.snake.slot 0) d.snakeColor
    ((drawSquare d (m.snake.slot m.snake.length) d.backgroundColor (m.access m.snake.length)).access 0) a
  have h₂ := drawSquare_wrote d (m.snake.slot m.snake.length) d.backgroundColor (m.access m.snake.length) a
  refine Iff.trans ?_ (h₁.trans (or_congr_right h₂))
  simp [presentFrame, Machine.access, Machine.call, Machine.Wrote]

theorem presentFrame_shown : (presentFrame d m).shown = (presentFrame d m).toState :: m.shown := by
  simp [presentFrame, Machine.access, Machine.call, Machine.shown]

theorem presentFrame_scored : (presentFrame d m).scored =
    (BitVec.ofNat 8 m.snake.length, (presentFrame d m).toState) :: m.scored := by
  simp [presentFrame, Machine.access, Machine.call, Machine.scored]

/-! ## Ending the game -/

@[simp] theorem endGame_snake : (endGame d m).snake = m.snake := by
  simp only [endGame, Machine.call]
  rw [drawGameOver_frame]
@[simp] theorem endGame_moves : (endGame d m).moves = m.moves := by
  simp only [endGame, Machine.call]
  rw [drawGameOver_frame]
@[simp] theorem endGame_shown : (endGame d m).shown = m.shown := by
  simp only [endGame, Machine.call, Machine.shown]
  rw [drawGameOver_frame]
  simp
@[simp] theorem endGame_scored : (endGame d m).scored = m.scored := by
  simp only [endGame, Machine.call, Machine.scored]
  rw [drawGameOver_frame]
  simp
@[simp] theorem endGame_accesses : (endGame d m).accesses = m.accesses := by
  simp only [endGame, Machine.call]
  rw [drawGameOver_frame]

theorem endGame_wrote (a : U32) :
    (endGame d m).Wrote a ↔ (∃ i < 96, Tile d (gameOverPoint i) a) ∨
      ByteMemory.Within d.frameBuffer (d.resolution * d.resolution).toNat a ∨ m.Wrote a :=
  drawGameOver_wrote d m a

/-! ## The round -/

def eatRound : Machine := presentFrame d (respawn d inp (grow d (afterMove inp m)))

def walkRound : Machine := presentFrame d (afterMove inp m)

/-- **The four ways a round goes.** -/
theorem loopBody_cases :
    (Bites inp m.toState ∧ loopBody d inp m = .returned lostMessage (endGame d (afterMove inp m))) ∨
    (¬ Bites inp m.toState ∧ Eats inp m.toState ∧ Wins m.toState d ∧
      loopBody d inp m = .returned wonMessage (endGame d (grow d (afterMove inp m)))) ∨
    (¬ Bites inp m.toState ∧ Eats inp m.toState ∧ ¬ Wins m.toState d ∧
      loopBody d inp m = .running (eatRound d inp m)) ∨
    (¬ Bites inp m.toState ∧ ¬ Eats inp m.toState ∧ loopBody d inp m = .running (walkRound d inp m)) := by
  have hbite := detect_iff inp m
  have heat : pointTEquals (afterMove inp m).snake.currentLocation (afterMove inp m).currentFood = true ↔
      Eats inp m.toState := by
    rw [pointTEquals_iff, afterMove_snake, afterMove_currentFood]
    rfl
  have hwin : (grow d (afterMove inp m)).snake.length = d.snakeLength.toNat ↔ Wins m.toState d := by
    rw [grow_snake, afterMove_snake]
    rfl
  rw [loopBody]
  by_cases h₁ : Bites inp m.toState
  · exact Or.inl ⟨h₁, if_pos (hbite.mpr h₁)⟩
  rw [if_neg fun h => h₁ (hbite.mp h)]
  by_cases h₂ : Eats inp m.toState
  · rw [← afterMove, if_pos (heat.mpr h₂)]
    by_cases h₃ : Wins m.toState d
    · exact Or.inr (Or.inl ⟨h₁, h₂, h₃, if_pos (hwin.mpr h₃)⟩)
    · exact Or.inr (Or.inr (Or.inl ⟨h₁, h₂, h₃, if_neg fun h => h₃ (hwin.mp h)⟩))
  · exact Or.inr (Or.inr (Or.inr ⟨h₁, h₂, if_neg fun h => h₂ (heat.mp h)⟩))

theorem loopBody_running {m' : Machine} (h : loopBody d inp m = .running m') :
    (¬ Bites inp m.toState ∧ Eats inp m.toState ∧ ¬ Wins m.toState d ∧ m' = eatRound d inp m) ∨
      (¬ Bites inp m.toState ∧ ¬ Eats inp m.toState ∧ m' = walkRound d inp m) := by
  rcases loopBody_cases d inp m with ⟨_, hb⟩ | ⟨_, _, _, hb⟩ | ⟨h₁, h₂, h₃, hb⟩ | ⟨h₁, h₂, hb⟩
  · rw [hb] at h; cases h
  · rw [hb] at h; cases h
  · rw [hb] at h; cases h; exact Or.inl ⟨h₁, h₂, h₃, rfl⟩
  · rw [hb] at h; cases h; exact Or.inr ⟨h₁, h₂, rfl⟩

end

end NiosSnake
