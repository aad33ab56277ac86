import NiosSnake.Steps

/-!
# The snake along a run

What the rounds do to the live segments, and the invariant of every running
state: the length stays below `snake_length`, the live segments are on the
board, and no slot holds anything but a board cell or its zero initialiser.
-/

namespace NiosSnake

open Paint

/-! ## Live segments -/

theorem Snake.mem_live {s : Snake} (h : s.length ≤ 33) (p : Point) : p ∈ s.live ↔ OnScanned s p :=
  Window.mem_take s.pointHistory .zero h

theorem Snake.length_live {s : Snake} (h : s.length ≤ 33) : s.live.length = s.length :=
  Window.length_take _ h

section
variable (inp : Inputs) {s : State} (hpos : 1 ≤ s.snake.length)
include hpos

theorem movedSnake_live (h : s.snake.length ≤ 33) :
    (movedSnake inp s).live = nextHead inp s :: s.snake.live.dropLast := by
  obtain ⟨k, hk⟩ : ∃ k, s.snake.length = k + 1 := ⟨s.snake.length - 1, by omega⟩
  have hm : (movedSnake inp s).length = k + 1 := hk
  rw [Snake.live, Snake.live, hm, hk, Window.dropLast_take _ (by omega)]
  exact Window.take_push _ _ (by omega)

theorem bites_iff (h : s.snake.length ≤ 33) : Bites inp s ↔ nextHead inp s ∈ s.snake.live.dropLast := by
  obtain ⟨k, hk⟩ : ∃ k, s.snake.length = k + 1 := ⟨s.snake.length - 1, by omega⟩
  rw [Bites, Snake.live, hk, Window.dropLast_take _ (by omega), Window.mem_take _ .zero (by omega)]
  constructor
  · rintro ⟨i, hi, hs⟩
    rw [movedSnake_slot_succ inp s (by omega)] at hs
    exact ⟨i, by omega, hs⟩
  · rintro ⟨i, hi, hs⟩
    refine ⟨i, by omega, ?_⟩
    rw [movedSnake_slot_succ inp s (by omega)]
    exact hs

theorem movedSnake_slot_length (h : s.snake.length ≤ 32) :
    (movedSnake inp s).slot s.snake.length = s.snake.slot (s.snake.length - 1) := by
  obtain ⟨k, hk⟩ : ∃ k, s.snake.length = k + 1 := ⟨s.snake.length - 1, by omega⟩
  rw [hk]
  exact movedSnake_slot_succ inp s (by omega)

end

theorem movedSnake_slot_cases (inp : Inputs) (s : State) (i : Nat) :
    (movedSnake inp s).slot i = .zero ∨ (i = 0 ∧ (movedSnake inp s).slot i = nextHead inp s) ∨
      ∃ j, i = j + 1 ∧ (movedSnake inp s).slot i = s.snake.slot j := by
  rcases Nat.lt_or_ge i 33 with hi | hi
  · cases i with
    | zero => exact Or.inr (Or.inl ⟨rfl, movedSnake_slot_zero ..⟩)
    | succ i => exact Or.inr (Or.inr ⟨i, rfl, movedSnake_slot_succ inp s (by omega)⟩)
  · left
    have hs := (movedSnake inp s).pointHistory.size_eq
    simp [Snake.slot, Window.getD, List.getD_eq_getElem?_getD, hs, hi]

def grownSnake (inp : Inputs) (s : State) : Snake :=
  { movedSnake inp s with length := s.snake.length + 1 }

theorem grownSnake_live (inp : Inputs) {s : State} (h : s.snake.length ≤ 32) :
    (grownSnake inp s).live = nextHead inp s :: s.snake.live :=
  Window.take_push _ _ h

/-! ## The fields after a round -/

section
variable (d : SnakeDriver) (inp : Inputs) (m : Machine)

@[simp] theorem walkRound_snake : (walkRound d inp m).snake = movedSnake inp m.toState := by
  simp [walkRound]
@[simp] theorem walkRound_currentFood : (walkRound d inp m).currentFood = m.currentFood := by
  simp [walkRound]
@[simp] theorem walkRound_moves : (walkRound d inp m).moves = m.moves + 1 := by simp [walkRound]
@[simp] theorem eatRound_moves : (eatRound d inp m).moves = m.moves + 1 := by simp [eatRound]

theorem grow_afterMove_snake (h : m.snake.length ≤ 254) :
    (grow d (afterMove inp m)).snake = grownSnake inp m.toState := by
  rw [grow_snake, afterMove_snake]
  simp only [grownSnake, movedSnake, Snake.mk.injEq, true_and, and_true]
  exact Nat.mod_eq_of_lt (by omega)

theorem eatRound_snake (h : m.snake.length ≤ 254) : (eatRound d inp m).snake = grownSnake inp m.toState := by
  rw [eatRound, presentFrame_snake, respawn_snake, grow_afterMove_snake d inp m h]

theorem eatRound_currentFood (h : m.snake.length ≤ 32) :
    (eatRound d inp m).currentFood =
      if drawAt inp m.draws ∈ (grownSnake inp m.toState).live then drawAt inp (m.draws + 2)
      else drawAt inp m.draws := by
  classical
  have hd : (grow d (afterMove inp m)).draws = m.draws := by simp
  rw [eatRound, presentFrame_currentFood, respawn_currentFood, grow_afterMove_snake d inp m (by omega), hd]
  simp only [Snake.mem_live (show (grownSnake inp m.toState).length ≤ 33 from Nat.succ_le_succ h)]

theorem eatRound_draws (h : m.snake.length ≤ 32)
    (hm : drawAt inp m.draws ∉ (grownSnake inp m.toState).live) :
    (eatRound d inp m).draws = m.draws + 2 := by
  have hd : (grow d (afterMove inp m)).draws = m.draws := by simp
  rw [Snake.mem_live (show (grownSnake inp m.toState).length ≤ 33 from Nat.succ_le_succ h),
    ← grow_afterMove_snake d inp m (by omega), ← hd] at hm
  rw [eatRound, presentFrame_draws, respawn_draws d inp _ hm, hd]

theorem walkRound_shown : (walkRound d inp m).shown = (walkRound d inp m).toState :: m.shown := by
  rw [walkRound, presentFrame_shown, afterMove_shown]

theorem eatRound_shown : (eatRound d inp m).shown = (eatRound d inp m).toState :: m.shown := by
  rw [eatRound, presentFrame_shown, respawn_shown, grow_shown, afterMove_shown]

/-! ## What a round writes and paints -/

theorem walkRound_wrote (a : U32) :
    (walkRound d inp m).Wrote a ↔ Tile d (nextHead inp m.toState) a ∨
      Tile d ((movedSnake inp m.toState).slot m.snake.length) a ∨ m.Wrote a := by
  rw [walkRound, presentFrame_wrote, afterMove_wrote, afterMove_snake, movedSnake_slot_zero]
  rfl

theorem eatRound_wrote (h : m.snake.length ≤ 254) (a : U32) :
    (eatRound d inp m).Wrote a ↔ Tile d (nextHead inp m.toState) a ∨
      Tile d ((movedSnake inp m.toState).slot (m.snake.length + 1)) a ∨
      Tile d (eatRound d inp m).currentFood a ∨ m.Wrote a := by
  have hfood : (eatRound d inp m).currentFood = (respawn d inp (grow d (afterMove inp m))).currentFood :=
    presentFrame_currentFood
  rw [hfood, eatRound, presentFrame_wrote, respawn_wrote, grow_wrote, afterMove_wrote, respawn_snake,
    grow_afterMove_snake d inp m h, afterMove_snake]
  have h0 : (grownSnake inp m.toState).slot 0 = nextHead inp m.toState := movedSnake_slot_zero ..
  have hl : (grownSnake inp m.toState).slot (grownSnake inp m.toState).length =
    (movedSnake inp m.toState).slot (m.snake.length + 1) := rfl
  rw [h0, hl, movedSnake_slot_zero]
  grind

theorem walkRound_painted : ∃ mem,
    Painted (Tile d) m.mem mem ((movedSnake inp m.toState).slot m.snake.length) d.backgroundColor ∧
      Painted (Tile d) mem (walkRound d inp m).mem (nextHead inp m.toState) d.snakeColor := by
  obtain ⟨mem, h₁, h₂⟩ := presentFrame_painted d (afterMove inp m)
  rw [afterMove_mem, afterMove_snake] at h₁
  rw [afterMove_snake, movedSnake_slot_zero] at h₂
  exact ⟨mem, h₁, h₂⟩

/-- An eating round paints the head and the food, erases the slot past the grown snake, and
paints the head again. -/
theorem eatRound_painted (h : m.snake.length ≤ 254) : ∃ mem₁ mem₂ mem₃,
    Painted (Tile d) m.mem mem₁ (nextHead inp m.toState) d.snakeColor ∧
      Painted (Tile d) mem₁ mem₂ (eatRound d inp m).currentFood d.foodColor ∧
      Painted (Tile d) mem₂ mem₃ ((movedSnake inp m.toState).slot (m.snake.length + 1)) d.backgroundColor ∧
      Painted (Tile d) mem₃ (eatRound d inp m).mem (nextHead inp m.toState) d.snakeColor := by
  have hg := grow_painted d (afterMove inp m)
  have hr := respawn_painted d inp (grow d (afterMove inp m))
  obtain ⟨mem, h₁, h₂⟩ := presentFrame_painted d (respawn d inp (grow d (afterMove inp m)))
  rw [respawn_snake, grow_afterMove_snake d inp m h] at h₁ h₂
  rw [afterMove_mem, afterMove_snake, movedSnake_slot_zero] at hg
  have h0 : (grownSnake inp m.toState).slot 0 = nextHead inp m.toState := movedSnake_slot_zero ..
  rw [h0] at h₂
  refine ⟨_, _, mem, hg, ?_, h₁, h₂⟩
  rwa [eatRound, presentFrame_currentFood]

end

/-! ## The invariant -/

structure BodyInv (d : SnakeDriver) (s : State) : Prop where
  pos : 1 ≤ s.snake.length
  below : s.snake.length < d.snakeLength.toNat
  head : s.snake.slot 0 = s.snake.currentLocation
  onBoard : ∀ i < s.snake.length, OnBoard (s.snake.slot i)
  slots : ∀ i, s.snake.slot i = .zero ∨ OnBoard (s.snake.slot i)

def SnakeDriver.Callable (d : SnakeDriver) : Prop :=
  d.frameBuffer ≠ 0 ∧ d.displayFrameCb ≠ 0 ∧ d.delayFunctionCb ≠ 0 ∧ d.displayScoreCb ≠ 0 ∧
    d.randomNumberCb ≠ 0 ∧ d.readDirectionCb ≠ 0

instance (d : SnakeDriver) : Decidable d.Callable := inferInstanceAs (Decidable (_ ∧ _))

section
variable {d : SnakeDriver} {inp : Inputs} {mem : ByteMemory 32}

theorem startPlay_callable (h : d.Callable) : startPlay d inp mem = .running (openGame d inp mem) := by
  obtain ⟨h₁, h₂, h₃, h₄, h₅, h₆⟩ := h
  rw [startPlay, if_neg h₁, if_neg]
  rintro (h | h | h | h | h) <;> contradiction

theorem startPlay_cases (d : SnakeDriver) (inp : Inputs) (mem : ByteMemory 32) :
    startPlay d inp mem = .running (openGame d inp mem) ∨
      ∃ message, startPlay d inp mem = .returned message { entry mem with accesses := [] } := by
  unfold startPlay
  split
  · exact Or.inr ⟨_, rfl⟩
  · split
    · exact Or.inr ⟨_, rfl⟩
    · exact Or.inl rfl

theorem startPlay_running {m : Machine} (h : startPlay d inp mem = .running m) : m = openGame d inp mem := by
  rcases startPlay_cases d inp mem with hs | ⟨message, hs⟩
  · rw [hs] at h
    cases h
    rfl
  · rw [hs] at h
    cases h

@[simp] theorem openGame_snake : (openGame d inp mem).snake = initialSnake := by
  simp [openGame, fillBuffer, Machine.memset, drawFood, Machine.randomNumber, Machine.call, entry]
@[simp] theorem openGame_moves : (openGame d inp mem).moves = 0 := by
  simp [openGame, fillBuffer, Machine.memset, drawFood, Machine.randomNumber, Machine.call, entry]
@[simp] theorem openGame_draws : (openGame d inp mem).draws = 2 := by
  simp [openGame, fillBuffer, Machine.memset, drawFood, Machine.randomNumber, Machine.call, entry]
@[simp] theorem openGame_accesses : (openGame d inp mem).accesses = [0] := by
  simp [openGame, fillBuffer, Machine.memset, drawFood, Machine.randomNumber, Machine.call, entry]
@[simp] theorem openGame_currentFood : (openGame d inp mem).currentFood = drawAt inp 0 := by
  simp [openGame, fillBuffer, Machine.memset, drawFood, Machine.randomNumber, Machine.call, entry, drawAt]

theorem openGame_calls (d : SnakeDriver) (inp : Inputs) (mem : ByteMemory 32) : ∃ s s', (openGame d inp mem).calls =
    [⟨.randomNumberCb (inp.randomNumber 1), s⟩, ⟨.randomNumberCb (inp.randomNumber 0), s'⟩] := by
  simp [openGame, fillBuffer, Machine.memset, drawFood, Machine.randomNumber, Machine.call, entry]

theorem initialSnake_slot_succ (i : Nat) : initialSnake.slot (i + 1) = .zero :=
  (Window.getD_set_ne _ _ _ (Nat.zero_ne_add_one i)).trans (Window.getD_replicate _ _)

theorem openGame_bodyInv (hL : 2 ≤ d.snakeLength.toNat) : BodyInv d (openGame d inp mem).toState := by
  refine ⟨?_, ?_, ?_, ?_, ?_⟩ <;> simp only [openGame_snake]
  · exact Nat.le_refl 1
  · exact hL
  · rfl
  · intro i hi
    obtain rfl : i = 0 := Nat.lt_one_iff.mp hi
    decide
  · intro i
    cases i with
    | zero => right; decide
    | succ i => left; exact initialSnake_slot_succ i

theorem BodyInv.location {s : State} (h : BodyInv d s) : OnBoard s.snake.currentLocation := by
  rw [← h.head]
  exact h.onBoard 0 h.pos

theorem BodyInv.nextHead_onBoard {s : State} (h : BodyInv d s) : OnBoard (nextHead inp s) :=
  moveLocation_onBoard _ h.location

theorem movedSnake_slots {s : State} (P : Point → Prop) {k : Nat} (hk : k ≤ 32) (h0 : P (nextHead inp s))
    (h : ∀ i < k, P (s.snake.slot i)) : ∀ i < k + 1, P ((movedSnake inp s).slot i) := by
  intro i hi
  cases i with
  | zero => rw [movedSnake_slot_zero]; exact h0
  | succ i =>
    rw [movedSnake_slot_succ inp s (by omega)]
    exact h i (by omega)

theorem movedSnake_all_slots {s : State} (h : BodyInv d s) (i : Nat) :
    (movedSnake inp s).slot i = .zero ∨ OnBoard ((movedSnake inp s).slot i) := by
  rcases movedSnake_slot_cases inp s i with hz | ⟨_, hn⟩ | ⟨j, _, hj⟩
  · exact Or.inl hz
  · rw [hn]
    exact Or.inr h.nextHead_onBoard
  · rw [hj]
    exact h.slots j

theorem walkRound_bodyInv {m : Machine} (h : BodyInv d m.toState) (hL : d.snakeLength.toNat ≤ 33) :
    BodyInv d (walkRound d inp m).toState := by
  have hb := h.below
  refine ⟨?_, ?_, ?_, ?_, ?_⟩ <;> simp only [walkRound_snake]
  · exact h.pos
  · exact h.below
  · exact movedSnake_slot_zero ..
  · intro i hi
    have hi' : i < m.snake.length := hi
    exact movedSnake_slots OnBoard (k := m.snake.length) (by omega) h.nextHead_onBoard h.onBoard i
      (by omega)
  · exact movedSnake_all_slots h

theorem BodyInv.length_of_not_wins {s : State} (h : BodyInv d s) (hw : ¬ Wins s d) :
    s.snake.length + 1 < d.snakeLength.toNat := by
  have hb := h.below
  have hw' : s.snake.length + 1 ≠ d.snakeLength.toNat := by
    intro he
    refine hw ?_
    rw [Wins, Nat.mod_eq_of_lt (by omega)]
    exact he
  omega

theorem eatRound_bodyInv {m : Machine} (h : BodyInv d m.toState) (hL : d.snakeLength.toNat ≤ 33)
    (hw : ¬ Wins m.toState d) : BodyInv d (eatRound d inp m).toState := by
  have hb := h.below
  refine ⟨?_, ?_, ?_, ?_, ?_⟩ <;> simp only [eatRound_snake d inp m (by omega)]
  · exact Nat.succ_pos _
  · exact h.length_of_not_wins hw
  · exact movedSnake_slot_zero ..
  · exact movedSnake_slots OnBoard (k := m.snake.length) (by omega) h.nextHead_onBoard h.onBoard
  · exact movedSnake_all_slots h

/-- **Along every run** the invariant holds. -/
theorem run_bodyInv (h2 : 2 ≤ d.snakeLength.toNat) (h33 : d.snakeLength.toNat ≤ 33) :
    ∀ n m, snakePlay d inp mem n = .running m → BodyInv d m.toState := by
  refine Outcome.running_invariant (fun _ (m : Machine) => BodyInv d m.toState) ?_ ?_
  · intro m hm
    rw [startPlay_running hm]
    exact openGame_bodyInv h2
  · intro n m m' _ hi hs
    rcases loopBody_running d inp m hs with ⟨_, _, hw, rfl⟩ | ⟨_, _, rfl⟩
    · exact eatRound_bodyInv hi h33 hw
    · exact walkRound_bodyInv hi h33

theorem run_moves : ∀ n m, snakePlay d inp mem n = .running m → m.moves = n := by
  refine Outcome.running_invariant (fun n (m : Machine) => m.moves = n) ?_ ?_
  · intro m hm
    rw [startPlay_running hm, openGame_moves]
  · intro n m m' _ hi hs
    rcases loopBody_running d inp m hs with ⟨_, _, _, rfl⟩ | ⟨_, _, rfl⟩
    · rw [eatRound_moves, hi]
    · rw [walkRound_moves, hi]

end

end NiosSnake
