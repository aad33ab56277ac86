import NiosSnake.Frames
import NiosSnake.Walk

/-!
# The history is the walk

The history slots hold the last heads, newest first, and no move reverses the
one before. So a new head is none of the last three, and the collision scan
cannot hit before slot 4.
-/

namespace NiosSnake

section
variable {d : SnakeDriver} {inp : Inputs} {mem : ByteMemory 32}

theorem loopBody_snake {m m' : Machine} (h : loopBody d inp m = .running m') :
    m'.snake = { movedSnake inp m.toState with length := m'.snake.length } := by
  have hsnake := loopBody_state_snake d inp m
  rwa [h] at hsnake

theorem run_next {n : Nat} {m m' : Machine} (h : snakePlay d inp mem n = .running m)
    (h' : snakePlay d inp mem (n + 1) = .running m') : loopBody d inp m = .running m' :=
  (Outcome.run_succ_running h).symm.trans h'

/-- **The sliding window.** Slot `i` holds the head of `i` rounds ago. -/
theorem run_window : ∀ n m, snakePlay d inp mem n = .running m → ∀ i k m', i + k = n → i ≤ 32 →
    snakePlay d inp mem k = .running m' → m.snake.slot i = m'.snake.currentLocation := by
  intro n m h i k m' hik hi h'
  have hn : n - i = k := by omega
  have hslot : i ≤ m.moves → m.snake.slot i = headAfter d inp mem (m.moves - i) := by
    rw [← stateAfter_running h]
    exact slot_filled hi
  rw [run_moves n m h, hn, headAfter, stateAfter_running h'] at hslot
  exact hslot (by omega)

theorem run_slot_onBoard {n : Nat} {m : Machine} (h : snakePlay d inp mem n = .running m) {i : Nat} (hi : i ≤ n)
    (h32 : i ≤ 32) : OnBoard (m.snake.slot i) := by
  rw [← run_moves n m h] at hi
  rw [← stateAfter_running h] at hi ⊢
  rw [slot_filled h32 hi]
  exact headAfter_onBoard _

theorem run_direction {n : Nat} {m m' : Machine} (h : snakePlay d inp mem n = .running m)
    (h' : snakePlay d inp mem (n + 1) = .running m') :
    m'.snake.currentLocation = nextHead inp m.toState ∧ m'.snake.currentDirection = nextDirection inp m.toState := by
  rw [loopBody_snake (run_next h h')]
  exact ⟨rfl, rfl⟩

theorem nextDirection_ne_opposite (s : State) : nextDirection inp s ≠ s.snake.currentDirection.opposite := by
  rw [nextDirection, filterDirection_eq]
  split
  · cases s.snake.currentDirection <;> decide
  · assumption

end

/-! ## No way back -/

section
variable {d : SnakeDriver} {inp : Inputs} {mem : ByteMemory 32}
variable (h2 : 2 ≤ d.snakeLength.toNat) (h33 : d.snakeLength.toNat ≤ 33)

theorem run_not_reversed {n : Nat} {m m' : Machine} (h : snakePlay d inp mem n = .running m)
    (h' : snakePlay d inp mem (n + 1) = .running m') :
    nextDirection inp m'.toState ≠ (nextDirection inp m.toState).opposite := by
  rw [← (run_direction h h').2]
  exact nextDirection_ne_opposite m'.toState

include h2 h33

theorem run_head_ne {n : Nat} {m : Machine} (h : snakePlay d inp mem n = .running m) {i j : Nat} {m' : Machine}
    (hi : i < 3) (hj : j + i = n) (h' : snakePlay d inp mem j = .running m') :
    nextHead inp m.toState ≠ m'.snake.currentLocation := by
  have hboard := (run_bodyInv h2 h33 j m' h').location
  rcases (show i = 0 ∨ i = 1 ∨ i = 2 by omega) with rfl | rfl | rfl
  · rw [Nat.add_zero] at hj
    subst hj
    rw [h] at h'
    cases h'
    exact moveLocation_ne _ _
  · subst hj
    obtain ⟨a, ha⟩ := oneWay_two (run_not_reversed h' h)
    have hwalk := ha.walk_ne (by simp) hboard
    rwa [walk_cons, walk_cons, walk_nil, ← nextHead, ← (run_direction h' h).1] at hwalk
  · subst hj
    obtain ⟨s, hs⟩ := Outcome.running_of_le h (j + 1) (by omega)
    obtain ⟨a, ha⟩ := oneWay_three (run_not_reversed h' hs) (run_not_reversed hs h)
    have hwalk := ha.walk_ne (by simp) hboard
    rwa [walk_cons, walk_cons, walk_cons, walk_nil, ← nextHead, ← (run_direction h' hs).1, ← nextHead,
      ← (run_direction hs h).1] at hwalk

theorem run_slot_ne {n : Nat} {m : Machine} (h : snakePlay d inp mem n = .running m) {i : Nat} (hi : i < 3) :
    m.snake.slot i ≠ nextHead inp m.toState := by
  rcases Nat.lt_or_ge n i with hlt | hge
  · -- a slot no move has reached
    rw [run_stale n m h i hlt]
    exact (run_bodyInv h2 h33 n m h).nextHead_onBoard.ne_zero.symm
  · obtain ⟨m', h'⟩ := Outcome.running_of_le h (n - i) (Nat.sub_le n i)
    rw [run_window n m h i (n - i) m' (by omega) (by omega) h']
    exact (run_head_ne h2 h33 h hi (by omega) h').symm

/-- **The player cannot lose by reversing.** Two moves in a row are never opposite, a new head is
none of the last three, and the collision scan hits from slot 4 on only, with 5 segments or more. -/
theorem no_reversal {n : Nat} {m : Machine} (h : snakePlay d inp mem n = .running m) :
    (∀ m', snakePlay d inp mem (n + 1) = .running m' →
      nextDirection inp m'.toState ≠ (nextDirection inp m.toState).opposite) ∧
    (∀ i j m', i < 3 → j + i = n → snakePlay d inp mem j = .running m' →
      nextHead inp m.toState ≠ m'.snake.currentLocation) ∧
    (∀ i, 1 ≤ i → i < m.snake.length →
      (moveSnake (steer inp m)).snake.slot i = (moveSnake (steer inp m)).snake.currentLocation → 4 ≤ i) ∧
    ((detectCollisionSnake (moveSnake (steer inp m))).1 = true → 5 ≤ m.snake.length) := by
  have hhit : ∀ i, 1 ≤ i → i < m.snake.length →
      (moveSnake (steer inp m)).snake.slot i = (moveSnake (steer inp m)).snake.currentLocation → 4 ≤ i := by
    intro i hi hl hs
    obtain ⟨i, rfl⟩ : ∃ k, i = k + 1 := ⟨i - 1, by omega⟩
    have hb := (run_bodyInv h2 h33 n m h).below
    have hold := movedSnake_slot_succ inp m.toState (show i < 32 by omega)
    rcases Nat.lt_or_ge i 3 with hlt | hge
    · exact absurd (hold.symm.trans hs) (run_slot_ne h2 h33 h hlt)
    · omega
  refine ⟨fun m' h' => run_not_reversed h h', fun i j m' hi hj h' => run_head_ne h2 h33 h hi hj h', hhit, ?_⟩
  intro hdetect
  obtain ⟨i, hi, hs⟩ := (detect_iff inp m).mp hdetect
  have := hhit (i + 1) (by omega) hi hs
  omega

end

def turnInputs : Inputs := .ofLists [.left, .up, .down, .left, .right] [1, 1]

theorem no_reversal_turn : ∃ m, snakePlay (mainDriver someAddresses) turnInputs (fun _ => 0) 4 = .running m ∧
    (∀ m', snakePlay (mainDriver someAddresses) turnInputs (fun _ => 0) 5 = .running m' →
      nextDirection turnInputs m'.toState ≠ (nextDirection turnInputs m.toState).opposite) ∧
    (∀ i j m', i < 3 → j + i = 4 → snakePlay (mainDriver someAddresses) turnInputs (fun _ => 0) j = .running m' →
      nextHead turnInputs m.toState ≠ m'.snake.currentLocation) ∧
    (∀ i, 1 ≤ i → i < m.snake.length → (moveSnake (steer turnInputs m)).snake.slot i =
      (moveSnake (steer turnInputs m)).snake.currentLocation → 4 ≤ i) ∧
    ((detectCollisionSnake (moveSnake (steer turnInputs m))).1 = true → 5 ≤ m.snake.length) := by
  have hrunning : (snakePlay (mainDriver someAddresses) turnInputs (fun _ => 0) 4).isReturned = false := by
    decide +kernel
  obtain ⟨m, h⟩ := Outcome.exists_running hrunning
  exact ⟨m, h, no_reversal (by decide) (by decide) h⟩

end NiosSnake
