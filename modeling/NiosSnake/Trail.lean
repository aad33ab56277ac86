import NiosSnake.Body
import NiosSnake.Main

/-!
# The trail of the head

Where the head was after each move of a run, the last move of a game included.
The history slots are the window over this trail, and the snake grows by the
moves that eat.
-/

namespace NiosSnake

section
variable (d : SnakeDriver) (inp : Inputs) (mem : ByteMemory 32)

/-- The state after `n` rounds, or the last one if the game is over before. -/
def stateAfter (n : Nat) : State := (snakePlay d inp mem n).state.toState

def headAfter (k : Nat) : Point := (stateAfter d inp mem k).snake.currentLocation

end

/-- The move from `s` goes to the food, and the game has not ended on a segment there. -/
def Ate (inp : Inputs) (s : State) : Prop := ¬ Bites inp s ∧ Eats inp s

/-! ## One round -/

section
variable (d : SnakeDriver) (inp : Inputs) (m : Machine)

theorem loopBody_state_moves : (loopBody d inp m).state.moves = m.moves + 1 := by
  rcases loopBody_cases d inp m with ⟨_, hr⟩ | ⟨_, _, _, hr⟩ | ⟨_, _, _, hr⟩ | ⟨_, _, hr⟩ <;> rw [hr]
  · simp
  · simp
  · exact eatRound_moves d inp m
  · exact walkRound_moves d inp m

theorem loopBody_state_snake : (loopBody d inp m).state.snake =
    { movedSnake inp m.toState with length := (loopBody d inp m).state.snake.length } := by
  rcases loopBody_cases d inp m with ⟨_, hr⟩ | ⟨_, _, _, hr⟩ | ⟨_, _, _, hr⟩ | ⟨_, _, hr⟩ <;> rw [hr]
  · rw [Outcome.state_returned, endGame_snake, afterMove_snake]
  · rw [Outcome.state_returned, endGame_snake, grow_snake, afterMove_snake]
  · rw [Outcome.state_running, eatRound, presentFrame_snake, respawn_snake, grow_snake, afterMove_snake]
  · rw [Outcome.state_running, walkRound_snake]

theorem loopBody_state_length (h : m.snake.length ≤ 254) :
    (Ate inp m.toState ∧ (loopBody d inp m).state.snake.length = m.snake.length + 1) ∨
      (¬ Ate inp m.toState ∧ (loopBody d inp m).state.snake.length = m.snake.length) := by
  rcases loopBody_cases d inp m with ⟨h₁, hr⟩ | ⟨h₁, h₂, _, hr⟩ | ⟨h₁, h₂, _, hr⟩ | ⟨_, h₂, hr⟩ <;> rw [hr]
  · refine Or.inr ⟨fun ha => ha.1 h₁, ?_⟩
    rw [Outcome.state_returned, endGame_snake, afterMove_snake]
    rfl
  · refine Or.inl ⟨⟨h₁, h₂⟩, ?_⟩
    rw [Outcome.state_returned, endGame_snake, grow_afterMove_snake d inp m h]
    rfl
  · refine Or.inl ⟨⟨h₁, h₂⟩, ?_⟩
    rw [Outcome.state_running, eatRound_snake d inp m h]
    rfl
  · refine Or.inr ⟨fun ha => h₂ ha.2, ?_⟩
    rw [Outcome.state_running, walkRound_snake]
    rfl

theorem startPlay_state (mem : ByteMemory 32) : (startPlay d inp mem).state.snake = initialSnake ∧
    (startPlay d inp mem).state.moves = 0 := by
  rcases startPlay_cases d inp mem with hs | ⟨message, hs⟩ <;> rw [hs]
  · exact ⟨openGame_snake, openGame_moves⟩
  · exact ⟨rfl, rfl⟩

end

/-! ## Rounds and moves -/

section
variable {d : SnakeDriver} {inp : Inputs} {mem : ByteMemory 32}

theorem stateAfter_running {n : Nat} {m : Machine} (h : snakePlay d inp mem n = .running m) :
    stateAfter d inp mem n = m.toState := by
  rw [stateAfter, h]
  rfl

theorem stateAfter_succ {n : Nat} {m : Machine} (h : snakePlay d inp mem n = .running m) :
    stateAfter d inp mem (n + 1) = (loopBody d inp m).state.toState :=
  congrArg (fun o => o.state.toState) (Outcome.run_succ_running h)

theorem running_before (N : Nat) : ∀ k < (stateAfter d inp mem N).moves,
    ∃ m, snakePlay d inp mem k = .running m := by
  refine Outcome.state_invariant (fun m : Machine => ∀ k < m.moves, ∃ m, snakePlay d inp mem k = .running m)
    ?_ ?_ N
  · rw [(startPlay_state d inp mem).2]
    exact fun k hk => absurd hk (Nat.not_lt_zero k)
  · intro n m hr _ k hk
    rw [loopBody_state_moves, run_moves n m hr] at hk
    exact Outcome.running_of_le hr k (Nat.le_of_lt_succ hk)

theorem moves_stateAfter {N k : Nat} (hk : k ≤ (stateAfter d inp mem N).moves) :
    (stateAfter d inp mem k).moves = k := by
  cases k with
  | zero => exact (startPlay_state d inp mem).2
  | succ k =>
    obtain ⟨m, hr⟩ := running_before N k hk
    rw [stateAfter_succ hr, loopBody_state_moves, run_moves k m hr]

/-! ## The trail -/

theorem headAfter_zero : headAfter d inp mem 0 = ⟨16, 16⟩ :=
  congrArg Snake.currentLocation (startPlay_state d inp mem).1

theorem headAfter_succ {n : Nat} {m : Machine} (h : snakePlay d inp mem n = .running m) :
    headAfter d inp mem (n + 1) = nextHead inp m.toState := by
  rw [headAfter, stateAfter_succ h, loopBody_state_snake]
  rfl

theorem headAfter_step {N k : Nat} (hk : k < (stateAfter d inp mem N).moves) :
    headAfter d inp mem (k + 1) =
      moveLocation (nextDirection inp (stateAfter d inp mem k)) (headAfter d inp mem k) := by
  obtain ⟨m, hr⟩ := running_before N k hk
  rw [headAfter_succ hr, headAfter, stateAfter_running hr, nextHead]

theorem headAfter_onBoard (k : Nat) : OnBoard (headAfter d inp mem k) := by
  refine Outcome.state_invariant (fun m : Machine => OnBoard m.snake.currentLocation) ?_ ?_ k
  · rw [(startPlay_state d inp mem).1]
    decide
  · intro n m _ h
    rw [loopBody_state_snake]
    exact moveLocation_onBoard _ h

/-! ## The window -/

theorem history_holds (N : Nat) : (stateAfter d inp mem N).snake.pointHistory.Holds .zero
    (headAfter d inp mem) (stateAfter d inp mem N).moves := by
  refine Outcome.state_invariant
    (fun m : Machine => m.snake.pointHistory.Holds .zero (headAfter d inp mem) m.moves) ?_ ?_ N
  · rw [(startPlay_state d inp mem).1, (startPlay_state d inp mem).2]
    have hfirst := Window.holds_first (n := 32) Point.zero (headAfter d inp mem)
    rwa [headAfter_zero] at hfirst
  · intro n m hr h
    have hpush := h.push
    rw [run_moves n m hr, headAfter_succ hr] at hpush
    rw [loopBody_state_snake, loopBody_state_moves, run_moves n m hr]
    exact hpush

theorem slot_filled {N i : Nat} (hi : i ≤ 32) (h : i ≤ (stateAfter d inp mem N).moves) :
    (stateAfter d inp mem N).snake.slot i = headAfter d inp mem ((stateAfter d inp mem N).moves - i) :=
  (history_holds N i (by omega)).trans (if_pos h)

theorem slot_empty {N i : Nat} (h : (stateAfter d inp mem N).moves < i) :
    (stateAfter d inp mem N).snake.slot i = .zero := by
  rcases Nat.lt_or_ge i 33 with hi | hi
  · exact (history_holds N i hi).trans (if_neg (Nat.not_le_of_lt h))
  · exact Window.getD_of_le _ _ hi

/-! ## The length -/

section
variable (h2 : 2 ≤ d.snakeLength.toNat) (h33 : d.snakeLength.toNat ≤ 33)
include h2 h33

theorem length_grown (N : Nat) :
    (stateAfter d inp mem N).snake.length ≤ (stateAfter d inp mem N).moves + 1 ∧
      ((stateAfter d inp mem N).snake.length = (stateAfter d inp mem N).moves + 1 ↔
        ∀ k < (stateAfter d inp mem N).moves, Ate inp (stateAfter d inp mem k)) := by
  refine Outcome.state_invariant (fun m : Machine => m.snake.length ≤ m.moves + 1 ∧
    (m.snake.length = m.moves + 1 ↔ ∀ k < m.moves, Ate inp (stateAfter d inp mem k))) ?_ ?_ N
  · rw [(startPlay_state d inp mem).1, (startPlay_state d inp mem).2]
    exact ⟨Nat.le_refl 1, fun _ k hk => absurd hk (Nat.not_lt_zero k), fun _ => rfl⟩
  · intro n m hr h
    have hb := (run_bodyInv h2 h33 n m hr).below
    rw [run_moves n m hr] at h
    rw [loopBody_state_moves, run_moves n m hr]
    simp only [Nat.lt_succ_iff_lt_or_eq, or_imp, forall_and, forall_eq, ← h.2, stateAfter_running hr]
    rcases loopBody_state_length d inp m (by omega) with ⟨ha, hl⟩ | ⟨ha, hl⟩
    · rw [hl, and_iff_left ha]
      exact ⟨Nat.succ_le_succ h.1, Nat.succ_inj⟩
    · rw [hl]
      refine ⟨Nat.le_succ_of_le h.1, iff_of_false ?_ fun hall => ha hall.2⟩
      have := h.1
      omega

/-- **The history is the sliding window of the walk.** Slot `i` is the head of `i` moves ago, one
step from the head before it, or still empty; the length is at most one more than the moves, and
that only if all of them ate. -/
theorem history_is_walk (N : Nat) {s : State} (hs : stateAfter d inp mem N = s) :
    (∀ k ≤ s.moves, (stateAfter d inp mem k).moves = k) ∧ headAfter d inp mem 0 = ⟨16, 16⟩ ∧
    (∀ i ≤ 32, i ≤ s.moves →
      s.snake.slot i = headAfter d inp mem (s.moves - i) ∧ OnBoard (s.snake.slot i)) ∧
    (∀ i ≤ 32, ∀ k, k + 1 + i = s.moves → s.snake.slot i =
      moveLocation (nextDirection inp (stateAfter d inp mem k)) (headAfter d inp mem k)) ∧
    (∀ i ≤ 32, s.moves < i → s.snake.slot i = .zero) ∧ (∀ k, headAfter d inp mem k ≠ .zero) ∧
    s.snake.length ≤ s.moves + 1 ∧
    (s.snake.length = s.moves + 1 ↔ ∀ k < s.moves, Ate inp (stateAfter d inp mem k)) := by
  subst hs
  refine ⟨fun k hk => moves_stateAfter hk, headAfter_zero, fun i hi h => ⟨slot_filled hi h, ?_⟩, ?_,
    fun i _ h => slot_empty h, fun k => (headAfter_onBoard k).ne_zero, length_grown h2 h33 N⟩
  · rw [slot_filled hi h]
    exact headAfter_onBoard _
  · intro i hi k hk
    have hlt : k < (stateAfter d inp mem N).moves := by omega
    rw [slot_filled hi (by omega), ← headAfter_step hlt]
    congr 1
    omega

end

end

def columnInputs : Inputs := .ofLists [] [1, 1]

theorem history_is_walk_column : ∃ s,
    stateAfter (mainDriver someAddresses) columnInputs (fun _ => 0) 40 = s ∧ s.moves = 40 ∧
    (∀ k ≤ s.moves, (stateAfter (mainDriver someAddresses) columnInputs (fun _ => 0) k).moves = k) ∧
    headAfter (mainDriver someAddresses) columnInputs (fun _ => 0) 0 = ⟨16, 16⟩ ∧
    (∀ i ≤ 32, i ≤ s.moves →
      s.snake.slot i = headAfter (mainDriver someAddresses) columnInputs (fun _ => 0) (s.moves - i) ∧
        OnBoard (s.snake.slot i)) ∧
    (∀ i ≤ 32, ∀ k, k + 1 + i = s.moves → s.snake.slot i =
      moveLocation
        (nextDirection columnInputs (stateAfter (mainDriver someAddresses) columnInputs (fun _ => 0) k))
        (headAfter (mainDriver someAddresses) columnInputs (fun _ => 0) k)) ∧
    (∀ i ≤ 32, s.moves < i → s.snake.slot i = .zero) ∧
    (∀ k, headAfter (mainDriver someAddresses) columnInputs (fun _ => 0) k ≠ .zero) ∧
    s.snake.length ≤ s.moves + 1 ∧
    (s.snake.length = s.moves + 1 ↔ ∀ k < s.moves,
      Ate columnInputs (stateAfter (mainDriver someAddresses) columnInputs (fun _ => 0) k)) :=
  ⟨_, rfl, by decide +kernel, history_is_walk (by decide) (by decide) 40 rfl⟩

end NiosSnake
