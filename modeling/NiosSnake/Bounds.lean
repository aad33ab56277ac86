import NiosSnake.Body
import NiosSnake.Main

/-!
# The bounds of `point_history`

For `snake_length` in `2..33` the win test stops the growth before the erase at
index `length` leaves the array. For every other value a snake that eats on
each of its first 32 moves gets to length 33 and erases slot 33.
-/

namespace NiosSnake

section
variable {d : SnakeDriver} {inp : Inputs} {mem : ByteMemory 32}

theorem afterMove_bounded {m : Machine} (hl : m.snake.length ≤ 32) (h : ∀ i ∈ m.accesses, i ≤ 32) :
    ∀ i ∈ (afterMove inp m).accesses, i ≤ 32 := by
  intro i hi
  rcases afterMove_accesses inp m hi with h' | h' | h'
  · exact h'
  · omega
  · exact h i h'

theorem grow_bounded {m : Machine} (h : ∀ i ∈ m.accesses, i ≤ 32) : ∀ i ∈ (grow d m).accesses, i ≤ 32 := by
  intro i hi
  rw [grow_accesses] at hi
  rcases List.mem_cons.mp hi with rfl | hi
  · omega
  · exact h i hi

theorem presentFrame_bounded {m : Machine} (hl : m.snake.length ≤ 32) (h : ∀ i ∈ m.accesses, i ≤ 32) :
    ∀ i ∈ (presentFrame d m).accesses, i ≤ 32 := by
  intro i hi
  rw [presentFrame_accesses] at hi
  rcases List.mem_cons.mp hi with rfl | hi
  · omega
  rcases List.mem_cons.mp hi with rfl | hi
  · exact hl
  · exact h i hi

theorem respawn_bounded {m : Machine} (hl : m.snake.length ≤ 32) (h : ∀ i ∈ m.accesses, i ≤ 32) :
    ∀ i ∈ (respawn d inp m).accesses, i ≤ 32 := by
  intro i hi
  rcases respawn_accesses d inp m hi with h' | h'
  · omega
  · exact h i h'

theorem startPlay_bounded : ∀ i ∈ (startPlay d inp mem).state.accesses, i ≤ 32 := by
  rcases startPlay_cases d inp mem with hs | ⟨message, hs⟩
  · rw [hs, Outcome.state_running, openGame_accesses]
    intro i hi
    rw [List.mem_singleton.mp hi]
    exact Nat.zero_le 32
  · rw [hs]
    exact fun _ h => absurd h List.not_mem_nil

/-- **No access past slot 32**, in any run. -/
theorem run_bounded (h2 : 2 ≤ d.snakeLength.toNat) (h33 : d.snakeLength.toNat ≤ 33) :
    ∀ n, ∀ i ∈ (snakePlay d inp mem n).state.accesses, i ≤ 32 := by
  refine Outcome.state_invariant (fun m : Machine => ∀ i ∈ m.accesses, i ≤ 32) startPlay_bounded ?_
  intro n m hr h
  have hi := run_bodyInv h2 h33 n m hr
  have hb := hi.below
  have hmove : ∀ i ∈ (afterMove inp m).accesses, i ≤ 32 := afterMove_bounded (by omega) h
  rcases loopBody_cases d inp m with ⟨_, hr⟩ | ⟨_, _, _, hr⟩ | ⟨_, _, hw, hr⟩ | ⟨_, _, hr⟩ <;>
    rw [hr] <;> simp only [Outcome.state]
  · rwa [endGame_accesses]
  · rw [endGame_accesses]
    exact grow_bounded hmove
  · have hgrown := hi.length_of_not_wins hw
    have hl : (grow d (afterMove inp m)).snake.length ≤ 32 := by
      rw [grow_afterMove_snake d inp m (by omega)]
      show m.snake.length + 1 ≤ 32
      omega
    refine presentFrame_bounded ?_ (respawn_bounded hl (grow_bounded hmove))
    rwa [respawn_snake]
  · refine presentFrame_bounded ?_ hmove
    rw [afterMove_snake]
    show m.snake.length ≤ 32
    omega

end

/-! ## A snake that eats on every move -/

def straightCell (k : Nat) : Point := if k ≤ 31 then ⟨BitVec.ofNat 8 ((15 + k) % 32 + 1), 16⟩ else ⟨15, 17⟩

def straightInputs : Inputs where
  readDirection k := if k < 31 then .right else .down
  randomNumber k := if k % 2 = 0 then (straightCell (k / 2 + 1)).x else (straightCell (k / 2 + 1)).y

theorem straightCell_succ : ∀ n < 32,
    moveLocation (filterDirection .right (straightInputs.readDirection n)) (straightCell n) =
      straightCell (n + 1) := by
  decide

theorem straightCell_inj : ∀ i < 33, ∀ j < i, straightCell i ≠ straightCell j := by
  decide

theorem straightInputs_draw (k : Nat) : drawAt straightInputs (2 * k) = straightCell (k + 1) := by
  have h₁ : 2 * k % 2 = 0 := by omega
  have h₂ : (2 * k + 1) % 2 ≠ 0 := by omega
  have h₃ : 2 * k / 2 = k := by omega
  have h₄ : (2 * k + 1) / 2 = k := by omega
  simp only [drawAt, straightInputs, h₁, if_true, if_neg h₂, h₃, h₄]

structure Straight (n : Nat) (m : Machine) : Prop where
  length : m.snake.length = n + 1
  slots : ∀ i ≤ n, m.snake.slot i = straightCell (n - i)
  location : m.snake.currentLocation = straightCell n
  direction : m.snake.currentDirection = .right
  food : m.currentFood = straightCell (n + 1)
  draws : m.draws = 2 * (n + 1)
  moves : m.moves = n

section
variable {d : SnakeDriver} {mem : ByteMemory 32}

theorem Straight.nextHead_eq {n : Nat} {m : Machine} (h : Straight n m) (hn : n < 32) :
    nextHead straightInputs m.toState = straightCell (n + 1) := by
  rw [nextHead, nextDirection, h.direction, h.moves, h.location]
  exact straightCell_succ n hn

theorem Straight.grown_live {n : Nat} {m : Machine} (h : Straight n m) (hn : n < 32) :
    ∀ p ∈ (grownSnake straightInputs m.toState).live, ∃ j ≤ n + 1, p = straightCell j := by
  have hlen := h.length
  intro p hp
  rw [grownSnake_live _ (show m.snake.length ≤ 32 by omega)] at hp
  rcases List.mem_cons.mp hp with rfl | hp
  · exact ⟨n + 1, Nat.le_refl _, h.nextHead_eq hn⟩
  · obtain ⟨i, hi, rfl⟩ := (Snake.mem_live (show m.snake.length ≤ 33 by omega) p).mp hp
    exact ⟨n - i, by omega, h.slots i (by omega)⟩

theorem Straight.eats {n : Nat} {m : Machine} (h : Straight n m) (hn : n < 32)
    (hL : d.snakeLength.toNat < 2 ∨ 33 < d.snakeLength.toNat) :
    loopBody d straightInputs m = .running (eatRound d straightInputs m) := by
  have hlen := h.length
  have hhead := h.nextHead_eq hn
  have hfree : ¬ Bites straightInputs m.toState := by
    rintro ⟨i, hi, hs⟩
    have hi' : i + 1 < m.snake.length := hi
    rw [movedSnake_slot_succ _ _ (by omega), hhead] at hs
    rw [show m.snake.slot i = _ from h.slots i (by omega)] at hs
    exact straightCell_inj (n + 1) (by omega) (n - i) (by omega) hs.symm
  have heat : Eats straightInputs m.toState := hhead.trans h.food.symm
  have hwin : ¬ Wins m.toState d := by
    intro hw
    rw [Wins, Nat.mod_eq_of_lt (show m.snake.length + 1 < 2 ^ 32 by omega)] at hw
    have : m.snake.length + 1 = d.snakeLength.toNat := hw
    omega
  rcases loopBody_cases d straightInputs m with ⟨hb, _⟩ | ⟨_, _, hw, _⟩ | ⟨_, _, _, hr⟩ | ⟨_, he, _⟩
  · exact absurd hb hfree
  · exact absurd hw hwin
  · exact hr
  · exact absurd heat he

theorem Straight.next {n : Nat} {m : Machine} (h : Straight n m) (hn : n < 31) :
    Straight (n + 1) (eatRound d straightInputs m) := by
  have hlen := h.length
  have hhead := h.nextHead_eq (show n < 32 by omega)
  have hdraw : drawAt straightInputs m.draws = straightCell (n + 2) := by
    rw [h.draws, straightInputs_draw]
  have hfree : drawAt straightInputs m.draws ∉ (grownSnake straightInputs m.toState).live := by
    intro hm
    obtain ⟨j, hj, he⟩ := h.grown_live (by omega) _ hm
    rw [hdraw] at he
    exact straightCell_inj (n + 2) (by omega) j (by omega) he
  have hsnake := eatRound_snake d straightInputs m (by omega)
  refine ⟨?_, ?_, ?_, ?_, ?_, ?_, ?_⟩
  · rw [hsnake]
    exact congrArg (· + 1) hlen
  · intro i hi
    rw [hsnake]
    show (movedSnake straightInputs m.toState).slot i = _
    cases i with
    | zero => rw [movedSnake_slot_zero, hhead]; rfl
    | succ i =>
      rw [movedSnake_slot_succ _ _ (by omega), show n + 1 - (i + 1) = n - i by omega]
      exact h.slots i (by omega)
  · rw [hsnake]
    exact hhead
  · rw [hsnake]
    show filterDirection m.snake.currentDirection (straightInputs.readDirection m.moves) = _
    rw [h.direction, h.moves]
    simp only [straightInputs, if_pos hn]
    rfl
  · rw [eatRound_currentFood _ _ _ (by omega), if_neg hfree, hdraw]
  · rw [eatRound_draws _ _ _ (by omega) hfree, h.draws]
    omega
  · rw [eatRound_moves, h.moves]

theorem openGame_straight : Straight 0 (openGame d straightInputs mem) where
  length := by rw [openGame_snake]; rfl
  slots := by
    intro i hi
    obtain rfl : i = 0 := Nat.le_zero.mp hi
    rw [openGame_snake]
    rfl
  location := by rw [openGame_snake]; rfl
  direction := by rw [openGame_snake]; rfl
  food := openGame_currentFood
  draws := openGame_draws
  moves := openGame_moves

theorem run_straight (hc : d.Callable) (hL : d.snakeLength.toNat < 2 ∨ 33 < d.snakeLength.toNat) :
    ∀ n ≤ 31, ∃ m, snakePlay d straightInputs mem n = .running m ∧ Straight n m
  | 0, _ => ⟨_, startPlay_callable hc, openGame_straight⟩
  | n + 1, hn => by
    obtain ⟨m, hr, hs⟩ := run_straight hc hL n (by omega)
    exact ⟨_, (Outcome.run_succ_running hr).trans (hs.eats (by omega) hL), hs.next (by omega)⟩

theorem run_overflows (hc : d.Callable) (hL : d.snakeLength.toNat < 2 ∨ 33 < d.snakeLength.toNat) :
    33 ∈ (snakePlay d straightInputs mem 32).state.accesses := by
  obtain ⟨m, hr, hs⟩ : ∃ m, snakePlay d straightInputs mem 31 = .running m ∧ Straight 31 m :=
    run_straight hc hL 31 (Nat.le_refl _)
  have hnext : snakePlay d straightInputs mem 32 = .running (eatRound d straightInputs m) :=
    (Outcome.run_succ_running hr).trans (hs.eats (by omega) hL)
  have hlen := hs.length
  have hl : (respawn d straightInputs (grow d (afterMove straightInputs m))).snake.length = 33 := by
    rw [respawn_snake, grow_afterMove_snake _ _ _ (by omega)]
    exact congrArg (· + 1) hlen
  rw [hnext]
  simp only [Outcome.state, eatRound, presentFrame_accesses, hl]
  exact List.mem_cons_of_mem _ List.mem_cons_self

end

/-- **Bounds of `point_history`, with the exact range of `snake_length`.** -/
theorem history_in_bounds_iff :
    (∀ (d : SnakeDriver) inp mem n, 2 ≤ d.snakeLength.toNat → d.snakeLength.toNat ≤ 33 →
      ∀ i ∈ (snakePlay d inp mem n).state.accesses, i ≤ 32) ∧
    (∀ (d : SnakeDriver) mem, d.Callable → (d.snakeLength.toNat < 2 ∨ 33 < d.snakeLength.toNat) →
      ∃ inp n, ∃ i ∈ (snakePlay d inp mem n).state.accesses, 33 ≤ i) :=
  ⟨fun _ _ _ n h2 h33 => run_bounded h2 h33 n,
    fun _ _ hc hL => ⟨straightInputs, 32, 33, run_overflows hc hL, Nat.le_refl _⟩⟩

theorem history_in_bounds_iff_main :
    (∀ i ∈ (snakePlay (mainDriver someAddresses) straightInputs (fun _ => 0) 32).state.accesses, i ≤ 32) ∧
    ∃ inp n, ∃ i ∈ (snakePlay { mainDriver someAddresses with snakeLength := 34 } inp (fun _ => 0) n).state.accesses,
      33 ≤ i :=
  ⟨history_in_bounds_iff.1 _ _ _ 32 (by decide) (by decide), history_in_bounds_iff.2 _ _ (by decide) (by decide)⟩

end NiosSnake
