import NiosSnake.Body
import NiosSnake.Main

/-!
# Where the food is put

The placement loop scans the snake once. A hit replaces the food by a second
draw that is not looked at again, so a food lands on the snake exactly when two
draws in a row do.
-/

namespace NiosSnake

/-! ## The cells of a food -/

def FoodCell (p : Point) : Prop := 1 ≤ p.x.toNat ∧ p.x.toNat ≤ 30 ∧ 1 ≤ p.y.toNat ∧ p.y.toNat ≤ 30

instance (p : Point) : Decidable (FoodCell p) := inferInstanceAs (Decidable (_ ∧ _))

theorem FoodCell.onBoard {p : Point} (h : FoodCell p) : OnBoard p := by
  obtain ⟨h₁, h₂, h₃, h₄⟩ := h
  exact ⟨h₁, by omega, h₃, by omega⟩

theorem drawAt_foodCell {inp : Inputs} (h : inp.Within 1 30) (k : Nat) : FoodCell (drawAt inp k) :=
  ⟨(h k).1, (h k).2, (h (k + 1)).1, (h (k + 1)).2⟩

theorem eatRound_foodCell {d : SnakeDriver} {inp : Inputs} {m : Machine} (hin : inp.Within 1 30)
    (h : m.snake.length ≤ 32) : FoodCell (eatRound d inp m).currentFood := by
  rw [eatRound_currentFood d inp m h]
  split
  · exact drawAt_foodCell hin _
  · exact drawAt_foodCell hin _

/-! ## The placement loop -/

section
variable (d : SnakeDriver) (inp : Inputs) (mem : ByteMemory 32)

def PlacedOff (k : Nat) : Prop :=
  ∀ m m', snakePlay d inp mem k = .running m → Eats inp m.toState →
    snakePlay d inp mem (k + 1) = .running m' → m'.currentFood ∉ m'.snake.live

def RespawnsOffSnake : Prop := ∀ k, PlacedOff d inp mem k

def DrawOff (k : Nat) : Prop :=
  ∀ m, snakePlay d inp mem k = .running m → ¬ Bites inp m.toState → Eats inp m.toState →
    ¬ Wins m.toState d →
      drawAt inp m.draws ∉ nextHead inp m.toState :: m.snake.live ∨
        drawAt inp (m.draws + 2) ∉ nextHead inp m.toState :: m.snake.live

end

section
variable {d : SnakeDriver} {inp : Inputs} {mem : ByteMemory 32}

theorem eatRound_food_off {m : Machine} (h : m.snake.length ≤ 32) :
    (eatRound d inp m).currentFood ∉ (eatRound d inp m).snake.live ↔
      drawAt inp m.draws ∉ nextHead inp m.toState :: m.snake.live ∨
        drawAt inp (m.draws + 2) ∉ nextHead inp m.toState :: m.snake.live := by
  rw [eatRound_currentFood d inp m h, eatRound_snake d inp m (by omega), grownSnake_live inp h]
  by_cases hit : drawAt inp m.draws ∈ nextHead inp m.toState :: m.snake.live
  · rw [if_pos hit]
    exact ⟨Or.inr, fun h => h.resolve_left (not_not_intro hit)⟩
  · rw [if_neg hit]
    exact ⟨Or.inl, fun _ => hit⟩

theorem placedOff_iff (h2 : 2 ≤ d.snakeLength.toNat) (h33 : d.snakeLength.toNat ≤ 33) (k : Nat) :
    PlacedOff d inp mem k ↔ DrawOff d inp mem k := by
  have hle : ∀ m, snakePlay d inp mem k = .running m → m.snake.length ≤ 32 := by
    intro m hr
    have := (run_bodyInv h2 h33 k m hr).below
    omega
  constructor
  · intro h m hr hb he hw
    rcases loopBody_cases d inp m with ⟨hb', _⟩ | ⟨_, _, hw', _⟩ | ⟨_, _, _, hs⟩ | ⟨_, he', _⟩
    · exact absurd hb' hb
    · exact absurd hw' hw
    · exact (eatRound_food_off (hle m hr)).mp (h m _ hr he ((Outcome.run_succ_running hr).trans hs))
    · exact absurd he he'
  · intro h m m' hr he hr'
    have hs : loopBody d inp m = .running m' := (Outcome.run_succ_running hr).symm.trans hr'
    rcases loopBody_running d inp m hs with ⟨hb, _, hw, rfl⟩ | ⟨_, he', _⟩
    · exact (eatRound_food_off (hle m hr)).mpr (h m hr hb he hw)
    · exact absurd he he'

/-- **When the food stays off the snake.** Up to any round of any run, every food
stored is off the snake exactly if no eating round drew two points on it. -/
theorem food_off_snake_iff (h2 : 2 ≤ d.snakeLength.toNat) (h33 : d.snakeLength.toNat ≤ 33) (n : Nat) :
    (∀ k < n, PlacedOff d inp mem k) ↔ ∀ k < n, DrawOff d inp mem k :=
  forall_congr' fun k => imp_congr_right fun _ => placedOff_iff h2 h33 k

end

/-! ## Checking a run that ends -/

def placedOffB (inp : Inputs) : Outcome Machine String → Outcome Machine String → Bool
  | .running m, .running m' => !decide (Eats inp m.toState) || decide (m'.currentFood ∉ m'.snake.live)
  | _, _ => true

theorem placedOff_iff_check {d : SnakeDriver} {inp : Inputs} {mem : ByteMemory 32} {k : Nat} :
    PlacedOff d inp mem k ↔
      placedOffB inp (snakePlay d inp mem k) (snakePlay d inp mem (k + 1)) = true := by
  constructor
  · intro h
    cases hr : snakePlay d inp mem k with
    | returned _ _ => rfl
    | running m =>
      cases hr' : snakePlay d inp mem (k + 1) with
      | returned _ _ => rfl
      | running m' =>
        by_cases he : Eats inp m.toState
        · simpa [placedOffB, he] using h m m' hr he hr'
        · simp [placedOffB, he]
  · intro h m m' hr he hr'
    rw [hr, hr'] at h
    simpa [placedOffB, he] using h

theorem respawnsOffSnake_of_check {d : SnakeDriver} {inp : Inputs} {mem : ByteMemory 32} (n : Nat)
    (hend : (snakePlay d inp mem n).isReturned = true)
    (h : ∀ k < n, placedOffB inp (snakePlay d inp mem k) (snakePlay d inp mem (k + 1)) = true) :
    RespawnsOffSnake d inp mem := by
  intro k
  rcases Nat.lt_or_ge k n with hk | hk
  · exact placedOff_iff_check.mpr (h k hk)
  · intro m m' hr
    have := Outcome.isReturned_le hend hk
    rw [show Outcome.run _ _ k = snakePlay d inp mem k from rfl, hr] at this
    cases this

def shortDriver : SnakeDriver := { mainDriver someAddresses with snakeLength := 3 }

/-- Two moves to the right, the second onto the first food, whose successor is put where the game
began; then a round trip to that cell. -/
def returnInputs : Inputs := .ofLists [.right, .right, .down, .left, .left, .up] [18, 16, 16, 16]

theorem returnInputs_off : RespawnsOffSnake shortDriver returnInputs fun _ => 0 :=
  respawnsOffSnake_of_check 6 (by decide +kernel) (by decide +kernel)

/-! ## A food on the head -/

def stubbornInputs : Inputs := .ofLists [.right] [17, 16, 17, 16, 17, 16]

theorem stubborn_food_on_snake :
    2 ≤ (mainDriver someAddresses).snakeLength.toNat ∧ (mainDriver someAddresses).snakeLength.toNat ≤ 33 ∧
      stubbornInputs.Within 1 30 ∧ ¬ PlacedOff (mainDriver someAddresses) stubbornInputs (fun _ => 0) 0 := by
  refine ⟨by decide, by decide, Inputs.ofLists_within (by decide) (by decide), ?_⟩
  rw [placedOff_iff_check]
  decide +kernel

theorem food_off_snake_iff_stubborn :
    (∀ k < 1, PlacedOff (mainDriver someAddresses) stubbornInputs (fun _ => 0) k) ↔
      ∀ k < 1, DrawOff (mainDriver someAddresses) stubbornInputs (fun _ => 0) k :=
  food_off_snake_iff (by decide) (by decide) 1

end NiosSnake
