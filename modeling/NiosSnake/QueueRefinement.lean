import NiosSnake.Placement
import NiosSnake.QueueGame

/-!
# `snake_play` plays the queue game

Run beside `snake_play`, the game on a queue makes the same moves, loses at the
same step and wins at the same step, as long as the code stores no food on the
snake. The code scans for a collision before it knows whether the snake grows;
the queue game looks at what is left after the tail is dropped. The two agree
because the cell they differ in, the tail, is never the food.
-/

namespace NiosSnake

def queueRules (d : SnakeDriver) : QueueGame.Rules Point Direction where
  turn current request := if request = current.opposite then current else request
  next := moveLocation
  goal := d.snakeLength.toNat

def queueRun (d : SnakeDriver) (inp : Inputs) (food : Point) (fresh : Nat → Point) :
    Nat → Outcome (QueueGame.Game Point Direction) QueueGame.Ending :=
  Outcome.run (fun n => QueueGame.step (queueRules d) (inp.readDirection n) (fresh n))
    (.running (QueueGame.start ⟨16, 16⟩ .right food))

/-- The food is off the snake; the initial food alone may be under a snake of one segment. -/
def FoodOff (s : State) : Prop := s.currentFood ∉ s.snake.live ∨ s.snake.length = 1

structure Sim (d : SnakeDriver) (s : State) (g : QueueGame.Game Point Direction) : Prop where
  inv : BodyInv d s
  body : s.snake.live = g.body
  location : s.snake.currentLocation = g.head
  heading : s.snake.currentDirection = g.heading
  food : s.currentFood = g.food
  off : FoodOff s
  good : QueueGame.Good (queueRules d) g

section
variable {d : SnakeDriver} {inp : Inputs} {mem : ByteMemory 32}

theorem live_of_length_one {s : State} (h : BodyInv d s) (h1 : s.snake.length = 1) :
    s.snake.live = [s.snake.currentLocation] := by
  rw [← h.head, Snake.live, h1]
  have hs := s.snake.pointHistory.size_eq
  cases hl : s.snake.pointHistory.slots with
  | nil => rw [hl] at hs; cases hs
  | cons a l => simp [Snake.slot, Window.getD, hl]

/-- **The food is never under the new head's way out**: an eaten food is on no live segment. -/
theorem FoodOff.not_live {s : State} (h : FoodOff s) (hi : BodyInv d s) (he : Eats inp s) :
    nextHead inp s ∉ s.snake.live := by
  rcases h with h | h
  · rwa [show nextHead inp s = s.currentFood from he]
  · rw [live_of_length_one hi h, List.mem_singleton]
    exact moveLocation_ne _ _

theorem foodOff_walk {m : Machine} (h : FoodOff m.toState) (hi : BodyInv d m.toState)
    (hL : m.snake.length ≤ 33) (he : ¬ Eats inp m.toState) :
    (walkRound d inp m).currentFood ∉ (walkRound d inp m).snake.live := by
  rw [walkRound_currentFood, walkRound_snake, movedSnake_live inp hi.pos hL]
  intro hm
  rcases List.mem_cons.mp hm with h' | hm
  · exact he h'.symm
  rcases h with h | h
  · exact h (List.dropLast_subset _ hm)
  · rw [live_of_length_one hi h] at hm
    cases hm

theorem nextDirection_eq {s : State} {g : QueueGame.Game Point Direction} (h : Sim d s g) :
    nextDirection inp s = (queueRules d).turn g.heading (inp.readDirection s.moves) := by
  rw [nextDirection, h.heading, filterDirection_eq]
  rfl

theorem nextHead_eq {s : State} {g : QueueGame.Game Point Direction} (h : Sim d s g) :
    nextHead inp s = (queueRules d).newHead (inp.readDirection s.moves) g := by
  rw [nextHead, nextDirection_eq h, h.location]
  rfl

inductive Verdict : String → QueueGame.Ending → Prop
  | lost : Verdict lostMessage .lost
  | won : Verdict wonMessage .won

abbrev Agree (d : SnakeDriver) :
    Outcome Machine String → Outcome (QueueGame.Game Point Direction) QueueGame.Ending → Prop :=
  Outcome.Corr (fun m g => Sim d m.toState g) Verdict

/-- **One round is one step.** -/
theorem loopBody_sim (h33 : d.snakeLength.toNat ≤ 33) {m : Machine}
    {g : QueueGame.Game Point Direction} (h : Sim d m.toState g)
    (hfood : ∀ m', loopBody d inp m = .running m' → Eats inp m.toState →
      m'.currentFood ∉ m'.snake.live) :
    Agree d (loopBody d inp m)
      (QueueGame.step (queueRules d) (inp.readDirection m.moves) (loopBody d inp m).state.currentFood g) := by
  have hi := h.inv
  have hb := hi.below
  have hhead : nextHead inp m.toState = _ := nextHead_eq h
  have heat : Eats inp m.toState ↔ (queueRules d).newHead (inp.readDirection m.moves) g = g.food := by
    rw [Eats, hhead, h.food]
  have hbite := bites_iff inp hi.pos (show m.snake.length ≤ 33 by omega)
  rw [h.body, hhead] at hbite
  have hfree : Eats inp m.toState → (queueRules d).newHead (inp.readDirection m.moves) g ∉ g.body := by
    intro he
    have := h.off.not_live hi he
    rwa [hhead, h.body] at this
  have hgoal : Wins m.toState d ↔ g.body.length + 1 = (queueRules d).goal := by
    rw [Wins, Nat.mod_eq_of_lt (by omega), ← h.body, Snake.length_live (by omega)]
    rfl
  rcases loopBody_cases d inp m with ⟨h₁, hr⟩ | ⟨h₁, h₂, h₃, hr⟩ | ⟨h₁, h₂, h₃, hr⟩ | ⟨h₁, h₂, hr⟩
  · rw [QueueGame.step_lost _ (hbite.mp h₁), hr]
    exact .returned .lost
  · rw [QueueGame.step_won _ (heat.mp h₂) (hfree h₂) (hgoal.mp h₃), hr]
    exact .returned .won
  · have hstep := QueueGame.step_eats (loopBody d inp m).state.currentFood (heat.mp h₂) (hfree h₂)
      (mt hgoal.mpr h₃)
    have hgood := QueueGame.step_good _ h.good hstep
    rw [hstep, hr]
    rw [hr] at hgood
    refine .running ⟨eatRound_bodyInv hi h33 h₃, ?_, ?_, ?_, rfl, Or.inl (hfood _ hr h₂), hgood⟩ <;>
      rw [eatRound_snake d inp m (by omega)]
    · rw [grownSnake_live inp (by omega), h.body, hhead]
      rfl
    · exact hhead
    · exact nextDirection_eq h
  · have hstep := QueueGame.step_walks (loopBody d inp m).state.currentFood (mt heat.mpr h₂)
      (mt hbite.mpr h₁)
    have hgood := QueueGame.step_good _ h.good hstep
    rw [hstep, hr]
    refine .running ⟨walkRound_bodyInv hi h33, ?_, ?_, ?_, ?_,
      Or.inl (foodOff_walk h.off hi (by omega) h₂), hgood⟩
    · rw [walkRound_snake, movedSnake_live inp hi.pos (by omega), h.body, hhead]
      rfl
    · rw [walkRound_snake]
      exact hhead
    · rw [walkRound_snake]
      exact nextDirection_eq h
    · rw [walkRound_currentFood]
      exact h.food

theorem openGame_sim (h2 : 2 ≤ d.snakeLength.toNat) :
    Sim d (openGame d inp mem).toState (QueueGame.start ⟨16, 16⟩ .right (drawAt inp 0)) where
  inv := openGame_bodyInv h2
  body := by rw [openGame_snake]; rfl
  location := by rw [openGame_snake]; rfl
  heading := by rw [openGame_snake]; rfl
  food := openGame_currentFood
  off := Or.inr (by rw [openGame_snake]; rfl)
  good := QueueGame.start_good _ _ _ _ h2

theorem run_agree (hc : d.Callable) (h2 : 2 ≤ d.snakeLength.toNat) (h33 : d.snakeLength.toNat ≤ 33)
    (hfood : RespawnsOffSnake d inp mem) (n : Nat) :
    Agree d (snakePlay d inp mem n)
      (queueRun d inp (drawAt inp 0) (fun k => (snakePlay d inp mem (k + 1)).state.currentFood) n) := by
  refine Outcome.run_corr ?_ (fun n m g hr hs => ?_) n
  · rw [startPlay_callable hc]
    exact .running (openGame_sim h2)
  · have hnext : snakePlay d inp mem (n + 1) = loopBody d inp m := Outcome.run_succ_running hr
    have hsim := loopBody_sim h33 hs fun m' hm' he => hfood n m m' hr he (hnext.trans hm')
    rw [run_moves n m hr] at hsim
    dsimp only
    rw [hnext]
    exact hsim

def AgreesWithQueue (d : SnakeDriver) (inp : Inputs) (mem : ByteMemory 32) (n : Nat) : Prop :=
  match snakePlay d inp mem n,
    queueRun d inp (drawAt inp 0) (fun k => (snakePlay d inp mem (k + 1)).state.currentFood) n with
  | .running m, .running g =>
    m.snake.live = g.body ∧ g.body.Nodup ∧ m.snake.length = 1 + g.eaten ∧
      m.snake.length < d.snakeLength.toNat
  | .returned message _, .returned ending _ =>
    message = lostMessage ∧ ending = .lost ∨ message = wonMessage ∧ ending = .won
  | _, _ => False

/-- **`snake_play` refines the queue snake.** -/
theorem snakePlay_refines_queue (hc : d.Callable) (h2 : 2 ≤ d.snakeLength.toNat)
    (h33 : d.snakeLength.toNat ≤ 33) (hfood : RespawnsOffSnake d inp mem) (n : Nat) :
    AgreesWithQueue d inp mem n := by
  have h := run_agree hc h2 h33 hfood n
  revert h
  unfold AgreesWithQueue
  generalize snakePlay d inp mem n = o
  generalize queueRun d inp (drawAt inp 0) _ n = q
  intro h
  cases h with
  | running hs =>
    have hb := hs.inv.below
    have hl := hs.good.length
    rw [← hs.body, Snake.length_live (by omega)] at hl
    exact ⟨hs.body, hs.good.nodup, hl, hb⟩
  | returned hv =>
    cases hv with
    | lost => exact Or.inl ⟨rfl, rfl⟩
    | won => exact Or.inr ⟨rfl, rfl⟩

theorem snakePlay_refines_queue_return : AgreesWithQueue shortDriver returnInputs (fun _ => 0) 6 :=
  snakePlay_refines_queue (by decide) (by decide) (by decide) returnInputs_off 6

end

end NiosSnake
