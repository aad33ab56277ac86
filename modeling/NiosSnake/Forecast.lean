import NiosSnake.Frames
import NiosSnake.Placement

/-!
# The game foretold

What `snake_play` does is a recurrence on the answers of the driver alone. The filtered
directions give the walk of the head; the meals along it give the length, the food and
the random numbers used; and the game ends with the first move that comes back to where
the head was less than a length ago, or that eats the last food. There is no history
buffer in this: a segment is an earlier point of the walk.
-/

namespace NiosSnake

section
variable (inp : Inputs)

def heading : Nat → Direction
  | 0 => .right
  | k + 1 => filterDirection (heading k) (inp.readDirection k)

def pathAt : Nat → Point
  | 0 => ⟨16, 16⟩
  | k + 1 => moveLocation (heading inp (k + 1)) (pathAt k)

def OnPath (count k : Nat) (p : Point) : Prop := ∃ i < count, pathAt inp (k - i) = p

instance (count k : Nat) (p : Point) : Decidable (OnPath inp count k p) := inferInstanceAs (Decidable (∃ i < count, _))

structure Tally where
  length : Nat
  food : Point
  draws : Nat

/-- After `k` moves, if the game goes on so long. -/
def tally : Nat → Tally
  | 0 => ⟨1, drawAt inp 0, 2⟩
  | k + 1 =>
    let t := tally k
    if pathAt inp (k + 1) = t.food then
      -- a food on the grown snake is drawn once more, and then left where it is
      if OnPath inp (t.length + 1) (k + 1) (drawAt inp t.draws) then
        ⟨t.length + 1, drawAt inp (t.draws + 2), t.draws + 4⟩
      else ⟨t.length + 1, drawAt inp t.draws, t.draws + 2⟩
    else t

/-- The move after `k` moves ends on a segment other than the last. -/
def Crashes (k : Nat) : Prop := OnPath inp ((tally inp k).length - 1) k (pathAt inp (k + 1))

def Completes (d : SnakeDriver) (k : Nat) : Prop :=
  pathAt inp (k + 1) = (tally inp k).food ∧ (tally inp k).length + 1 = d.snakeLength.toNat

instance (k : Nat) : Decidable (Crashes inp k) := inferInstanceAs (Decidable (OnPath ..))

instance (d : SnakeDriver) (k : Nat) : Decidable (Completes inp d k) := inferInstanceAs (Decidable (_ ∧ _))

structure Foretold (n : Nat) (s : State) : Prop where
  location : s.snake.currentLocation = pathAt inp n
  direction : s.snake.currentDirection = heading inp n
  length : s.snake.length = (tally inp n).length
  food : s.currentFood = (tally inp n).food
  draws : s.draws = (tally inp n).draws
  moves : s.moves = n
  segments : ∀ i ≤ 32, i ≤ n → s.snake.slot i = pathAt inp (n - i)
  short : s.snake.length ≤ n + 1

end

section
variable {d : SnakeDriver} {inp : Inputs} {mem : ByteMemory 32}

/-! ## One move -/

section
variable {n : Nat} {s : State} (h : Foretold inp n s)
include h

theorem Foretold.nextDirection : nextDirection inp s = heading inp (n + 1) := by
  rw [NiosSnake.nextDirection, h.direction, h.moves, heading]

theorem Foretold.nextHead : nextHead inp s = pathAt inp (n + 1) := by
  rw [NiosSnake.nextHead, h.nextDirection, h.location, pathAt]

theorem Foretold.movedSlots : ∀ i ≤ 32, i ≤ n + 1 → (movedSnake inp s).slot i = pathAt inp (n + 1 - i) := by
  intro i hi hn
  cases i with
  | zero => rw [movedSnake_slot_zero, h.nextHead, Nat.sub_zero]
  | succ i => rw [movedSnake_slot_succ inp s (by omega), h.segments i (by omega) (by omega), Nat.add_sub_add_right]

theorem Foretold.bites_iff (hl : s.snake.length ≤ 33) : Bites inp s ↔ Crashes inp n := by
  have hshort := h.short
  rw [Bites, Crashes, OnPath, ← h.length, ← h.nextHead]
  refine exists_congr fun i => ?_
  constructor
  · rintro ⟨hi, hs⟩
    refine ⟨by omega, ?_⟩
    rw [h.movedSlots (i + 1) (by omega) (by omega), Nat.add_sub_add_right] at hs
    exact hs
  · rintro ⟨hi, hp⟩
    refine ⟨by omega, ?_⟩
    rw [h.movedSlots (i + 1) (by omega) (by omega), Nat.add_sub_add_right]
    exact hp

theorem Foretold.eats_iff : Eats inp s ↔ pathAt inp (n + 1) = (tally inp n).food := by
  rw [Eats, h.nextHead, h.food]

theorem Foretold.wins_iff (hl : s.snake.length ≤ 254) : Wins s d ↔ (tally inp n).length + 1 = d.snakeLength.toNat := by
  rw [Wins, h.length, Nat.mod_eq_of_lt (by rw [← h.length]; omega)]

theorem Foretold.grown_iff (hl : s.snake.length ≤ 32) (p : Point) :
    p ∈ (grownSnake inp s).live ↔ OnPath inp ((tally inp n).length + 1) (n + 1) p := by
  have hshort := h.short
  rw [Snake.mem_live (show (grownSnake inp s).length ≤ 33 from Nat.succ_le_succ hl), OnScanned, OnPath, ← h.length]
  refine exists_congr fun i => and_congr_right fun hi => ?_
  have hi' : i < s.snake.length + 1 := hi
  have hslot : (grownSnake inp s).slot i = (movedSnake inp s).slot i := rfl
  rw [hslot, h.movedSlots i (by omega) (by omega)]

end

theorem respawn_draws_hit {m : Machine} (h : OnScanned m.snake (drawAt inp m.draws)) :
    (respawn d inp m).draws = m.draws + 4 := by
  unfold respawn
  rw [placement_hit inp m h]
  simp
  rfl

theorem eatRound_draws_hit {m : Machine} (h : m.snake.length ≤ 32)
    (hm : drawAt inp m.draws ∈ (grownSnake inp m.toState).live) : (eatRound d inp m).draws = m.draws + 4 := by
  have hd : (grow d (afterMove inp m)).draws = m.draws := by simp
  rw [Snake.mem_live (show (grownSnake inp m.toState).length ≤ 33 from Nat.succ_le_succ h),
    ← grow_afterMove_snake d inp m (by omega), ← hd] at hm
  rw [eatRound, presentFrame_draws, respawn_draws_hit hm, hd]

/-! ## One round -/

section
variable {n : Nat} {m : Machine} (h : Foretold inp n m.toState)
include h

theorem Foretold.walkRound (he : ¬ Eats inp m.toState) : Foretold inp (n + 1) (walkRound d inp m).toState := by
  have htally : tally inp (n + 1) = tally inp n := by
    rw [tally]
    exact if_neg (mt h.eats_iff.mpr he)
  have hdraws : (NiosSnake.walkRound d inp m).draws = (tally inp (n + 1)).draws := by
    rw [htally, NiosSnake.walkRound, presentFrame_draws, afterMove_draws]
    exact h.draws
  refine ⟨?_, ?_, ?_, ?_, hdraws, ?_, ?_, ?_⟩ <;>
    simp only [walkRound_snake, walkRound_moves, walkRound_currentFood]
  · exact h.nextHead
  · exact h.nextDirection
  · rw [htally]
    exact h.length
  · rw [htally]
    exact h.food
  · rw [h.moves]
  · exact h.movedSlots
  · exact Nat.le_succ_of_le h.short

theorem Foretold.eatRound (hl : m.snake.length ≤ 32) (he : Eats inp m.toState) :
    Foretold inp (n + 1) (eatRound d inp m).toState := by
  have hgrown := h.grown_iff hl (drawAt inp m.draws)
  have hdraws : m.draws = (tally inp n).draws := h.draws
  have hlength : (tally inp (n + 1)).length = m.snake.length + 1 ∧
      (tally inp (n + 1)).food = (NiosSnake.eatRound d inp m).currentFood ∧
      (tally inp (n + 1)).draws = (NiosSnake.eatRound d inp m).draws := by
    have hnow : m.snake.length = (tally inp n).length := h.length
    rw [← hnow] at hgrown
    rw [tally, if_pos (h.eats_iff.mp he), ← hdraws, ← hnow, eatRound_currentFood d inp m hl]
    by_cases hit : drawAt inp m.draws ∈ (grownSnake inp m.toState).live
    · rw [if_pos hit, if_pos (hgrown.mp hit), eatRound_draws_hit hl hit]
      exact ⟨rfl, rfl, rfl⟩
    · rw [if_neg hit, if_neg (mt hgrown.mpr hit), eatRound_draws d inp m hl hit]
      exact ⟨rfl, rfl, rfl⟩
  obtain ⟨hlen, hfood, hdraw⟩ := hlength
  refine ⟨?_, ?_, ?_, hfood.symm, hdraw.symm, ?_, ?_, ?_⟩ <;>
    simp only [eatRound_snake d inp m (show m.snake.length ≤ 254 by omega), eatRound_moves]
  · exact h.nextHead
  · exact h.nextDirection
  · rw [hlen]
    rfl
  · rw [h.moves]
  · exact h.movedSlots
  · exact Nat.succ_le_succ h.short

end

theorem openGame_foretold : Foretold inp 0 (openGame d inp mem).toState := by
  refine ⟨?_, ?_, ?_, ?_, ?_, ?_, fun i _ hi => ?_, ?_⟩ <;>
    simp only [openGame_snake, openGame_currentFood, openGame_draws, openGame_moves]
  · rfl
  · rfl
  · rfl
  · rfl
  · rfl
  · obtain rfl := Nat.le_zero.mp hi
    rfl
  · exact Nat.le_refl 1

/-! ## The whole game -/

section
variable (hcall : d.Callable) (h2 : 2 ≤ d.snakeLength.toNat) (h33 : d.snakeLength.toNat ≤ 33)
include h2 h33

theorem run_foretold : ∀ n m, snakePlay d inp mem n = .running m → Foretold inp n m.toState := by
  refine Outcome.running_invariant (fun n (m : Machine) => Foretold inp n m.toState) ?_ ?_
  · intro m hm
    rw [startPlay_running hm]
    exact openGame_foretold
  · intro n m m' hr h hs
    have hb := (run_bodyInv h2 h33 n m hr).below
    rcases loopBody_running d inp m hs with ⟨_, he, _, rfl⟩ | ⟨_, he, rfl⟩
    · exact h.eatRound (by omega) he
    · exact h.walkRound he

theorem round_foretold {n : Nat} {m : Machine} (hr : snakePlay d inp mem n = .running m) :
    (Crashes inp n → ∃ m', snakePlay d inp mem (n + 1) = .returned lostMessage m') ∧
    (¬ Crashes inp n → Completes inp d n → ∃ m', snakePlay d inp mem (n + 1) = .returned wonMessage m') ∧
    (¬ Crashes inp n → ¬ Completes inp d n → ∃ m', snakePlay d inp mem (n + 1) = .running m') := by
  have hb := (run_bodyInv h2 h33 n m hr).below
  have h := run_foretold h2 h33 n m hr
  have hround : snakePlay d inp mem (n + 1) = loopBody d inp m := Outcome.run_succ_running hr
  rw [hround, ← h.bites_iff (by omega)]
  have hcompletes : Completes inp d n ↔ Eats inp m.toState ∧ Wins m.toState d := by
    rw [Completes, h.eats_iff, h.wins_iff (by omega)]
  rw [hcompletes]
  rcases loopBody_cases d inp m with ⟨h₁, hs⟩ | ⟨h₁, h₂, h₃, hs⟩ | ⟨h₁, h₂, h₃, hs⟩ | ⟨h₁, h₂, hs⟩ <;> rw [hs]
  · exact ⟨fun _ => ⟨_, rfl⟩, fun hn => absurd h₁ hn, fun hn => absurd h₁ hn⟩
  · exact ⟨fun hb => absurd hb h₁, fun _ _ => ⟨_, rfl⟩, fun _ hn => absurd ⟨h₂, h₃⟩ hn⟩
  · exact ⟨fun hb => absurd hb h₁, fun _ hc => absurd hc.2 h₃, fun _ _ => ⟨_, rfl⟩⟩
  · exact ⟨fun hb => absurd hb h₁, fun _ hc => absurd hc.1 h₂, fun _ _ => ⟨_, rfl⟩⟩

include hcall

theorem snakePlay_goes : ∀ n, (∀ k < n, ¬ Crashes inp k ∧ ¬ Completes inp d k) → ∃ m, snakePlay d inp mem n = .running m
  | 0, _ => ⟨_, startPlay_callable hcall⟩
  | n + 1, hk => by
    obtain ⟨m, hr⟩ := snakePlay_goes n fun k hlt => hk k (Nat.lt_succ_of_lt hlt)
    obtain ⟨hc, hw⟩ := hk n (Nat.lt_succ_self n)
    exact (round_foretold h2 h33 hr).2.2 hc hw

section
variable {n k : Nat} (hkn : k < n) (hbefore : ∀ j < k, ¬ Crashes inp j ∧ ¬ Completes inp d j)
include hkn hbefore

theorem snakePlay_lost (hc : Crashes inp k) : ∃ m, snakePlay d inp mem n = .returned lostMessage m := by
  obtain ⟨m, hr⟩ := snakePlay_goes hcall h2 h33 k hbefore
  obtain ⟨m', hend⟩ := (round_foretold h2 h33 hr).1 hc
  exact ⟨m', Outcome.run_returned hend n hkn⟩

theorem snakePlay_won (hc : ¬ Crashes inp k) (hw : Completes inp d k) :
    ∃ m, snakePlay d inp mem n = .returned wonMessage m := by
  obtain ⟨m, hr⟩ := snakePlay_goes hcall h2 h33 k hbefore
  obtain ⟨m', hend⟩ := (round_foretold h2 h33 hr).2.1 hc hw
  exact ⟨m', Outcome.run_returned hend n hkn⟩

end

/-- **The game is the one foretold.** While no move has crashed or completed the snake, the game goes on
and its state is the foretold one; the first move that crashes loses it, and the first that completes the
snake wins it. -/
theorem snakePlay_foretold (n : Nat) :
    ((∀ k < n, ¬ Crashes inp k ∧ ¬ Completes inp d k) →
      ∃ m, snakePlay d inp mem n = .running m ∧ Foretold inp n m.toState) ∧
    ∀ k < n, (∀ j < k, ¬ Crashes inp j ∧ ¬ Completes inp d j) →
      (Crashes inp k → ∃ m, snakePlay d inp mem n = .returned lostMessage m) ∧
      (¬ Crashes inp k → Completes inp d k → ∃ m, snakePlay d inp mem n = .returned wonMessage m) := by
  refine ⟨fun hk => ?_, fun k hkn hbefore => ⟨?_, ?_⟩⟩
  · obtain ⟨m, hr⟩ := snakePlay_goes hcall h2 h33 n hk
    exact ⟨m, hr, run_foretold h2 h33 n m hr⟩
  · exact snakePlay_lost hcall h2 h33 hkn hbefore
  · exact snakePlay_won hcall h2 h33 hkn hbefore

end

end

/-- The sixth move comes back to where the game started and completes a snake of three. -/
theorem snakePlay_foretold_return : ∃ m, snakePlay shortDriver returnInputs (fun _ => 0) 8 = .returned wonMessage m :=
  ((snakePlay_foretold (by decide) (by decide) (by decide) 8).2 5 (by decide) (by decide)).2 (by decide) (by decide)

end NiosSnake
