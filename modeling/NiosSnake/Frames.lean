import NiosSnake.QueueRefinement
import NiosSnake.Trail

/-!
# The frames of a run

`display_frame_cb` is called once at the end of every round that goes on. What
holds of every frame is what holds of every running state but the first.
-/

namespace NiosSnake

section
variable {d : SnakeDriver} {inp : Inputs} {mem : ByteMemory 32}

theorem startPlay_log : (startPlay d inp mem).state.shown = [] ∧ (startPlay d inp mem).state.scored = [] := by
  rcases startPlay_cases d inp mem with hs | ⟨message, hs⟩
  · obtain ⟨s, s', hcalls⟩ := openGame_calls d inp mem
    rw [hs, Outcome.state_running, Machine.shown, Machine.scored, hcalls]
    exact ⟨rfl, rfl⟩
  · rw [hs]
    exact ⟨rfl, rfl⟩

theorem loopBody_shown (d : SnakeDriver) (inp : Inputs) (m : Machine) :
    (∃ message m', loopBody d inp m = .returned message m' ∧ m'.shown = m.shown) ∨
      ∃ m', loopBody d inp m = .running m' ∧ m'.shown = m'.toState :: m.shown := by
  rcases loopBody_cases d inp m with ⟨_, hr⟩ | ⟨_, _, _, hr⟩ | ⟨_, _, _, hr⟩ | ⟨_, _, hr⟩
  · exact Or.inl ⟨_, _, hr, by rw [endGame_shown, afterMove_shown]⟩
  · exact Or.inl ⟨_, _, hr, by rw [endGame_shown, grow_shown, afterMove_shown]⟩
  · exact Or.inr ⟨_, hr, eatRound_shown d inp m⟩
  · exact Or.inr ⟨_, hr, walkRound_shown d inp m⟩

theorem wins_of_returned {m m' : Machine} {message : String} (h : loopBody d inp m = .returned message m')
    (hb : ¬ Bites inp m.toState) (he : Eats inp m.toState) : Wins m.toState d := by
  rcases loopBody_cases d inp m with ⟨hb', _⟩ | ⟨_, _, hw, _⟩ | ⟨_, _, _, hs⟩ | ⟨_, he', _⟩
  · exact absurd hb' hb
  · exact hw
  · rw [h] at hs; cases hs
  · exact absurd he he'

theorem run_shown : ∀ n m, snakePlay d inp mem n = .running m →
    m = openGame d inp mem ∨ m.toState ∈ m.shown := by
  refine Outcome.running_invariant (fun _ m => m = openGame d inp mem ∨ m.toState ∈ m.shown) ?_ ?_
  · intro m hm
    exact Or.inl (startPlay_running hm)
  · intro n m m' _ _ hs
    rcases loopBody_shown d inp m with ⟨_, _, hr, _⟩ | ⟨_, hr, hsh⟩
    · rw [hs] at hr; cases hr
    · rw [hs] at hr; cases hr
      exact Or.inr (hsh ▸ List.mem_cons_self)

/-- **A law of all frames, round by round.** If a round that goes on keeps the law exactly
under `C`, all frames obey the law exactly if every round meets `C`. -/
theorem frames_iff (P C : State → Prop) (h0 : P (openGame d inp mem).toState)
    (hround : ∀ k m m', snakePlay d inp mem k = .running m → P m.toState →
      loopBody d inp m = .running m' → (P m'.toState ↔ C m.toState))
    (hend : ∀ m message m', loopBody d inp m = .returned message m' → C m.toState) (n : Nat) :
    (∀ s ∈ (snakePlay d inp mem n).state.shown, P s) ↔
      ∀ k < n, ∀ m, snakePlay d inp mem k = .running m → C m.toState := by
  refine Outcome.log_iff (fun m : Machine => ∀ s ∈ m.shown, P s) (fun _ m => C m.toState) ?_ ?_ n
  · rw [startPlay_log.1]
    exact fun _ h => absurd h List.not_mem_nil
  · intro k m hr
    rcases loopBody_shown d inp m with ⟨_, m', hs, hsh⟩ | ⟨m', hs, hsh⟩ <;> rw [hs] <;>
      simp only [Outcome.state, hsh]
    · exact ⟨fun h => ⟨h, hend m _ m' hs⟩, And.left⟩
    · rw [List.forall_mem_cons, and_comm]
      refine and_congr_right fun h => hround k m m' hr ?_ hs
      rcases run_shown k m hr with rfl | hm
      · exact h0
      · exact h _ hm

theorem frames_all (P : State → Prop) (h0 : P (openGame d inp mem).toState)
    (hround : ∀ k m m', snakePlay d inp mem k = .running m → P m.toState →
      loopBody d inp m = .running m' → P m'.toState) (n : Nat) :
    ∀ s ∈ (snakePlay d inp mem n).state.shown, P s :=
  (frames_iff P (fun _ => True) h0 (fun k m m' hr h hs => iff_true_intro (hround k m m' hr h hs))
    (fun _ _ _ _ => trivial) n).mpr fun _ _ _ _ => trivial

/-! ## What the frames rest on -/

theorem run_stale : ∀ n m, snakePlay d inp mem n = .running m → ∀ i, n < i → m.snake.slot i = .zero := by
  intro n m h i hi
  rw [← run_moves n m h] at hi
  rw [← stateAfter_running h] at hi ⊢
  exact slot_empty hi

theorem callable_of_running {n : Nat} {m : Machine} (h : snakePlay d inp mem n = .running m) : d.Callable := by
  obtain ⟨m₀, h₀⟩ := Outcome.running_of_le h 0 (Nat.zero_le n)
  replace h₀ : startPlay d inp mem = .running m₀ := h₀
  unfold startPlay at h₀
  split at h₀
  · cases h₀
  split at h₀
  · cases h₀
  rename_i h₁ h₂
  simp only [not_or] at h₂
  exact ⟨h₁, h₂⟩

theorem run_sim (h2 : 2 ≤ d.snakeLength.toNat) (h33 : d.snakeLength.toNat ≤ 33)
    (hfood : RespawnsOffSnake d inp mem) {n : Nat} {m : Machine} (h : snakePlay d inp mem n = .running m) :
    ∃ g, Sim d m.toState g := by
  have ha := run_agree (callable_of_running h) h2 h33 hfood n
  rw [h] at ha
  generalize queueRun d inp (drawAt inp 0) _ n = q at ha
  cases ha with
  | running hs => exact ⟨_, hs⟩

end

end NiosSnake
