import NiosSnake.Frames

/-!
# The calls of a run

Which callbacks each part of the loop body adds to the log, and in which state
it calls them.
-/

namespace NiosSnake

section
variable (d : SnakeDriver) (inp : Inputs) (m : Machine)

theorem afterMove_calls : (afterMove inp m).calls =
    ⟨.readDirectionCb (inp.readDirection m.moves), m.toState⟩ :: m.calls := by rw [afterMove_eq]

theorem presentFrame_calls : (presentFrame d m).calls =
    ⟨.delayFunctionCb 200, (presentFrame d m).toState⟩ ::
      ⟨.displayScoreCb (BitVec.ofNat 8 m.snake.length), (presentFrame d m).toState⟩ ::
      ⟨.displayFrameCb d.frameBuffer d.resolution, (presentFrame d m).toState⟩ :: m.calls := by
  simp [presentFrame, Machine.access, Machine.call]

theorem endGame_calls : (endGame d m).calls =
    ⟨.delayFunctionCb 15000, (drawGameOver d m).toState⟩ :: m.calls := by
  simp only [endGame, Machine.call]
  rw [drawGameOver_frame]

theorem drawFood_calls : ∃ new, (drawFood inp m).calls = new ++ m.calls ∧ new.length = 2 ∧
    ∀ c ∈ new, (∃ v, c.callback = .randomNumberCb v) ∧ c.state.mem = m.mem := by
  refine ⟨[_, _], rfl, rfl, ?_⟩
  simp [Machine.randomNumber, Machine.call]

theorem respawn_calls : ∃ new, (respawn d inp m).calls = new ++ m.calls ∧
    ∀ c ∈ new, (∃ v, c.callback = .randomNumberCb v) ∧ c.state.mem = m.mem := by
  obtain ⟨new, hnew, _, h⟩ := drawFood_calls inp m
  unfold respawn
  by_cases hs : OnScanned m.snake (drawAt inp m.draws)
  · obtain ⟨new', hnew', _, h'⟩ := drawFood_calls inp (drawFood inp m)
    rw [placement_hit inp m hs]
    refine ⟨new' ++ new, by simp [hnew', hnew], ?_⟩
    intro c hc
    rcases List.mem_append.mp hc with hc | hc
    · exact h' c hc
    · exact h c hc
  · rw [placement_miss inp m hs]
    exact ⟨new, by simp [hnew], h⟩

end

end NiosSnake
