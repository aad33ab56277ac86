import NiosSnake.MainLoop

/-!
# A game depends on the answers alone

The game never reads the memory it draws into. Two games that get the same answers
from their driver, over whatever memories, stay alike: they go through the same snakes
and foods, touch the same slots, make the same calls and the same fills, and agree on
every byte they have written. So every game of `main` is one that starts afresh on the
answers that are left.
-/

namespace NiosSnake

open ByteMemory

/-- Equal but for the bytes that have not been written. -/
structure Alike (m₁ m₂ : Machine) : Prop where
  snake : m₁.snake = m₂.snake
  currentFood : m₁.currentFood = m₂.currentFood
  draws : m₁.draws = m₂.draws
  moves : m₁.moves = m₂.moves
  accesses : m₁.accesses = m₂.accesses
  writes : m₁.writes = m₂.writes
  callbacks : m₁.calls.map Call.callback = m₂.calls.map Call.callback
  mem : ∀ a, m₁.Wrote a → m₁.mem a = m₂.mem a

inductive SameOutcome : Outcome Machine String → Outcome Machine String → Prop
  | running {m₁ m₂} : Alike m₁ m₂ → SameOutcome (.running m₁) (.running m₂)
  | returned {m₁ m₂} (message : String) : Alike m₁ m₂ → SameOutcome (.returned message m₁) (.returned message m₂)

section
variable {d : SnakeDriver} {inp : Inputs} {m₁ m₂ : Machine} (h : Alike m₁ m₂)
include h

/-! ## What the operations keep -/

theorem Alike.memset (start : U32) (c : U8) (n : Nat) : Alike (m₁.memset start c n) (m₂.memset start c n) :=
  { h with
    writes := congrArg (_ :: ·) h.writes
    mem := by
      intro a ha
      by_cases hw : Within start n a
      · exact (memset_within hw).trans (memset_within hw).symm
      · have hold := ((m₁.memset_wrote start c n a).mp ha).resolve_left hw
        exact (memset_frame hw).trans ((h.mem a hold).trans (memset_frame hw).symm) }

theorem Alike.access (i : Nat) : Alike (m₁.access i) (m₂.access i) :=
  { h with accesses := congrArg (i :: ·) h.accesses }

theorem Alike.call (c : Callback) : Alike (m₁.call c) (m₂.call c) :=
  { h with callbacks := congrArg (c :: ·) h.callbacks }

theorem Alike.callOf (c : Snake → Callback) : Alike (m₁.call (c m₁.snake)) (m₂.call (c m₂.snake)) := by
  rw [h.snake]
  exact h.call _

theorem Alike.withFood (p : Point) : Alike { m₁ with currentFood := p } { m₂ with currentFood := p } :=
  { h with currentFood := rfl }

theorem Alike.withSnake (s : Snake) : Alike { m₁ with snake := s } { m₂ with snake := s } :=
  { h with snake := rfl }

variable (inp) in
theorem Alike.randomNumber : (m₁.randomNumber inp).1 = (m₂.randomNumber inp).1 ∧
    Alike (m₁.randomNumber inp).2 (m₂.randomNumber inp).2 := by
  have hanswer : (m₁.randomNumber inp).1 = (m₂.randomNumber inp).1 := congrArg inp.randomNumber h.draws
  refine ⟨hanswer, ?_⟩
  have hcall := h.call (.randomNumberCb (inp.randomNumber m₁.draws))
  rw [Machine.randomNumber, Machine.randomNumber, ← h.draws]
  exact { hcall with draws := rfl }

variable (inp) in
theorem Alike.drawFood : Alike (drawFood inp m₁) (drawFood inp m₂) := by
  obtain ⟨hx, h₁⟩ := h.randomNumber inp
  obtain ⟨hy, h₂⟩ := h₁.randomNumber inp
  rw [NiosSnake.drawFood, NiosSnake.drawFood, hx, hy]
  exact h₂.withFood _

omit h in
theorem Alike.drawRows (c : U8) : ∀ (n : Nat) (start : U32) {m₁ m₂ : Machine}, Alike m₁ m₂ →
    Alike (drawRows d c n start m₁) (drawRows d c n start m₂)
  | 0, _, _, _, h => h
  | n + 1, start, _, _, h => Alike.drawRows c n (start + d.resolution) (h.memset ..)

theorem Alike.drawSquare (p : Point) (c : U8) : Alike (drawSquare d p c m₁) (drawSquare d p c m₂) :=
  Alike.drawRows c _ _ h

theorem Alike.drawGameOver : Alike (drawGameOver d m₁) (drawGameOver d m₂) := by
  have hfold : ∀ (l : List Nat) {m₁ m₂ : Machine}, Alike m₁ m₂ →
      Alike (l.foldl (fun m i => NiosSnake.drawSquare d (gameOverPoint i) d.snakeColor m) m₁)
        (l.foldl (fun m i => NiosSnake.drawSquare d (gameOverPoint i) d.snakeColor m) m₂) := by
    intro l
    induction l with
    | nil => exact fun h => h
    | cons i l ih => exact fun h => ih (h.drawSquare _ _)
  exact hfold _ (h.memset ..)

omit h in
theorem Alike.scan (hit : Point → Bool) : ∀ (k i : Nat) {m₁ m₂ : Machine}, Alike m₁ m₂ →
    (scan hit k i m₁).1 = (scan hit k i m₂).1 ∧ Alike (scan hit k i m₁).2 (scan hit k i m₂).2
  | 0, _, _, _, h => ⟨rfl, h⟩
  | k + 1, i, _, _, h => by
    rw [NiosSnake.scan, NiosSnake.scan, h.snake]
    split
    · exact ⟨rfl, h.access i⟩
    · exact Alike.scan hit k (i + 1) (h.access i)

variable (inp) in
theorem Alike.placementLoop : Alike (placementLoop inp false m₁) (placementLoop inp false m₂) := by
  rw [placementLoop_eq, placementLoop_eq, placementPass, placementPass, h.currentFood, h.snake]
  obtain ⟨hfound, hscan⟩ := Alike.scan (fun p => pointTEquals p m₂.currentFood) m₂.snake.length 0 h
  dsimp only
  rw [hfound]
  split
  · exact hscan.drawFood inp
  · exact hscan

/-! ## The parts of a round -/

variable (inp) in
theorem Alike.steer : Alike (steer inp m₁) (steer inp m₂) := by
  have hcall := h.call (.readDirectionCb (inp.readDirection m₁.moves))
  rw [NiosSnake.steer, NiosSnake.steer, Machine.readDirection, Machine.readDirection, ← h.moves]
  exact { hcall with moves := rfl, snake := by simp [Machine.call, h.snake] }

theorem Alike.moveSnake : Alike (moveSnake m₁) (moveSnake m₂) := by
  rw [NiosSnake.moveSnake, NiosSnake.moveSnake, h.snake]
  exact { h with snake := rfl, accesses := congrArg (fun l => 0 :: (shiftAccesses ++ l)) h.accesses }

theorem Alike.detectCollisionSnake : (detectCollisionSnake m₁).1 = (detectCollisionSnake m₂).1 ∧
    Alike (detectCollisionSnake m₁).2 (detectCollisionSnake m₂).2 := by
  rw [NiosSnake.detectCollisionSnake, NiosSnake.detectCollisionSnake, h.snake]
  exact Alike.scan _ _ _ h

theorem Alike.grow : Alike (grow d m₁) (grow d m₂) := by
  rw [NiosSnake.grow, NiosSnake.grow, h.snake]
  exact ((h.withSnake _).access 0).drawSquare _ _

theorem Alike.respawn : Alike (respawn d inp m₁) (respawn d inp m₂) := by
  have hplaced := (h.drawFood inp).placementLoop inp
  rw [NiosSnake.respawn, NiosSnake.respawn, hplaced.currentFood]
  exact hplaced.drawSquare _ _

theorem Alike.drawSlot (i : Snake → Nat) (c : U8) :
    Alike (NiosSnake.drawSquare d (m₁.snake.slot (i m₁.snake)) c (m₁.access (i m₁.snake)))
      (NiosSnake.drawSquare d (m₂.snake.slot (i m₂.snake)) c (m₂.access (i m₂.snake))) := by
  rw [h.snake]
  exact (h.access _).drawSquare _ _

theorem Alike.presentFrame : Alike (presentFrame d m₁) (presentFrame d m₂) := by
  have hdrawn := (h.drawSlot (d := d) Snake.length d.backgroundColor).drawSlot (d := d) (fun _ => 0) d.snakeColor
  have hshown := hdrawn.call (.displayFrameCb d.frameBuffer d.resolution)
  exact (hshown.callOf fun s => .displayScoreCb (BitVec.ofNat 8 s.length)).call (.delayFunctionCb 200)

theorem Alike.endGame : Alike (endGame d m₁) (endGame d m₂) := h.drawGameOver.call (.delayFunctionCb 15000)

theorem Alike.loopBody : SameOutcome (loopBody d inp m₁) (loopBody d inp m₂) := by
  obtain ⟨hhit, hmoved⟩ := (h.steer inp).moveSnake.detectCollisionSnake
  have hgrown := hmoved.grow (d := d)
  rw [NiosSnake.loopBody, NiosSnake.loopBody]
  dsimp only
  rw [hhit, hmoved.snake, hmoved.currentFood, hgrown.snake]
  split
  · exact .returned _ hmoved.endGame
  · split
    · split
      · exact .returned _ hgrown.endGame
      · exact .running hgrown.respawn.presentFrame
    · exact .running hmoved.presentFrame

end

/-! ## Runs -/

section
variable {d : SnakeDriver} {inp : Inputs}

theorem entry_alike (mem₁ mem₂ : ByteMemory 32) : Alike (entry mem₁) (entry mem₂) where
  snake := rfl
  currentFood := rfl
  draws := rfl
  moves := rfl
  accesses := rfl
  writes := rfl
  callbacks := rfl
  mem := fun _ ⟨_, hw, _⟩ => absurd hw List.not_mem_nil

theorem startPlay_alike (mem₁ mem₂ : ByteMemory 32) :
    SameOutcome (startPlay d inp mem₁) (startPlay d inp mem₂) := by
  have hentry := entry_alike mem₁ mem₂
  unfold startPlay
  split
  · exact .returned _ { hentry with accesses := rfl }
  · split
    · exact .returned _ { hentry with accesses := rfl }
    · have hfilled := (hentry.drawFood inp).memset d.frameBuffer d.backgroundColor
        (d.resolution * d.resolution).toNat
      refine .running ?_
      rw [openGame, openGame, fillBuffer, fillBuffer, hfilled.currentFood]
      exact hfilled.drawSquare _ _

theorem snakePlay_alike (mem₁ mem₂ : ByteMemory 32) (n : Nat) :
    SameOutcome (snakePlay d inp mem₁ n) (snakePlay d inp mem₂ n) := by
  induction n with
  | zero => exact startPlay_alike mem₁ mem₂
  | succ n ih =>
    generalize h₁ : snakePlay d inp mem₁ n = o₁ at ih
    generalize h₂ : snakePlay d inp mem₂ n = o₂ at ih
    cases ih with
    | running h =>
      have hround₁ : snakePlay d inp mem₁ (n + 1) = _ := Outcome.run_succ_running h₁
      have hround₂ : snakePlay d inp mem₂ (n + 1) = _ := Outcome.run_succ_running h₂
      rw [hround₁, hround₂]
      exact h.loopBody
    | returned message h =>
      have hround₁ : snakePlay d inp mem₁ (n + 1) = _ := Outcome.run_succ_returned h₁
      have hround₂ : snakePlay d inp mem₂ (n + 1) = _ := Outcome.run_succ_returned h₂
      rw [hround₁, hround₂]
      exact .returned message h

structure SameMain (s₁ s₂ : MainState) : Prop where
  game : SameOutcome s₁.game s₂.game
  draws : s₁.draws = s₂.draws
  moves : s₁.moves = s₂.moves
  writes : s₁.writes = s₂.writes

theorem mainStep_same {s₁ s₂ : MainState} (h : SameMain s₁ s₂) : SameMain (mainStep d inp s₁) (mainStep d inp s₂) := by
  obtain ⟨g₁, draws, moves, writes⟩ := s₁
  obtain ⟨g₂, _, _, _⟩ := s₂
  obtain ⟨hgame, rfl, rfl, rfl⟩ := h
  cases hgame with
  | running hm => exact ⟨hm.loopBody, rfl, rfl, rfl⟩
  | @returned m₁ m₂ message hm =>
    have hdraws : draws + m₁.draws = draws + m₂.draws := congrArg (draws + ·) hm.draws
    have hmoves : moves + m₁.moves = moves + m₂.moves := congrArg (moves + ·) hm.moves
    refine ⟨?_, hdraws, hmoves, congrArg (· ++ writes) hm.writes⟩
    simp only [mainStep, hdraws, hmoves]
    exact startPlay_alike _ _

theorem mainLoop_same (mem₁ mem₂ : ByteMemory 32) : ∀ n, SameMain (mainLoop d inp mem₁ n) (mainLoop d inp mem₂ n)
  | 0 => ⟨startPlay_alike _ _, rfl, rfl, rfl⟩
  | n + 1 => mainStep_same (mainLoop_same mem₁ mem₂ n)

/-- **The program depends on the answers alone.** From any two memories `main` goes through the same
games; and the game it plays at any time is like one that starts on a blank memory with the answers the
games before have left. -/
theorem mainLoop_fresh (mem₁ mem₂ : ByteMemory 32) (n : Nat) :
    SameMain (mainLoop d inp mem₁ n) (mainLoop d inp mem₂ n) ∧
      ∃ j, SameOutcome (mainLoop d inp mem₁ n).game
        (snakePlay d ((mainLoop d inp mem₁ n).inputs inp) (fun _ => 0) j) := by
  refine ⟨mainLoop_same mem₁ mem₂ n, ?_⟩
  have hgames : ∃ mem' j, (mainLoop d inp mem₁ n).game =
      snakePlay d ((mainLoop d inp mem₁ n).inputs inp) mem' j := mainLoop_game n
  obtain ⟨mem', j, hgame⟩ := hgames
  rw [hgame]
  exact ⟨j, snakePlay_alike mem' _ j⟩

end

end NiosSnake
