import NiosSnake.MainLoop
import NiosSnake.Score
import NiosSnake.StorePath

/-!
# The score on its way to the digits

`display_score` stores the score to the score port, whose register drives the
seven-segment decoder. Of all that the processor stores only what the decoder sends to
the first word of the port reaches the register, so while a game waits the digits show
the length of its snake.
-/

namespace NiosSnake

def Store.sendScore (dataOut : BitVec 6) (s : Store) : BitVec 6 :=
  scorePio (decide (Routed s.bus.dAddress .scorePio)) false (avAddress 2 s.bus.dAddress) s.bus.dWritedata dataOut

def scorePort (stores : Nat → Option Store) : Nat → BitVec 6
  | 0 => 0
  | n + 1 =>
    match stores n with
    | some s => s.sendScore (scorePort stores n)
    | none => scorePort stores n

/-- The segments are driven low. -/
def sevenSeg (stores : Nat → Option Store) (n : Nat) : BitVec 14 := ~~~ sevenSegEncoder (scorePort stores n)

def scorePioBase : U32 := 0x121020

def scoreStore (score : U8) : Store := ⟨.mem32, scorePioBase, score.setWidth 32⟩

def scoreStores (m : Machine) : List Store := m.scored.reverse.map fun e => scoreStore e.1

/-! ## The register -/

theorem scorePort_eq (stores : Nat → Option Store) (n : Nat) :
    scorePort stores n = (sentStores .scorePio stores n).foldl Store.sendScore 0 := by
  rw [← foldl_sentStores]
  · induction n with
    | zero => rfl
    | succ n ih =>
      rw [List.range_succ, List.filterMap_append, List.foldl_append, ← ih, scorePort]
      cases h : stores n <;> simp [h]
  · intro dataOut s hs
    simp [Store.sendScore, scorePio, hs]

theorem scoreStore_routed (score : U8) : Routed (scoreStore score).bus.dAddress .scorePio :=
  decode_of_range (show Slave.Range .scorePio (scorePioBase.setWidth 21) by decide)

theorem sendScore_scoreStore (score : U8) (dataOut : BitVec 6) :
    (scoreStore score).sendScore dataOut = displayScore score dataOut := by
  have haddress : avAddress 2 (scoreStore score).bus.dAddress = 0 := by
    show avAddress 2 (scorePioBase.setWidth 21) = 0
    decide
  have hdata : (scoreStore score).bus.dWritedata = score.setWidth 32 := rfl
  rw [Store.sendScore, haddress, hdata, displayScore]
  simp only [scoreStore_routed, decide_true]

/-! ## Along a run -/

section
variable {cb : CallbackAddresses} {inp : Inputs} {mem : ByteMemory 32}

theorem run_scored_last {d : SnakeDriver} : ∀ n m, snakePlay d inp mem n = .running m → 1 ≤ n →
    ∃ earlier, m.scored = (BitVec.ofNat 8 m.snake.length, m.toState) :: earlier := by
  refine Outcome.running_invariant
    (fun n (m : Machine) => 1 ≤ n → ∃ earlier, m.scored = (BitVec.ofNat 8 m.snake.length, m.toState) :: earlier) ?_ ?_
  · exact fun _ _ h => absurd h (Nat.not_succ_le_zero 0)
  · intro n m m' _ _ hs _
    rcases loopBody_running d inp m hs with ⟨_, _, _, rfl⟩ | ⟨_, _, rfl⟩
    · rw [eatRound, presentFrame_scored, presentFrame_snake]
      exact ⟨_, rfl⟩
    · rw [walkRound, presentFrame_scored, presentFrame_snake]
      exact ⟨_, rfl⟩

theorem encoder_length : ∀ k < 32, sevenSegEncoder (BitVec.ofNat 6 k) = decimalPattern (if k = 28 then 27 else k) := by
  decide

/-- **From the game to the digits.** Whatever else the processor stores, when the score port has been sent
the scores of the game in progress, and of the games before, the digits show the length of the snake; but
28 is shown as 27. -/
theorem main_score {N : Nat} {m : Machine} (hg : (mainLoop (mainDriver cb) inp mem N).game = .running m)
    (hmoves : 1 ≤ m.moves) {stores : Nat → Option Store} {n : Nat} {before : List Store}
    (hstores : sentStores .scorePio stores n = before ++ scoreStores m) :
    (scorePort stores n).toNat = m.snake.length ∧
      sevenSeg stores n = ~~~ decimalPattern (if m.snake.length = 28 then 27 else m.snake.length) := by
  obtain ⟨mem', hrun⟩ := mainLoop_round hg
  obtain ⟨earlier, hscored⟩ := run_scored_last _ m hrun hmoves
  have hb : m.snake.length < 32 := (run_bodyInv (by simp) (by simp) _ m hrun).below
  have hport : scorePort stores n = BitVec.ofNat 6 m.snake.length := by
    rw [scorePort_eq, hstores, scoreStores, hscored, List.reverse_cons, List.map_append, ← List.append_assoc,
      List.foldl_append, List.map_singleton, List.foldl_cons, List.foldl_nil, sendScore_scoreStore, displayScore_eq]
  constructor
  · rw [hport, BitVec.toNat_ofNat, Nat.mod_eq_of_lt (by omega)]
  · rw [sevenSeg, hport, encoder_length _ hb]

end

theorem main_score_meal : ∃ m, (mainLoop (mainDriver someAddresses) mealInputs (fun _ => 0) 1).game = .running m ∧
    (scorePort (fun k => (scoreStores m)[k]?) (scoreStores m).length).toNat = m.snake.length ∧
      sevenSeg (fun k => (scoreStores m)[k]?) (scoreStores m).length =
        ~~~ decimalPattern (if m.snake.length = 28 then 27 else m.snake.length) := by
  have hmoves : (mainLoop (mainDriver someAddresses) mealInputs (fun _ => 0) 1).game.state.moves = 1 := by
    decide +kernel
  cases hg : (mainLoop (mainDriver someAddresses) mealInputs (fun _ => 0) 1).game with
  | running m =>
    rw [hg] at hmoves
    have hsent : ∀ s ∈ scoreStores m, Routed s.bus.dAddress .scorePio := by
      intro s hs
      obtain ⟨e, _, rfl⟩ := List.mem_map.mp hs
      exact scoreStore_routed e.1
    have hall := sentStores_get hsent (Nat.le_refl _)
    rw [← List.nil_append (scoreStores m)] at hall
    exact ⟨m, rfl, main_score hg (Nat.le_of_eq hmoves.symm) hall⟩
  | returned message m =>
    have hrunning : (mainLoop (mainDriver someAddresses) mealInputs (fun _ => 0) 1).game.isReturned = false := by
      decide +kernel
    rw [hg] at hrunning
    cases hrunning

end NiosSnake
