import NiosSnake.Frames

/-!
# The score display

The score goes from the game through the 6-bit score port to the decoder of the
two seven-segment digits. A length below 32 passes the port unchanged, and the
decoder shows its two decimal digits, with one exception: the arm for 28 holds
the pattern of 27.
-/

namespace NiosSnake

/-! ## The port and the decoder -/

def scorePio (chipselect writeN : Bool) (address : BitVec 2) (writedata : U32) (dataOut : BitVec 6) : BitVec 6 :=
  if chipselect && !writeN && address == 0 then writedata.extractLsb' 0 6 else dataOut

/-- `IOWR_ALTERA_AVALON_PIO_DATA(SCORE_PIO_BASE, score)` -/
def displayScore (score : U8) (dataOut : BitVec 6) : BitVec 6 :=
  scorePio true false 0 (score.setWidth 32) dataOut

def sevenSegArms : List (BitVec 6 × BitVec 14) :=
  [(0b000000, 0b11111101111110), (0b000001, 0b11111100110000), (0b000010, 0b11111101101101),
   (0b000011, 0b11111101111001), (0b000100, 0b11111100110011), (0b000101, 0b11111101011011),
   (0b000110, 0b11111101011111), (0b000111, 0b11111101110000), (0b001000, 0b11111101111111),
   (0b001001, 0b11111101111011), (0b001010, 0b01100001111110), (0b001011, 0b01100000110000),
   (0b001100, 0b01100001101101), (0b001101, 0b01100001111001), (0b001110, 0b01100000110011),
   (0b001111, 0b01100001011011), (0b010000, 0b01100001011111), (0b010001, 0b01100001110000),
   (0b010010, 0b01100001111111), (0b010011, 0b01100001111011), (0b010100, 0b11011011111110),
   (0b010101, 0b11011010110000), (0b010110, 0b11011011101101), (0b010111, 0b11011011111001),
   (0b011000, 0b11011010110011), (0b011001, 0b11011011011011), (0b011010, 0b11011011011111),
   (0b011011, 0b11011011110000), (0b011100, 0b11011011110000), (0b011101, 0b11011011111011),
   (0b011110, 0b11110011111110), (0b011111, 0b11110010110000), (0b100000, 0b11110011101101),
   (0b100001, 0b11110011111001)]

def sevenSegEncoder (score : BitVec 6) : BitVec 14 :=
  match sevenSegArms.lookup score with
  | some output => output
  | none => 0b11111111111111

def digitPattern (digit : Nat) : BitVec 7 := (sevenSegEncoder (BitVec.ofNat 6 digit)).extractLsb' 0 7

def decimalPattern (k : Nat) : BitVec 14 := digitPattern (k / 10) ++ digitPattern (k % 10)

/-- Whatever the port held, `score` arrives as `length`, has an arm, and is shown in decimal. -/
def ScoreShown (score : U8) (length : Nat) : Prop :=
  ∀ dataOut, (displayScore score dataOut).toNat = length ∧
    (sevenSegArms.lookup (displayScore score dataOut)).isSome ∧
    sevenSegEncoder (displayScore score dataOut) = decimalPattern length

theorem displayScore_eq (k : Nat) (dataOut : BitVec 6) :
    displayScore (BitVec.ofNat 8 k) dataOut = BitVec.ofNat 6 k := by
  apply BitVec.eq_of_toNat_eq
  simp only [displayScore, scorePio, Bool.not_false, Bool.and_self, beq_self_eq_true, if_true,
    BitVec.extractLsb'_toNat, BitVec.toNat_setWidth, BitVec.toNat_ofNat, Nat.shiftRight_zero]
  omega

theorem encoder_listed : ∀ k < 32, (sevenSegArms.lookup (BitVec.ofNat 6 k)).isSome := by decide

/-- The table agrees with decimal notation everywhere but at 28. -/
theorem encoder_decimal_iff : ∀ k < 32, sevenSegEncoder (BitVec.ofNat 6 k) = decimalPattern k ↔ k ≠ 28 := by
  decide

theorem scoreShown_iff {k : Nat} (hk : k < 32) : ScoreShown (BitVec.ofNat 8 k) k ↔ k ≠ 28 := by
  rw [← encoder_decimal_iff k hk]
  simp only [ScoreShown, displayScore_eq, encoder_listed k hk, BitVec.toNat_ofNat,
    Nat.mod_eq_of_lt (show k < 2 ^ 6 by omega), true_and, forall_const]

theorem decimalPattern_inj {j k : Nat} (hj : j < 100) (hk : k < 100)
    (h : decimalPattern j = decimalPattern k) : j = k := by
  have hdigit : ∀ a < 10, ∀ b < 10, digitPattern a = digitPattern b → a = b := by decide
  have htens : digitPattern (j / 10) = digitPattern (k / 10) := by
    rw [← BitVec.extractLsb'_append_eq_left (a := digitPattern (j / 10)) (b := digitPattern (j % 10)),
      ← BitVec.extractLsb'_append_eq_left (a := digitPattern (k / 10)) (b := digitPattern (k % 10))]
    exact congrArg (·.extractLsb' 7 7) h
  have hunits : digitPattern (j % 10) = digitPattern (k % 10) := by
    rw [← BitVec.extractLsb'_append_eq_right (a := digitPattern (j / 10)) (b := digitPattern (j % 10)),
      ← BitVec.extractLsb'_append_eq_right (a := digitPattern (k / 10)) (b := digitPattern (k % 10))]
    exact congrArg (·.extractLsb' 0 7) h
  have h₁ := hdigit _ (by omega) _ (by omega) htens
  have h₂ := hdigit _ (by omega) _ (by omega) hunits
  omega

/-! ## Along a run -/

theorem run_scored (d : SnakeDriver) (inp : Inputs) (mem : ByteMemory 32) (n : Nat) :
    (snakePlay d inp mem n).state.scored =
      (snakePlay d inp mem n).state.shown.map fun s => (BitVec.ofNat 8 s.snake.length, s) := by
  refine Outcome.state_invariant
    (fun m : Machine => m.scored = m.shown.map fun s => (BitVec.ofNat 8 s.snake.length, s)) ?_ (fun k m _ h => ?_) n
  · rw [startPlay_log.1, startPlay_log.2]
    rfl
  · rcases loopBody_cases d inp m with ⟨_, hr⟩ | ⟨_, _, _, hr⟩ | ⟨_, _, _, hr⟩ | ⟨_, _, hr⟩ <;> rw [hr] <;>
      simp only [Outcome.state]
    · rw [endGame_scored, endGame_shown, afterMove_scored, afterMove_shown, h]
    · rw [endGame_scored, endGame_shown, grow_scored, grow_shown, afterMove_scored, afterMove_shown, h]
    · rw [eatRound_shown, eatRound, presentFrame_scored, respawn_scored, grow_scored, afterMove_scored, h,
        List.map_cons, presentFrame_snake]
    · rw [walkRound_shown, walkRound, presentFrame_scored, afterMove_scored, h, List.map_cons,
        presentFrame_snake]

section
variable {cb : CallbackAddresses} {inp : Inputs} {mem : ByteMemory 32}

theorem shown_length : ∀ n, ∀ s ∈ (snakePlay (mainDriver cb) inp mem n).state.shown,
    s.snake.length < 32 := by
  refine frames_all (fun s => s.snake.length < 32) ?_ fun k m m' hr _ hs => ?_
  · rw [openGame_snake]
    exact (by decide : 1 < 32)
  · exact (run_bodyInv (by simp) (by simp) (k + 1) m' ((Outcome.run_succ_running hr).trans hs)).below

def StaysOff28 (inp : Inputs) (s : State) : Prop := ¬ Bites inp s → Eats inp s → s.snake.length ≠ 27

theorem shown_not_28_iff (n : Nat) :
    (∀ s ∈ (snakePlay (mainDriver cb) inp mem n).state.shown, s.snake.length ≠ 28) ↔
      ∀ k < n, ∀ m, snakePlay (mainDriver cb) inp mem k = .running m → StaysOff28 inp m.toState := by
  refine frames_iff (fun s => s.snake.length ≠ 28) (StaysOff28 inp) ?_ (fun k m m' hr h hs => ?_)
    (fun m message m' hs hb he h27 => ?_) n
  · rw [openGame_snake]
    exact (by decide : 1 ≠ 28)
  · rcases loopBody_running _ inp m hs with ⟨h₁, h₂, _, rfl⟩ | ⟨_, h₂, rfl⟩
    · have hb := (run_bodyInv (by simp) (by simp) k m hr).below
      have hL : (mainDriver cb).snakeLength.toNat = 32 := rfl
      rw [eatRound_snake _ inp m (by omega)]
      simp only [StaysOff28, h₁, h₂, not_false_eq_true, forall_const, grownSnake]
      omega
    · rw [walkRound_snake]
      exact iff_of_true h fun _ he => absurd he h₂
  · have hw := wins_of_returned hs hb he
    rw [Wins, h27] at hw
    exact absurd hw (by decide : ¬ (27 + 1) % 2 ^ 32 = 32)

/-- **When the display shows the length**, in decimal and differently for different lengths. -/
theorem score_shown_iff (n : Nat) :
    ((∀ e ∈ (snakePlay (mainDriver cb) inp mem n).state.scored, ScoreShown e.1 e.2.snake.length) ∧
      ∀ e ∈ (snakePlay (mainDriver cb) inp mem n).state.scored,
        ∀ e' ∈ (snakePlay (mainDriver cb) inp mem n).state.scored,
          e.2.snake.length ≠ e'.2.snake.length → ∀ dataOut dataOut',
            sevenSegEncoder (displayScore e.1 dataOut) ≠ sevenSegEncoder (displayScore e'.1 dataOut')) ↔
      ∀ k < n, ∀ m, snakePlay (mainDriver cb) inp mem k = .running m → StaysOff28 inp m.toState := by
  have hlen : ∀ s ∈ (snakePlay (mainDriver cb) inp mem n).state.shown, s.snake.length < 32 := shown_length n
  rw [← shown_not_28_iff n, run_scored]
  simp only [List.forall_mem_map]
  constructor
  · exact fun h s hs => (scoreShown_iff (hlen s hs)).mp (h.1 s hs)
  · intro h
    have hshown := fun s hs => (scoreShown_iff (hlen s hs)).mpr (h s hs)
    refine ⟨hshown, fun s hs s' hs' hne dataOut dataOut' heq => hne ?_⟩
    rw [(hshown s hs dataOut).2.2, (hshown s' hs' dataOut').2.2] at heq
    have h₁ := hlen s hs
    have h₂ := hlen s' hs'
    exact decimalPattern_inj (by omega) (by omega) heq

end

def cornerInputs : Inputs where
  readDirection k := if k < 14 then .right else .down
  randomNumber k := BitVec.ofNat 8 (min 30 (if k % 2 = 0 then 17 + k / 2 else max 16 (3 + k / 2)))

theorem cornerInputs_within : cornerInputs.Within 1 30 := by
  intro k
  simp only [cornerInputs, BitVec.toNat_ofNat]
  split <;> omega

/-- The 27th food makes the length 28, which is shown as 27. -/
theorem corner_score_wrong : cornerInputs.Within 1 30 ∧
    ∃ e ∈ (snakePlay (mainDriver someAddresses) cornerInputs (fun _ => 0) 27).state.scored,
      e.2.snake.length = 28 ∧ sevenSegEncoder (displayScore e.1 0) = decimalPattern 27 ∧
        ¬ ScoreShown e.1 e.2.snake.length := by
  refine ⟨cornerInputs_within, ?_⟩
  have hrun : ∃ e ∈ (snakePlay (mainDriver someAddresses) cornerInputs (fun _ => 0) 27).state.scored,
      e.2.snake.length = 28 ∧ sevenSegEncoder (displayScore e.1 0) = decimalPattern 27 := by
    decide +kernel
  obtain ⟨e, he, hl, hp⟩ := hrun
  refine ⟨e, he, hl, hp, fun hs => ?_⟩
  have h := (hs 0).2.2
  rw [hp, hl] at h
  exact absurd h (by decide)

end NiosSnake
