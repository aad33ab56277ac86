import NiosSnake.BufferEnd
import NiosSnake.History

/-!
# The loop of `main`

`main` plays one game after the other on the same frame buffer memory. The
memory is longer than the buffer, so the tiles of row and column 32 still lie in
it, but the tile of an empty history slot starts before it. Such a slot is erased
only if every move so far has eaten.
-/

namespace NiosSnake

open ByteMemory

def frameBufferSpan : Nat := 282144

def InSpan (a : U32) : Prop := frameBufferBase.toNat ≤ a.toNat ∧ a.toNat < frameBufferBase.toNat + frameBufferSpan

instance (a : U32) : Decidable (InSpan a) := inferInstanceAs (Decidable (_ ∧ _))

def Inputs.drop (inp : Inputs) (draws moves : Nat) : Inputs where
  readDirection k := inp.readDirection (moves + k)
  randomNumber k := inp.randomNumber (draws + k)

theorem Inputs.Within.drop {inp : Inputs} {lo hi : Nat} (h : inp.Within lo hi) (draws moves : Nat) :
    (inp.drop draws moves).Within lo hi := fun k => h (draws + k)

/-- The game being played, and what the games before it have asked for and written. -/
structure MainState where
  game : Outcome Machine String
  draws : Nat
  moves : Nat
  writes : List Write

namespace MainState

def Wrote (s : MainState) (a : U32) : Prop := ∃ w ∈ s.game.state.writes ++ s.writes, Within w.start w.count a

instance (s : MainState) (a : U32) : Decidable (s.Wrote a) := inferInstanceAs (Decidable (∃ w ∈ _, _))

def inputs (inp : Inputs) (s : MainState) : Inputs := inp.drop s.draws s.moves

end MainState

section
variable (d : SnakeDriver) (inp : Inputs) (mem : ByteMemory 32)

def mainStep (s : MainState) : MainState :=
  match s.game with
  | .running m => { s with game := loopBody d (s.inputs inp) m }
  | .returned _ m =>
    let draws := s.draws + m.draws
    let moves := s.moves + m.moves
    { game := startPlay d (inp.drop draws moves) m.mem, draws, moves, writes := m.writes ++ s.writes }

def mainLoop : Nat → MainState
  | 0 => { game := startPlay d (inp.drop 0 0) mem, draws := 0, moves := 0, writes := [] }
  | n + 1 => mainStep d inp (mainLoop n)

end

/-! ## One game at a time -/

section
variable {d : SnakeDriver} {inp : Inputs} {mem : ByteMemory 32}

theorem mainLoop_running {n : Nat} {m : Machine} (h : (mainLoop d inp mem n).game = .running m) :
    mainLoop d inp mem (n + 1) =
      { mainLoop d inp mem n with game := loopBody d ((mainLoop d inp mem n).inputs inp) m } := by
  rw [mainLoop, mainStep, h]

theorem mainLoop_returned {n : Nat} {message : String} {m : Machine}
    (h : (mainLoop d inp mem n).game = .returned message m) :
    mainLoop d inp mem (n + 1) =
      { game := startPlay d (inp.drop ((mainLoop d inp mem n).draws + m.draws)
          ((mainLoop d inp mem n).moves + m.moves)) m.mem
        draws := (mainLoop d inp mem n).draws + m.draws
        moves := (mainLoop d inp mem n).moves + m.moves
        writes := m.writes ++ (mainLoop d inp mem n).writes } := by
  rw [mainLoop, mainStep, h]

theorem mainLoop_game : ∀ n, ∃ mem' j,
    (mainLoop d inp mem n).game = snakePlay d ((mainLoop d inp mem n).inputs inp) mem' j
  | 0 => ⟨mem, 0, rfl⟩
  | n + 1 => by
    obtain ⟨mem', j, hgame⟩ := mainLoop_game n
    cases h : (mainLoop d inp mem n).game with
    | running m =>
      rw [mainLoop_running h]
      rw [h] at hgame
      exact ⟨mem', j + 1, (Outcome.run_succ_running hgame.symm).symm⟩
    | returned message m =>
      rw [mainLoop_returned h]
      exact ⟨m.mem, 0, rfl⟩

theorem mainLoop_round {n : Nat} {m : Machine} (h : (mainLoop d inp mem n).game = .running m) :
    ∃ mem', snakePlay d ((mainLoop d inp mem n).inputs inp) mem' m.moves = .running m := by
  have hgames : ∃ mem' j, (mainLoop d inp mem n).game = snakePlay d ((mainLoop d inp mem n).inputs inp) mem' j :=
    mainLoop_game n
  obtain ⟨mem', j, hgame⟩ := hgames
  rw [h] at hgame
  exact ⟨mem', by rw [run_moves j m hgame.symm]; exact hgame.symm⟩

theorem wrote_iff (s : MainState) (a : U32) :
    s.Wrote a ↔ s.game.state.Wrote a ∨ ∃ w ∈ s.writes, Within w.start w.count a := by
  simp [MainState.Wrote, Machine.Wrote, or_and_right, exists_or]

end

/-! ## What a round writes into the memory -/

structure SpanLaw (d : SnakeDriver) (P : U32 → Prop) : Prop where
  fill : ∀ a, Within d.frameBuffer (d.resolution * d.resolution).toNat a → P a
  board : ∀ p, OnBoard p → ∀ a, Tile d p a → P a
  empty : ¬ ∀ a, Tile d .zero a → P a

def ErasesEmpty (d : SnakeDriver) (inp : Inputs) (s : State) : Prop :=
  ¬ Bites inp s ∧ Eats inp s ∧ ¬ Wins s d ∧ s.snake.slot s.snake.length = .zero

section
variable {d : SnakeDriver} {inp : Inputs} {mem : ByteMemory 32} {P : U32 → Prop} (hP : SpanLaw d P)
include hP

theorem SpanLaw.foodLaw : FoodLaw d P where
  fill := hP.fill
  food p hp := hP.board p hp.onBoard

theorem SpanLaw.round_iff (hin : inp.Within 1 30) (h33 : d.snakeLength.toNat ≤ 33) {m : Machine}
    (hi : BodyInv d m.toState) :
    (∀ a, (loopBody d inp m).state.Wrote a → P a) ↔ (∀ a, m.Wrote a → P a) ∧ ¬ ErasesEmpty d inp m.toState := by
  have hb := hi.below
  have hhead : ∀ a, Tile d (nextHead inp m.toState) a → P a := hP.board _ hi.nextHead_onBoard
  unfold ErasesEmpty
  rcases loopBody_cases d inp m with ⟨h₁, hr⟩ | ⟨h₁, h₂, h₃, hr⟩ | ⟨h₁, h₂, h₃, hr⟩ | ⟨h₁, h₂, hr⟩ <;>
    rw [hr] <;> simp only [Outcome.state]
  · rw [hP.foodLaw.endGame_iff]
    simp [afterMove_wrote, h₁]
  · rw [hP.foodLaw.endGame_iff]
    simp only [grow_wrote, afterMove_wrote, afterMove_snake, movedSnake_slot_zero, or_imp, forall_and]
    rw [and_iff_right hhead]
    simp [h₃]
  · have hgrown := hi.length_of_not_wins h₃
    have hfood := hP.board _ (eatRound_foodCell (d := d) hin (show m.snake.length ≤ 32 by omega)).onBoard
    simp only [eatRound_wrote d inp m (show m.snake.length ≤ 254 by omega),
      movedSnake_slot_succ inp m.toState (show m.snake.length < 32 by omega), or_imp, forall_and]
    simp only [h₁, h₂, h₃, not_false_eq_true, true_and]
    constructor
    · rintro ⟨_, herase, _, hold⟩
      refine ⟨hold, fun hz => hP.empty ?_⟩
      rwa [hz] at herase
    · rintro ⟨hold, hz⟩
      refine ⟨hhead, ?_, hfood, hold⟩
      exact hP.board _ ((hi.slots m.snake.length).resolve_left hz)
  · have hpos := hi.pos
    have htail := hP.board _ (hi.onBoard (m.snake.length - 1) (by omega))
    simp only [walkRound_wrote, movedSnake_slot_length inp hi.pos (show m.snake.length ≤ 32 by omega), or_imp,
      forall_and]
    rw [and_iff_right hhead, and_iff_right htail]
    simp [h₂]

end

/-! ## The driver of `main` -/

section
variable (cb : CallbackAddresses)

theorem mainDriver_res : Res (mainDriver cb) := by simp [Res]

theorem mainDriver_tileSize : tileSize (mainDriver cb) = 16 := by
  rw [tileSize, mainDriver_resolution]

theorem mainDriver_callable : (mainDriver cb).Callable := by
  obtain ⟨h₁, h₂, h₃, h₄, h₅⟩ := cb.nonnull
  exact ⟨show frameBufferBase ≠ 0 by decide, h₂, h₁, h₃, h₄, h₅⟩

theorem inSpan_iff (a : U32) : InSpan a ↔ offset (mainDriver cb) a < frameBufferSpan := by
  have hbase : frameBufferBase.toNat = 524288 := rfl
  have hoffset : offset (mainDriver cb) a = (2 ^ 32 - 524288 + a.toNat) % 2 ^ 32 :=
    BitVec.toNat_sub a frameBufferBase
  simp only [InSpan, hbase, hoffset, frameBufferSpan]
  omega

theorem mainDriver_span : SpanLaw (mainDriver cb) InSpan where
  fill a ha := by
    have hfill := (fill_within (mainDriver_res cb) a).mp ha
    simp only [bufferSize, mainDriver_resolution] at hfill
    rw [inSpan_iff cb, frameBufferSpan]
    omega
  board p hp a ha := by
    obtain ⟨i, hi, j, hj, ho⟩ := (tile_onBoard (mainDriver_res cb) hp a).mp ha
    obtain ⟨_, hx, _, hy⟩ := hp
    rw [mainDriver_tileSize] at hi hj
    simp only [rowOffset, mainDriver_resolution, mainDriver_tileSize] at ho
    rw [inSpan_iff cb, ho, frameBufferSpan]
    omega
  empty h := by
    have ho := offset_add (mainDriver cb) (show 2 ^ 32 - 8 < 2 ^ 32 by decide)
    have hS := mainDriver_tileSize cb
    have hspan := h _ ((tile_zero (mainDriver_res cb) _).mpr ⟨0, by omega, 0, by omega, by rw [ho, hS]; omega⟩)
    rw [inSpan_iff cb, ho] at hspan
    exact absurd hspan (by decide)

/-! ## Any number of games -/

/-- The game in progress has not started yet, or not every move of it has eaten. -/
def Grown (s : MainState) : Prop := ∀ m, s.game = .running m → m.moves = 0 ∨ m.snake.length ≤ m.moves

variable {cb} {inp : Inputs} {mem : ByteMemory 32}

/-- Only a first move that eats finds an empty slot to erase. -/
theorem erasesEmpty_iff {inp : Inputs} {mem : ByteMemory 32} {n : Nat} {m : Machine}
    (h : snakePlay (mainDriver cb) inp mem n = .running m) (hgrown : n = 0 ∨ m.snake.length ≤ n) :
    ErasesEmpty (mainDriver cb) inp m.toState ↔ n = 0 ∧ Eats inp m.toState := by
  have hi := run_bodyInv (by simp) (by simp) n m h
  have hb := hi.below
  rw [mainDriver_snakeLength] at hb
  constructor
  · rintro ⟨_, he, _, hz⟩
    refine ⟨hgrown.resolve_right fun hle => ?_, he⟩
    -- the slot erased holds the head of an earlier move
    exact (run_slot_onBoard h hle (by omega)).ne_zero hz
  · rintro ⟨rfl, he⟩
    obtain rfl := startPlay_running (show startPlay (mainDriver cb) inp mem = _ from h)
    refine ⟨?_, he, ?_, ?_⟩
    · rintro ⟨i, hi, _⟩
      rw [openGame_snake] at hi
      exact absurd hi (by simp [initialSnake])
    · simp [Wins, initialSnake]
    · rw [openGame_snake]
      exact initialSnake_slot_succ 0

theorem startPlay_grown {s : MainState} {inp : Inputs} {mem : ByteMemory 32}
    (h : s.game = startPlay (mainDriver cb) inp mem) : Grown s := by
  intro m hm
  rw [h] at hm
  left
  rw [startPlay_running hm, openGame_moves]

theorem mainStep_grown {n : Nat} (h : Grown (mainLoop (mainDriver cb) inp mem n))
    (hfirst : ∀ m, (mainLoop (mainDriver cb) inp mem n).game = .running m → m.moves = 0 →
      ¬ Eats ((mainLoop (mainDriver cb) inp mem n).inputs inp) m.toState) :
    Grown (mainLoop (mainDriver cb) inp mem (n + 1)) := by
  intro m' hm'
  cases hg : (mainLoop (mainDriver cb) inp mem n).game with
  | running m =>
    obtain ⟨mem', hrun⟩ := mainLoop_round hg
    have hb := (run_bodyInv (by simp) (by simp) _ m hrun).below
    rw [mainDriver_snakeLength] at hb
    have hlength : m.snake.length ≤ m.moves + 1 := by
      rw [← stateAfter_running hrun]
      exact (length_grown (by simp) (by simp) m.moves).1
    rw [mainLoop_running hg] at hm'
    right
    rcases loopBody_running _ _ m hm' with ⟨_, he, _, rfl⟩ | ⟨_, _, rfl⟩
    · have hle := (h m hg).resolve_left fun h0 => hfirst m hg h0 he
      rw [eatRound_snake _ _ m (by omega), eatRound_moves]
      exact Nat.succ_le_succ hle
    · rw [walkRound_snake, walkRound_moves]
      exact hlength
  | returned message m =>
    rw [mainLoop_returned hg] at hm'
    exact startPlay_grown rfl m' hm'

theorem mainLoop_grown {n : Nat} (hfirst : ∀ k < n, ∀ m, (mainLoop (mainDriver cb) inp mem k).game = .running m →
    m.moves = 0 → ¬ Eats ((mainLoop (mainDriver cb) inp mem k).inputs inp) m.toState) :
    ∀ k ≤ n, Grown (mainLoop (mainDriver cb) inp mem k) := by
  intro k
  induction k with
  | zero => exact fun _ => startPlay_grown rfl
  | succ k ih =>
    intro hk
    exact mainStep_grown (ih (Nat.le_of_succ_le hk)) (hfirst k hk)

theorem mainLoop_span_iff (hin : inp.Within 1 30) (n : Nat) :
    (∀ a, (mainLoop (mainDriver cb) inp mem n).Wrote a → InSpan a) ↔
      ∀ k < n, ∀ m, (mainLoop (mainDriver cb) inp mem k).game = .running m →
        ¬ ErasesEmpty (mainDriver cb) ((mainLoop (mainDriver cb) inp mem k).inputs inp) m.toState := by
  have hP := mainDriver_span cb
  induction n with
  | zero =>
    refine ⟨fun _ k hk => absurd hk (Nat.not_lt_zero k), fun _ a ha => ?_⟩
    obtain ⟨w, hw, hwa⟩ := ha
    exact hP.foodLaw.startPlay (hin.drop 0 0) mem a ⟨w, by simpa [mainLoop] using hw, hwa⟩
  | succ n ih =>
    simp only [Nat.lt_succ_iff_lt_or_eq, or_imp, forall_and, forall_eq, ← ih]
    cases hg : (mainLoop (mainDriver cb) inp mem n).game with
    | running m =>
      obtain ⟨mem', hrun⟩ := mainLoop_round hg
      have hin' : ((mainLoop (mainDriver cb) inp mem n).inputs inp).Within 1 30 := hin.drop _ _
      have hround := hP.round_iff hin' (by simp) (run_bodyInv (by simp) (by simp) _ m hrun)
      rw [mainLoop_running hg]
      simp only [wrote_iff, hg, Outcome.state_running, or_imp, forall_and, Outcome.running.injEq, forall_eq']
      rw [hround, and_right_comm]
    | returned message m =>
      have hstart : ∀ a, (mainLoop (mainDriver cb) inp mem (n + 1)).game.state.Wrote a → InSpan a := by
        rw [mainLoop_returned hg]
        exact hP.foodLaw.startPlay (hin.drop _ _) m.mem
      rw [mainLoop_returned hg] at hstart ⊢
      simp only [wrote_iff, hg, Outcome.state_returned, reduceCtorEq, false_implies, implies_true, and_true]
      simp only [List.mem_append, or_and_right, exists_or, or_imp, forall_and]
      rw [and_iff_right hstart]
      rfl

/-- **When the program stays inside the frame buffer memory**: exactly while no game's first move eats. -/
theorem main_writes_iff (hin : inp.Within 1 30) (n : Nat) :
    (∀ a, (mainLoop (mainDriver cb) inp mem n).Wrote a → InSpan a) ↔
      ∀ k < n, ∀ m, (mainLoop (mainDriver cb) inp mem k).game = .running m → m.moves = 0 →
        ¬ Eats ((mainLoop (mainDriver cb) inp mem k).inputs inp) m.toState := by
  rw [mainLoop_span_iff hin]
  constructor
  · intro h k hk m hg h0 he
    obtain ⟨mem', hrun⟩ := mainLoop_round hg
    exact h k hk m hg ((erasesEmpty_iff hrun (Or.inl h0)).mpr ⟨h0, he⟩)
  · intro h k hk m hg hempty
    obtain ⟨mem', hrun⟩ := mainLoop_round hg
    obtain ⟨h0, he⟩ := (erasesEmpty_iff hrun (mainLoop_grown h k (Nat.le_of_lt hk) m hg)).mp hempty
    exact h k hk m hg h0 he

end

theorem main_writes_iff_edge :
    (∀ a, (mainLoop (mainDriver someAddresses) edgeInputs (fun _ => 0) 16).Wrote a → InSpan a) ↔
      ∀ k < 16, ∀ m, (mainLoop (mainDriver someAddresses) edgeInputs (fun _ => 0) k).game = .running m →
        m.moves = 0 →
          ¬ Eats ((mainLoop (mainDriver someAddresses) edgeInputs (fun _ => 0) k).inputs edgeInputs) m.toState :=
  main_writes_iff (Inputs.ofLists_within (by decide) (by decide)) 16

/-- The first food lies on the right of the start. -/
def mealInputs : Inputs := .ofLists [.right] [17, 16]

theorem meal_leaves_span :
    mealInputs.Within 1 30 ∧
      ∃ a, (mainLoop (mainDriver someAddresses) mealInputs (fun _ => 0) 1).Wrote a ∧ ¬ InSpan a := by
  refine ⟨Inputs.ofLists_within (by decide) (by decide), frameBufferBase - 8, ?_, by decide⟩
  decide +kernel

end NiosSnake
