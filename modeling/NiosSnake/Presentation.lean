import NiosSnake.Calls
import NiosSnake.Screen

/-!
# Presenting before waiting

Every callback is a line in the log, so what was presented when the game waits
is a matter of the calls before. A normal frame shows the buffer and the score
before the delay; the two ways to end the game draw and then only wait.
-/

namespace NiosSnake

open Paint ByteMemory

def lastFrame (calls : List Call) : Option State :=
  calls.findSome? fun c =>
    match c.callback with
    | .displayFrameCb _ _ => some c.state
    | _ => none

def lastScore (calls : List Call) : Option U8 :=
  calls.findSome? fun c =>
    match c.callback with
    | .displayScoreCb score => some score
    | _ => none

structure Presented (d : SnakeDriver) (s : State) (earlier : List Call) : Prop where
  frame : ∃ s', lastFrame earlier = some s' ∧
    ∀ a, Within d.frameBuffer (d.resolution * d.resolution).toNat a → s.mem a = s'.mem a
  score : ∃ v, lastScore earlier = some v ∧ v.toNat = s.snake.length

def WaitsPresented (d : SnakeDriver) : List Call → Prop
  | [] => True
  | c :: earlier =>
    (∀ msec, c.callback = .delayFunctionCb msec → Presented d c.state earlier) ∧ WaitsPresented d earlier

section
variable {d : SnakeDriver} {c : Call} {earlier : List Call}

theorem waitsPresented_cons (h : ∀ msec, c.callback ≠ .delayFunctionCb msec) :
    WaitsPresented d (c :: earlier) ↔ WaitsPresented d earlier := by
  simp [WaitsPresented, h]

theorem waitsPresented_delay {msec : Nat} {s : State} :
    WaitsPresented d (⟨.delayFunctionCb msec, s⟩ :: earlier) ↔
      Presented d s earlier ∧ WaitsPresented d earlier := by
  simp [WaitsPresented]

theorem waitsPresented_append : ∀ {new : List Call}, (∀ c ∈ new, ∃ v, c.callback = .randomNumberCb v) →
    (WaitsPresented d (new ++ earlier) ↔ WaitsPresented d earlier)
  | [], _ => Iff.rfl
  | c :: new, h => by
    obtain ⟨v, hv⟩ := h c List.mem_cons_self
    rw [List.cons_append, waitsPresented_cons (by simp [hv])]
    exact waitsPresented_append fun c hc => h c (List.mem_cons_of_mem _ hc)

end

/-! ## The game-over picture in the buffer -/

def GameOverShown (d : SnakeDriver) (mem : ByteMemory 32) : Prop :=
  ∀ a, Within d.frameBuffer (d.resolution * d.resolution).toNat a →
    (Letters d a → mem a = d.snakeColor) ∧ (¬ Letters d a → mem a = d.backgroundColor)

theorem drawGameOver_shown (d : SnakeDriver) (m : Machine) : GameOverShown d (drawGameOver d m).mem := by
  intro a ha
  obtain ⟨hin, hout⟩ := drawGameOver_painted d m a
  exact ⟨hin, fun h => (hout h).trans ((fillBuffer_painted d _ m a).1 ha)⟩

theorem gameOverShown_iff (d : SnakeDriver) (m : Machine) (mem : ByteMemory 32) :
    (∀ a, Within d.frameBuffer (d.resolution * d.resolution).toNat a → (drawGameOver d m).mem a = mem a) ↔
      GameOverShown d mem := by
  constructor
  · intro h a ha
    rw [← h a ha]
    exact drawGameOver_shown d m a ha
  · intro h a ha
    by_cases hl : Letters d a
    · rw [(h a ha).1 hl, (drawGameOver_shown d m a ha).1 hl]
    · rw [(h a ha).2 hl, (drawGameOver_shown d m a ha).2 hl]

/-! ## Rounds -/

/-- The round does not win, and if it loses the buffer shows the game-over picture already. -/
def RoundPresented (d : SnakeDriver) (inp : Inputs) (s : State) : Prop :=
  (Bites inp s → GameOverShown d s.mem) ∧ ¬ (¬ Bites inp s ∧ Eats inp s ∧ Wins s d)

def FoundPresented (m : Machine) : Prop :=
  (m.snake.length = 1 ∧ lastScore m.calls = none) ∨
    (lastFrame m.calls = some m.toState ∧ lastScore m.calls = some (BitVec.ofNat 8 m.snake.length))

section
variable {d : SnakeDriver} {inp : Inputs} {mem : ByteMemory 32}

theorem presentFrame_found (m : Machine) : FoundPresented (presentFrame d m) := by
  right
  rw [presentFrame_calls, presentFrame_snake]
  simp [lastFrame, lastScore]

theorem presentFrame_waits {m : Machine} (hl : m.snake.length < 256) :
    WaitsPresented d (presentFrame d m).calls ↔ WaitsPresented d m.calls := by
  rw [presentFrame_calls, waitsPresented_delay, waitsPresented_cons (by simp), waitsPresented_cons (by simp)]
  refine and_iff_right ⟨⟨(presentFrame d m).toState, by simp [lastFrame], fun _ _ => rfl⟩, ?_⟩
  refine ⟨BitVec.ofNat 8 m.snake.length, by simp [lastScore], ?_⟩
  rw [presentFrame_snake, BitVec.toNat_ofNat]
  exact Nat.mod_eq_of_lt hl

theorem run_found : ∀ n m, snakePlay d inp mem n = .running m → FoundPresented m := by
  refine Outcome.running_invariant (fun _ m => FoundPresented m) ?_ ?_
  · intro m hm
    rw [startPlay_running hm]
    obtain ⟨s, s', hcalls⟩ := openGame_calls d inp mem
    exact Or.inl ⟨by rw [openGame_snake]; rfl, by rw [hcalls]; rfl⟩
  · intro n m m' _ _ hs
    rcases loopBody_running d inp m hs with ⟨_, _, _, rfl⟩ | ⟨_, _, rfl⟩
    · exact presentFrame_found _
    · exact presentFrame_found _

theorem lost_presented_iff {m : Machine} (hL : m.snake.length < 256) (hf : FoundPresented m)
    (hb : Bites inp m.toState) :
    Presented d (drawGameOver d (afterMove inp m)).toState (afterMove inp m).calls ↔ GameOverShown d m.mem := by
  have hcalls : lastFrame (afterMove inp m).calls = lastFrame m.calls ∧
      lastScore (afterMove inp m).calls = lastScore m.calls := by
    rw [afterMove_calls]
    simp [lastFrame, lastScore]
  have hlength : (drawGameOver d (afterMove inp m)).snake.length = m.snake.length := by
    rw [drawGameOver_frame, afterMove_snake]
    rfl
  rcases hf with ⟨hone, _⟩ | ⟨hframe, hscore⟩
  · -- a single segment has nothing to bite
    obtain ⟨i, hi, _⟩ := hb
    omega
  rw [← gameOverShown_iff d (afterMove inp m)]
  constructor
  · rintro ⟨⟨s', hs', heq⟩, _⟩
    rw [hcalls.1, hframe] at hs'
    cases hs'
    exact heq
  · intro h
    refine ⟨⟨m.toState, hcalls.1.trans hframe, h⟩, ⟨_, hcalls.2.trans hscore, ?_⟩⟩
    rw [hlength, BitVec.toNat_ofNat]
    exact Nat.mod_eq_of_lt hL

theorem won_not_presented {m : Machine} (hL : m.snake.length ≤ 254)
    (hf : FoundPresented m) :
    ¬ Presented d (drawGameOver d (grow d (afterMove inp m))).toState (grow d (afterMove inp m)).calls := by
  rintro ⟨_, v, hv, hlength⟩
  have hgrown : (drawGameOver d (grow d (afterMove inp m))).snake.length = m.snake.length + 1 := by
    rw [drawGameOver_frame, grow_afterMove_snake d inp m hL]
    rfl
  rw [grow_calls, afterMove_calls] at hv
  replace hv : lastScore m.calls = some v := by simpa [lastScore] using hv
  rcases hf with ⟨_, hnone⟩ | ⟨_, hscore⟩
  · rw [hnone] at hv
    cases hv
  · rw [hscore] at hv
    cases hv
    rw [hgrown, BitVec.toNat_ofNat, Nat.mod_eq_of_lt (by omega)] at hlength
    omega

theorem loopBody_waits {m : Machine} (hi : BodyInv d m.toState) (hL : d.snakeLength.toNat ≤ 33)
    (hf : FoundPresented m) :
    WaitsPresented d (loopBody d inp m).state.calls ↔ WaitsPresented d m.calls ∧ RoundPresented d inp m.toState := by
  have hb := hi.below
  have hmoved : WaitsPresented d (afterMove inp m).calls ↔ WaitsPresented d m.calls := by
    rw [afterMove_calls, waitsPresented_cons (by simp)]
  unfold RoundPresented
  rcases loopBody_cases d inp m with ⟨h₁, hr⟩ | ⟨h₁, h₂, h₃, hr⟩ | ⟨h₁, h₂, h₃, hr⟩ | ⟨h₁, h₂, hr⟩ <;>
    rw [hr] <;> simp only [Outcome.state]
  · -- lost: nothing is presented after the picture is drawn
    rw [endGame_calls, waitsPresented_delay, hmoved, and_comm]
    simp only [h₁, not_true_eq_false, false_and, not_false_eq_true, and_true, true_implies]
    exact and_congr_right fun _ => lost_presented_iff (by omega) hf h₁
  · -- won: the score shown last is one too low
    rw [endGame_calls, waitsPresented_delay]
    exact iff_of_false (fun h => won_not_presented (by omega) hf h.1) fun h => h.2.2 ⟨h₁, h₂, h₃⟩
  · have hlength : (respawn d inp (grow d (afterMove inp m))).snake.length < 256 := by
      rw [respawn_snake, grow_afterMove_snake d inp m (by omega)]
      exact (show m.snake.length + 1 < 256 by omega)
    rw [eatRound, presentFrame_waits hlength]
    obtain ⟨new, hnew, hrandom⟩ := respawn_calls d inp (grow d (afterMove inp m))
    rw [hnew, waitsPresented_append fun c hc => (hrandom c hc).1, grow_calls, hmoved]
    simp [h₁, h₂, h₃]
  · have hlength : (afterMove inp m).snake.length < 256 := by
      rw [afterMove_snake]
      exact (show m.snake.length < 256 by omega)
    rw [walkRound, presentFrame_waits hlength, hmoved]
    simp [h₁, h₂]

/-! ## Letters on a screen with a snake -/

/-- Of the 96 letter cells one is off any 33 points. -/
theorem exists_letter_off {l : List Point} (hl : l.length ≤ 33) : ∃ i < 96, gameOverPoint i ∉ l := by
  refine Classical.byContradiction fun h => ?_
  have hsub : (List.range 96).map gameOverPoint ⊆ l := by
    intro p hp
    obtain ⟨i, hi, rfl⟩ := List.mem_map.mp hp
    exact Classical.byContradiction fun hn => h ⟨i, List.mem_range.mp hi, hn⟩
  have hnodup : ((List.range 96).map gameOverPoint).Nodup := by decide +kernel
  have := hnodup.length_le_of_subset hsub
  rw [List.length_map, List.length_range] at this
  omega

section
variable (hR : Res d) (h2 : 2 ≤ d.snakeLength.toNat) (h33 : d.snakeLength.toNat ≤ 33) (hin : inp.Within 1 30)
include hR h2 h33 hin

theorem run_not_gameOverShown (hcolor : d.snakeColor ≠ d.backgroundColor) {n : Nat} {m : Machine}
    (h : snakePlay d inp mem n = .running m) : ¬ GameOverShown d m.mem := by
  intro hshown
  have hi := run_bodyInv h2 h33 n m h
  have hb := hi.below
  have hfood := (run_drawn hin h2 h33 n m h).food.onBoard
  obtain ⟨i, hlt, hoff⟩ := exists_letter_off (l := m.currentFood :: m.snake.live) (by
    rw [List.length_cons, Snake.length_live (by omega)]
    omega)
  rw [List.mem_cons, not_or, Snake.mem_live (by omega)] at hoff
  have hcell := gameOverPoint_foodCell i hlt
  obtain ⟨a, ha⟩ := tile_nonempty hR hcell.onBoard
  have hinside := (tile_inside_iff hR hcell.onBoard).mpr hcell.not_spills a ha
  have hbackground : m.mem a = d.backgroundColor := by
    refine run_clean hR h2 h33 n m h a hinside (fun j hj => ?_) ?_
    · exact tile_disjoint hR hcell.onBoard (hi.onBoard j hj) (fun he => hoff.2 ⟨j, hj, he.symm⟩) a ha
    · exact tile_disjoint hR hcell.onBoard hfood hoff.1 a ha
  have hletter := (hshown a ((fill_within hR a).mpr hinside)).1 ⟨i, hlt, ha⟩
  exact hcolor (hletter.symm.trans hbackground)

end

theorem startPlay_waits : WaitsPresented d (startPlay d inp mem).state.calls := by
  rcases startPlay_cases d inp mem with hs | ⟨message, hs⟩
  · obtain ⟨s, s', hcalls⟩ := openGame_calls d inp mem
    rw [hs, Outcome.state_running, hcalls]
    simp [WaitsPresented]
  · rw [hs]
    trivial

/-- **When everything is presented before the game waits**: exactly while no round wins, and none loses
on a buffer that does not show the game-over picture yet. For colours that differ and foods on the
board, that is while no round ends the game. -/
theorem waits_presented_iff (h2 : 2 ≤ d.snakeLength.toNat) (h33 : d.snakeLength.toNat ≤ 33) (n : Nat) :
    (WaitsPresented d (snakePlay d inp mem n).state.calls ↔
      ∀ k < n, ∀ m, snakePlay d inp mem k = .running m → RoundPresented d inp m.toState) ∧
    (Res d → inp.Within 1 30 → d.snakeColor ≠ d.backgroundColor →
      (WaitsPresented d (snakePlay d inp mem n).state.calls ↔
        ∀ k < n, ∀ m, snakePlay d inp mem k = .running m →
          ¬ Bites inp m.toState ∧ ¬ (Eats inp m.toState ∧ Wins m.toState d))) := by
  have hiff : WaitsPresented d (snakePlay d inp mem n).state.calls ↔
      ∀ k < n, ∀ m, snakePlay d inp mem k = .running m → RoundPresented d inp m.toState :=
    Outcome.log_iff (fun m : Machine => WaitsPresented d m.calls) (fun _ m => RoundPresented d inp m.toState)
      startPlay_waits (fun k m hr => loopBody_waits (run_bodyInv h2 h33 k m hr) h33 (run_found k m hr)) n
  refine ⟨hiff, fun hR hin hcolor => hiff.trans ?_⟩
  refine forall_congr' fun k => imp_congr_right fun _ => forall_congr' fun m => imp_congr_right fun hr => ?_
  have hnot := run_not_gameOverShown hR h2 h33 hin hcolor hr
  unfold RoundPresented
  constructor
  · rintro ⟨hlost, hwon⟩
    have hb : ¬ Bites inp m.toState := fun hb => hnot (hlost hb)
    exact ⟨hb, fun h => hwon ⟨hb, h⟩⟩
  · rintro ⟨hb, hwon⟩
    exact ⟨fun h => absurd h hb, fun h => hwon h.2⟩

end

def tailInputs : Inputs :=
  .ofLists [.right, .right, .right, .right, .down, .left, .up] [17, 16, 18, 16, 19, 16, 20, 16, 1, 1]

theorem waits_presented_iff_tail :
    (WaitsPresented (mainDriver someAddresses)
        (snakePlay (mainDriver someAddresses) tailInputs (fun _ => 0) 7).state.calls ↔
      ∀ k < 7, ∀ m, snakePlay (mainDriver someAddresses) tailInputs (fun _ => 0) k = .running m →
        RoundPresented (mainDriver someAddresses) tailInputs m.toState) ∧
    (Res (mainDriver someAddresses) → tailInputs.Within 1 30 →
      (mainDriver someAddresses).snakeColor ≠ (mainDriver someAddresses).backgroundColor →
      (WaitsPresented (mainDriver someAddresses)
          (snakePlay (mainDriver someAddresses) tailInputs (fun _ => 0) 7).state.calls ↔
        ∀ k < 7, ∀ m, snakePlay (mainDriver someAddresses) tailInputs (fun _ => 0) k = .running m →
          ¬ Bites tailInputs m.toState ∧
            ¬ (Eats tailInputs m.toState ∧ Wins m.toState (mainDriver someAddresses)))) :=
  waits_presented_iff (by decide) (by decide) 7

def waitsStale (a : U32) : List Call → Bool
  | ⟨.delayFunctionCb _, s⟩ :: earlier => (lastFrame earlier).all fun s' => s.mem a != s'.mem a
  | _ => false

theorem not_presented_of_stale {d : SnakeDriver} {a : U32} {calls : List Call}
    (ha : Within d.frameBuffer (d.resolution * d.resolution).toNat a) (h : waitsStale a calls = true) :
    ¬ WaitsPresented d calls := by
  intro hp
  unfold waitsStale at h
  split at h
  · rename_i msec s earlier
    obtain ⟨⟨⟨s', hs', heq⟩, _⟩, _⟩ := waitsPresented_delay.mp hp
    simp [hs', heq a ha] at h
  · cases h

/-- The seventh move bites; a byte of the first letter is drawn and never presented. -/
theorem tail_not_presented :
    2 ≤ (mainDriver someAddresses).snakeLength.toNat ∧ (mainDriver someAddresses).snakeLength.toNat ≤ 33 ∧
      tailInputs.Within 1 30 ∧
      ¬ WaitsPresented (mainDriver someAddresses)
        (snakePlay (mainDriver someAddresses) tailInputs (fun _ => 0) 7).state.calls := by
  refine ⟨by decide, by decide, Inputs.ofLists_within (by decide) (by decide), ?_⟩
  exact not_presented_of_stale (a := frameBufferBase + 16456) (by decide) (by decide +kernel)

end NiosSnake
