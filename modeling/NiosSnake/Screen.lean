import NiosSnake.BufferEnd
import NiosSnake.Frames

/-!
# What the screen shows

Drawing is incremental: after the opening a round erases one history slot and
paints the head, and an eating round paints the new food. Nothing else of the
old picture is left on the screen. A segment or a food disappears exactly when
the slot an eating round erases is its cell: growing has moved the erased slot
one past the old tail, to the cell the snake left a round before.
-/

namespace NiosSnake

open Paint ByteMemory

theorem openGame_painted (d : SnakeDriver) (inp : Inputs) (mem : ByteMemory 32) : ∃ mem',
    (∀ a, Within d.frameBuffer (d.resolution * d.resolution).toNat a → mem' a = d.backgroundColor) ∧
      Painted (Tile d) mem' (openGame d inp mem).mem (openGame d inp mem).currentFood d.foodColor := by
  refine ⟨(fillBuffer d d.backgroundColor (drawFood inp (entry mem))).mem, fun a ha => ?_, ?_⟩
  · exact memset_within ha
  · have hp := drawSquare_painted d (fillBuffer d d.backgroundColor (drawFood inp (entry mem))).currentFood
      d.foodColor (fillBuffer d d.backgroundColor (drawFood inp (entry mem)))
    simpa [openGame] using hp

/-! ## No residue -/

/-- Every byte of the buffer outside the tiles of the live segments and of the food is background. -/
def Clean (d : SnakeDriver) (s : State) : Prop :=
  ∀ a, offset d a < bufferSize d → (∀ i < s.snake.length, ¬ Tile d (s.snake.slot i) a) →
    ¬ Tile d s.currentFood a → s.mem a = d.backgroundColor

section
variable {d : SnakeDriver} {inp : Inputs} {mem : ByteMemory 32}

theorem openGame_clean (hR : Res d) : Clean d (openGame d inp mem).toState := by
  intro a ha _ hf
  obtain ⟨mem', hfill, hfood⟩ := openGame_painted d inp mem
  rw [(hfood a).2 hf]
  exact hfill a ((fill_within hR a).mpr ha)

theorem walkRound_clean {m : Machine} (hi : BodyInv d m.toState) (hl : m.snake.length ≤ 32)
    (h : Clean d m.toState) : Clean d (walkRound d inp m).toState := by
  intro a ha hlive hfood
  obtain ⟨mem', herase, hhead⟩ := walkRound_painted d inp m
  simp only [walkRound_snake] at hlive
  rw [walkRound_currentFood] at hfood
  have hnew : ¬ Tile d (nextHead inp m.toState) a := by
    have := hlive 0 hi.pos
    rwa [movedSnake_slot_zero] at this
  rw [(hhead a).2 hnew]
  by_cases htail : Tile d ((movedSnake inp m.toState).slot m.snake.length) a
  · exact (herase a).1 htail
  rw [(herase a).2 htail]
  refine h a ha (fun i hil => ?_) hfood
  -- a segment stays live one slot further, or is the tail that was erased
  rw [← movedSnake_slot_succ inp m.toState (show i < 32 by omega)]
  rcases (show i + 1 < m.snake.length ∨ i + 1 = m.snake.length by omega) with hlt | heq
  · exact hlive (i + 1) hlt
  · rwa [heq]

theorem eatRound_clean {m : Machine} (hl : m.snake.length ≤ 32) (he : Eats inp m.toState)
    (h : Clean d m.toState) : Clean d (eatRound d inp m).toState := by
  intro a ha hlive hfood
  obtain ⟨mem₁, mem₂, mem₃, hhead, hnext, herase, hagain⟩ :=
    eatRound_painted d inp m (show m.snake.length ≤ 254 by omega)
  simp only [eatRound_snake d inp m (show m.snake.length ≤ 254 by omega)] at hlive
  have hnew : ¬ Tile d (nextHead inp m.toState) a := by
    have := hlive 0 (Nat.succ_pos _)
    rwa [show (grownSnake inp m.toState).slot 0 = _ from movedSnake_slot_zero ..] at this
  rw [(hagain a).2 hnew]
  by_cases htail : Tile d ((movedSnake inp m.toState).slot (m.snake.length + 1)) a
  · exact (herase a).1 htail
  rw [(herase a).2 htail, (hnext a).2 hfood, (hhead a).2 hnew]
  refine h a ha (fun i hil => ?_) ?_
  · rw [← movedSnake_slot_succ inp m.toState (show i < 32 by omega)]
    exact hlive (i + 1) (Nat.succ_lt_succ hil)
  · -- the food that was eaten is under the head
    rwa [show m.currentFood = nextHead inp m.toState from he.symm]

theorem loopBody_clean {m m' : Machine} (hi : BodyInv d m.toState) (h33 : d.snakeLength.toNat ≤ 33)
    (h : Clean d m.toState) (hs : loopBody d inp m = .running m') : Clean d m'.toState := by
  have hb := hi.below
  rcases loopBody_running d inp m hs with ⟨_, he, _, rfl⟩ | ⟨_, _, rfl⟩
  · exact eatRound_clean (by omega) he h
  · exact walkRound_clean hi (by omega) h

theorem run_clean (hR : Res d) (h2 : 2 ≤ d.snakeLength.toNat) (h33 : d.snakeLength.toNat ≤ 33) :
    ∀ n m, snakePlay d inp mem n = .running m → Clean d m.toState := by
  refine Outcome.running_invariant (fun _ (m : Machine) => Clean d m.toState) ?_ ?_
  · intro m hm
    rw [startPlay_running hm]
    exact openGame_clean hR
  · intro n m m' hr h hs
    exact loopBody_clean (run_bodyInv h2 h33 n m hr) h33 h hs

/-- **No residue on the screen**, whatever the random numbers. -/
theorem frames_clean (hR : Res d) (h2 : 2 ≤ d.snakeLength.toNat) (h33 : d.snakeLength.toNat ≤ 33) (n : Nat) :
    ∀ s ∈ (snakePlay d inp mem n).state.shown, Clean d s := by
  refine frames_all (Clean d) (openGame_clean hR) (fun k m m' hr h hs => ?_) n
  exact loopBody_clean (run_bodyInv h2 h33 k m hr) h33 h hs

theorem frames_clean_edge :
    (snakePlay (mainDriver someAddresses) edgeInputs (fun _ => 0) 16).state.shown.length = 16 ∧
      ∀ s ∈ (snakePlay (mainDriver someAddresses) edgeInputs (fun _ => 0) 16).state.shown,
        Clean (mainDriver someAddresses) s :=
  ⟨by decide +kernel, frames_clean (by decide) (by decide) (by decide) 16⟩

end

/-! ## The segments -/

/-- The tile of every live segment that a move entered shows the snake's colour. -/
def Visible (d : SnakeDriver) (s : State) : Prop :=
  ∀ i < s.snake.length, i < s.moves → Shows (Tile d) s.mem (s.snake.slot i) d.snakeColor

/-- If the round eats and goes on, the slot it will erase is not a live segment. -/
def ErasesNoSegment (d : SnakeDriver) (inp : Inputs) (s : State) : Prop :=
  ¬ Bites inp s → Eats inp s → ¬ Wins s d → s.snake.slot s.snake.length ∉ s.snake.live

section
variable {d : SnakeDriver} {inp : Inputs} {mem : ByteMemory 32}

section
variable {m : Machine} {g : QueueGame.Game Point Direction} (hR : Res d) (hs : Sim d m.toState g)
include hR hs

theorem walkRound_visible (hl : m.snake.length ≤ 32) (h : Visible d m.toState) :
    Visible d (walkRound d inp m).toState := by
  obtain ⟨mem', herase, hhead⟩ := walkRound_painted d inp m
  have hpos := hs.inv.pos
  rw [movedSnake_slot_length inp hpos hl] at herase
  intro i hi hmv
  rw [walkRound_snake] at hi ⊢
  rw [walkRound_moves] at hmv
  have hlen : i < m.snake.length := hi
  cases i with
  | zero =>
    rw [movedSnake_slot_zero]
    exact shows_painted hhead
  | succ i =>
    rw [movedSnake_slot_succ inp _ (by omega)]
    have hn : m.snake.live.Nodup := hs.body ▸ hs.good.nodup
    have hne := Window.getD_ne_of_nodup _ .zero (show m.snake.length ≤ 33 by omega) hn
      (show i < m.snake.length - 1 by omega) (by omega)
    refine Shows.same ((h i (by omega) (by omega)).frame herase ?_) hhead
    exact tile_disjoint hR (hs.inv.onBoard i (by omega)) (hs.inv.onBoard _ (by omega)) hne

variable (hl : m.snake.length ≤ 31) (hin : inp.Within 1 30) (he : Eats inp m.toState)
variable (hfood : (eatRound d inp m).currentFood ∉ (eatRound d inp m).snake.live)
include hl hin hfood

theorem eatRound_food_iff : Shows (Tile d) (eatRound d inp m).mem (eatRound d inp m).currentFood d.foodColor ↔
    d.foodColor = d.backgroundColor ∨ (eatRound d inp m).currentFood ≠ m.snake.slot m.snake.length := by
  obtain ⟨mem₁, mem₂, mem₃, hhead, hnext, herase, hagain⟩ :=
    eatRound_painted d inp m (show m.snake.length ≤ 254 by omega)
  rw [movedSnake_slot_succ inp _ (show m.snake.length < 32 by omega)] at herase
  rw [eatRound_snake d inp m (by omega), grownSnake_live inp (by omega), List.mem_cons, not_or] at hfood
  have hb := (eatRound_foodCell (d := d) hin (show m.snake.length ≤ 32 by omega)).onBoard
  exact (shows_painted hnext).erased_iff herase (fun hne => tile_disjoint_slot hR (hs.inv.slots _) hb hne)
    hagain (tile_disjoint hR hb hs.inv.nextHead_onBoard hfood.1) (tile_nonempty hR hb)

include he

theorem eatRound_segment_iff {i : Nat} (hi : i < m.snake.length)
    (h : Shows (Tile d) m.mem (m.snake.slot i) d.snakeColor) :
    Shows (Tile d) (eatRound d inp m).mem (m.snake.slot i) d.snakeColor ↔
      d.snakeColor = d.backgroundColor ∨ m.snake.slot i ≠ m.snake.slot m.snake.length := by
  obtain ⟨mem₁, mem₂, mem₃, hhead, hnext, herase, hagain⟩ :=
    eatRound_painted d inp m (show m.snake.length ≤ 254 by omega)
  rw [movedSnake_slot_succ inp _ (show m.snake.length < 32 by omega)] at herase
  rw [eatRound_snake d inp m (by omega), grownSnake_live inp (by omega), List.mem_cons, not_or] at hfood
  have hb := hs.inv.onBoard i hi
  have hlive : m.snake.slot i ∈ m.snake.live := (Snake.mem_live (by omega) _).mpr ⟨i, hi, rfl⟩
  -- neither the head nor the new food is painted over the segment
  have hne₁ : m.snake.slot i ≠ nextHead inp m.toState := fun heq =>
    hs.off.not_live hs.inv he (heq ▸ hlive)
  have hne₂ : m.snake.slot i ≠ (eatRound d inp m).currentFood := fun heq => hfood.2 (heq ▸ hlive)
  have hfb := (eatRound_foodCell (d := d) hin (show m.snake.length ≤ 32 by omega)).onBoard
  exact ((h.same hhead).frame hnext (tile_disjoint hR hb hfb hne₂)).erased_iff herase
    (fun hne => tile_disjoint_slot hR (hs.inv.slots _) hb hne) hagain
    (tile_disjoint hR hb hs.inv.nextHead_onBoard hne₁) (tile_nonempty hR hb)

/-- An eating round keeps the segments visible exactly if it erases none of them. -/
theorem eatRound_visible_iff (hstale : ∀ i, m.moves < i → m.snake.slot i = .zero)
    (h : Visible d m.toState) :
    Visible d (eatRound d inp m).toState ↔
      d.snakeColor = d.backgroundColor ∨ m.snake.slot m.snake.length ∉ m.snake.live := by
  have hmem := Snake.mem_live (s := m.snake) (show m.snake.length ≤ 33 by omega)
  have hseg := fun i hi hmv => eatRound_segment_iff hR hs hl hin he hfood hi (h i hi hmv)
  have hslot : ∀ i < m.snake.length, (eatRound d inp m).snake.slot (i + 1) = m.snake.slot i := by
    intro i hi
    rw [eatRound_snake d inp m (by omega)]
    exact movedSnake_slot_succ inp m.toState (by omega)
  constructor
  · intro hv
    by_cases hc : d.snakeColor = d.backgroundColor
    · exact Or.inl hc
    refine Or.inr fun hlive => ?_
    obtain ⟨i, hi, heq⟩ := (hmem _).mp hlive
    -- an erased segment is no empty slot, so a move has reached it and every slot before it
    have hmv : m.snake.length ≤ m.moves := by
      refine Nat.le_of_not_lt fun hlt => (hs.inv.onBoard i hi).ne_zero ?_
      rw [heq, hstale _ hlt]
    have hshow := hv (i + 1) (by rw [eatRound_snake d inp m (by omega)]; exact Nat.succ_lt_succ hi)
      (by rw [eatRound_moves]; omega)
    rw [hslot i hi] at hshow
    rcases (hseg i hi (by omega)).mp hshow with h' | h'
    · exact hc h'
    · exact h' heq
  · intro hc i hi hmv
    rw [eatRound_moves] at hmv
    cases i with
    | zero =>
      obtain ⟨_, _, mem₃, _, _, _, hagain⟩ := eatRound_painted d inp m (show m.snake.length ≤ 254 by omega)
      rw [eatRound_snake d inp m (by omega), show (grownSnake inp m.toState).slot 0 = _ from movedSnake_slot_zero ..]
      exact shows_painted hagain
    | succ i =>
      have hi' : i < m.snake.length := by
        rw [eatRound_snake d inp m (by omega)] at hi
        exact Nat.lt_of_succ_lt_succ hi
      rw [hslot i hi']
      exact (hseg i hi' (by omega)).mpr (hc.imp_right fun hn heq => hn ((hmem _).mpr ⟨i, hi', heq⟩))

end

/-- **When every live segment is visible in all frames.** -/
theorem frames_visible_iff (hR : Res d) (h2 : 2 ≤ d.snakeLength.toNat) (h33 : d.snakeLength.toNat ≤ 33)
    (hin : inp.Within 1 30) (hfood : RespawnsOffSnake d inp mem) (n : Nat) :
    (∀ s ∈ (snakePlay d inp mem n).state.shown, Visible d s) ↔ d.snakeColor = d.backgroundColor ∨
      ∀ k < n, ∀ m, snakePlay d inp mem k = .running m → ErasesNoSegment d inp m.toState := by
  refine Iff.trans (frames_iff (Visible d)
    (fun s => d.snakeColor = d.backgroundColor ∨ ErasesNoSegment d inp s) ?_ ?_ ?_ n) ?_
  · intro i _ hmv
    rw [openGame_moves] at hmv
    omega
  · intro k m m' hr h hs
    obtain ⟨g, hsim⟩ := run_sim h2 h33 hfood hr
    have hb := hsim.inv.below
    rcases loopBody_running d inp m hs with ⟨h₁, h₂, h₃, rfl⟩ | ⟨_, h₂, rfl⟩
    · have hgrown := hsim.inv.length_of_not_wins h₃
      have hstale := run_stale k m hr
      rw [← run_moves k m hr] at hstale
      rw [eatRound_visible_iff hR hsim (by omega) hin h₂
        (hfood k m _ hr h₂ ((Outcome.run_succ_running hr).trans hs)) hstale h]
      simp only [ErasesNoSegment, h₁, h₂, h₃, not_false_eq_true, forall_const]
    · refine iff_of_true (walkRound_visible hR hsim (by omega) h) (Or.inr fun _ he => absurd he h₂)
  · intro m _ m' hs
    exact Or.inr fun hb he hw => absurd (wins_of_returned hs hb he) hw
  · by_cases hc : d.snakeColor = d.backgroundColor <;> simp only [hc, true_or, false_or, implies_true]

def tightDriver : SnakeDriver := { mainDriver someAddresses with snakeLength := 6 }

def tightInputs : Inputs :=
  .ofLists [.right, .right, .right, .down, .left, .up, .up, .up] [17, 16, 18, 16, 19, 16, 18, 15, 18, 14]

theorem tightInputs_off : RespawnsOffSnake tightDriver tightInputs fun _ => 0 :=
  respawnsOffSnake_of_check 8 (by decide +kernel) (by decide +kernel)

theorem frames_visible_iff_tight :
    (∀ s ∈ (snakePlay tightDriver tightInputs (fun _ => 0) 8).state.shown, Visible tightDriver s) ↔
      tightDriver.snakeColor = tightDriver.backgroundColor ∨ ∀ k < 8, ∀ m,
        snakePlay tightDriver tightInputs (fun _ => 0) k = .running m →
          ErasesNoSegment tightDriver tightInputs m.toState :=
  frames_visible_iff (by decide) (by decide) (by decide) (Inputs.ofLists_within (by decide) (by decide))
    tightInputs_off 8

/-- In the seventh frame the segment behind the head, at (18,16), is background. -/
theorem tight_segment_erased :
    Res tightDriver ∧ 2 ≤ tightDriver.snakeLength.toNat ∧ tightDriver.snakeLength.toNat ≤ 33 ∧
      tightInputs.Within 1 30 ∧ RespawnsOffSnake tightDriver tightInputs (fun _ => 0) ∧
      ¬ ∀ s ∈ (snakePlay tightDriver tightInputs (fun _ => 0) 7).state.shown, Visible tightDriver s := by
  refine ⟨by decide, by decide, by decide, Inputs.ofLists_within (by decide) (by decide), tightInputs_off,
    fun hv => ?_⟩
  have hgone : ∃ s ∈ (snakePlay tightDriver tightInputs (fun _ => 0) 7).state.shown, 1 < s.snake.length ∧
      1 < s.moves ∧ Tile tightDriver (s.snake.slot 1) (frameBufferBase + 147704) ∧
      s.mem (frameBufferBase + 147704) ≠ tightDriver.snakeColor := by
    decide +kernel
  obtain ⟨s, hs, hl, hm, ht, hc⟩ := hgone
  exact hc (hv s hs 1 hl hm _ ht)

/-! ## The food -/

/-- If the round eats and goes on, the slot it will erase is not where its draws put the food. -/
def ErasesNoFood (d : SnakeDriver) (inp : Inputs) (s : State) : Prop :=
  ¬ Bites inp s → Eats inp s → ¬ Wins s d →
    (drawAt inp s.draws ∉ nextHead inp s :: s.snake.live → drawAt inp s.draws ≠ s.snake.slot s.snake.length) ∧
    (drawAt inp s.draws ∈ nextHead inp s :: s.snake.live →
      drawAt inp (s.draws + 2) ≠ s.snake.slot s.snake.length)

theorem eatRound_food_ne_iff {m : Machine} (hl : m.snake.length ≤ 32) (p : Point) :
    (eatRound d inp m).currentFood ≠ p ↔
      (drawAt inp m.draws ∉ nextHead inp m.toState :: m.snake.live → drawAt inp m.draws ≠ p) ∧
      (drawAt inp m.draws ∈ nextHead inp m.toState :: m.snake.live → drawAt inp (m.draws + 2) ≠ p) := by
  rw [eatRound_currentFood d inp m hl, grownSnake_live inp hl]
  by_cases hit : drawAt inp m.draws ∈ nextHead inp m.toState :: m.snake.live
  · rw [if_pos hit]
    exact ⟨fun h => ⟨fun hn => absurd hit hn, fun _ => h⟩, fun h => h.2 hit⟩
  · rw [if_neg hit]
    exact ⟨fun h => ⟨fun _ => h, fun hp => absurd hp hit⟩, fun h => h.1 hit⟩

theorem run_food_off (h2 : 2 ≤ d.snakeLength.toNat) (h33 : d.snakeLength.toNat ≤ 33)
    (hfirst : drawAt inp 0 ≠ ⟨16, 16⟩) (hfood : RespawnsOffSnake d inp mem) :
    ∀ n m, snakePlay d inp mem n = .running m → m.currentFood ∉ m.snake.live := by
  refine Outcome.running_invariant (fun _ (m : Machine) => m.currentFood ∉ m.snake.live) ?_ ?_
  · intro m hm
    rw [startPlay_running hm, openGame_snake, openGame_currentFood]
    exact fun h => hfirst (List.mem_singleton.mp h)
  · intro n m m' hr h hs
    have hi := run_bodyInv h2 h33 n m hr
    have hb := hi.below
    rcases loopBody_running d inp m hs with ⟨_, he, _, rfl⟩ | ⟨_, he, rfl⟩
    · exact hfood n m _ hr he ((Outcome.run_succ_running hr).trans hs)
    · exact foodOff_walk (Or.inl h) hi (by omega) he

theorem walkRound_food {m : Machine} (hR : Res d) (hi : BodyInv d m.toState) (hl : m.snake.length ≤ 32)
    (hf : OnBoard m.currentFood) (he : ¬ Eats inp m.toState) (hoff : m.currentFood ∉ m.snake.live)
    (h : Shows (Tile d) m.mem m.currentFood d.foodColor) :
    Shows (Tile d) (walkRound d inp m).mem (walkRound d inp m).currentFood d.foodColor := by
  obtain ⟨mem', herase, hhead⟩ := walkRound_painted d inp m
  have hpos := hi.pos
  rw [movedSnake_slot_length inp hpos hl] at herase
  rw [walkRound_currentFood]
  refine (h.frame herase (tile_disjoint hR hf (hi.onBoard _ (by omega)) fun heq => hoff ?_)).frame hhead
    (tile_disjoint hR hf hi.nextHead_onBoard fun heq => he heq.symm)
  exact (Snake.mem_live (by omega) _).mpr ⟨_, by omega, heq.symm⟩

/-- **When the food is visible in all frames.** -/
theorem frames_food_iff (hR : Res d) (h2 : 2 ≤ d.snakeLength.toNat) (h33 : d.snakeLength.toNat ≤ 33)
    (hin : inp.Within 1 30) (hfirst : drawAt inp 0 ≠ ⟨16, 16⟩) (hfood : RespawnsOffSnake d inp mem) (n : Nat) :
    (∀ s ∈ (snakePlay d inp mem n).state.shown, Shows (Tile d) s.mem s.currentFood d.foodColor) ↔
      d.foodColor = d.backgroundColor ∨
        ∀ k < n, ∀ m, snakePlay d inp mem k = .running m → ErasesNoFood d inp m.toState := by
  refine Iff.trans (frames_iff (fun s => Shows (Tile d) s.mem s.currentFood d.foodColor)
    (fun s => d.foodColor = d.backgroundColor ∨ ErasesNoFood d inp s) ?_ ?_ ?_ n) ?_
  · obtain ⟨_, _, hp⟩ := openGame_painted d inp mem
    exact shows_painted hp
  · intro k m m' hr h hs
    obtain ⟨g, hsim⟩ := run_sim h2 h33 hfood hr
    have hb := hsim.inv.below
    rcases loopBody_running d inp m hs with ⟨h₁, h₂, h₃, rfl⟩ | ⟨_, h₂, rfl⟩
    · have hgrown := hsim.inv.length_of_not_wins h₃
      rw [eatRound_food_iff hR hsim (by omega) hin
        (hfood k m _ hr h₂ ((Outcome.run_succ_running hr).trans hs)), eatRound_food_ne_iff (by omega)]
      simp only [ErasesNoFood, h₁, h₂, h₃, not_false_eq_true, forall_const]
    · refine iff_of_true ?_ (Or.inr fun _ he => absurd he h₂)
      exact walkRound_food hR hsim.inv (by omega) (run_drawn hin h2 h33 k m hr).food.onBoard h₂
        (run_food_off h2 h33 hfirst hfood k m hr) h
  · intro m _ m' hs
    exact Or.inr fun hb he hw => absurd (wins_of_returned hs hb he) hw
  · by_cases hc : d.foodColor = d.backgroundColor <;> simp only [hc, true_or, false_or, implies_true]

theorem frames_food_iff_return :
    (∀ s ∈ (snakePlay shortDriver returnInputs (fun _ => 0) 6).state.shown,
        Shows (Tile shortDriver) s.mem s.currentFood shortDriver.foodColor) ↔
      shortDriver.foodColor = shortDriver.backgroundColor ∨ ∀ k < 6, ∀ m,
        snakePlay shortDriver returnInputs (fun _ => 0) k = .running m →
          ErasesNoFood shortDriver returnInputs m.toState :=
  frames_food_iff (by decide) (by decide) (by decide) (Inputs.ofLists_within (by decide) (by decide))
    (by decide) returnInputs_off 6

/-- In the second frame the new food, at (16,16), is background. -/
theorem return_food_erased :
    Res shortDriver ∧ 2 ≤ shortDriver.snakeLength.toNat ∧ shortDriver.snakeLength.toNat ≤ 33 ∧
      returnInputs.Within 1 30 ∧ drawAt returnInputs 0 ≠ ⟨16, 16⟩ ∧
      RespawnsOffSnake shortDriver returnInputs (fun _ => 0) ∧
      ¬ ∀ s ∈ (snakePlay shortDriver returnInputs (fun _ => 0) 2).state.shown,
        Shows (Tile shortDriver) s.mem s.currentFood shortDriver.foodColor := by
  refine ⟨by decide, by decide, by decide, Inputs.ofLists_within (by decide) (by decide), by decide,
    returnInputs_off, fun hv => ?_⟩
  have hgone : ∃ s ∈ (snakePlay shortDriver returnInputs (fun _ => 0) 2).state.shown,
      Tile shortDriver s.currentFood (frameBufferBase + 131320) ∧
        s.mem (frameBufferBase + 131320) ≠ shortDriver.foodColor := by
    decide +kernel
  obtain ⟨s, hs, ht, hc⟩ := hgone
  exact hc (hv s hs _ ht)

end

end NiosSnake
