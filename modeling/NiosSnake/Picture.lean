import NiosSnake.Delay
import NiosSnake.DualPort
import NiosSnake.MainMemory
import NiosSnake.WordOrder

/-!
# The picture

From the game to the colours that leave the chip. The words of the frame buffer are
uniform, so the byte order of the display is none; what is left is that a pixel shows
the byte one word before its own, and the first four pixels the words at the end of
the buffer. The squares on the screen lie half a square to the left of where the game
puts them and one word to the right.
-/

namespace NiosSnake

open ByteMemory Paint

/-- The pixel at row `r` and column `c` belongs to the square of `p` as the screen shows it. A square
may run over into the rows above or below. -/
def Square (p : Point) (r c : Nat) : Prop :=
  ∃ i < 16, ∃ j < 16, 512 * r + c + 4 = 512 * (16 * p.x.toNat + i) + (16 * p.y.toNat + j)

instance (p : Point) (r c : Nat) : Decidable (Square p r c) := inferInstanceAs (Decidable (∃ i < 16, _))

def pixelByte (r c : Nat) : U32 := frameBufferBase + BitVec.ofNat 32 (512 * r + c - 4)

/-- The byte that a pixel shows. The first four have no word before their own: two show the last word of the
buffer and two the one behind it, and in the first frame all four show the first word. -/
def seenByte (n r c : Nat) : U32 :=
  if 4 ≤ 512 * r + c then pixelByte r c
  else frameBufferBase + BitVec.ofNat 32 (4 * (if c < 2 then frameBase n - 1 else frameBase n) + (3 - c))

section
variable (cb : CallbackAddresses)

theorem mainDriver_words : WordDriver (mainDriver cb) where
  pos := show 0 < 512 by decide
  whole := show 256 ∣ 512 by decide
  le := show 512 ≤ 32768 by decide
  aligned := show 4 ∣ 524288 by decide

section
variable {r c : Nat} (hr : r ≤ 511) (hc : c ≤ 511)
include hr hc

theorem pixelByte_offset : offset (mainDriver cb) (pixelByte r c) = 512 * r + c - 4 :=
  offset_add (mainDriver cb) (show 512 * r + c - 4 < 2 ^ 32 by omega)

theorem pixelByte_inBuffer : offset (mainDriver cb) (pixelByte r c) < bufferSize (mainDriver cb) := by
  rw [pixelByte_offset cb hr hc, bufferSize, mainDriver_resolution]
  omega

theorem tile_pixelByte {p : Point} (hp : OnBoard p) (hfirst : 4 ≤ 512 * r + c) :
    Tile (mainDriver cb) p (pixelByte r c) ↔ Square p r c := by
  rw [tile_onBoard (mainDriver_res cb) hp, pixelByte_offset cb hr hc]
  simp only [mainDriver_tileSize, rowOffset, mainDriver_resolution]
  refine exists_congr fun i => and_congr_right fun hi => exists_congr fun j => and_congr_right fun hj => ?_
  obtain ⟨hx, _, hy, _⟩ := hp
  omega

end

end

/-! ## What the game leaves in the buffer -/

section
variable {d : SnakeDriver} {inp : Inputs} {mem : ByteMemory 32}

theorem returned_endGame (hcall : d.Callable) : ∀ n message m,
    snakePlay d inp mem n = .returned message m → ∃ m₀, m = endGame d m₀ := by
  intro n
  induction n with
  | zero =>
    intro message m h
    cases (startPlay_callable hcall).symm.trans h
  | succ n ih =>
    intro message m h
    cases hn : snakePlay d inp mem n with
    | running m₀ =>
      have hround := (Outcome.run_succ_running hn).symm.trans h
      rcases loopBody_cases d inp m₀ with ⟨_, hb⟩ | ⟨_, _, _, hb⟩ | ⟨_, _, _, hb⟩ | ⟨_, _, hb⟩ <;>
        cases hb.symm.trans hround
      · exact ⟨_, rfl⟩
      · exact ⟨_, rfl⟩
    | returned message' m' =>
      exact ih message m (hn.trans ((Outcome.run_succ_returned hn).symm.trans h))

theorem endGame_letters (hR : Res d) (m : Machine) {a : U32} (ha : offset d a < bufferSize d) :
    (Letters d a → (endGame d m).mem a = d.snakeColor) ∧ (¬ Letters d a → (endGame d m).mem a = d.backgroundColor) := by
  have hletters := drawGameOver_painted d m a
  refine ⟨hletters.1, fun hl => (hletters.2 hl).trans ?_⟩
  exact (fillBuffer_painted d d.backgroundColor m a).1 ((fill_within hR a).mpr ha)

theorem run_head (h2 : 2 ≤ d.snakeLength.toNat) (h33 : d.snakeLength.toNat ≤ 33) : ∀ n m,
    snakePlay d inp mem n = .running m → 1 ≤ n → Shows (Tile d) m.mem (m.snake.slot 0) d.snakeColor := by
  refine Outcome.running_invariant
    (fun n (m : Machine) => 1 ≤ n → Shows (Tile d) m.mem (m.snake.slot 0) d.snakeColor) ?_ ?_
  · exact fun _ _ h => absurd h (Nat.not_succ_le_zero 0)
  · intro n m m' hrun _ hs _
    have hb := (run_bodyInv h2 h33 n m hrun).below
    rcases loopBody_running d inp m hs with ⟨_, _, _, rfl⟩ | ⟨_, _, rfl⟩
    · obtain ⟨_, _, _, _, _, _, hhead⟩ := eatRound_painted d inp m (by omega)
      rw [eatRound_snake d inp m (by omega), show (grownSnake inp m.toState).slot 0 = _ from movedSnake_slot_zero ..]
      exact shows_painted hhead
    · obtain ⟨_, _, hhead⟩ := walkRound_painted d inp m
      rw [walkRound_snake, movedSnake_slot_zero]
      exact shows_painted hhead

theorem run_words (hd : WordDriver d) (hcall : d.Callable) (n : Nat) :
    WordsUniform d (snakePlay d inp mem n).state.mem := by
  refine Outcome.state_invariant (fun m : Machine => WordsUniform d m.mem) ?_ (fun k m hr _ => ?_) n
  · rw [startPlay_callable hcall]
    exact (openGame_uniform hd inp mem).mem
  · exact (loopBody_uniform hd (run_uniform hd k m hr) inp).mem

end

/-! ## What the screen shows -/

theorem shownByte_uniform {cb : CallbackAddresses} {mem : ByteMemory 32} (h : WordsUniform (mainDriver cb) mem)
    {base r c : Nat} (hr : r ≤ 511) (hc : c ≤ 511) (hfirst : 4 ≤ 512 * r + c) :
    mem (frameBufferBase + BitVec.ofNat 32 (DualPort.shownByte base r c)) = mem (pixelByte r c) := by
  have hsize : bufferSize (mainDriver cb) = 512 * 512 := by rw [bufferSize, mainDriver_resolution]
  have hbyte : ∀ k < 4, mem (frameBufferBase + BitVec.ofNat 32 (4 * (128 * r + c / 4 - 1) + k)) =
      mem (frameBufferBase + BitVec.ofNat 32 (4 * (128 * r + c / 4 - 1))) := by
    intro k hk
    rw [BitVec.ofNat_add, ← BitVec.add_assoc]
    exact h _ (Nat.dvd_mul_right ..) (by omega) k hk
  rw [DualPort.shownByte, shownWord, if_neg (by omega), hbyte _ (by omega), pixelByte,
    show 512 * r + c - 4 = 4 * (128 * r + c / 4 - 1) + c % 4 by omega, hbyte _ (by omega)]

theorem shownByte_seen {cb : CallbackAddresses} {mem : ByteMemory 32} (h : WordsUniform (mainDriver cb) mem)
    {n r c : Nat} (hr : r ≤ 511) (hc : c ≤ 511) :
    mem (frameBufferBase + BitVec.ofNat 32 (DualPort.shownByte (frameBase n) r c)) = mem (seenByte n r c) := by
  by_cases hfirst : 4 ≤ 512 * r + c
  · rw [shownByte_uniform h hr hc hfirst, seenByte, if_pos hfirst]
  · have hword : shownWord (frameBase n) r c = if c < 2 then frameBase n - 1 else frameBase n := if_pos (by omega)
    rw [DualPort.shownByte, hword, seenByte, if_neg hfirst, Nat.mod_eq_of_lt (by omega)]

section
variable {cb : CallbackAddresses} {inp : Inputs} {mem : ByteMemory 32}

theorem mainLoop_words (n : Nat) :
    WordsUniform (mainDriver cb) (mainLoop (mainDriver cb) inp mem n).game.state.mem := by
  have hgames : ∃ mem' j, (mainLoop (mainDriver cb) inp mem n).game =
      snakePlay (mainDriver cb) ((mainLoop (mainDriver cb) inp mem n).inputs inp) mem' j := mainLoop_game n
  obtain ⟨mem', j, hgame⟩ := hgames
  rw [hgame]
  exact run_words (mainDriver_words cb) (mainDriver_callable cb) j

theorem game_byte (hin : inp.Within 1 30) (N : Nat) {r c : Nat} (hr : r ≤ 511) (hc : c ≤ 511)
    (hfirst : 4 ≤ 512 * r + c) :
    (∀ m, (mainLoop (mainDriver cb) inp mem N).game = .running m →
      (1 ≤ m.moves → Square (m.snake.slot 0) r c → m.mem (pixelByte r c) = 0xFF) ∧
      ((∀ i < m.snake.length, ¬ Square (m.snake.slot i) r c) → ¬ Square m.currentFood r c →
        m.mem (pixelByte r c) = 0)) ∧
    (∀ message m, (mainLoop (mainDriver cb) inp mem N).game = .returned message m →
      ((∃ i < 96, Square (gameOverPoint i) r c) → m.mem (pixelByte r c) = 0xFF) ∧
      ((∀ i < 96, ¬ Square (gameOverPoint i) r c) → m.mem (pixelByte r c) = 0)) := by
  have hbuffer := pixelByte_inBuffer cb hr hc
  refine ⟨fun m hg => ?_, fun message m hg => ?_⟩
  · obtain ⟨mem', hrun⟩ := mainLoop_round hg
    have hi := run_bodyInv (by simp) (by simp) _ m hrun
    have hdrawn := run_drawn (hin.drop _ _) (by simp) (by simp) _ m hrun
    refine ⟨fun hmoves hhead => ?_, fun hlive hfood => ?_⟩
    · exact run_head (by simp) (by simp) _ m hrun hmoves (pixelByte r c)
        ((tile_pixelByte cb hr hc (hi.onBoard 0 hi.pos) hfirst).mpr hhead)
    · exact run_clean (mainDriver_res cb) (by simp) (by simp) _ m hrun (pixelByte r c) hbuffer
        (fun i hil ht => hlive i hil ((tile_pixelByte cb hr hc (hi.onBoard i hil) hfirst).mp ht))
        (fun ht => hfood ((tile_pixelByte cb hr hc hdrawn.food.onBoard hfirst).mp ht))
  · have hgames : ∃ mem' j, (mainLoop (mainDriver cb) inp mem N).game =
        snakePlay (mainDriver cb) ((mainLoop (mainDriver cb) inp mem N).inputs inp) mem' j := mainLoop_game N
    obtain ⟨mem', j, hgame⟩ := hgames
    obtain ⟨m₀, rfl⟩ := returned_endGame (mainDriver_callable cb) j message m (hgame.symm.trans hg)
    have hletters : Letters (mainDriver cb) (pixelByte r c) ↔ ∃ i < 96, Square (gameOverPoint i) r c :=
      exists_congr fun i => and_congr_right fun hi =>
        tile_pixelByte cb hr hc (gameOverPoint_foodCell i hi).onBoard hfirst
    have hend := endGame_letters (mainDriver_res cb) m₀ hbuffer
    refine ⟨fun hl => hend.1 (hletters.mpr hl), fun hl => hend.2 fun h => ?_⟩
    obtain ⟨i, hi, hsquare⟩ := hletters.mp h
    exact hl i hi hsquare

theorem game_shown (hin : inp.Within 1 30) {N n r c : Nat} (hr : r ≤ 511) (hc : c ≤ 511) {draw : DrawPixel}
    (hshows : draw.Shows ((mainLoop (mainDriver cb) inp mem N).game.state.mem (seenByte n r c)))
    (hfirst : 4 ≤ 512 * r + c) :
    (∀ m, (mainLoop (mainDriver cb) inp mem N).game = .running m →
      (1 ≤ m.moves → Square (m.snake.slot 0) r c → draw.Shows 0xFF) ∧
      ((∀ i < m.snake.length, ¬ Square (m.snake.slot i) r c) → ¬ Square m.currentFood r c → draw.Shows 0)) ∧
    (∀ message m, (mainLoop (mainDriver cb) inp mem N).game = .returned message m →
      ((∃ i < 96, Square (gameOverPoint i) r c) → draw.Shows 0xFF) ∧
      ((∀ i < 96, ¬ Square (gameOverPoint i) r c) → draw.Shows 0)) := by
  obtain ⟨hplaying, hover⟩ := @game_byte cb inp mem hin N r c hr hc hfirst
  rw [seenByte, if_pos hfirst] at hshows
  refine ⟨fun m hg => ?_, fun message m hg => ?_⟩
  · obtain ⟨hhead, hclean⟩ := hplaying m hg
    rw [hg, Outcome.state_running] at hshows
    exact ⟨fun hmoves hs => hhead hmoves hs ▸ hshows, fun hlive hfood => hclean hlive hfood ▸ hshows⟩
  · obtain ⟨hletters, hrest⟩ := hover message m hg
    rw [hg, Outcome.state_returned] at hshows
    exact ⟨fun hl => hletters hl ▸ hshows, fun hl => hrest hl ▸ hshows⟩

variable (hin : inp.Within 1 30) {N : Nat} {memset : Write → List Store}
variable (hmemset : ∀ w ∈ (mainLoop (mainDriver cb) inp mem N).log, Fills w (memset w))
variable {ram : BitVec 17 → U32} (hram : HoldsBytes ram mem) {stores : Nat → Option Store} {n : Nat}
variable (hstores : sentStores .frameBuffer stores (n - 1) = storesOf memset (mainLoop (mainDriver cb) inp mem N).log)
variable {r c : Nat} (hr : r ≤ 511) (hc : c ≤ 511) (hpixel : rasterRow n = 256 + r ∧ rasterColumn n = 320 + c)
include hin hmemset hram hstores hr hc hpixel

theorem main_pixel : (DualPort.run ram stores (n + 1)).display.draw.Shows
    ((mainLoop (mainDriver cb) inp mem N).game.state.mem (seenByte n r c)) := by
  have hram' : HoldsBytes (DualPort.run ram stores (n - 1)).ram
      (mainLoop (mainDriver cb) inp mem N).game.state.mem := by
    rw [DualPort.run_ram_sent, hstores]
    exact mainLoop_holds hin N hmemset hram
  have hshows := DualPort.run_pixel hram' hr hc hpixel
  rwa [shownByte_seen (mainLoop_words N) hr hc] at hshows

/-- **From the game to the screen.** When the frame buffer has been sent the stores of `N` rounds, on whatever
clocks and whatever else the processor has stored, a pixel shows the game's byte one word before its own. But
for the first four pixels, the head's square is white during a game from the first move on, and all is black
but the squares of the snake and of the food; after a game the letters are white and the rest is black. -/
theorem main_picture :
    (DualPort.run ram stores (n + 1)).display.draw.Shows
        ((mainLoop (mainDriver cb) inp mem N).game.state.mem (seenByte n r c)) ∧
      (4 ≤ 512 * r + c →
        (∀ m, (mainLoop (mainDriver cb) inp mem N).game = .running m →
          (1 ≤ m.moves → Square (m.snake.slot 0) r c → (DualPort.run ram stores (n + 1)).display.draw.Shows 0xFF) ∧
          ((∀ i < m.snake.length, ¬ Square (m.snake.slot i) r c) → ¬ Square m.currentFood r c →
            (DualPort.run ram stores (n + 1)).display.draw.Shows 0)) ∧
        (∀ message m, (mainLoop (mainDriver cb) inp mem N).game = .returned message m →
          ((∃ i < 96, Square (gameOverPoint i) r c) → (DualPort.run ram stores (n + 1)).display.draw.Shows 0xFF) ∧
          ((∀ i < 96, ¬ Square (gameOverPoint i) r c) →
            (DualPort.run ram stores (n + 1)).display.draw.Shows 0))) := by
  have hshows := main_pixel hin hmemset hram hstores hr hc hpixel
  exact ⟨hshows, game_shown hin hr hc hshows⟩

end

/-! ## While the game waits -/

/-- The raster comes to every pixel once in a frame. -/
theorem raster_visits (t : Nat) {r c : Nat} (hr : r ≤ 511) (hc : c ≤ 511) :
    ∃ n, t < n ∧ n ≤ t + 1799408 ∧ rasterRow n = 256 + r ∧ rasterColumn n = 320 + c := by
  obtain ⟨p, hp⟩ : ∃ p, p = (256 + r) * 1688 + 320 + c := ⟨_, rfl⟩
  refine ⟨t + 1 + (p + 1799408 - (t + 1) % 1799408) % 1799408, by omega, by omega, ?_⟩
  obtain ⟨q, hq⟩ : ∃ q, t + 1 + (p + 1799408 - (t + 1) % 1799408) % 1799408 = 1799408 * q + p :=
    ⟨(t + 1 + (p + 1799408 - (t + 1) % 1799408) % 1799408) / 1799408, by omega⟩
  rw [hq, hp, rasterRow, rasterColumn]
  omega

/-- **Every picture is seen.** While the game waits after `N` rounds, in `delay` with two clocks or more for
each round of its countdown, and nothing is stored to the frame buffer meanwhile, every pixel is drawn and
shows its byte of what the game has left. -/
theorem main_picture_seen {cb : CallbackAddresses} {inp : Inputs} {mem : ByteMemory 32} (hin : inp.Within 1 30)
    {N : Nat} {memset : Write → List Store}
    (hmemset : ∀ w ∈ (mainLoop (mainDriver cb) inp mem N).log, Fills w (memset w))
    {ram : BitVec 17 → U32} (hram : HoldsBytes ram mem) {stores : Nat → Option Store} {t W : Nat}
    (hstores : sentStores .frameBuffer stores t = storesOf memset (mainLoop (mainDriver cb) inp mem N).log)
    (hquiet : ∀ k, t ≤ k → k < t + W → ∀ s, stores k = some s → ¬ Routed s.bus.dAddress .frameBuffer)
    (hwait : 2 * delay 200 ≤ W) {r c : Nat} (hr : r ≤ 511) (hc : c ≤ 511) :
    ∃ n, t < n ∧ n ≤ t + W ∧ rasterRow n = 256 + r ∧ rasterColumn n = 320 + c ∧
      (DualPort.run ram stores (n + 1)).display.draw.Shows
        ((mainLoop (mainDriver cb) inp mem N).game.state.mem (seenByte n r c)) := by
  have hrounds : delay 200 = 900000 := delay_eq (by decide) (by decide)
  obtain ⟨n, hlo, hhi, hpixel⟩ := raster_visits t hr hc
  obtain ⟨k, rfl⟩ : ∃ k, n = t + k + 1 := ⟨n - t - 1, by omega⟩
  have hsent := sentStores_quiet hquiet k (by omega)
  rw [hstores] at hsent
  exact ⟨t + k + 1, hlo, by omega, hpixel.1, hpixel.2, main_pixel hin hmemset hram hsent hr hc hpixel⟩

/-! ## Stores one clock after the other -/

theorem storesOf_length (writes : List Write) :
    (storesOf byteStores writes).length = (writes.reverse.map Write.count).sum := by
  simp [storesOf, byteStores, List.length_flatMap]

theorem meal_head : ∃ m, (mainLoop (mainDriver someAddresses) mealInputs (fun _ => 0) 1).game = .running m ∧
    1 ≤ m.moves ∧ Square (m.snake.slot 0) 272 252 := by
  have hmoves : (mainLoop (mainDriver someAddresses) mealInputs (fun _ => 0) 1).game.state.moves = 1 := by
    decide +kernel
  have hhead : Square ((mainLoop (mainDriver someAddresses) mealInputs (fun _ => 0) 1).game.state.snake.slot 0)
      272 252 := by decide +kernel
  have hrunning : (mainLoop (mainDriver someAddresses) mealInputs (fun _ => 0) 1).game.isReturned = false := by
    decide +kernel
  cases hg : (mainLoop (mainDriver someAddresses) mealInputs (fun _ => 0) 1).game with
  | running m =>
    rw [hg] at hmoves hhead
    exact ⟨m, rfl, Nat.le_of_eq hmoves.symm, hhead⟩
  | returned message m =>
    rw [hg] at hrunning
    cases hrunning

/-- After the first move the second frame shows the head's square white. -/
theorem main_picture_meal :
    let stores := storesOf byteStores (mainLoop (mainDriver someAddresses) mealInputs (fun _ => 0) 1).log
    (DualPort.run (fun _ => 0) (fun k => stores[k]?) (pixelEdge 1 272 252 + 1)).display.draw.Shows 0xFF := by
  intro stores
  have hin : mealInputs.Within 1 30 := Inputs.ofLists_within (by decide) (by decide)
  have hlength : stores.length ≤ pixelEdge 1 272 252 - 1 := by
    rw [storesOf_length]
    decide +kernel
  have hsent := sentStores_get (fun s hs => (storesOf_near hin 1 meal_fills s hs).routed.1) hlength
  obtain ⟨_, hgame⟩ := main_picture hin meal_fills blank_holds hsent
    (show 272 ≤ 511 by decide) (show 252 ≤ 511 by decide) (pixelEdge_position 1 (by decide) (by decide))
  obtain ⟨m, hg, hmoves, hhead⟩ := meal_head
  exact ((hgame (by decide)).1 m hg).1 hmoves hhead

theorem main_picture_seen_meal :
    let stores := storesOf byteStores (mainLoop (mainDriver someAddresses) mealInputs (fun _ => 0) 1).log
    ∃ n, stores.length < n ∧ n ≤ stores.length + 2 * delay 200 ∧ rasterRow n = 256 + 272 ∧
      rasterColumn n = 320 + 252 ∧
      (DualPort.run (fun _ => 0) (fun k => stores[k]?) (n + 1)).display.draw.Shows
        ((mainLoop (mainDriver someAddresses) mealInputs (fun _ => 0) 1).game.state.mem (seenByte n 272 252)) := by
  intro stores
  have hin : mealInputs.Within 1 30 := Inputs.ofLists_within (by decide) (by decide)
  have hsent := sentStores_get (fun s hs => (storesOf_near hin 1 meal_fills s hs).routed.1) (Nat.le_refl stores.length)
  have hquiet : ∀ k, stores.length ≤ k → k < stores.length + 2 * delay 200 → ∀ s, stores[k]? = some s →
      ¬ Routed s.bus.dAddress .frameBuffer := by
    intro k hk _ s hs
    rw [List.getElem?_eq_none hk] at hs
    cases hs
  exact main_picture_seen hin meal_fills blank_holds hsent hquiet (Nat.le_refl _) (by decide) (by decide)

end NiosSnake
