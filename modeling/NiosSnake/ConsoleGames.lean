import NiosSnake.MainLoop
import NiosSnake.Printing

/-!
# What `main` prints

`main` prints a line before each game and the message of the game after it. The FIFO holds
the text of one game and the line before the next: with no host to read it, `main` plays
two games and is then stuck in `printf`.
-/

namespace NiosSnake

def startText : String := "Starting snake...\n"

def chars (text : String) : List U8 := text.toList.map fun c => BitVec.ofNat 8 c.toNat

section
variable (d : SnakeDriver) (inp : Inputs) (mem : ByteMemory 32)

/-- What `main` prints before it gets to the `k`-th state of its loop. -/
def mainText : Nat → List U8
  | 0 => chars startText
  | k + 1 =>
    match (mainLoop d inp mem k).game with
    | .running _ => []
    | .returned message _ => chars message ++ chars startText

def gamesOver : Nat → Nat
  | 0 => 0
  | k + 1 => gamesOver k + if (mainLoop d inp mem k).game.isReturned then 1 else 0

end

section
variable {cb : CallbackAddresses} {inp : Inputs} {mem : ByteMemory 32}

theorem mainLoop_message {k : Nat} {message : String} {m : Machine}
    (h : (mainLoop (mainDriver cb) inp mem k).game = .returned message m) :
    message = lostMessage ∨ message = wonMessage := by
  cases k with
  | zero =>
    rw [mainLoop, startPlay_callable (mainDriver_callable cb)] at h
    cases h
  | succ k =>
    cases hg : (mainLoop (mainDriver cb) inp mem k).game with
    | running m' =>
      rw [mainLoop_running hg] at h
      rcases loopBody_cases (mainDriver cb) ((mainLoop (mainDriver cb) inp mem k).inputs inp) m' with
        ⟨_, hr⟩ | ⟨_, _, _, hr⟩ | ⟨_, _, _, hr⟩ | ⟨_, _, hr⟩ <;> simp only [hr] at h <;> cases h
      · exact .inl rfl
      · exact .inr rfl
    | returned message' m' =>
      rw [mainLoop_returned hg, startPlay_callable (mainDriver_callable cb)] at h
      cases h

theorem mainText_length (k : Nat) :
    (mainText (mainDriver cb) inp mem (k + 1)).length = 0 ∧
        gamesOver (mainDriver cb) inp mem (k + 1) = gamesOver (mainDriver cb) inp mem k ∨
      38 ≤ (mainText (mainDriver cb) inp mem (k + 1)).length ∧
        (mainText (mainDriver cb) inp mem (k + 1)).length ≤ 39 ∧
        gamesOver (mainDriver cb) inp mem (k + 1) = gamesOver (mainDriver cb) inp mem k + 1 := by
  have hstart : (chars startText).length = 18 := by decide +kernel
  have hlost : (chars lostMessage).length = 21 := by decide +kernel
  have hwon : (chars wonMessage).length = 20 := by decide +kernel
  cases hg : (mainLoop (mainDriver cb) inp mem k).game with
  | running m => exact .inl (by simp [mainText, gamesOver, hg, Outcome.isReturned])
  | returned message m =>
    right
    rcases mainLoop_message hg with rfl | rfl <;>
      simp [mainText, gamesOver, hg, Outcome.isReturned, hstart, hlost, hwon]

/-- The text before the `k`-th state is as long as the games before it are many. -/
theorem mainText_output : ∀ k,
    18 + 38 * gamesOver (mainDriver cb) inp mem k ≤ (Console.output (mainText (mainDriver cb) inp mem) k).length ∧
      (Console.output (mainText (mainDriver cb) inp mem) k).length ≤ 18 + 39 * gamesOver (mainDriver cb) inp mem k
  | 0 => by
    have hstart : (chars startText).length = 18 := by decide +kernel
    simp [Console.output, mainText, gamesOver, hstart]
  | k + 1 => by
    have hk := mainText_output k
    rw [Console.output, List.length_append]
    rcases mainText_length k with ⟨hlength, hgames⟩ | ⟨hle, hge, hgames⟩ <;> rw [hgames] <;> omega

end

namespace Console

theorem run_taken_nil {pieces : Nat → List U8} {e : Nat → ConsoleEvent} (hhost : ∀ n, (e n).host = false) :
    ∀ n, (run pieces e n).taken = []
  | 0 => rfl
  | n + 1 => by
    have htaken : (run pieces e (n + 1)).taken = (run pieces e n).takes (e n) := step_taken ..
    rw [htaken, takes, run_taken_nil hhost n, hhost n]
    rfl

end Console

section
variable {cb : CallbackAddresses} {inp : Inputs} {mem : ByteMemory 32} {e : Nat → ConsoleEvent}

/-- **Without a host two games are played**: `main` gets to a state of its loop exactly if at most one game is
over before it. It never gets past what it prints between the second game and the third. -/
theorem main_without_host (hfair : ∀ n, ∃ k, n ≤ k ∧ (e k).cpu = true) (hhost : ∀ n, (e n).host = false) (k : Nat) :
    (∃ n, k < (Console.run (mainText (mainDriver cb) inp mem) e n).piece) ↔
      gamesOver (mainDriver cb) inp mem k ≤ 1 := by
  obtain ⟨hle, hge⟩ : 18 + 38 * gamesOver (mainDriver cb) inp mem k ≤
        (Console.output (mainText (mainDriver cb) inp mem) k).length ∧
      (Console.output (mainText (mainDriver cb) inp mem) k).length ≤ 18 + 39 * gamesOver (mainDriver cb) inp mem k :=
    mainText_output k
  constructor
  · rintro ⟨n, hn⟩
    have hfull := Console.taken_of_piece hn
    rw [Console.run_taken_nil hhost, List.length_nil] at hfull
    omega
  · intro hgames
    have hroom : (Console.output (mainText (mainDriver cb) inp mem) k).length ≤
        64 + (Console.run (mainText (mainDriver cb) inp mem) e 0).taken.length := by
      rw [Console.run_taken_nil hhost, List.length_nil]
      omega
    exact Console.piece_of_taken hfair hroom

end

theorem main_without_host_meal :
    (∃ n, 1000 < (Console.run (mainText (mainDriver someAddresses) mealInputs (fun _ => 0))
        (fun _ => ⟨false, true, 0⟩) n).piece) ↔
      gamesOver (mainDriver someAddresses) mealInputs (fun _ => 0) 1000 ≤ 1 :=
  main_without_host (fun n => ⟨n, Nat.le_refl n, rfl⟩) (fun _ => rfl) 1000

end NiosSnake
