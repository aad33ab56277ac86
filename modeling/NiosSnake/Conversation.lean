import NiosSnake.Calls

/-!
# The conversation with the driver

What the driver sees of a game is a sequence of callbacks. An automaton says which
callback may follow, and with which arguments: two random numbers to begin with;
then, round by round, a direction, two or four random numbers after a meal, the frame,
the score and a short wait; and a long wait at the end. The score it expects counts the
meals, so the automaton knows the length of the snake from the callbacks alone.
-/

namespace NiosSnake

inductive Phase where
  | opening (drawn : Nat)
  | ready (score : Nat)
  | moved (score : Nat)
  | placing (drawn score : Nat)
  | shown (score : Nat)
  | scored (score : Nat)
  | finished
  deriving DecidableEq

def Phase.next (d : SnakeDriver) : Phase → Callback → Option Phase
  | opening drawn, .randomNumberCb _ => if drawn = 0 then some (opening 1) else some (ready 1)
  | ready score, .readDirectionCb _ => some (moved score)
  | moved score, .displayFrameCb buffer resolution =>
    if buffer = d.frameBuffer ∧ resolution = d.resolution then some (shown score) else none
  | moved score, .randomNumberCb _ => some (placing 1 score)
  | moved _, .delayFunctionCb msec => if msec = 15000 then some finished else none
  | placing drawn score, .randomNumberCb _ => if drawn < 4 then some (placing (drawn + 1) score) else none
  | placing drawn score, .displayFrameCb buffer resolution =>
    if (drawn = 2 ∨ drawn = 4) ∧ buffer = d.frameBuffer ∧ resolution = d.resolution then some (shown (score + 1))
    else none
  | shown score, .displayScoreCb v => if v.toNat = score then some (scored score) else none
  | scored score, .delayFunctionCb msec => if msec = 200 then some (ready score) else none
  | _, _ => none

/-- The phase after the callbacks of a log, newest first; none if one of them may not come. -/
def conversation (d : SnakeDriver) (calls : List Call) : Option Phase :=
  calls.foldr (fun c phase => phase.bind fun p => p.next d c.callback) (some (.opening 0))

section
variable {d : SnakeDriver} {inp : Inputs} {mem : ByteMemory 32}

theorem conversation_cons {c : Call} {calls : List Call} {p : Phase} (h : conversation d calls = some p) :
    conversation d (c :: calls) = p.next d c.callback := by
  rw [conversation, List.foldr_cons, ← conversation, h]
  rfl

theorem conversation_randoms {score : Nat} : ∀ (new : List Call) {calls : List Call} {k : Nat},
    (∀ c ∈ new, ∃ v, c.callback = .randomNumberCb v) → k + new.length ≤ 4 →
    conversation d calls = some (.placing k score) →
    conversation d (new ++ calls) = some (.placing (k + new.length) score)
  | [], _, _, _, _, h => h
  | c :: new, calls, k, hnew, hk, h => by
    rw [List.length_cons] at hk
    obtain ⟨v, hv⟩ := hnew c List.mem_cons_self
    have hrest := conversation_randoms new (fun c hc => hnew c (List.mem_cons_of_mem _ hc)) (by omega) h
    rw [List.cons_append, conversation_cons hrest, hv, Phase.next, if_pos (by omega)]
    rfl

/-! ## The parts of a round -/

theorem openGame_conversation : conversation d (openGame d inp mem).calls = some (.ready 1) := by
  obtain ⟨s, s', hcalls⟩ := openGame_calls d inp mem
  rw [hcalls]
  rfl

section
variable {m : Machine} {score : Nat}

variable (inp) in
theorem afterMove_conversation (h : conversation d m.calls = some (.ready score)) :
    conversation d (afterMove inp m).calls = some (.moved score) := by
  rw [afterMove_calls, conversation_cons h]
  rfl

theorem respawn_randoms (d : SnakeDriver) (inp : Inputs) (m : Machine) : ∃ new,
    (respawn d inp m).calls = new ++ m.calls ∧ (new.length = 2 ∨ new.length = 4) ∧
      ∀ c ∈ new, ∃ v, c.callback = .randomNumberCb v := by
  obtain ⟨new, hnew, hlen, h⟩ := drawFood_calls inp m
  unfold respawn
  by_cases hs : OnScanned m.snake (drawAt inp m.draws)
  · obtain ⟨new', hnew', hlen', h'⟩ := drawFood_calls inp (drawFood inp m)
    rw [placement_hit inp m hs]
    refine ⟨new' ++ new, by simp [hnew', hnew], Or.inr (by simp [hlen, hlen']), ?_⟩
    intro c hc
    rcases List.mem_append.mp hc with hc | hc
    · exact (h' c hc).1
    · exact (h c hc).1
  · rw [placement_miss inp m hs]
    exact ⟨new, by simp [hnew], Or.inl hlen, fun c hc => (h c hc).1⟩

variable (inp) in
theorem respawn_conversation (h : conversation d m.calls = some (.moved score)) :
    ∃ drawn, (drawn = 2 ∨ drawn = 4) ∧
      conversation d (respawn d inp m).calls = some (.placing drawn score) := by
  obtain ⟨new, hnew, hlen, hrandom⟩ := respawn_randoms d inp m
  refine ⟨new.length, hlen, ?_⟩
  -- the oldest of the new calls leaves the phase `moved`
  obtain ⟨later, c, rfl⟩ : ∃ later c, new = later ++ [c] := by
    refine ⟨new.dropLast, new.getLast ?_, (List.dropLast_concat_getLast _).symm⟩
    rintro rfl
    simp at hlen
  obtain ⟨v, hv⟩ := hrandom c (by simp)
  have hfirst : conversation d (c :: m.calls) = some (.placing 1 score) := by
    rw [conversation_cons h, hv]
    rfl
  rw [List.length_append, List.length_singleton] at hlen ⊢
  have hlater := conversation_randoms later (fun c hc => hrandom c (List.mem_append_left _ hc)) (by omega) hfirst
  rw [hnew, List.append_assoc, List.singleton_append, hlater, Nat.add_comm]

theorem presentFrame_conversation (hl : m.snake.length < 256) {p : Phase} (h : conversation d m.calls = some p)
    (hp : p.next d (.displayFrameCb d.frameBuffer d.resolution) = some (.shown m.snake.length)) :
    conversation d (presentFrame d m).calls = some (.ready m.snake.length) := by
  have hscore : (BitVec.ofNat 8 m.snake.length).toNat = m.snake.length := by
    rw [BitVec.toNat_ofNat, Nat.mod_eq_of_lt hl]
  have hshown := conversation_cons (c := ⟨.displayFrameCb d.frameBuffer d.resolution, (presentFrame d m).toState⟩) h
  rw [hp] at hshown
  have hscored := conversation_cons
    (c := ⟨.displayScoreCb (BitVec.ofNat 8 m.snake.length), (presentFrame d m).toState⟩) hshown
  rw [Phase.next, if_pos hscore] at hscored
  rw [presentFrame_calls, conversation_cons hscored, Phase.next, if_pos rfl]

theorem endGame_conversation (h : conversation d m.calls = some (.moved score)) :
    conversation d (endGame d m).calls = some .finished := by
  rw [endGame_calls, conversation_cons h, Phase.next, if_pos rfl]

theorem loopBody_conversation (inp : Inputs) (hl : m.snake.length ≤ 254)
    (h : conversation d m.calls = some (.ready m.snake.length)) :
    (∀ m', loopBody d inp m = .running m' → conversation d m'.calls = some (.ready m'.snake.length)) ∧
      ∀ message m', loopBody d inp m = .returned message m' → conversation d m'.calls = some .finished := by
  have hmoved := afterMove_conversation inp h
  have hgrown : conversation d (grow d (afterMove inp m)).calls = some (.moved m.snake.length) := by
    rw [grow_calls]
    exact hmoved
  rcases loopBody_cases d inp m with ⟨_, hr⟩ | ⟨_, _, _, hr⟩ | ⟨_, _, _, hr⟩ | ⟨_, _, hr⟩ <;> rw [hr]
  · exact ⟨fun _ hs => (by cases hs), fun _ _ hs => by cases hs; exact endGame_conversation hmoved⟩
  · exact ⟨fun _ hs => (by cases hs), fun _ _ hs => by cases hs; exact endGame_conversation hgrown⟩
  · refine ⟨fun _ hs => ?_, fun _ _ hs => by cases hs⟩
    cases hs
    obtain ⟨drawn, hdrawn, hplaced⟩ := respawn_conversation inp hgrown
    have hlength : (respawn d inp (grow d (afterMove inp m))).snake.length = m.snake.length + 1 := by
      rw [respawn_snake, grow_afterMove_snake d inp m hl]
      rfl
    rw [eatRound, presentFrame_snake]
    refine presentFrame_conversation (by omega) hplaced ?_
    rw [Phase.next, if_pos ⟨hdrawn, rfl, rfl⟩, hlength]
  · refine ⟨fun _ hs => ?_, fun _ _ hs => by cases hs⟩
    cases hs
    have hlength : (afterMove inp m).snake.length = m.snake.length := by rw [afterMove_snake]; rfl
    rw [walkRound, presentFrame_snake]
    refine presentFrame_conversation (by omega) hmoved ?_
    rw [Phase.next, if_pos ⟨rfl, rfl⟩, hlength]

end

/-- **Every game keeps to the conversation.** After any number of rounds the automaton has accepted every
callback with its arguments; while the game goes on it waits for the next round and its score is the length
of the snake, and when the game has ended it is finished. -/
theorem snakePlay_conversation (hcall : d.Callable) (h2 : 2 ≤ d.snakeLength.toNat) (h33 : d.snakeLength.toNat ≤ 33)
    (n : Nat) :
    (∀ m, snakePlay d inp mem n = .running m → conversation d m.calls = some (.ready m.snake.length)) ∧
      ∀ message m, snakePlay d inp mem n = .returned message m → conversation d m.calls = some .finished := by
  induction n with
  | zero =>
    have hstart : snakePlay d inp mem 0 = .running (openGame d inp mem) := startPlay_callable hcall
    rw [hstart]
    refine ⟨fun _ hs => ?_, fun _ _ hs => by cases hs⟩
    cases hs
    rw [openGame_snake]
    exact openGame_conversation
  | succ n ih =>
    cases hn : snakePlay d inp mem n with
    | running m =>
      have hb := (run_bodyInv h2 h33 n m hn).below
      have hround : snakePlay d inp mem (n + 1) = loopBody d inp m := Outcome.run_succ_running hn
      rw [hround]
      exact loopBody_conversation inp (by omega) (ih.1 m hn)
    | returned message m =>
      have hround : snakePlay d inp mem (n + 1) = .returned message m := Outcome.run_succ_returned hn
      rw [hround, ← hn]
      exact ih

end

theorem snakePlay_conversation_return :
    (∀ m, snakePlay shortDriver returnInputs (fun _ => 0) 6 = .running m →
      conversation shortDriver m.calls = some (.ready m.snake.length)) ∧
    ∀ message m, snakePlay shortDriver returnInputs (fun _ => 0) 6 = .returned message m →
      conversation shortDriver m.calls = some .finished :=
  snakePlay_conversation (by decide) (by decide) (by decide) 6

end NiosSnake
