import NiosSnake.ButtonClock
import NiosSnake.Trail

/-!
# From a button to the snake

The pin of a button goes low, the port captures the edge, the handler gets to its three
accesses one by one, whenever it may, and the game reads the direction. A press that no
other press follows before the third access is the direction of the next move, unless it
would reverse the snake.
-/

namespace NiosSnake

namespace ButtonClock

def Falls (i : Nat → ButtonInput) (k : Fin 4) (j : Nat) : Prop :=
  (i j).inPort.getLsbD k.val = true ∧ (i (j + 1)).inPort.getLsbD k.val = false

def accesses (i : Nat → ButtonInput) (a n : Nat) : Nat := (List.range n).countP fun t => (i (a + t)).access

def Served (k : Fin 4) (b : Buttons) : Nat → Prop
  | 0 => b.register = press 0 k ∧ b.handler = .idle
  | 1 => b.edgeCapture = (press 0 k).setWidth 32 ∧ b.handler = .clear
  | 2 => b.register = 0 ∧ b.edgeCapture = (press 0 k).setWidth 32 ∧ b.handler = .switch
  | _ + 3 => b.Quiescent ∧ b.direction = buttonDirection k

theorem press_ne_zero : ∀ k : Fin 4, press 0 k ≠ 0 := by decide

theorem Served.handler {k : Fin 4} {b : Buttons} : ∀ {c : Nat}, Served k b c → Served k (b.step .handler) (c + 1)
  | 0, ⟨hr, hs⟩ => by
    have hne : b.register ≠ 0 := hr ▸ press_ne_zero k
    rw [Buttons.step_read hs hne, hr]
    exact ⟨rfl, rfl⟩
  | 1, ⟨he, hs⟩ => by
    rw [Buttons.step_clear hs]
    exact ⟨rfl, he, rfl⟩
  | 2, ⟨hr, he, hs⟩ => by
    rw [Buttons.step_switch hs, he, switchDirection_single]
    exact ⟨⟨rfl, hr⟩, rfl⟩
  | c + 3, ⟨⟨hs, hr⟩, hd⟩ => by
    rw [Buttons.step_waiting hs hr]
    exact ⟨⟨hs, hr⟩, hd⟩

/-! ## The pins -/

theorem request_inPort (s : ButtonClock) (i : ButtonInput) : (s.request i).inPort = i.inPort := by
  cases ha : i.access <;> cases hs : s.handler <;> simp only [request, ha, hs]

theorem step_pio (s : ButtonClock) (i : ButtonInput) : (s.step i).pio = s.pio.step (.posedge (s.request i)) := by
  cases ha : i.access <;> cases hs : s.handler <;> simp only [step, ha, hs]
  split <;> rfl

section
variable (start : ButtonClock) {i : Nat → ButtonInput}

theorem edgeDetect_iff (j : Nat) (k : Fin 4) :
    (run start i (j + 2)).pio.edgeDetect.getLsbD k.val = true ↔ Falls i k j := by
  have h₁ : (run start i (j + 2)).pio.d1DataIn = (i (j + 1)).inPort := by
    rw [run, step_pio]
    exact request_inPort _ _
  have h₂ : (run start i (j + 2)).pio.d2DataIn = (i j).inPort := by
    rw [run, step_pio, BtnPio.step]
    dsimp only
    rw [run, step_pio]
    exact request_inPort _ _
  rw [BtnPio.edgeDetect_getLsbD, h₁, h₂, Falls, and_comm]

theorem edgeDetect_none {j : Nat} (h : ∀ k, ¬ Falls i k j) : (run start i (j + 2)).pio.edgeDetect = 0 := by
  apply BitVec.eq_of_getLsbD_eq
  intro l hl
  have hnone := mt (edgeDetect_iff start j ⟨l, hl⟩).mp (h ⟨l, hl⟩)
  simpa using hnone

theorem edgeDetect_one {j : Nat} {k : Fin 4} (hk : Falls i k j) (h : ∀ l, Falls i l j → l = k) :
    (run start i (j + 2)).pio.edgeDetect = press 0 k := by
  have hall : ∀ l : Fin 4, (run start i (j + 2)).pio.edgeDetect.getLsbD l.val = (press 0 k).getLsbD l.val := by
    intro l
    have hzero : (0 : BitVec 4).getLsbD l.val = false := BitVec.getLsbD_zero
    rw [Bool.eq_iff_iff, edgeDetect_iff, press_getLsbD, hzero, or_iff_right Bool.false_ne_true]
    exact ⟨h l, fun hl => hl ▸ hk⟩
  apply BitVec.eq_of_getLsbD_eq
  exact fun l hl => hall ⟨l, hl⟩

/-! ## The accesses -/

variable {start} (hmask : start.pio.irqMask = irqMask)
include hmask

theorem buttons_succ {n : Nat} (h : (run start i n).pio.edgeDetect = 0) : (run start i (n + 1)).buttons =
    if (i n).access then (run start i n).buttons.step .handler else (run start i n).buttons := by
  have hnone : edgesOf 0#4 = [] := rfl
  rw [run, step_buttons (run_irqMask hmask i n)]
  cases ha : (i n).access <;> cases hs : (run start i n).handler <;> simp [events, ha, hs, h, hnone]

variable {j : Nat} {k : Fin 4} (hquiet : (run start i (j + 2)).buttons.Quiescent) (hfall : Falls i k j)
include hquiet hfall

theorem press_captured (honly : ∀ l, Falls i l j → l = k) : Served k (run start i (j + 3)).buttons 0 := by
  obtain ⟨hs, hr⟩ := hquiet
  have hwait := Buttons.step_waiting hs hr
  have hidle : (run start i (j + 2)).handler = .idle := hs
  rw [run, step_buttons (run_irqMask hmask i (j + 2))]
  cases ha : (i (j + 2)).access with
  | false =>
    simp only [events, ha, foldl_edges, edgeDetect_one start hfall honly, hr]
    exact ⟨BitVec.zero_or, hs⟩
  | true =>
    simp only [events, ha, hidle, List.foldl_cons, hwait, foldl_edges, edgeDetect_one start hfall honly, hr]
    exact ⟨BitVec.zero_or, hs⟩

theorem press_served {n : Nat} (honly : ∀ l t, j ≤ t → t + 2 < j + 3 + n → Falls i l t → l = k ∧ t = j) :
    Served k (run start i (j + 3 + n)).buttons (accesses i (j + 3) n) := by
  induction n with
  | zero => exact press_captured hmask hquiet hfall fun l hl => (honly l j (Nat.le_refl j) (by omega) hl).1
  | succ n ih =>
    have hserved := ih fun l t ht htn => honly l t ht (by omega)
    have hnone : (run start i (j + 3 + n)).pio.edgeDetect = 0 := by
      have hlast := edgeDetect_none start (i := i) (j := j + n + 1) fun l hl => by
        have := (honly l (j + n + 1) (by omega) (by omega) hl).2
        omega
      rwa [show j + n + 1 + 2 = j + 3 + n by omega] at hlast
    have hcount : accesses i (j + 3) (n + 1) =
        accesses i (j + 3) n + if (i (j + 3 + n)).access then 1 else 0 := by
      rw [accesses, List.range_succ, List.countP_append, accesses]
      cases ha : (i (j + 3 + n)).access <;> simp [ha]
    rw [show j + 3 + (n + 1) = j + 3 + n + 1 from rfl, buttons_succ hmask hnone, hcount]
    split
    · exact hserved.handler
    · exact hserved

end

/-! ## The game -/

/-- **From a button to the snake.** The pin of one button goes low, the handler has nothing left to do when
the edge reaches the port, and no other edge comes before it has made three accesses, whenever it makes them
and however long the button is held. Then it has nothing left to do again, and a game that reads the
direction moves the way of the button, or on if that would reverse the snake. -/
theorem press_turns {start : ButtonClock} {i : Nat → ButtonInput} (hmask : start.pio.irqMask = irqMask) {j n : Nat}
    {k : Fin 4} (hquiet : (run start i (j + 2)).buttons.Quiescent) (hfall : Falls i k j)
    (honly : ∀ l t, j ≤ t → t + 2 < j + 3 + n → Falls i l t → l = k ∧ t = j) (haccess : 3 ≤ accesses i (j + 3) n)
    {d : SnakeDriver} {inp : Inputs} {mem : ByteMemory 32} {r : Nat} {m : Machine}
    (hr : snakePlay d inp mem r = .running m) (hread : inp.readDirection r = (run start i (j + 3 + n)).direction) :
    (run start i (j + 3 + n)).buttons.Quiescent ∧
      (stateAfter d inp mem (r + 1)).snake.currentDirection =
        (if buttonDirection k = m.snake.currentDirection.opposite then m.snake.currentDirection
          else buttonDirection k) ∧
      headAfter d inp mem (r + 1) =
        moveLocation (stateAfter d inp mem (r + 1)).snake.currentDirection m.snake.currentLocation := by
  have hserved := press_served hmask hquiet hfall honly
  obtain ⟨c, hc⟩ : ∃ c, accesses i (j + 3) n = c + 3 := ⟨accesses i (j + 3) n - 3, by omega⟩
  rw [hc] at hserved
  obtain ⟨hdone, hdirection⟩ := hserved
  have hnow : (stateAfter d inp mem (r + 1)).snake.currentDirection = nextDirection inp m.toState := by
    rw [stateAfter_succ hr, loopBody_state_snake]
    rfl
  refine ⟨hdone, ?_, ?_⟩
  · have hread' : (run start i (j + 3 + n)).direction = buttonDirection k := hdirection
    rw [hnow, nextDirection, filterDirection_eq, run_moves r m hr, hread, hread']
  · rw [hnow]
    exact headAfter_succ hr

theorem press_turns_held :
    (run armedClock heldInput 6).buttons.Quiescent ∧
      (stateAfter (mainDriver someAddresses) columnInputs (fun _ => 0) 1).snake.currentDirection =
        (if buttonDirection 3 = initialSnake.currentDirection.opposite then initialSnake.currentDirection
          else buttonDirection 3) ∧
      headAfter (mainDriver someAddresses) columnInputs (fun _ => 0) 1 =
        moveLocation (stateAfter (mainDriver someAddresses) columnInputs (fun _ => 0) 1).snake.currentDirection
          initialSnake.currentLocation := by
  have honly : ∀ l t, 0 ≤ t → t + 2 < 0 + 3 + 3 → Falls heldInput l t → l = 3 ∧ t = 0 := by
    have hall : ∀ t < 4, ∀ l, Falls heldInput l t → l = 3 ∧ t = 0 := by
      unfold Falls
      decide
    exact fun l t _ ht => hall t (by omega) l
  have hcall : (mainDriver someAddresses).Callable := by decide
  have hstart : snakePlay (mainDriver someAddresses) columnInputs (fun _ => 0) 0 =
      .running (openGame (mainDriver someAddresses) columnInputs fun _ => 0) :=
    show startPlay (mainDriver someAddresses) columnInputs (fun _ => 0) = _ from startPlay_callable hcall
  have hquiet : (run armedClock heldInput (0 + 2)).buttons.Quiescent := by decide
  have hturns := press_turns (k := 3) rfl hquiet ⟨by decide, by decide⟩ honly (by decide) hstart (by decide)
  rwa [openGame_snake] at hturns

end ButtonClock

end NiosSnake
