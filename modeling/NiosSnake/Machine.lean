import NiosSnake.Types
import NiosSnake.Window
import NiosSnake.ByteMemory

/-!
# The state the game runs on

`snake_t` and `snake_driver_t`, the memory behind the frame buffer, and what
the game does to the outside: which history slots it touches, which bytes it
writes, which callbacks it calls. The callbacks' answers are two streams, read
in the order the game asks for them.
-/

namespace NiosSnake

structure Snake where
  currentLocation : Point
  currentDirection : Direction
  length : Nat
  pointHistory : Window Point 33

/-- `point_history[i]`. The C array has no slot past 32: what is read there stands for any value. -/
def Snake.slot (s : Snake) (i : Nat) : Point := s.pointHistory.getD i .zero

def Snake.live (s : Snake) : List Point := s.pointHistory.slots.take s.length

/-- `snake_driver_t`. Pointers and callbacks are addresses of the 32-bit CPU. -/
structure SnakeDriver where
  resolution : U32
  frameBuffer : U32
  snakeLength : U8
  backgroundColor : U8
  foodColor : U8
  snakeColor : U8
  delayFunctionCb : U32
  displayFrameCb : U32
  displayScoreCb : U32
  readDirectionCb : U32
  randomNumberCb : U32

/-- What the n-th call of `read_direction_cb` and of `random_number_cb` returns. -/
structure Inputs where
  readDirection : Nat → Direction
  randomNumber : Nat → U8

/-- The locals of `snake_play`, the memory, and how often each input was asked for. -/
structure State where
  snake : Snake
  currentFood : Point
  mem : ByteMemory 32
  draws : Nat
  moves : Nat

inductive Callback where
  | delayFunctionCb (msec : Nat)
  | displayFrameCb (buffer resolution : U32)
  | displayScoreCb (score : U8)
  | readDirectionCb (answer : Direction)
  | randomNumberCb (answer : U8)
  deriving DecidableEq

structure Call where
  callback : Callback
  state : State

structure Write where
  start : U32
  color : U8
  count : Nat

structure Machine extends State where
  accesses : List Nat
  writes : List Write
  calls : List Call

namespace Machine

def memset (m : Machine) (start : U32) (color : U8) (count : Nat) : Machine :=
  { m with mem := m.mem.memset start color count, writes := ⟨start, color, count⟩ :: m.writes }

def access (m : Machine) (i : Nat) : Machine := { m with accesses := i :: m.accesses }

def call (m : Machine) (c : Callback) : Machine := { m with calls := ⟨c, m.toState⟩ :: m.calls }

def readDirection (inp : Inputs) (m : Machine) : Direction × Machine :=
  let answer := inp.readDirection m.moves
  (answer, { m.call (.readDirectionCb answer) with moves := m.moves + 1 })

def randomNumber (inp : Inputs) (m : Machine) : U8 × Machine :=
  let answer := inp.randomNumber m.draws
  (answer, { m.call (.randomNumberCb answer) with draws := m.draws + 1 })

def shown (m : Machine) : List State :=
  m.calls.filterMap fun c =>
    match c.callback with
    | .displayFrameCb _ _ => some c.state
    | _ => none

def scored (m : Machine) : List (U8 × State) :=
  m.calls.filterMap fun c =>
    match c.callback with
    | .displayScoreCb score => some (score, c.state)
    | _ => none

def Wrote (m : Machine) (a : U32) : Prop := ∃ w ∈ m.writes, ByteMemory.Within w.start w.count a

instance (m : Machine) (a : U32) : Decidable (m.Wrote a) := inferInstanceAs (Decidable (∃ w ∈ m.writes, _))

theorem memset_wrote (m : Machine) (start : U32) (color : U8) (count : Nat) (a : U32) :
    (m.memset start color count).Wrote a ↔ ByteMemory.Within start count a ∨ m.Wrote a := by
  simp only [Wrote, memset, List.mem_cons, exists_eq_or_imp]

theorem foldl_wrote {f : Machine → Nat → Machine} {Q : Nat → Prop} {a : U32}
    (h : ∀ m i, (f m i).Wrote a ↔ Q i ∨ m.Wrote a) : ∀ (l : List Nat) (m : Machine),
    (l.foldl f m).Wrote a ↔ (∃ i ∈ l, Q i) ∨ m.Wrote a
  | [], m => by simp
  | i :: l, m => by
    rw [List.foldl_cons, foldl_wrote h l, h]
    simp only [List.mem_cons, exists_eq_or_imp]
    rw [← or_assoc, or_comm (a := ∃ i ∈ l, _)]

end Machine

end NiosSnake
