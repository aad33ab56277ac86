import NiosSnake.Draw
import NiosSnake.Move
import NiosSnake.Process

/-!
# `snake_play`

The loop body of `snake_play` is a step of a process on machines; it returns a
message when the game ends. The body is cut into the parts the source marks by
its comments: steering and moving, growing, placing the food, presenting the
frame. Each part has one lemma for what it does to the state.
-/

namespace NiosSnake

section
variable (d : SnakeDriver) (inp : Inputs)

/-- `current_food.x = driver->random_number_cb(); current_food.y = ...` -/
def drawFood (m : Machine) : Machine :=
  let x := m.randomNumber inp
  let y := x.2.randomNumber inp
  { y.2 with currentFood := ⟨x.1, y.1⟩ }

/-- One pass of `while(!valid)`. A hit breaks the scan off after a new draw, and
`valid` is set whether there was a hit or not. -/
def placementPass (m : Machine) : Bool × Machine :=
  let found := scan (fun p => pointTEquals p m.currentFood) m.snake.length 0 m
  let m := if found.1 then drawFood inp found.2 else found.2
  let valid := true
  (valid, m)

def placementLoop (valid : Bool) (m : Machine) : Machine :=
  if valid then m
  else placementLoop (placementPass inp m).1 (placementPass inp m).2
termination_by if valid then 0 else 1
decreasing_by simp_all [placementPass]

/-- Lines 177-191: a new food. -/
def respawn (m : Machine) : Machine :=
  let m := placementLoop inp false (drawFood inp m)
  drawSquare d m.currentFood d.foodColor m

/-- Lines 154-155: the direction of this move. -/
def steer (m : Machine) : Machine :=
  let direction := m.readDirection inp
  let m := direction.2
  { m with
    snake := { m.snake with currentDirection := filterDirection m.snake.currentDirection direction.1 } }

/-- Lines 169-170: the snake ate. -/
def grow (m : Machine) : Machine :=
  let m := { m with snake := { m.snake with length := (m.snake.length + 1) % 2 ^ 32 } }
  drawSquare d (m.snake.slot 0) d.snakeColor (m.access 0)

/-- Lines 162-163 and 173-174: the game is over. -/
def endGame (m : Machine) : Machine := (drawGameOver d m).call (.delayFunctionCb 15000)

/-- Lines 194-201. -/
def presentFrame (m : Machine) : Machine :=
  let m := drawSquare d (m.snake.slot m.snake.length) d.backgroundColor (m.access m.snake.length)
  let m := drawSquare d (m.snake.slot 0) d.snakeColor (m.access 0)
  let m := m.call (.displayFrameCb d.frameBuffer d.resolution)
  let m := m.call (.displayScoreCb (BitVec.ofNat 8 m.snake.length))
  m.call (.delayFunctionCb 200)

def lostMessage : String := "Game over, you lost!\n"
def wonMessage : String := "Game over, you won!\n"

def loopBody (m : Machine) : Outcome Machine String :=
  let hit := detectCollisionSnake (moveSnake (steer inp m))
  let m := hit.2
  if hit.1 then .returned lostMessage (endGame d m)
  else if pointTEquals m.snake.currentLocation m.currentFood then
    let m := grow d m
    if m.snake.length = d.snakeLength.toNat then .returned wonMessage (endGame d m)
    else .running (presentFrame d (respawn d inp m))
  else .running (presentFrame d m)

/-- Lines 136-142. -/
def initialSnake : Snake where
  currentLocation := ⟨16, 16⟩
  currentDirection := .right
  length := 1
  pointHistory := (Window.replicate 33 .zero).set 0 ⟨16, 16⟩

/-- The machine when the snake is initialised, over the memory found. -/
def entry (mem : ByteMemory 32) : Machine where
  snake := initialSnake
  currentFood := .zero
  mem := mem
  draws := 0
  moves := 0
  accesses := [0]
  writes := []
  calls := []

/-- Lines 144-150. -/
def openGame (mem : ByteMemory 32) : Machine :=
  let m := fillBuffer d d.backgroundColor (drawFood inp (entry mem))
  drawSquare d m.currentFood d.foodColor m

def startPlay (mem : ByteMemory 32) : Outcome Machine String :=
  if d.frameBuffer = 0 then
    .returned "Frame buffer is NULL, possibly a memory issue?" { entry mem with accesses := [] }
  else if d.displayFrameCb = 0 ∨ d.delayFunctionCb = 0 ∨ d.displayScoreCb = 0 ∨ d.randomNumberCb = 0 ∨
      d.readDirectionCb = 0 then
    .returned "Not all callbacks are defined!" { entry mem with accesses := [] }
  else .running (openGame d inp mem)

/-- `snake_play` after `n` rounds of its loop. -/
def snakePlay (mem : ByteMemory 32) : Nat → Outcome Machine String :=
  Outcome.run (fun _ => loopBody d inp) (startPlay d inp mem)

end

end NiosSnake
