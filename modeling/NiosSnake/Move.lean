import NiosSnake.Machine

/-!
# Moving

`filter_direction`, `move_snake` and `detect_collision_snake`.
-/

namespace NiosSnake

def filterDirection (currentDirection direction : Direction) : Direction :=
  if direction = .up ∧ currentDirection ≠ .down then .up
  else if direction = .down ∧ currentDirection ≠ .up then .down
  else if direction = .left ∧ currentDirection ≠ .right then .left
  else if direction = .right ∧ currentDirection ≠ .left then .right
  else currentDirection

/-- `c == SIZE ? 1 : c + 1` -/
def stepUp (c : U8) : U8 := if c = SIZE then 1 else c + 1

/-- `c == 1 ? SIZE-1 : c - 1` -/
def stepDown (c : U8) : U8 := if c = 1 then SIZE - 1 else c - 1

/-- The switch of `move_snake`. -/
def moveLocation (direction : Direction) (p : Point) : Point :=
  match direction with
  | .down => { p with y := stepUp p.y }
  | .up => { p with y := stepDown p.y }
  | .right => { p with x := stepUp p.x }
  | .left => { p with x := stepDown p.x }

/-- The slots `memmove` reads and then writes when the history is shifted. -/
def shiftAccesses : List Nat := (List.range 32).map (· + 1) ++ List.range 32

def moveSnake (m : Machine) : Machine :=
  let location := moveLocation m.snake.currentDirection m.snake.currentLocation
  let shifted := m.snake.pointHistory.memmove 1 0 32 (by decide) (by decide)
  { m with
    snake := { m.snake with currentLocation := location, pointHistory := shifted.set 0 location }
    accesses := 0 :: (shiftAccesses ++ m.accesses) }

def scan (hit : Point → Bool) : Nat → Nat → Machine → Bool × Machine
  | 0, _, m => (false, m)
  | k + 1, i, m => if hit (m.snake.slot i) then (true, m.access i) else scan hit k (i + 1) (m.access i)

def detectCollisionSnake (m : Machine) : Bool × Machine :=
  scan (fun p => pointTEquals m.snake.currentLocation p) (m.snake.length - 1) 1 m

/-! ## Directions -/

def Direction.opposite : Direction → Direction
  | .up => .down
  | .down => .up
  | .left => .right
  | .right => .left

theorem filterDirection_eq (current request : Direction) :
    filterDirection current request = if request = current.opposite then current else request := by
  cases current <;> cases request <;> rfl

/-! ## Locations -/

theorem stepUp_range {c : U8} (h : 1 ≤ c.toNat ∧ c.toNat ≤ 32) :
    1 ≤ (stepUp c).toNat ∧ (stepUp c).toNat ≤ 32 := by
  unfold stepUp
  by_cases hc : c = SIZE
  · rw [if_pos hc]
    decide
  · rw [if_neg hc]
    simp only [SIZE] at hc
    bv_omega

theorem stepDown_range {c : U8} (h : 1 ≤ c.toNat ∧ c.toNat ≤ 32) :
    1 ≤ (stepDown c).toNat ∧ (stepDown c).toNat ≤ 32 := by
  unfold stepDown
  by_cases hc : c = 1
  · rw [if_pos hc]
    decide
  · rw [if_neg hc]
    bv_omega

theorem stepUp_ne (c : U8) : stepUp c ≠ c := by
  unfold stepUp
  by_cases hc : c = SIZE
  · rw [if_pos hc, hc]
    decide
  · rw [if_neg hc]
    bv_omega

theorem stepDown_ne (c : U8) : stepDown c ≠ c := by
  unfold stepDown
  by_cases hc : c = 1
  · rw [if_pos hc, hc]
    decide
  · rw [if_neg hc]
    bv_omega

theorem moveLocation_onBoard (direction : Direction) {p : Point} (h : OnBoard p) :
    OnBoard (moveLocation direction p) := by
  obtain ⟨hx, hx', hy⟩ := h
  cases direction with
  | up => exact ⟨hx, hx', stepDown_range hy⟩
  | down => exact ⟨hx, hx', stepUp_range hy⟩
  | left => exact ⟨(stepDown_range ⟨hx, hx'⟩).1, (stepDown_range ⟨hx, hx'⟩).2, hy⟩
  | right => exact ⟨(stepUp_range ⟨hx, hx'⟩).1, (stepUp_range ⟨hx, hx'⟩).2, hy⟩

theorem moveLocation_ne (direction : Direction) (p : Point) : moveLocation direction p ≠ p := by
  intro h
  cases direction with
  | up => exact stepDown_ne p.y (congrArg Point.y h)
  | down => exact stepUp_ne p.y (congrArg Point.y h)
  | left => exact stepDown_ne p.x (congrArg Point.x h)
  | right => exact stepUp_ne p.x (congrArg Point.x h)

/-! ## Scanning the history -/

theorem scan_found (hit : Point → Bool) : ∀ (k i : Nat) (m : Machine),
    (scan hit k i m).1 = true ↔ ∃ j, i ≤ j ∧ j < i + k ∧ hit (m.snake.slot j) = true
  | 0, i, m => by
    simp only [scan, Bool.false_eq_true, false_iff]
    rintro ⟨j, h₁, h₂, _⟩
    omega
  | k + 1, i, m => by
    rw [scan]
    split
    · rename_i h
      exact ⟨fun _ => ⟨i, Nat.le_refl i, by omega, h⟩, fun _ => rfl⟩
    · rename_i h
      rw [scan_found hit k]
      constructor
      · rintro ⟨j, h₁, h₂, hj⟩
        exact ⟨j, by omega, by omega, hj⟩
      · rintro ⟨j, h₁, h₂, hj⟩
        have : j ≠ i := by rintro rfl; exact h hj
        exact ⟨j, by omega, by omega, hj⟩

theorem scan_accesses (hit : Point → Bool) : ∀ (k i : Nat) (m : Machine) (j : Nat),
    j ∈ (scan hit k i m).2.accesses → j < i + k ∨ j ∈ m.accesses
  | 0, _, _, _, h => Or.inr h
  | k + 1, i, m, j, h => by
    rw [scan] at h
    have hi : j ∈ (m.access i).accesses → j < i + (k + 1) ∨ j ∈ m.accesses := by
      intro h
      rcases List.mem_cons.mp h with rfl | h
      · exact Or.inl (by omega)
      · exact Or.inr h
    split at h
    · exact hi h
    · rcases scan_accesses hit k (i + 1) _ j h with h | h
      · exact Or.inl (by omega)
      · exact hi h

theorem scan_frame (hit : Point → Bool) : ∀ (k i : Nat) (m : Machine),
    (scan hit k i m).2 = { m with accesses := (scan hit k i m).2.accesses }
  | 0, _, _ => rfl
  | k + 1, i, m => by
    rw [scan]
    split
    · rfl
    · rw [scan_frame hit k]
      rfl

end NiosSnake
