import NiosSnake.Move

/-!
# Walks

The location update of `move_snake` along a list of directions. Modulo `SIZE`
every step moves one column or row on, except the step down from 1, which goes
to `SIZE - 1` and so moves two. A walk and its way back lead to the start exactly
if these steps cancel; a walk of at most three steps that never reverses does not
return.
-/

namespace NiosSnake

/-! ## Axes -/

inductive Axis where
  | x
  | y
  deriving DecidableEq, Repr

namespace Axis

def coordinate : Axis → Point → U8
  | x, p => p.x
  | y, p => p.y

def forward : Axis → Direction
  | x => .right
  | y => .down

def backward : Axis → Direction
  | x => .left
  | y => .up

theorem coordinate_move (a : Axis) (direction : Direction) (p : Point) :
    a.coordinate (moveLocation direction p) =
      if direction = a.forward then stepUp (a.coordinate p)
      else if direction = a.backward then stepDown (a.coordinate p)
      else a.coordinate p := by
  cases a <;> cases direction <;> rfl

theorem opposite_eq_forward (a : Axis) (direction : Direction) :
    direction.opposite = a.forward ↔ direction = a.backward := by
  cases a <;> cases direction <;> decide

theorem opposite_eq_backward (a : Axis) (direction : Direction) :
    direction.opposite = a.backward ↔ direction = a.forward := by
  cases a <;> cases direction <;> decide

theorem forward_ne_backward (a : Axis) : a.forward ≠ a.backward := by cases a <;> decide

theorem range {p : Point} (h : OnBoard p) (a : Axis) :
    1 ≤ (a.coordinate p).toNat ∧ (a.coordinate p).toNat ≤ 32 := by
  obtain ⟨h₁, h₂, h₃, h₄⟩ := h
  cases a with
  | x => exact ⟨h₁, h₂⟩
  | y => exact ⟨h₃, h₄⟩

theorem point_ext {p q : Point} (h : ∀ a : Axis, (a.coordinate p).toNat = (a.coordinate q).toNat) : p = q := by
  cases p; cases q
  simp only [Point.mk.injEq]
  exact ⟨BitVec.eq_of_toNat_eq (h .x), BitVec.eq_of_toNat_eq (h .y)⟩

end Axis

/-! ## Walks -/

def walk (l : List Direction) (p : Point) : Point := l.foldl (fun p direction => moveLocation direction p) p

def retrace (l : List Direction) : List Direction := (l.map Direction.opposite).reverse

@[simp] theorem walk_nil (p : Point) : walk [] p = p := rfl

@[simp] theorem walk_cons (direction : Direction) (l : List Direction) (p : Point) :
    walk (direction :: l) p = walk l (moveLocation direction p) := rfl

theorem walk_append (l l' : List Direction) (p : Point) : walk (l ++ l') p = walk l' (walk l p) :=
  List.foldl_append

theorem walk_onBoard : ∀ (l : List Direction) {p : Point}, OnBoard p → OnBoard (walk l p)
  | [], _, h => h
  | direction :: l, _, h => walk_onBoard l (moveLocation_onBoard direction h)

/-- The steps of a walk that take the branch `SIZE-1` of `move_snake`. -/
def wrapsBelow (a : Axis) : List Direction → Point → Nat
  | [], _ => 0
  | direction :: l, p =>
    (if direction = a.backward ∧ a.coordinate p = 1 then 1 else 0) + wrapsBelow a l (moveLocation direction p)

/-! ## The drift of a walk -/

theorem stepUp_drift {c : U8} (h : 1 ≤ c.toNat ∧ c.toNat ≤ 32) :
    ∃ k : Int, ((stepUp c).toNat : Int) = c.toNat + 1 + 32 * k := by
  unfold stepUp
  by_cases hc : c = SIZE
  · rw [if_pos hc, hc]
    exact ⟨-1, by decide⟩
  · rw [if_neg hc]
    simp only [SIZE] at hc
    exact ⟨0, by bv_omega⟩

/-- Modulo 32 a step down is one down, and from 1 it is two. -/
theorem stepDown_drift {c : U8} (h : 1 ≤ c.toNat ∧ c.toNat ≤ 32) :
    ∃ k : Int, ((stepDown c).toNat : Int) = c.toNat - 1 - (if c = 1 then 1 else 0) + 32 * k := by
  unfold stepDown
  by_cases hc : c = 1
  · rw [if_pos hc, if_pos hc, hc]
    exact ⟨1, by decide⟩
  · rw [if_neg hc, if_neg hc]
    exact ⟨0, by bv_omega⟩

theorem walk_drift (a : Axis) : ∀ (l : List Direction) {p : Point}, OnBoard p →
    ∃ k : Int, ((a.coordinate (walk l p)).toNat : Int) =
      (a.coordinate p).toNat + l.count a.forward - l.count a.backward - wrapsBelow a l p + 32 * k
  | [], p, _ => ⟨0, by simp [wrapsBelow]⟩
  | direction :: l, p, h => by
    obtain ⟨k, hk⟩ := walk_drift a l (moveLocation_onBoard direction h)
    have hr := a.range h
    have hne := a.forward_ne_backward
    rw [walk_cons, hk, a.coordinate_move]
    by_cases hf : direction = a.forward
    · obtain ⟨k', hk'⟩ := stepUp_drift hr
      refine ⟨k + k', ?_⟩
      simp [hf, hne, hk', wrapsBelow]
      omega
    by_cases hb : direction = a.backward
    · obtain ⟨k', hk'⟩ := stepDown_drift hr
      refine ⟨k + k', ?_⟩
      simp [hb, hne.symm, hk', wrapsBelow]
      split <;> omega
    · refine ⟨k, ?_⟩
      simp [hf, hb, wrapsBelow]

theorem wrapsBelow_le (a : Axis) : ∀ (l : List Direction) (p : Point), wrapsBelow a l p ≤ l.count a.backward
  | [], _ => by simp [wrapsBelow]
  | direction :: l, p => by
    have ih := wrapsBelow_le a l (moveLocation direction p)
    by_cases hb : direction = a.backward
    · simp [wrapsBelow, hb] at ih ⊢
      split <;> omega
    · simp [wrapsBelow, hb, ih]

/-! ## Short walks -/

def OneWay (a : Axis) (l : List Direction) : Prop :=
  l.count a.backward = 0 ∧ 0 < l.count a.forward ∨ l.count a.forward = 0 ∧ 0 < l.count a.backward

instance (a : Axis) (l : List Direction) : Decidable (OneWay a l) := inferInstanceAs (Decidable (_ ∨ _))

theorem OneWay.walk_ne {a : Axis} {l : List Direction} (h : OneWay a l) (hl : l.length < 16) {p : Point}
    (hp : OnBoard p) : walk l p ≠ p := by
  intro hback
  obtain ⟨k, hk⟩ := walk_drift a l hp
  rw [hback] at hk
  have hwraps := wrapsBelow_le a l p
  have hf : l.count a.forward ≤ l.length := List.count_le_length
  have hb : l.count a.backward ≤ l.length := List.count_le_length
  -- the drift is not zero, and too small for a multiple of 32
  rcases h with ⟨h₁, h₂⟩ | ⟨h₁, h₂⟩ <;> omega

theorem oneWay_two {d₁ d₂ : Direction} (h : d₂ ≠ d₁.opposite) : ∃ a, OneWay a [d₁, d₂] := by
  cases d₁ <;> cases d₂ <;> first | exact absurd rfl h | exact ⟨.x, by decide⟩ | exact ⟨.y, by decide⟩

theorem oneWay_three {d₁ d₂ d₃ : Direction} (h : d₂ ≠ d₁.opposite) (h' : d₃ ≠ d₂.opposite) :
    ∃ a, OneWay a [d₁, d₂, d₃] := by
  cases d₁ <;> cases d₂ <;> cases d₃ <;>
    first | exact absurd rfl h | exact absurd rfl h' | exact ⟨.x, by decide⟩ | exact ⟨.y, by decide⟩

/-! ## There and back -/

theorem count_retrace (a : Axis) (l : List Direction) :
    (retrace l).count a.forward = l.count a.backward ∧ (retrace l).count a.backward = l.count a.forward := by
  simp only [retrace, List.count_reverse]
  induction l with
  | nil => simp
  | cons direction l ih =>
    simp only [List.map_cons, List.count_cons, ih, beq_iff_eq, a.opposite_eq_forward, a.opposite_eq_backward]
    simp

/-- **When a walk can be retraced.** Going back returns to the start exactly if on each axis the
steps of the whole tour that wrap below 1 are a multiple of 32, in particular if there is none. -/
theorem walk_retrace_iff {p : Point} (hp : OnBoard p) (l : List Direction) :
    walk (retrace l) (walk l p) = p ↔ ∀ a, 32 ∣ wrapsBelow a (l ++ retrace l) p := by
  have hdrift : ∀ a : Axis, ∃ k : Int, ((a.coordinate (walk (retrace l) (walk l p))).toNat : Int) =
      (a.coordinate p).toNat - wrapsBelow a (l ++ retrace l) p + 32 * k := by
    intro a
    obtain ⟨k, hk⟩ := walk_drift a (l ++ retrace l) hp
    rw [walk_append, List.count_append, List.count_append, (count_retrace a l).1, (count_retrace a l).2] at hk
    exact ⟨k, by omega⟩
  constructor
  · intro h a
    obtain ⟨k, hk⟩ := hdrift a
    rw [h] at hk
    omega
  · intro h
    apply Axis.point_ext
    intro a
    obtain ⟨k, hk⟩ := hdrift a
    have hwraps := h a
    -- both coordinates are in 1..32 and differ by a multiple of 32
    have hstart := a.range hp
    have hend := a.range (walk_onBoard (retrace l) (walk_onBoard l hp))
    omega

theorem walk_retrace_iff_middle :
    walk (retrace [.left, .up]) (walk [.left, .up] ⟨16, 16⟩) = ⟨16, 16⟩ ↔
      ∀ a, 32 ∣ wrapsBelow a ([.left, .up] ++ retrace [.left, .up]) ⟨16, 16⟩ :=
  walk_retrace_iff (by decide) [.left, .up]

/-- Up from row 1 leads to row 31, and down from there to row 32. -/
theorem top_row_not_retraced :
    OnBoard ⟨16, 1⟩ ∧ walk (retrace [.up]) (walk [.up] ⟨16, 1⟩) ≠ ⟨16, 1⟩ := by decide

end NiosSnake
