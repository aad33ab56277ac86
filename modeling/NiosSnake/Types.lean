/-!
# The game's data types

`types.h` and `types.c`: bytes, points, directions.
-/

namespace NiosSnake

abbrev U8 := BitVec 8
abbrev U16 := BitVec 16
abbrev U32 := BitVec 32

structure Point where
  x : U8
  y : U8
  deriving DecidableEq, Repr, Inhabited

inductive Direction where
  | up
  | down
  | left
  | right
  deriving DecidableEq, Repr

def pointTEquals (rhs lhs : Point) : Bool := rhs.x == lhs.x && rhs.y == lhs.y

@[simp] theorem pointTEquals_iff (p q : Point) : pointTEquals p q = true ↔ p = q := by
  cases p; cases q
  simp [pointTEquals]

def isBetween (min max val : U16) : Bool := (val < max && val > min) || val == min

theorem isBetween_iff (min max val : U16) :
    isBetween min max val = true ↔ val = min ∨ (min.toNat < val.toNat ∧ val.toNat < max.toNat) := by
  simp only [isBetween, Bool.or_eq_true, Bool.and_eq_true, decide_eq_true_eq, beq_iff_eq, gt_iff_lt, BitVec.lt_def]
  rw [or_comm, and_comm]

def SIZE : U8 := 32

def OnBoard (p : Point) : Prop := 1 ≤ p.x.toNat ∧ p.x.toNat ≤ 32 ∧ 1 ≤ p.y.toNat ∧ p.y.toNat ≤ 32

instance (p : Point) : Decidable (OnBoard p) := inferInstanceAs (Decidable (_ ∧ _))

def Point.zero : Point := ⟨0, 0⟩

theorem OnBoard.ne_zero {p : Point} (h : OnBoard p) : p ≠ .zero := by
  rintro rfl
  exact absurd h.1 (by decide)

end NiosSnake
