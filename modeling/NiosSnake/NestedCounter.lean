/-!
# Nested counters

Two counters that wrap around; the outer one counts the wraps of the inner one.
After `n` ticks from zero they hold `n` modulo the inner period, and the
quotient modulo the outer one.
-/

namespace NestedCounter

def tick (p q inner outer : Nat) : Nat × Nat :=
  if inner < p - 1 then (inner + 1, outer) else (0, if outer < q - 1 then outer + 1 else 0)

def position (p q n : Nat) : Nat × Nat := (n % p, n / p % q)

variable {p q : Nat}

theorem succ_mod_eq (hp : 0 < p) (n : Nat) : (n + 1) % p = if n % p < p - 1 then n % p + 1 else 0 := by
  have hn := Nat.div_add_mod n p
  have hlt := Nat.mod_lt n hp
  have h : (n + 1) % p = (n % p + 1) % p := by
    rw [← hn, Nat.add_assoc, Nat.mul_add_mod, Nat.mul_add_mod, Nat.mod_mod]
  rw [h]
  split
  · exact Nat.mod_eq_of_lt (by omega)
  · rw [show n % p + 1 = p by omega, Nat.mod_self]

theorem succ_div_eq (hp : 0 < p) (n : Nat) : (n + 1) / p = if n % p < p - 1 then n / p else n / p + 1 := by
  have hn := Nat.div_add_mod n p
  have hlt := Nat.mod_lt n hp
  have h : (n + 1) / p = n / p + (n % p + 1) / p := by
    rw [← Nat.mul_add_div hp, ← Nat.add_assoc, hn]
  rw [h]
  split
  · rw [Nat.div_eq_of_lt (show n % p + 1 < p by omega), Nat.add_zero]
  · rw [show n % p + 1 = p by omega, Nat.div_self hp]

/-- **A tick goes to the next position.** -/
theorem tick_position (hp : 0 < p) (hq : 0 < q) (n : Nat) :
    tick p q (n % p) (n / p % q) = position p q (n + 1) := by
  simp only [tick, position, succ_mod_eq hp, succ_div_eq hp]
  by_cases h : n % p < p - 1
  · simp only [if_pos h]
  · simp only [if_neg h, succ_mod_eq hq]

end NestedCounter
