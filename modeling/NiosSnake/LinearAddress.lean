/-!
# Linear addresses

Two-dimensional data of row width `R` sits at `R * u + v`. If the column is
known to within one width, the address determines row and column; the columns
need not start at zero, so a block may run past the end of its rows.
-/

namespace LinearAddress

variable {R u v u' v' : Nat} (lo : Nat)

theorem row_le (h : R * u + v = R * u' + v') (hv : v < lo + R) (hv' : lo ≤ v') : u' ≤ u := by
  rcases Nat.lt_or_ge u u' with hlt | hge
  · have := Nat.mul_le_mul_left R hlt
    rw [Nat.mul_succ] at this
    omega
  · exact hge

theorem unique (h : R * u + v = R * u' + v') (hv : lo ≤ v) (hv₂ : v < lo + R) (hv' : lo ≤ v')
    (hv₂' : v' < lo + R) : u = u' ∧ v = v' := by
  obtain rfl := Nat.le_antisymm (row_le lo h.symm hv₂' hv) (row_le lo h hv₂ hv')
  exact ⟨rfl, by omega⟩

theorem block_unique {S x i x' i' : Nat} (h : x * S + i = x' * S + i') (hi : i < S) (hi' : i' < S) :
    x = x' ∧ i = i' := by
  rw [Nat.mul_comm x, Nat.mul_comm x'] at h
  exact unique 0 h (Nat.zero_le i) (by omega) (Nat.zero_le i') (by omega)

end LinearAddress
