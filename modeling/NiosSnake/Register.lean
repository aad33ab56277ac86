/-!
# Registers over time

What a register holds after `n` clocks, from what was done to it at each of them. A
bit that is set and cleared holds what was done last, and a clear wins over a
setting at the same clock. A register with a write enable holds what was written
last.
-/

namespace Register

section
variable {set clear bit : Nat → Prop}

def SetClear (set clear bit : Nat → Prop) : Prop := ∀ n, bit (n + 1) ↔ ¬ clear n ∧ (set n ∨ bit n)

theorem SetClear.iff (h : SetClear set clear bit) (n : Nat) : bit n ↔
    (bit 0 ∧ ∀ j < n, ¬ clear j) ∨ ∃ i < n, set i ∧ ∀ j < n, i ≤ j → ¬ clear j := by
  induction n with
  | zero => simp
  | succ n ih =>
    rw [h n, ih]
    constructor
    · rintro ⟨hn, hset | ⟨h0, hkept⟩ | ⟨i, hi, hset, hkept⟩⟩
      · exact .inr ⟨n, by omega, hset, fun j hj hij => (show j = n by omega) ▸ hn⟩
      · refine .inl ⟨h0, fun j hj => ?_⟩
        rcases Nat.lt_succ_iff_lt_or_eq.mp hj with hj | rfl
        · exact hkept j hj
        · exact hn
      · refine .inr ⟨i, by omega, hset, fun j hj hij => ?_⟩
        rcases Nat.lt_succ_iff_lt_or_eq.mp hj with hj | rfl
        · exact hkept j hj hij
        · exact hn
    · rintro (⟨h0, hkept⟩ | ⟨i, hi, hset, hkept⟩)
      · exact ⟨hkept n (by omega), .inr (.inl ⟨h0, fun j hj => hkept j (by omega)⟩)⟩
      · refine ⟨hkept n (by omega) (by omega), ?_⟩
        rcases Nat.lt_succ_iff_lt_or_eq.mp hi with hi | rfl
        · exact .inr (.inr ⟨i, hi, hset, fun j hj hij => hkept j (by omega) hij⟩)
        · exact .inl hset

end

section
variable {α : Type} {write : Nat → Prop} {data value : Nat → α}

structure Enabled (write : Nat → Prop) (data value : Nat → α) : Prop where
  stores : ∀ n, write n → value (n + 1) = data n
  keeps : ∀ n, ¬ write n → value (n + 1) = value n

theorem Enabled.kept (h : Enabled write data value) {i n : Nat} (hi : i ≤ n)
    (hkept : ∀ j < n, i ≤ j → ¬ write j) : value n = value i := by
  induction n with
  | zero => rw [Nat.le_zero.mp hi]
  | succ n ih =>
    rcases Nat.le_succ_iff.mp hi with hle | rfl
    · rw [h.keeps n (hkept n (by omega) hle)]
      exact ih hle fun j hj hij => hkept j (by omega) hij
    · rfl

theorem Enabled.last (h : Enabled write data value) {i n : Nat} (hi : i < n) (hw : write i)
    (hkept : ∀ j < n, i < j → ¬ write j) : value n = data i :=
  (h.kept hi fun j hj hij => hkept j hj hij).trans (h.stores i hw)

theorem Enabled.history (h : Enabled write data value) (n : Nat) :
    ((∀ j < n, ¬ write j) ∧ value n = value 0) ∨
      ∃ i < n, write i ∧ (∀ j < n, i < j → ¬ write j) ∧ value n = data i := by
  induction n with
  | zero => exact .inl ⟨fun _ hj => absurd hj (Nat.not_lt_zero _), rfl⟩
  | succ n ih =>
    by_cases hn : write n
    · exact .inr ⟨n, by omega, hn, fun j hj hij => by omega, h.stores n hn⟩
    have hnext : ∀ {i}, (∀ j < n, i ≤ j → ¬ write j) → ∀ j < n + 1, i ≤ j → ¬ write j := by
      intro i hkept j hj hij
      rcases Nat.lt_succ_iff_lt_or_eq.mp hj with hj | rfl
      · exact hkept j hj hij
      · exact hn
    rw [h.keeps n hn]
    rcases ih with ⟨hkept, hv⟩ | ⟨i, hi, hw, hkept, hv⟩
    · exact .inl ⟨fun j hj => hnext (fun j hj _ => hkept j hj) j hj (Nat.zero_le j), hv⟩
    · exact .inr ⟨i, by omega, hw, hnext hkept, hv⟩

end

end Register
