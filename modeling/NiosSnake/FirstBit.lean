import Mathlib.Data.Nat.Find

/-!
# Finding a bit by adding

A power of two that is added to the complement of a word is carried up to the first bit of
the word from there on. With the word written twice the search goes around: this is how a
round-robin arbiter finds the next request.
-/

namespace NiosSnake

def FirstBit {w : Nat} (x : BitVec w) (t i : Nat) : Prop :=
  x.getLsbD i = true ∧ t ≤ i ∧ ∀ j, t ≤ j → j < i → x.getLsbD j = false

section
variable {w : Nat} (x : BitVec w) {t : Nat}

theorem carry_iff (ht : t < w) : ∀ {i : Nat}, i ≤ w →
    (BitVec.carry i (~~~x) (BitVec.twoPow w t) false = true ↔ t < i ∧ ∀ j, t ≤ j → j < i → x.getLsbD j = false)
  | 0, _ => by simp
  | i + 1, hi => by
    have hnot : (~~~x).getLsbD i = !x.getLsbD i := by simp [show i < w by omega]
    have hpow : (BitVec.twoPow w t).getLsbD i = decide (t = i) := by simp [BitVec.getLsbD_twoPow, ht]
    have ih := carry_iff ht (show i ≤ w by omega)
    rw [BitVec.carry_succ, hnot, hpow]
    rcases Nat.lt_trichotomy t i with hlt | rfl | hgt
    · -- the carry goes on while the bits are clear
      have hstep : Bool.atLeastTwo (!x.getLsbD i) (decide (t = i))
          (BitVec.carry i (~~~x) (BitVec.twoPow w t) false) = true ↔
          x.getLsbD i = false ∧ BitVec.carry i (~~~x) (BitVec.twoPow w t) false = true := by
        simp [Bool.atLeastTwo, Nat.ne_of_lt hlt]
      rw [hstep, ih]
      constructor
      · rintro ⟨hclear, _, hbelow⟩
        refine ⟨by omega, fun j hj hji => ?_⟩
        rcases Nat.lt_succ_iff_lt_or_eq.mp hji with hji | rfl
        · exact hbelow j hj hji
        · exact hclear
      · rintro ⟨_, hbelow⟩
        exact ⟨hbelow i (by omega) (by omega), hlt, fun j hj hji => hbelow j hj (by omega)⟩
    · -- the carry begins
      have hnone : BitVec.carry t (~~~x) (BitVec.twoPow w t) false = false :=
        eq_false_of_ne_true fun hc => absurd (ih.mp hc).1 (Nat.lt_irrefl t)
      have hstep : Bool.atLeastTwo (!x.getLsbD t) (decide (t = t)) false = true ↔ x.getLsbD t = false := by
        simp [Bool.atLeastTwo]
      rw [hnone, hstep]
      constructor
      · refine fun hclear => ⟨by omega, fun j hj hji => ?_⟩
        obtain rfl : j = t := by omega
        exact hclear
      · exact fun h => h.2 t (Nat.le_refl t) (by omega)
    · have hnone : BitVec.carry i (~~~x) (BitVec.twoPow w t) false = false :=
        eq_false_of_ne_true fun hc => absurd (ih.mp hc).1 (by omega)
      have hstep : Bool.atLeastTwo (!x.getLsbD i) (decide (t = i)) false = false := by
        simp [Bool.atLeastTwo, Nat.ne_of_gt hgt]
      rw [hnone, hstep]
      constructor
      · exact fun h => absurd h (by decide)
      · exact fun h => absurd h.1 (by omega)

/-- **Adding finds the first bit.** -/
theorem found_iff (ht : t < w) (i : Nat) :
    (x &&& (~~~x + BitVec.twoPow w t)).getLsbD i = true ↔ FirstBit x t i := by
  by_cases hi : i < w
  · have hnot : (~~~x).getLsbD i = !x.getLsbD i := by simp [hi]
    have hpow : (BitVec.twoPow w t).getLsbD i = decide (t = i) := by simp [BitVec.getLsbD_twoPow, ht]
    have hcarry := carry_iff x ht (Nat.le_of_lt hi)
    rw [BitVec.getLsbD_and, BitVec.getLsbD_add hi, hnot, hpow, Bool.and_eq_true, FirstBit]
    refine and_congr_right fun hset => ?_
    rw [hset]
    by_cases hti : t = i
    · subst hti
      have hnone : BitVec.carry t (~~~x) (BitVec.twoPow w t) false = false :=
        eq_false_of_ne_true fun hc => absurd (hcarry.mp hc).1 (Nat.lt_irrefl t)
      have hempty : ∀ j, t ≤ j → j < t → x.getLsbD j = false := fun j hj hlt => absurd hlt (by omega)
      simpa [hnone] using hempty
    · rw [decide_eq_false hti]
      simp only [Bool.not_true, Bool.false_bne, hcarry]
      exact and_congr_left fun _ => ⟨Nat.le_of_lt, fun hle => Nat.lt_of_le_of_ne hle hti⟩
  · have hout : x.getLsbD i = false := BitVec.getLsbD_of_ge x i (by omega)
    simp [FirstBit, hout]

end

/-! ## Going around -/

/-- How far it is up from `t` to `i`, around `n` places. -/
def around (n t i : Nat) : Nat := if t ≤ i then i - t else i + n - t

/-- Of the bits that are set, `i` is the first one up from `t`, going around. -/
def FirstAround {n : Nat} (r : BitVec n) (t i : Nat) : Prop :=
  i < n ∧ r.getLsbD i = true ∧ ∀ j < n, r.getLsbD j = true → around n t i ≤ around n t j

section
variable {n t : Nat}

theorem around_cases (n t i : Nat) : t ≤ i ∧ around n t i = i - t ∨ i < t ∧ around n t i = i + n - t := by
  unfold around
  split
  · exact .inl ⟨‹_›, rfl⟩
  · exact .inr ⟨by omega, rfl⟩

theorem around_lt {i : Nat} (ht : t < n) (hi : i < n) : around n t i < n := by
  rcases around_cases n t i with ⟨_, h⟩ | ⟨_, h⟩ <;> omega

theorem around_inj {i j : Nat} (ht : t < n) (hi : i < n) (hj : j < n) (h : around n t i = around n t j) : i = j := by
  rcases around_cases n t i with ⟨_, hi'⟩ | ⟨_, hi'⟩ <;> rcases around_cases n t j with ⟨_, hj'⟩ | ⟨_, hj'⟩ <;> omega

theorem next_mod {k : Nat} (hk : k < n) : (k + 1) % n = if k + 1 = n then 0 else k + 1 := by
  split
  · rename_i h
    rw [h, Nat.mod_self]
  · exact Nat.mod_eq_of_lt (by omega)

/-- From the place after `k` it is nearer to all that come after `k`. -/
theorem around_next {k i : Nat} (ht : t < n) (hk : k < n) (hi : i < n) (hlt : around n t k < around n t i) :
    around n ((k + 1) % n) i < around n t i := by
  have hnext := next_mod hk
  rcases around_cases n t k with ⟨_, hk'⟩ | ⟨_, hk'⟩ <;> rcases around_cases n t i with ⟨_, hi'⟩ | ⟨_, hi'⟩ <;>
    rcases around_cases n ((k + 1) % n) i with ⟨_, hn⟩ | ⟨_, hn⟩ <;> split at hnext <;> omega

/-- From the place after `k` it is farthest to `k`. -/
theorem around_after {k i : Nat} (hk : k < n) (hi : i < n) (hne : i ≠ k) : around n ((k + 1) % n) i + 1 < n := by
  have hnext := next_mod hk
  rcases around_cases n ((k + 1) % n) i with ⟨_, hn⟩ | ⟨_, hn⟩ <;> split at hnext <;> omega

theorem FirstAround.unique {r : BitVec n} {i j : Nat} (ht : t < n) (hi : FirstAround r t i) (hj : FirstAround r t j) :
    i = j :=
  around_inj ht hi.1 hj.1 (Nat.le_antisymm (hi.2.2 j hj.1 hj.2.1) (hj.2.2 i hi.1 hi.2.1))

theorem exists_firstAround {r : BitVec n} (h : r ≠ 0) : ∃ i, FirstAround r t i := by
  have hset : ∃ i < n, r.getLsbD i = true := by
    refine Classical.byContradiction fun hnone => h (BitVec.eq_of_getLsbD_eq fun i hi => ?_)
    rw [eq_false_of_ne_true fun hi' => hnone ⟨i, hi, hi'⟩]
    simp
  classical
  have hnear : ∃ d, ∃ i < n, r.getLsbD i = true ∧ around n t i = d := by
    obtain ⟨i, hi, hbit⟩ := hset
    exact ⟨around n t i, i, hi, hbit, rfl⟩
  obtain ⟨i, hi, hbit, hd⟩ := Nat.find_spec hnear
  refine ⟨i, hi, hbit, fun j hj hbit' => ?_⟩
  rw [hd]
  exact Nat.find_min' hnear ⟨j, hj, hbit', rfl⟩

theorem twice_getLsbD (r : BitVec n) (k : Nat) : (r ++ r).getLsbD k = r.getLsbD (if k < n then k else k - n) := by
  rw [BitVec.getLsbD_append]
  split <;> rfl

/-- In a word written twice the first bit from `t` on is the first one around, or its copy. -/
theorem firstBit_twice {r : BitVec n} (ht : t < n) {i : Nat} (hi : i < n) :
    FirstBit (r ++ r) t i ∨ FirstBit (r ++ r) t (n + i) ↔ FirstAround r t i := by
  have hlow : ∀ k < n, (r ++ r).getLsbD k = r.getLsbD k := fun k hk => by rw [twice_getLsbD, if_pos hk]
  have hhigh : ∀ k, (r ++ r).getLsbD (n + k) = r.getLsbD k := fun k => by
    rw [twice_getLsbD, if_neg (by omega), Nat.add_sub_cancel_left]
  have hfar := around_cases n t i
  constructor
  · rintro (⟨hbit, hle, hclear⟩ | ⟨hbit, _, hclear⟩)
    · refine ⟨hi, (hlow i hi).symm.trans hbit, fun j hj hbit' => ?_⟩
      have hnot : ¬ (t ≤ j ∧ j < i) := fun hc => by
        rw [← hlow j hj, hclear j hc.1 hc.2] at hbit'
        cases hbit'
      rcases around_cases n t j with ⟨_, hj'⟩ | ⟨_, hj'⟩ <;> omega
    · refine ⟨hi, (hhigh i).symm.trans hbit, fun j hj hbit' => ?_⟩
      have hnot : ¬ t ≤ j := fun hc => by
        rw [← hlow j hj, hclear j hc (by omega)] at hbit'
        cases hbit'
      have hnot' : ¬ j < i := fun hc => by
        rw [← hhigh j, hclear (n + j) (by omega) (by omega)] at hbit'
        cases hbit'
      rcases around_cases n t j with ⟨_, hj'⟩ | ⟨_, hj'⟩ <;> omega
  · rintro ⟨_, hbit, hfirst⟩
    rcases hfar with ⟨hle, hd⟩ | ⟨hlt, hd⟩
    · refine .inl ⟨(hlow i hi).trans hbit, hle, fun j hj hji => ?_⟩
      rw [hlow j (by omega)]
      refine eq_false_of_ne_true fun hbit' => ?_
      have hnear := hfirst j (by omega) hbit'
      rcases around_cases n t j with ⟨_, hj'⟩ | ⟨_, hj'⟩ <;> omega
    · refine .inr ⟨(hhigh i).trans hbit, by omega, fun j hj hji => ?_⟩
      rw [twice_getLsbD]
      refine eq_false_of_ne_true fun hbit' => ?_
      split at hbit'
      · have hnear := hfirst j (by omega) hbit'
        rcases around_cases n t j with ⟨_, hj'⟩ | ⟨_, hj'⟩ <;> omega
      · have hnear := hfirst (j - n) (by omega) hbit'
        rcases around_cases n t (j - n) with ⟨_, hj'⟩ | ⟨_, hj'⟩ <;> omega

end

end NiosSnake
