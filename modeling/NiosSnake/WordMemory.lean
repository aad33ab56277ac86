import Mathlib.Algebra.Order.Ring.Nat
import NiosSnake.ByteMemory

/-!
# Words of a byte memory

Aligned words of `k` bytes, for `k` a divisor of the size of the address space.
Filling an aligned range whose size is a multiple of `k` fills words as a whole,
so a word whose bytes are all equal stays one, and such a word reads the same in
both byte orders.
-/

namespace ByteMemory

variable {w : Nat} {k : Nat}

def Aligned (k : Nat) (a : BitVec w) : Prop := k ∣ a.toNat

instance (a : BitVec w) : Decidable (Aligned k a) := inferInstanceAs (Decidable (_ ∣ _))

def Uniform (k : Nat) (m : ByteMemory w) (b : BitVec w) : Prop := ∀ j < k, m (b + BitVec.ofNat w j) = m b

section
variable (hk : k ∣ 2 ^ w)
include hk

theorem aligned_ofNat {n : Nat} (h : k ∣ n) : Aligned k (BitVec.ofNat w n) := by
  rw [Aligned, BitVec.toNat_ofNat]
  exact (Nat.dvd_mod_iff hk).mpr h

theorem Aligned.add {a b : BitVec w} (ha : Aligned k a) (hb : Aligned k b) : Aligned k (a + b) := by
  rw [Aligned, BitVec.toNat_add]
  exact (Nat.dvd_mod_iff hk).mpr (Nat.dvd_add ha hb)

theorem Aligned.sub {a b : BitVec w} (ha : Aligned k a) (hb : Aligned k b) : Aligned k (a - b) := by
  rw [Aligned, BitVec.toNat_sub]
  exact (Nat.dvd_mod_iff hk).mpr (Nat.dvd_add (Nat.dvd_sub hk hb) ha)

theorem Aligned.mul_left {b : BitVec w} (a : BitVec w) (hb : Aligned k b) : Aligned k (a * b) := by
  rw [Aligned, BitVec.toNat_mul]
  exact (Nat.dvd_mod_iff hk).mpr (Nat.dvd_mul_left_of_dvd hb _)

theorem within_word {start b : BitVec w} {n : Nat} (hs : Aligned k start) (hb : Aligned k b) (hn : k ∣ n) {j : Nat}
    (hj : j < k) : Within start n (b + BitVec.ofNat w j) ↔ Within start n b := by
  obtain ⟨x, hx⟩ := hb.sub hk hs
  obtain ⟨y, hy⟩ := hk
  obtain ⟨z, rfl⟩ := hn
  have hxy : k * x < k * y := by
    rw [← hx, ← hy]
    exact (b - start).isLt
  have hlt : ∀ u, k * x < k * u ↔ k * x + j < k * u := by
    intro u
    constructor
    · intro h
      have := Nat.mul_le_mul_left k (Nat.lt_of_mul_lt_mul_left h)
      rw [Nat.mul_succ] at this
      omega
    · omega
  have hsum := (hlt y).mp hxy
  have hmove : b + BitVec.ofNat w j - start = (b - start) + BitVec.ofNat w j := by
    simp only [BitVec.sub_eq_add_neg]
    ac_rfl
  rw [Within, Within, hmove, BitVec.toNat_add, BitVec.toNat_ofNat, hx, Nat.mod_eq_of_lt (show j < 2 ^ w by omega),
    Nat.mod_eq_of_lt (by omega)]
  exact (hlt z).symm

end

/-! ## Painting whole words -/

section
variable {ι : Type} {region : ι → BitVec w → Prop} {m m' : ByteMemory w} {i : ι} {c : BitVec 8} {b : BitVec w}
variable (hp : Paint.Painted region m m' i c) (hw : ∀ j < k, region i (b + BitVec.ofNat w j) ↔ region i b)
include hp hw

theorem uniform_of_painted (h : region i b) : Uniform k m' b := by
  intro j hj
  rw [(hp _).1 h, (hp _).1 ((hw j hj).mpr h)]

/-- **Painting whole words** keeps a uniform word uniform. -/
theorem Uniform.painted (h : Uniform k m b) : Uniform k m' b := by
  by_cases hin : region i b
  · exact uniform_of_painted hp hw hin
  · intro j hj
    rw [(hp _).2 hin, (hp _).2 (mt (hw j hj).mp hin)]
    exact h j hj

end

/-! ## Little-endian words -/

/-- The 32-bit word that a little-endian processor reads at `b`. -/
def word (m : ByteMemory w) (b : BitVec w) : BitVec 32 :=
  m (b + BitVec.ofNat w 3) ++ m (b + BitVec.ofNat w 2) ++ m (b + BitVec.ofNat w 1) ++ m b

theorem extractLsb'_bytes (b₃ b₂ b₁ b₀ : BitVec 8) :
    (b₃ ++ b₂ ++ b₁ ++ b₀).extractLsb' 0 8 = b₀ ∧ (b₃ ++ b₂ ++ b₁ ++ b₀).extractLsb' 8 8 = b₁ ∧
      (b₃ ++ b₂ ++ b₁ ++ b₀).extractLsb' 16 8 = b₂ ∧ (b₃ ++ b₂ ++ b₁ ++ b₀).extractLsb' 24 8 = b₃ := by
  refine ⟨BitVec.extractLsb'_append_eq_right, ?_, ?_, ?_⟩
  · exact (BitVec.extractLsb'_append_eq_of_le (Nat.le_refl 8)).trans BitVec.extractLsb'_append_eq_right
  · exact (BitVec.extractLsb'_append_eq_of_le (by omega)).trans
      ((BitVec.extractLsb'_append_eq_of_le (Nat.le_refl 8)).trans BitVec.extractLsb'_append_eq_right)
  · exact (BitVec.extractLsb'_append_eq_of_le (by omega)).trans
      ((BitVec.extractLsb'_append_eq_of_le (by omega)).trans BitVec.extractLsb'_append_eq_left)

theorem extractLsb'_word (m : ByteMemory w) (b : BitVec w) {j : Nat} (hj : j < 4) :
    (word m b).extractLsb' (8 * j) 8 = m (b + BitVec.ofNat w j) := by
  obtain ⟨h₀, h₁, h₂, h₃⟩ := extractLsb'_bytes (m (b + BitVec.ofNat w 3)) (m (b + BitVec.ofNat w 2))
    (m (b + BitVec.ofNat w 1)) (m b)
  rcases (show j = 0 ∨ j = 1 ∨ j = 2 ∨ j = 3 by omega) with rfl | rfl | rfl | rfl
  · rw [BitVec.add_zero]
    exact h₀
  · exact h₁
  · exact h₂
  · exact h₃

/-- **A uniform word reads the same in both byte orders.** -/
theorem Uniform.orders_agree {m : ByteMemory w} {b : BitVec w} (h : Uniform 4 m b) {j : Nat} (hj : j < 4) :
    (word m b).extractLsb' (8 * (3 - j)) 8 = m (b + BitVec.ofNat w j) := by
  rw [extractLsb'_word m b (by omega), h j hj, h (3 - j) (by omega)]

end ByteMemory
