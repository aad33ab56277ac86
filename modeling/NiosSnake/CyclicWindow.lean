import Mathlib.Order.Interval.Finset.Nat
import Mathlib.Data.Finset.Prod
import NiosSnake.NestedCounter

/-!
# Windows of one whole cycle

In every `p * q` ticks in a row two nested counters take each pair of values
once, so a set of values is met as often as it has members. A signal that is on
for `len` values of a counter is on in runs of `len` ticks, one for each period.
-/

open Finset

namespace NestedCounter

variable {p q : Nat}

theorem position_eq_iff {h v : Nat} (hh : h < p) (hv : v < q) (n : Nat) :
    position p q n = (h, v) ↔ n % (p * q) = h + p * v := by
  have hp : 0 < p := by omega
  rw [position, Prod.mk.injEq, Nat.mod_mul]
  constructor
  · rintro ⟨rfl, rfl⟩
    rfl
  · intro he
    have hlt := Nat.mod_lt n hp
    have hmod : n % p = h := by
      have := congrArg (· % p) he
      simpa [Nat.add_mul_mod_self_left, Nat.mod_eq_of_lt hh] using this
    rw [hmod] at he
    exact ⟨hmod, Nat.eq_of_mul_eq_mul_left hp (Nat.add_left_cancel he)⟩

theorem window_unique {h v : Nat} (hh : h < p) (hv : v < q) (s : Nat) :
    ∃! n, n ∈ Ico s (s + p * q) ∧ position p q n = (h, v) := by
  have hlt : h + p * v < p * q := by
    have := Nat.mul_le_mul_left p hv
    rw [Nat.mul_succ] at this
    omega
  have hmem : h + p * v ∈ (Ico s (s + p * q)).image (· % (p * q)) := by
    rw [Nat.image_Ico_mod]
    exact mem_range.mpr hlt
  obtain ⟨n, hn, hmod⟩ := mem_image.mp hmem
  refine ⟨n, ⟨hn, (position_eq_iff hh hv n).mpr hmod⟩, ?_⟩
  rintro n' ⟨hn', h'⟩
  rw [position_eq_iff hh hv] at h'
  exact Nat.mod_injOn_Ico s (p * q) hn' hn (h'.trans hmod.symm)

theorem outer_range_iff (hp : 0 < p) (lo len n : Nat) :
    (lo ≤ n / p % q ∧ n / p % q < lo + len) ↔
      p * lo ≤ n % (p * q) ∧ n % (p * q) < p * lo + len * p := by
  rw [← Nat.mod_mul_right_div_self, Nat.le_div_iff_mul_le hp, Nat.div_lt_iff_lt_mul hp, Nat.add_mul,
    Nat.mul_comm lo]

theorem card_window (S : Finset (Nat × Nat)) (hS : S ⊆ range p ×ˢ range q) (s : Nat) :
    ((Ico s (s + p * q)).filter fun n => position p q n ∈ S).card = S.card := by
  refine card_bij (fun n _ => position p q n) (fun n hn => (mem_filter.mp hn).2) ?_ ?_
  · intro n hn n' hn' he
    obtain ⟨hw, hs⟩ := mem_filter.mp hn
    obtain ⟨hh, hv⟩ := mem_product.mp (hS hs)
    exact (window_unique (mem_range.mp hh) (mem_range.mp hv) s).unique ⟨hw, rfl⟩
      ⟨(mem_filter.mp hn').1, he.symm⟩
  · intro x hx
    obtain ⟨hh, hv⟩ := mem_product.mp (hS hx)
    obtain ⟨n, ⟨hw, hn⟩, _⟩ := window_unique (mem_range.mp hh) (mem_range.mp hv) s
    exact ⟨n, mem_filter.mpr ⟨hw, by rw [hn]; exact hx⟩, hn⟩

end NestedCounter

/-- On a cycle of `size` ticks, `A` holds in `count` runs of `len` ticks each. -/
structure CyclicRuns (A : Nat → Prop) [DecidablePred A] (size count len : Nat) : Prop where
  starts : ((range size).filter fun k => A k ∧ ¬ A ((k + size - 1) % size)).card = count
  length : ∀ k < size, A k → ¬ A ((k + size - 1) % size) →
    (∀ j < len, A ((k + j) % size)) ∧ ¬ A ((k + len) % size)

namespace CyclicRuns

variable {lo len p q : Nat}

/-- A pulse starts where the counter gets to `lo`. -/
theorem pulse_start_iff (hlen : 0 < len) (hlt : len < p) {n : Nat} (hn : 0 < n) :
    ((lo ≤ n % p ∧ n % p < lo + len) ∧ ¬ (lo ≤ (n - 1) % p ∧ (n - 1) % p < lo + len)) ↔ n % p = lo := by
  obtain ⟨m, rfl⟩ : ∃ m, n = m + 1 := ⟨n - 1, by omega⟩
  rw [Nat.add_sub_cancel, NestedCounter.succ_mod_eq (by omega)]
  have := Nat.mod_lt m (show 0 < p by omega)
  split <;> omega

theorem pulse_length (hp : lo + len ≤ p) (hlt : len < p) {n : Nat} (hn : n % p = lo) :
    (∀ j < len, lo ≤ (n + j) % p ∧ (n + j) % p < lo + len) ∧
      ¬ (lo ≤ (n + len) % p ∧ (n + len) % p < lo + len) := by
  have hshift : ∀ j, (n + j) % p = (lo + j) % p := by
    intro j
    rw [Nat.add_mod, hn, Nat.add_mod_mod]
  constructor
  · intro j hj
    rw [hshift, Nat.mod_eq_of_lt (by omega)]
    omega
  · rw [hshift]
    rcases Nat.lt_or_eq_of_le hp with h | h
    · rw [Nat.mod_eq_of_lt h]
      omega
    · -- the pulse ends with the period
      rw [h, Nat.mod_self]
      omega

theorem card_starts (hp : lo < p) (s : Nat) : ((range (p * q)).filter fun k => (s + k) % p = lo).card = q := by
  rcases Nat.eq_zero_or_pos q with rfl | hq
  · simp
  have hS : ({lo} ×ˢ range q : Finset (Nat × Nat)) ⊆ range p ×ˢ range q :=
    product_subset_product_left (singleton_subset_iff.mpr (mem_range.mpr hp))
  have hcard := NestedCounter.card_window _ hS s
  rw [card_product, card_singleton, card_range, Nat.one_mul] at hcard
  refine (card_bij (fun k _ => s + k) ?_ (fun _ _ _ _ h => Nat.add_left_cancel h) ?_).trans hcard
  · intro k hk
    simp only [mem_filter, mem_range] at hk
    simp [NestedCounter.position, hk, Nat.mod_lt _ hq]
  · intro n hn
    simp only [mem_filter, mem_Ico, NestedCounter.position, mem_product, mem_singleton] at hn
    refine ⟨n - s, ?_, by omega⟩
    simp only [mem_filter, mem_range]
    rw [Nat.add_sub_cancel' hn.1.1]
    exact ⟨by omega, hn.2.1⟩

/-- **A pulse of `len` ticks** from value `lo` of a counter of period `p`, over `q` periods. -/
theorem of_pulse (hlen : 0 < len) (hp : lo + len ≤ p) (hlt : len < p) (hq : 0 < q) {A : Nat → Prop}
    [DecidablePred A] {s : Nat} (hs : 0 < s)
    (hA : ∀ k, A k ↔ lo ≤ (s + k) % p ∧ (s + k) % p < lo + len) : CyclicRuns A (p * q) q len := by
  have hsize : 0 < p * q := Nat.mul_pos (by omega) hq
  have hwrap : ∀ k, A (k % (p * q)) ↔ lo ≤ (s + k) % p ∧ (s + k) % p < lo + len := by
    intro k
    rw [hA, Nat.add_mod s, Nat.mod_mul_right_mod, ← Nat.add_mod]
  have hstart : ∀ k, (A k ∧ ¬ A ((k + p * q - 1) % (p * q))) ↔ (s + k) % p = lo := by
    intro k
    -- a whole cycle earlier is no shift
    have hpred : (s + (k + p * q - 1)) % p = (s + k - 1) % p := by
      rw [show s + (k + p * q - 1) = s + k - 1 + p * q by omega, Nat.add_mul_mod_self_left]
    rw [hA, hwrap, hpred]
    exact pulse_start_iff hlen hlt (by omega)
  constructor
  · simp only [hstart]
    exact card_starts (by omega) s
  · intro k _ hon hoff
    have hk := (hstart k).mp ⟨hon, hoff⟩
    simp only [hwrap, ← Nat.add_assoc]
    exact pulse_length hp hlt hk

end CyclicRuns
