import NiosSnake.CyclicWindow
import NiosSnake.VgaController

/-!
# The timing of a frame

What the registers of `vga_controller` go through in a window of one whole
frame, wherever it starts: each pixel of the screen once, the sync pulses in
runs of their length, and no pulse during the display time.
-/

namespace NiosSnake

open Finset

namespace Timing

variable (t : Timing)

def frame : Nat := t.hPeriod * t.vPeriod

theorem hRange : t.hPixels + t.hFp + t.hPulse ≤ t.hPeriod ∧ t.hPulse < t.hPeriod ∧ t.hPixels < t.hPeriod := by
  have := t.hPositive
  unfold hPeriod
  omega

theorem vRange : t.vPixels + t.vFp + t.vPulse ≤ t.vPeriod ∧ t.vPulse < t.vPeriod ∧ t.vPixels < t.vPeriod := by
  have := t.vPositive
  unfold vPeriod
  omega

end Timing

namespace VgaController

section
variable (t : Timing) {s : Nat} (hs : 1 ≤ s)
include hs

theorem card_display : ((Ico s (s + t.frame)).filter fun n => (run t n).dispEna = .one).card =
    t.hPixels * t.vPixels := by
  have hS : range t.hPixels ×ˢ range t.vPixels ⊆ range t.hPeriod ×ˢ range t.vPeriod :=
    product_subset_product (range_subset_range.mpr (Nat.le_of_lt t.hRange.2.2))
      (range_subset_range.mpr (Nat.le_of_lt t.vRange.2.2))
  have hcard := NestedCounter.card_window _ hS s
  rw [card_product, card_range, card_range] at hcard
  rw [← hcard]
  refine congrArg card (filter_congr fun n hn => ?_)
  rw [run_display_iff t (by have := (mem_Ico.mp hn).1; omega)]
  simp [NestedCounter.position]

theorem pixel_unique {r c : Nat} (hr : r < t.vPixels) (hc : c < t.hPixels) :
    ∃! n, n ∈ Ico s (s + t.frame) ∧ (run t n).dispEna = .one ∧ (run t n).row = r ∧ (run t n).column = c := by
  have hiff : ∀ n, (n ∈ Ico s (s + t.frame) ∧ (run t n).dispEna = .one ∧ (run t n).row = r ∧
      (run t n).column = c) ↔
        n ∈ Ico s (s + t.frame) ∧ NestedCounter.position t.hPeriod t.vPeriod n = (c, r) := by
    intro n
    refine and_congr_right fun hn => ?_
    have hn' : 1 ≤ n := by have := (mem_Ico.mp hn).1; omega
    simp only [NestedCounter.position, Prod.mk.injEq]
    constructor
    · rintro ⟨hd, hrow, hcol⟩
      obtain ⟨hcol', hrow'⟩ := run_pixel t hn' hd
      omega
    · rintro ⟨hcol, hrow⟩
      have hd := (run_display_iff t hn').mpr ⟨by omega, by omega⟩
      obtain ⟨hcol', hrow'⟩ := run_pixel t hn' hd
      exact ⟨hd, by rw [hrow', hrow], by rw [hcol', hcol]⟩
  simp only [hiff]
  exact NestedCounter.window_unique (by have := t.hRange; omega) (by have := t.vRange; omega) s

theorem hSync_runs :
    CyclicRuns (fun k => (run t (s + k)).hSync = hPol) t.frame t.vPeriod t.hPulse :=
  CyclicRuns.of_pulse t.hPositive.1 t.hRange.1 t.hRange.2.1 t.vPeriod_pos hs
    fun k => run_hSync_iff t (by omega)

theorem vSync_runs :
    CyclicRuns (fun k => (run t (s + k)).vSync = vPol) t.frame 1 (t.vPulse * t.hPeriod) := by
  have hp := t.hPeriod_pos
  have hwidth : t.vPulse * t.hPeriod < t.frame := by
    rw [Timing.frame, Nat.mul_comm]
    exact Nat.mul_lt_mul_of_pos_left t.vRange.2.1 hp
  have hend : t.hPeriod * (t.vPixels + t.vFp) + t.vPulse * t.hPeriod ≤ t.frame := by
    rw [Nat.mul_comm t.vPulse, ← Nat.mul_add]
    exact Nat.mul_le_mul_left _ t.vRange.1
  have h := CyclicRuns.of_pulse (A := fun k => (run t (s + k)).vSync = vPol)
    (Nat.mul_pos t.vPositive.1 hp) hend hwidth Nat.one_pos hs fun k => by
      rw [run_vSync_iff t (by omega)]
      exact NestedCounter.outer_range_iff hp _ _ _
  rwa [Nat.mul_one] at h

end

/-- **The timing in closed form**, for all timing constants: the counters after `n` edges; in every
window of one frame each pixel is displayed once and nothing else is, and the sync signals are
asserted in whole pulses, one a line and one a frame; no pulse falls into the display time. -/
theorem frame_timing (t : Timing) :
    (∀ n, 1 ≤ n → (run t n).hCount = n % t.hPeriod ∧ (run t n).vCount = n / t.hPeriod % t.vPeriod) ∧
    (∀ s, 1 ≤ s →
      ((Ico s (s + t.hPeriod * t.vPeriod)).filter fun n => (run t n).dispEna = .one).card =
        t.hPixels * t.vPixels ∧
      (∀ r < t.vPixels, ∀ c < t.hPixels, ∃! n, n ∈ Ico s (s + t.hPeriod * t.vPeriod) ∧
        (run t n).dispEna = .one ∧ (run t n).row = r ∧ (run t n).column = c) ∧
      CyclicRuns (fun k => (run t (s + k)).hSync = hPol) (t.hPeriod * t.vPeriod) t.vPeriod t.hPulse ∧
      CyclicRuns (fun k => (run t (s + k)).vSync = vPol) (t.hPeriod * t.vPeriod) 1
        (t.vPulse * t.hPeriod)) ∧
    ∀ n, 1 ≤ n → (run t n).dispEna = .one → (run t n).hSync ≠ hPol ∧ (run t n).vSync ≠ vPol := by
  refine ⟨fun n _ => ⟨run_hCount t n, run_vCount t n⟩, fun s hs => ⟨card_display t hs,
    fun r hr c hc => pixel_unique t hs hr hc, hSync_runs t hs, vSync_runs t hs⟩, fun n hn hd => ?_⟩
  obtain ⟨hc, hr⟩ := (run_display_iff t hn).mp hd
  rw [ne_eq, ne_eq, run_hSync_iff t hn, run_vSync_iff t hn]
  omega

end VgaController

end NiosSnake
