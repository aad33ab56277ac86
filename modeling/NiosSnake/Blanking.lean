import NiosSnake.PixelFetch
import NiosSnake.VgaTiming

/-!
# Blanking

The sync signals come straight from the timing process, the colours one
register later. A colour that is not black stems from the display time one
clock before, and from there the next clock is at most one column further.
-/

namespace NiosSnake

theorem DrawPixel.step_black (row column : Int) {dispEna : StdLogic} (memData : BitVec 32) (s : DrawPixel)
    (h : dispEna ≠ .one) : (s.step row column dispEna memData).Shows 0 := by
  rw [step, if_neg h]
  exact ⟨rfl, rfl, rfl⟩

namespace Display

variable (mem : Nat → BitVec 17 → BitVec 32)

theorem run_black {n : Nat} (h : ¬ (1 ≤ n ∧ rasterColumn n < 1280 ∧ rasterRow n < 1024)) :
    (run mem (n + 1)).draw.Shows 0 := by
  apply DrawPixel.step_black
  rw [run_vga]
  cases n with
  | zero => decide
  | succ n =>
    rw [ne_eq, VgaController.run_dispEna_iff]
    exact fun hd => h ⟨Nat.succ_pos n, hd⟩

/-- **Outside the visible area the colours are black**: during both sync pulses and both back porches,
after every edge. They are not black only if the counters were on the screen before the edge. -/
theorem blanking (n : Nat) :
    ((run mem (n + 1)).vga.hSync = hPol ∨ (run mem (n + 1)).vga.vSync = vPol ∨
      (displayTiming.hPixels + displayTiming.hFp + displayTiming.hPulse ≤ (run mem (n + 1)).vga.hCount ∧
        (run mem (n + 1)).vga.hCount < displayTiming.hPeriod) ∨
      (displayTiming.vPixels + displayTiming.vFp + displayTiming.vPulse ≤ (run mem (n + 1)).vga.vCount ∧
        (run mem (n + 1)).vga.vCount < displayTiming.vPeriod) →
      (run mem (n + 1)).draw.Shows 0) ∧
    (¬ (run mem (n + 1)).draw.Shows 0 →
      (run mem n).vga.hCount < displayTiming.hPixels ∧ (run mem n).vga.vCount < displayTiming.vPixels) := by
  simp only [run_vga, VgaController.run_hSync_iff displayTiming (Nat.succ_pos n),
    VgaController.run_vSync_iff displayTiming (Nat.succ_pos n), VgaController.run_hCount,
    VgaController.run_vCount]
  constructor
  · intro h
    apply run_black
    rintro ⟨_, hc, hr⟩
    -- from a visible column the raster goes on in the same row
    obtain ⟨_, hc', hr'⟩ | ⟨hlast, _⟩ | ⟨hlast, _⟩ := raster_next n
    · have hout : (1296 ≤ rasterColumn (n + 1) ∧ rasterColumn (n + 1) < 1440) ∨
          (1025 ≤ rasterRow (n + 1) ∧ rasterRow (n + 1) < 1028) ∨
          (1440 ≤ rasterColumn (n + 1) ∧ rasterColumn (n + 1) < 1688) ∨
          (1028 ≤ rasterRow (n + 1) ∧ rasterRow (n + 1) < 1066) := h
      omega
    · omega
    · omega
  · intro h
    by_contra hout
    exact h (run_black mem fun hd => hout hd.2)

end Display

end NiosSnake
