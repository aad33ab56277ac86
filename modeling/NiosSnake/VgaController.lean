import NiosSnake.NestedCounter

/-!
# `vga_controller`

The timing process: two counters, the sync and display-enable signals computed
from their new values, and the pixel coordinates, which keep their last value
outside the display time.
-/

namespace NiosSnake

inductive StdLogic where
  | uninitialized
  | unknown
  | zero
  | one
  | highImpedance
  | weakUnknown
  | weakZero
  | weakOne
  | dontCare
  deriving DecidableEq, Repr

def StdLogic.not : StdLogic → StdLogic
  | uninitialized => uninitialized
  | zero | weakZero => one
  | one | weakOne => zero
  | _ => unknown

structure Timing where
  hPulse : Nat
  hBp : Nat
  hPixels : Nat
  hFp : Nat
  vPulse : Nat
  vBp : Nat
  vPixels : Nat
  vFp : Nat
  hPositive : 0 < hPulse ∧ 0 < hBp ∧ 0 < hPixels ∧ 0 < hFp
  vPositive : 0 < vPulse ∧ 0 < vBp ∧ 0 < vPixels ∧ 0 < vFp

namespace Timing

def hPeriod (t : Timing) : Nat := t.hPulse + t.hBp + t.hPixels + t.hFp
def vPeriod (t : Timing) : Nat := t.vPulse + t.vBp + t.vPixels + t.vFp

theorem hPeriod_pos (t : Timing) : 0 < t.hPeriod := by
  have := t.hPositive
  unfold hPeriod
  omega

theorem vPeriod_pos (t : Timing) : 0 < t.vPeriod := by
  have := t.vPositive
  unfold vPeriod
  omega

end Timing

def hPol : StdLogic := .one
def vPol : StdLogic := .one

def displayTiming : Timing where
  hPulse := 144
  hBp := 248
  hPixels := 1280
  hFp := 16
  vPulse := 3
  vBp := 38
  vPixels := 1024
  vFp := 1
  hPositive := by decide
  vPositive := by decide

theorem displayTiming_hPeriod : displayTiming.hPeriod = 1688 := rfl
theorem displayTiming_vPeriod : displayTiming.vPeriod = 1066 := rfl
theorem displayTiming_hPixels : displayTiming.hPixels = 1280 := rfl
theorem displayTiming_vPixels : displayTiming.vPixels = 1024 := rfl

structure VgaController where
  hCount : Nat
  vCount : Nat
  hSync : StdLogic
  vSync : StdLogic
  dispEna : StdLogic
  column : Int
  row : Int

namespace VgaController

/-- Signals without a default start at the leftmost value of their type. -/
def powerUp : VgaController where
  hCount := 0
  vCount := 0
  hSync := .uninitialized
  vSync := .uninitialized
  dispEna := .uninitialized
  column := -2147483648
  row := -2147483648

def step (t : Timing) (resetN : StdLogic) (s : VgaController) : VgaController :=
  if resetN = .zero then
    { hCount := 0, vCount := 0, hSync := hPol.not, vSync := vPol.not, dispEna := .zero, column := 0, row := 0 }
  else
    let hCount := if s.hCount < t.hPeriod - 1 then s.hCount + 1 else 0
    let vCount :=
      if s.hCount < t.hPeriod - 1 then s.vCount
      else if s.vCount < t.vPeriod - 1 then s.vCount + 1 else 0
    { hCount := hCount
      vCount := vCount
      hSync :=
        if hCount < t.hPixels + t.hFp ∨ hCount ≥ t.hPixels + t.hFp + t.hPulse then hPol.not else hPol
      vSync :=
        if vCount < t.vPixels + t.vFp ∨ vCount ≥ t.vPixels + t.vFp + t.vPulse then vPol.not else vPol
      dispEna := if hCount < t.hPixels ∧ vCount < t.vPixels then .one else .zero
      column := if hCount < t.hPixels then hCount else s.column
      row := if vCount < t.vPixels then vCount else s.row }

/-- `n` edges from power-up with `reset_n` held at '1'. -/
def run (t : Timing) : Nat → VgaController
  | 0 => powerUp
  | n + 1 => (run t n).step t .one

section
variable (t : Timing)

theorem step_counts (s : VgaController) :
    ((s.step t .one).hCount, (s.step t .one).vCount) =
      NestedCounter.tick t.hPeriod t.vPeriod s.hCount s.vCount := by
  rw [step, if_neg (by decide), NestedCounter.tick]
  split <;> rfl

/-- **The counters in closed form.** -/
theorem run_counts : ∀ n, ((run t n).hCount, (run t n).vCount) = NestedCounter.position t.hPeriod t.vPeriod n
  | 0 => by
    simp only [run, powerUp, NestedCounter.position, Nat.zero_mod, Nat.zero_div]
  | n + 1 => by
    obtain ⟨hh, hv⟩ := Prod.mk.inj (run_counts n)
    rw [run, step_counts, hh, hv, NestedCounter.tick_position t.hPeriod_pos t.vPeriod_pos]

theorem run_hCount (n : Nat) : (run t n).hCount = n % t.hPeriod := congrArg Prod.fst (run_counts t n)

theorem run_vCount (n : Nat) : (run t n).vCount = n / t.hPeriod % t.vPeriod :=
  congrArg Prod.snd (run_counts t n)

theorem run_dispEna (n : Nat) : (run t (n + 1)).dispEna =
    if (run t (n + 1)).hCount < t.hPixels ∧ (run t (n + 1)).vCount < t.vPixels then .one else .zero := rfl

theorem run_column (n : Nat) : (run t (n + 1)).column =
    if (run t (n + 1)).hCount < t.hPixels then ((run t (n + 1)).hCount : Int) else (run t n).column := rfl

theorem run_row (n : Nat) : (run t (n + 1)).row =
    if (run t (n + 1)).vCount < t.vPixels then ((run t (n + 1)).vCount : Int) else (run t n).row := rfl

end

/-! ## The outputs, by raster position -/

section
variable (t : Timing) {n : Nat} (hn : 1 ≤ n)
include hn

theorem run_hSync_iff : (run t n).hSync = hPol ↔
    t.hPixels + t.hFp ≤ n % t.hPeriod ∧ n % t.hPeriod < t.hPixels + t.hFp + t.hPulse := by
  obtain ⟨n, rfl⟩ : ∃ k, n = k + 1 := ⟨n - 1, by omega⟩
  have h : (run t (n + 1)).hSync = if (run t (n + 1)).hCount < t.hPixels + t.hFp ∨
      (run t (n + 1)).hCount ≥ t.hPixels + t.hFp + t.hPulse then hPol.not else hPol := rfl
  rw [h, run_hCount]
  split
  · simp only [hPol, StdLogic.not, reduceCtorEq, false_iff]
    omega
  · simp only [true_iff]
    omega

theorem run_vSync_iff : (run t n).vSync = vPol ↔
    t.vPixels + t.vFp ≤ n / t.hPeriod % t.vPeriod ∧
      n / t.hPeriod % t.vPeriod < t.vPixels + t.vFp + t.vPulse := by
  obtain ⟨n, rfl⟩ : ∃ k, n = k + 1 := ⟨n - 1, by omega⟩
  have h : (run t (n + 1)).vSync = if (run t (n + 1)).vCount < t.vPixels + t.vFp ∨
      (run t (n + 1)).vCount ≥ t.vPixels + t.vFp + t.vPulse then vPol.not else vPol := rfl
  rw [h, run_vCount]
  split
  · simp only [vPol, StdLogic.not, reduceCtorEq, false_iff]
    omega
  · simp only [true_iff]
    omega

theorem run_display_iff : (run t n).dispEna = .one ↔
    n % t.hPeriod < t.hPixels ∧ n / t.hPeriod % t.vPeriod < t.vPixels := by
  obtain ⟨n, rfl⟩ : ∃ k, n = k + 1 := ⟨n - 1, by omega⟩
  rw [run_dispEna, run_hCount, run_vCount]
  split
  · rename_i h
    exact iff_of_true rfl h
  · rename_i h
    exact iff_of_false (by decide) h

-- While the display is enabled the coordinates are the counters.
theorem run_pixel (h : (run t n).dispEna = .one) :
    (run t n).column = (n % t.hPeriod : Nat) ∧ (run t n).row = (n / t.hPeriod % t.vPeriod : Nat) := by
  obtain ⟨hc, hr⟩ := (run_display_iff t hn).mp h
  obtain ⟨n, rfl⟩ : ∃ k, n = k + 1 := ⟨n - 1, by omega⟩
  rw [run_column, run_row, run_hCount, run_vCount, if_pos hc, if_pos hr]
  exact ⟨rfl, rfl⟩

end

end VgaController

end NiosSnake
