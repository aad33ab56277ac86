import NiosSnake.DrawPixel

/-!
# The pixel fetch in step with the raster

`vga_controller` and `draw_pixel` clocked together. The count, the address and
its vector are functions of the raster position and of the address left over
from the frame before, which is 0 in the first frame and 65536 in every later
one.
-/

namespace NiosSnake

structure Display where
  vga : VgaController
  draw : DrawPixel
  memData : BitVec 32

namespace Display

def powerUp : Display := ⟨.powerUp, .powerUp, 0⟩

/-- One clock edge. Each process reads the signals from before the edge; the memory puts out the
word at the address presented before it. -/
def edge (mem : BitVec 17 → BitVec 32) (s : Display) : Display where
  vga := s.vga.step displayTiming .one
  draw := s.draw.step s.vga.row s.vga.column s.vga.dispEna s.memData
  memData := mem s.draw.frameBufAddrVec

/-- `n` edges from power-up; `mem k` is the memory's content at edge `k`. -/
def run (mem : Nat → BitVec 17 → BitVec 32) : Nat → Display
  | 0 => powerUp
  | n + 1 => (run mem n).edge (mem n)

theorem run_vga (mem : Nat → BitVec 17 → BitVec 32) : ∀ n, (run mem n).vga = VgaController.run displayTiming n
  | 0 => rfl
  | n + 1 => by rw [run, edge, run_vga mem n]; rfl

end Display

/-! ## The raster -/

def rasterRow (n : Nat) : Nat := n / 1688 % 1066

def rasterColumn (n : Nat) : Nat := n % 1688

theorem raster_next (n : Nat) :
    (rasterColumn n < 1687 ∧ rasterColumn (n + 1) = rasterColumn n + 1 ∧ rasterRow (n + 1) = rasterRow n) ∨
    (rasterColumn n = 1687 ∧ rasterRow n < 1065 ∧ rasterColumn (n + 1) = 0 ∧
      rasterRow (n + 1) = rasterRow n + 1) ∨
    (rasterColumn n = 1687 ∧ rasterRow n = 1065 ∧ rasterColumn (n + 1) = 0 ∧ rasterRow (n + 1) = 0) := by
  unfold rasterRow rasterColumn
  omega

namespace VgaController

/-- The coordinates follow the counters and keep their last value outside the display time. -/
theorem run_coordinates : ∀ n, (run displayTiming (n + 1)).column = (min (rasterColumn (n + 1)) 1279 : Nat) ∧
    (run displayTiming (n + 1)).row = (min (rasterRow (n + 1)) 1023 : Nat)
  | 0 => by decide
  | n + 1 => by
    obtain ⟨hc, hr⟩ := run_coordinates n
    rw [run_column, run_row, run_hCount, run_vCount, hc, hr, displayTiming_hPeriod, displayTiming_vPeriod,
      displayTiming_hPixels, displayTiming_vPixels]
    unfold rasterRow rasterColumn
    constructor
    · split <;> omega
    · split <;> omega

theorem run_dispEna_iff (n : Nat) : (run displayTiming (n + 1)).dispEna = .one ↔
    rasterColumn (n + 1) < 1280 ∧ rasterRow (n + 1) < 1024 := by
  rw [run_display_iff displayTiming (Nat.succ_pos n), displayTiming_hPeriod, displayTiming_vPeriod,
    displayTiming_hPixels, displayTiming_vPixels]
  rfl

end VgaController

namespace Display

variable (mem : Nat → BitVec 17 → BitVec 32)

def AtReset (s : Display) : Prop := DrawPixel.AtReset s.vga.row s.vga.column

def InWindow (s : Display) : Prop := s.vga.dispEna = .one ∧ DrawPixel.InWindow s.vga.row s.vga.column

def entryCount (s : Display) : Nat := s.draw.entryCount s.vga.row s.vga.column

def Increments (s : Display) : Prop := s.draw.Increments s.vga.row s.vga.column s.vga.dispEna

instance (s : Display) : Decidable s.AtReset := inferInstanceAs (Decidable (DrawPixel.AtReset ..))
instance (s : Display) : Decidable s.InWindow := inferInstanceAs (Decidable (_ ∧ _))
instance (s : Display) : Decidable s.Increments := inferInstanceAs (Decidable (DrawPixel.Increments ..))

theorem run_atReset_iff (n : Nat) : (run mem n).AtReset ↔ rasterRow n = 256 ∧ rasterColumn n = 320 := by
  rw [AtReset, run_vga]
  cases n with
  | zero => decide
  | succ n =>
    obtain ⟨hc, hr⟩ := VgaController.run_coordinates n
    rw [DrawPixel.AtReset, hc, hr]
    omega

theorem run_inWindow_iff (n : Nat) : (run mem n).InWindow ↔
    (256 ≤ rasterRow n ∧ rasterRow n < 768) ∧ 320 ≤ rasterColumn n ∧ rasterColumn n < 832 := by
  rw [InWindow, run_vga]
  cases n with
  | zero => decide
  | succ n =>
    obtain ⟨hc, hr⟩ := VgaController.run_coordinates n
    rw [VgaController.run_dispEna_iff, DrawPixel.InWindow, hc, hr]
    omega

end Display

/-! ## The fetch as a function of the position -/

def pixelCount (v h : Nat) : Nat := if 256 ≤ v ∧ v < 768 then min (h - 320) 512 % 4 else 0

def fetched (v h : Nat) : Nat :=
  128 * min (v - 256) 512 + if 256 ≤ v ∧ v < 768 then min ((h - 319) / 4) 128 else 0

def BeforeReset (v h : Nat) : Prop := v < 256 ∨ v = 256 ∧ h ≤ 320

instance (v h : Nat) : Decidable (BeforeReset v h) := inferInstanceAs (Decidable (_ ∨ _))

def fetchAddr (base v h : Nat) : Nat := if BeforeReset v h then base else fetched v h

/-- The address one increment ago; after the reset pixel still what the last frame left. -/
def fetchVec (base v h : Nat) : Nat :=
  if BeforeReset v h then base - 1 else if fetched v h = 0 then base else fetched v h - 1

def frameBase (n : Nat) : Nat := if n < 1688 * 1066 then 0 else 65536

theorem fetched_le (v h : Nat) : fetched v h ≤ 65536 := by
  unfold fetched
  split <;> omega

theorem frameBase_le (n : Nat) : frameBase n ≤ 65536 := by
  unfold frameBase
  split <;> omega

theorem frameBase_succ (n : Nat) : frameBase (n + 1) =
    if rasterRow n = 1065 ∧ rasterColumn n = 1687 then 65536 else frameBase n := by
  unfold frameBase rasterRow rasterColumn
  split <;> split <;> first | rfl | (split <;> omega) | omega

/-! Inside the game screen. -/

section
variable {v h : Nat} (hw : (256 ≤ v ∧ v < 768) ∧ 320 ≤ h ∧ h < 832)
include hw

theorem pixelCount_window : pixelCount v h = (h - 320) % 4 := by
  unfold pixelCount
  rw [if_pos hw.1, Nat.min_eq_left (by omega)]

theorem pixelCount_succ : pixelCount v (h + 1) = (pixelCount v h + 1) % 4 := by
  unfold pixelCount
  rw [if_pos hw.1, if_pos hw.1]
  omega

theorem fetched_succ : fetched v (h + 1) = if pixelCount v h = 2 then fetched v h + 1 else fetched v h := by
  rw [pixelCount_window hw]
  unfold fetched
  rw [if_pos hw.1, if_pos hw.1]
  split <;> omega

theorem not_beforeReset_succ : ¬ BeforeReset v (h + 1) := by
  unfold BeforeReset
  omega

theorem beforeReset_window : BeforeReset v h ↔ v = 256 ∧ h = 320 := by
  unfold BeforeReset
  omega

theorem fetchAddr_succ (base : Nat) : fetchAddr base v (h + 1) =
    if pixelCount v h = 2 then fetchAddr base v h + 1
    else if v = 256 ∧ h = 320 then 0 else fetchAddr base v h := by
  rw [fetchAddr, fetchAddr, if_neg (not_beforeReset_succ hw), fetched_succ hw]
  simp only [beforeReset_window hw]
  by_cases hr : v = 256 ∧ h = 320
  · obtain ⟨rfl, rfl⟩ := hr
    rw [if_neg (by decide), if_neg (by decide), if_pos ⟨rfl, rfl⟩]
    decide
  · simp only [if_neg hr]

theorem fetchVec_succ (base : Nat) : fetchVec base v (h + 1) =
    if pixelCount v h = 2 ∨ v = 256 ∧ h = 320 then fetchAddr base v h else fetchVec base v h := by
  rw [fetchVec, fetchVec, fetchAddr, if_neg (not_beforeReset_succ hw), fetched_succ hw]
  simp only [beforeReset_window hw]
  by_cases hr : v = 256 ∧ h = 320
  · obtain ⟨rfl, rfl⟩ := hr
    rw [if_neg (show ¬ pixelCount 256 320 = 2 by decide), if_pos (show fetched 256 320 = 0 by decide),
      if_pos (Or.inr ⟨rfl, rfl⟩), if_pos ⟨rfl, rfl⟩]
  · simp only [if_neg hr, or_iff_left hr]
    by_cases hc : pixelCount v h = 2
    · rw [if_pos hc, if_pos hc, if_neg (Nat.succ_ne_zero _)]
      rfl
    · simp only [if_neg hc]

end

/-! Elsewhere everything stays, also over the end of a line and of a frame. -/

section
variable {n : Nat}
variable (hw : ¬ ((256 ≤ rasterRow n ∧ rasterRow n < 768) ∧ 320 ≤ rasterColumn n ∧ rasterColumn n < 832))
include hw

theorem pixelCount_outside :
    pixelCount (rasterRow (n + 1)) (rasterColumn (n + 1)) = pixelCount (rasterRow n) (rasterColumn n) := by
  unfold pixelCount
  rcases raster_next n with ⟨h₁, h₂, h₃⟩ | ⟨h₁, h₂, h₃, h₄⟩ | ⟨h₁, h₂, h₃, h₄⟩
  · rw [h₂, h₃]
    split <;> omega
  · rw [h₃, h₄]
    split <;> split <;> omega
  · rw [h₁, h₂, h₃, h₄]
    rfl

theorem fetched_outside (hr : ¬ (rasterRow n = 1065 ∧ rasterColumn n = 1687)) :
    fetched (rasterRow (n + 1)) (rasterColumn (n + 1)) = fetched (rasterRow n) (rasterColumn n) ∧
      (BeforeReset (rasterRow (n + 1)) (rasterColumn (n + 1)) ↔ BeforeReset (rasterRow n) (rasterColumn n)) := by
  unfold fetched BeforeReset
  rcases raster_next n with ⟨h₁, h₂, h₃⟩ | ⟨h₁, h₂, h₃, h₄⟩ | ⟨h₁, h₂, h₃, h₄⟩
  · rw [h₂, h₃]
    constructor
    · split <;> omega
    · omega
  · rw [h₃, h₄]
    constructor
    · split <;> split <;> omega
    · omega
  · exact absurd ⟨h₂, h₁⟩ hr

theorem fetch_outside :
    fetchAddr (frameBase (n + 1)) (rasterRow (n + 1)) (rasterColumn (n + 1)) =
        fetchAddr (frameBase n) (rasterRow n) (rasterColumn n) ∧
      fetchVec (frameBase (n + 1)) (rasterRow (n + 1)) (rasterColumn (n + 1)) =
        fetchVec (frameBase n) (rasterRow n) (rasterColumn n) := by
  rw [frameBase_succ]
  by_cases hr : rasterRow n = 1065 ∧ rasterColumn n = 1687
  · have hnext := raster_next n
    rw [hr.1, hr.2, if_pos ⟨rfl, rfl⟩, show rasterRow (n + 1) = 0 by omega,
      show rasterColumn (n + 1) = 0 by omega]
    exact ⟨rfl, rfl⟩
  · obtain ⟨h₁, h₂⟩ := fetched_outside hw hr
    rw [if_neg hr]
    simp only [fetchAddr, fetchVec, h₁, h₂, and_self]

end

/-! ## Runs -/

structure InStep (n : Nat) (s : Display) : Prop where
  count : s.draw.count = pixelCount (rasterRow n) (rasterColumn n)
  addr : s.draw.frameBufAddr = fetchAddr (frameBase n) (rasterRow n) (rasterColumn n)
  addrVec : s.draw.frameBufAddrVec.toNat = fetchVec (frameBase n) (rasterRow n) (rasterColumn n)

theorem pixelCount_le (v h : Nat) : pixelCount v h ≤ 3 := by
  unfold pixelCount
  split <;> omega

theorem fetchAddr_le (n v h : Nat) : fetchAddr (frameBase n) v h ≤ 65536 := by
  unfold fetchAddr
  split
  · exact frameBase_le n
  · exact fetched_le v h

theorem fetchVec_le (n v h : Nat) : fetchVec (frameBase n) v h ≤ 65536 := by
  have h₁ := frameBase_le n
  have h₂ := fetched_le v h
  unfold fetchVec
  split
  · omega
  · split <;> omega

namespace Display

section
variable {mem : Nat → BitVec 17 → BitVec 32} {n : Nat}

/-! The edge, register by register. -/

theorem run_count (h : (run mem n).draw.count ≤ 3) : (run mem (n + 1)).draw.count =
    if (run mem n).InWindow then ((run mem n).entryCount + 1) % 4 else (run mem n).entryCount :=
  DrawPixel.step_count _ _ _ _ _ h

theorem run_addr : (run mem (n + 1)).draw.frameBufAddr =
    if (run mem n).Increments then (run mem n).draw.frameBufAddr + 1
    else if (run mem n).AtReset then 0 else (run mem n).draw.frameBufAddr :=
  DrawPixel.step_addr ..

theorem run_addrVec : (run mem (n + 1)).draw.frameBufAddrVec =
    if (run mem n).Increments ∨ (run mem n).AtReset then BitVec.ofNat 17 (run mem n).draw.frameBufAddr
    else (run mem n).draw.frameBufAddrVec :=
  DrawPixel.step_addrVec ..

/-- Starting over at the reset pixel sets the count to the value it has there already. -/
theorem entryCount_inStep (h : InStep n (run mem n)) :
    (run mem n).entryCount = pixelCount (rasterRow n) (rasterColumn n) := by
  rw [entryCount, DrawPixel.entryCount_eq, h.count]
  split
  · rename_i hr
    obtain ⟨h₁, h₂⟩ := (run_atReset_iff mem n).mp hr
    rw [h₁, h₂]
    rfl
  · rfl

theorem increments_inStep (h : InStep n (run mem n)) :
    (run mem n).Increments ↔ (run mem n).InWindow ∧ pixelCount (rasterRow n) (rasterColumn n) = 2 := by
  rw [← entryCount_inStep h, InWindow, and_assoc]
  rfl

theorem inStep_next (h : InStep n (run mem n)) : InStep (n + 1) (run mem (n + 1)) := by
  have hc : (run mem n).draw.count ≤ 3 := h.count ▸ pixelCount_le ..
  have hvec : ((run mem (n + 1)).draw.frameBufAddrVec).toNat =
      if (run mem n).Increments ∨ (run mem n).AtReset then (run mem n).draw.frameBufAddr
      else (run mem n).draw.frameBufAddrVec.toNat := by
    have hle : (run mem n).draw.frameBufAddr ≤ 65536 := h.addr ▸ fetchAddr_le ..
    rw [run_addrVec]
    split
    · exact Nat.mod_eq_of_lt (by omega)
    · rfl
  have hw := run_inWindow_iff mem n
  have hinc := increments_inStep h
  by_cases hin : (run mem n).InWindow
  · -- a pixel of the game screen: the raster goes one column on
    have hpos := hw.mp hin
    have hnext := raster_next n
    have hcol : rasterColumn (n + 1) = rasterColumn n + 1 := by omega
    have hrow : rasterRow (n + 1) = rasterRow n := by omega
    have hbase : frameBase (n + 1) = frameBase n := by rw [frameBase_succ, if_neg (by omega)]
    have hreset := run_atReset_iff mem n
    simp only [hin, true_and] at hinc
    refine ⟨?_, ?_, ?_⟩ <;> rw [hrow, hcol]
    · rw [run_count hc, if_pos hin, entryCount_inStep h, pixelCount_succ hpos]
    · rw [run_addr, h.addr, hbase, fetchAddr_succ hpos]
      simp only [hinc, hreset]
    · rw [hvec, h.addr, h.addrVec, hbase, fetchVec_succ hpos]
      simp only [hinc, hreset]
  · have hpos := mt hw.mpr hin
    have hreset : ¬ (run mem n).AtReset := fun hr => hpos (by have := (run_atReset_iff mem n).mp hr; omega)
    have hinc' : ¬ (run mem n).Increments := fun hi => hin (hinc.mp hi).1
    obtain ⟨haddr, haddrVec⟩ := fetch_outside hpos
    refine ⟨?_, ?_, ?_⟩
    · rw [run_count hc, if_neg hin, entryCount_inStep h, pixelCount_outside hpos]
    · rw [run_addr, if_neg hinc', if_neg hreset, h.addr, haddr]
    · rw [hvec, if_neg (not_or.mpr ⟨hinc', hreset⟩), h.addrVec, haddrVec]

/-- **The fetch is in step with the raster**, whatever the memory holds. -/
theorem run_inStep (mem : Nat → BitVec 17 → BitVec 32) : ∀ n, InStep n (run mem n)
  | 0 => ⟨rfl, rfl, rfl⟩
  | n + 1 => inStep_next (run_inStep mem n)

end

/-! ## Between two reset pixels -/

section
variable (mem : Nat → BitVec 17 → BitVec 32)

def increments (n k : Nat) : Nat := (List.range k).countP fun i => (run mem (n + i)).Increments

theorem increments_succ (n k : Nat) : increments mem n (k + 1) =
    increments mem n k + if (run mem (n + k)).Increments then 1 else 0 := by
  simp only [increments, List.range_succ, List.countP_append, List.countP_singleton, decide_eq_true_eq]

theorem not_increments_of_atReset {n : Nat} (h : (run mem n).AtReset) : ¬ (run mem n).Increments := by
  intro hi
  obtain ⟨h₁, h₂⟩ := (run_atReset_iff mem n).mp h
  have hc := ((increments_inStep (run_inStep mem n)).mp hi).2
  rw [h₁, h₂] at hc
  exact absurd hc (by decide)

theorem addr_eq_increments {n : Nat} (h : (run mem n).AtReset) : ∀ k,
    (∀ j, n < j → j < n + 1 + k → ¬ (run mem j).AtReset) →
      (run mem (n + 1 + k)).draw.frameBufAddr = increments mem n (k + 1)
  | 0, _ => by
    have hi := not_increments_of_atReset mem h
    rw [Nat.add_zero, run_addr, if_neg hi, if_pos h, increments_succ, Nat.add_zero, if_neg hi]
    rfl
  | k + 1, hno => by
    have ih := addr_eq_increments h k fun j hj hj' => hno j hj (by omega)
    rw [increments_succ, ← ih, show n + 1 + (k + 1) = n + 1 + k + 1 by omega,
      show n + (k + 1) = n + 1 + k by omega, run_addr, if_neg (hno (n + 1 + k) (by omega) (by omega))]
    split <;> rfl

/-- **A frame increments the address 65536 times.** -/
theorem increments_between_resets {n n' : Nat} (hlt : n < n') (h : (run mem n).AtReset)
    (h' : (run mem n').AtReset) (hno : ∀ j, n < j → j < n' → ¬ (run mem j).AtReset) :
    increments mem n (n' - n) = 65536 := by
  obtain ⟨k, rfl⟩ : ∃ k, n' = n + 1 + k := ⟨n' - (n + 1), by omega⟩
  obtain ⟨h₁, h₂⟩ := (run_atReset_iff mem n).mp h
  obtain ⟨h₁', h₂'⟩ := (run_atReset_iff mem _).mp h'
  rw [show n + 1 + k - n = k + 1 by omega, ← addr_eq_increments mem h k hno,
    (run_inStep mem _).addr, h₁', h₂']
  show frameBase (n + 1 + k) = 65536
  unfold rasterRow rasterColumn at *
  unfold frameBase
  exact if_neg (by omega)

/-- **The fetch counters stay in range and in step.** -/
theorem fetch_in_range (n : Nat) :
    (run mem n).draw.frameBufAddr ≤ 65536 ∧
    ((run mem n).Increments → (run mem n).draw.frameBufAddr + 1 ≤ 65536) ∧
    (run mem n).draw.frameBufAddrVec.toNat ≤ 65536 ∧
    (run mem n).draw.count ≤ 3 ∧ (run mem n).entryCount ≤ 3 ∧
    ((run mem n).InWindow → ((run mem n).entryCount : Int) = ((run mem n).vga.column - 320) % 4) ∧
    ∀ n' > n, (run mem n).AtReset → (run mem n').AtReset →
      (∀ j, n < j → j < n' → ¬ (run mem j).AtReset) → increments mem n (n' - n) = 65536 := by
  have hs := run_inStep mem n
  refine ⟨hs.addr ▸ fetchAddr_le .., fun hi => ?_, hs.addrVec ▸ fetchVec_le .., hs.count ▸ pixelCount_le ..,
    entryCount_inStep hs ▸ pixelCount_le .., fun hw => ?_,
    fun n' hlt h h' hno => increments_between_resets mem hlt h h' hno⟩
  · have hnext : (run mem (n + 1)).draw.frameBufAddr ≤ 65536 :=
      (run_inStep mem (n + 1)).addr ▸ fetchAddr_le ..
    rwa [run_addr, if_pos hi] at hnext
  · have hpos := (run_inWindow_iff mem n).mp hw
    rw [entryCount_inStep hs, pixelCount_window hpos, run_vga]
    cases n with
    | zero => exact absurd hpos (by decide)
    | succ n =>
      rw [(VgaController.run_coordinates n).1]
      omega

end

end Display

end NiosSnake
