import NiosSnake.ByteLanes
import NiosSnake.PixelFetch

/-!
# Which word a pixel shows

The vector that addresses the memory trails the address by one increment, so
the four pixels of word `w` show word `w - 1`. Before word 1 the vector still
holds what the last frame left: the four pixels of word 0 show words 65535 and
65536, in the first frame word 0.
-/

namespace NiosSnake

def wordAt (mem : BitVec 17 → BitVec 32) (a : Nat) : BitVec 32 := mem (BitVec.ofNat 17 a)

def AtPixel (s : Display) (r c : Nat) : Prop :=
  s.vga.dispEna = .one ∧ s.vga.row = 256 + (r : Int) ∧ s.vga.column = 320 + (c : Int)

def ShowsFrameBuffer (mem : BitVec 17 → BitVec 32) : Prop :=
  ∀ n r c, r ≤ 511 → c ≤ 511 → AtPixel (Display.run (fun _ => mem) n) r c →
    (Display.run (fun _ => mem) (n + 1)).draw.Shows (lane (wordAt mem (128 * r + c / 4)) (3 - c % 4))

/-- The word a pixel shows, `base` being what the last frame left in the address. -/
def shownWord (base r c : Nat) : Nat :=
  if 128 * r + c / 4 = 0 then if c < 2 then base - 1 else base else 128 * r + c / 4 - 1

theorem fetchVec_pixel (base : Nat) {r c : Nat} (hr : r ≤ 511) (hc : c ≤ 511) :
    fetchVec base (256 + r) (319 + c) = shownWord base r c := by
  have hf : fetched (256 + r) (319 + c) = 128 * r + c / 4 := by
    unfold fetched
    rw [if_pos (by omega)]
    omega
  have hb : BeforeReset (256 + r) (319 + c) ↔ r = 0 ∧ c < 2 := by
    unfold BeforeReset
    omega
  rw [fetchVec, hf, shownWord]
  simp only [hb]
  by_cases h : 128 * r + c / 4 = 0
  · obtain rfl : r = 0 := by omega
    simp only [if_pos h, true_and]
  · rw [if_neg h, if_neg h, if_neg (by omega)]

section
variable (mem : BitVec 17 → BitVec 32)

theorem atPixel_iff (n : Nat) {r c : Nat} (hr : r ≤ 511) (hc : c ≤ 511) :
    AtPixel (Display.run (fun _ => mem) n) r c ↔ rasterRow n = 256 + r ∧ rasterColumn n = 320 + c := by
  rw [AtPixel, Display.run_vga]
  cases n with
  | zero =>
    refine iff_of_false (fun h => ?_) (by unfold rasterRow; omega)
    exact absurd h.1 (by decide)
  | succ n =>
    obtain ⟨h₁, h₂⟩ := VgaController.run_coordinates n
    rw [VgaController.run_dispEna_iff, h₁, h₂]
    omega

/-- **What a pixel shows**: one lane of the word before its own, as the memory was two edges before. -/
theorem pixel_shows_at (mem : Nat → BitVec 17 → BitVec 32) {n r c : Nat} (hr : r ≤ 511) (hc : c ≤ 511)
    (h : rasterRow n = 256 + r ∧ rasterColumn n = 320 + c) :
    (Display.run mem (n + 1)).draw.Shows
      (lane (wordAt (mem (n - 1)) (shownWord (frameBase n) r c)) (3 - c % 4)) := by
  obtain ⟨n, rfl⟩ : ∃ k, n = k + 1 := ⟨n - 1, by unfold rasterRow at h; omega⟩
  have hs := Display.run_inStep mem (n + 1)
  have hprev := (Display.run_inStep mem n).addrVec
  have hin := (Display.run_inWindow_iff mem (n + 1)).mpr (by omega)
  have hcount : (Display.run mem (n + 1)).entryCount = c % 4 := by
    rw [Display.entryCount_inStep hs, h.1, h.2, pixelCount_window (by omega), Nat.add_sub_cancel_left]
  -- the word read at the edge before, from the address presented then
  have hcol : rasterRow n = 256 + r ∧ rasterColumn n = 319 + c := by
    unfold rasterRow rasterColumn at *
    omega
  have hbase : frameBase (n + 1) = frameBase n := by rw [frameBase_succ, if_neg (by omega)]
  have hword : (Display.run mem (n + 1)).memData = wordAt (mem n) (shownWord (frameBase (n + 1)) r c) := by
    have hread : (Display.run mem (n + 1)).memData = mem n (Display.run mem n).draw.frameBufAddrVec := rfl
    rw [hread, hbase, ← fetchVec_pixel _ hr hc, ← hcol.1, ← hcol.2, ← hprev, wordAt, BitVec.ofNat_toNat,
      BitVec.setWidth_eq]
  have hcol := (Display.run mem (n + 1)).draw.step_colour _ _ _
    (Display.run mem (n + 1)).memData hin (hs.count ▸ pixelCount_le ..)
  rw [Nat.add_sub_cancel, ← hword, ← hcount]
  exact hcol

theorem pixel_shows {n r c : Nat} (hr : r ≤ 511) (hc : c ≤ 511)
    (h : rasterRow n = 256 + r ∧ rasterColumn n = 320 + c) :
    (Display.run (fun _ => mem) (n + 1)).draw.Shows
      (lane (wordAt mem (shownWord (frameBase n) r c)) (3 - c % 4)) :=
  pixel_shows_at (fun _ => mem) hr hc h

theorem showsFrameBuffer_iff_lanes : ShowsFrameBuffer mem ↔
    ∀ n r c, r ≤ 511 → c ≤ 511 → rasterRow n = 256 + r ∧ rasterColumn n = 320 + c →
      lane (wordAt mem (shownWord (frameBase n) r c)) (3 - c % 4) =
        lane (wordAt mem (128 * r + c / 4)) (3 - c % 4) := by
  refine forall_congr' fun n => forall_congr' fun r => forall_congr' fun c => imp_congr_right fun hr =>
    imp_congr_right fun hc => ?_
  rw [atPixel_iff mem n hr hc]
  refine imp_congr_right fun h => ?_
  obtain ⟨h₁, h₂, h₃⟩ := pixel_shows mem hr hc h
  rw [DrawPixel.Shows, h₁, h₂, h₃, and_self, and_self]

end

/-! ## The memories that are shown right -/

def pixelEdge (f r c : Nat) : Nat := (1066 * f + 256 + r) * 1688 + 320 + c

theorem pixelEdge_position (f : Nat) {r c : Nat} (hr : r ≤ 511) (hc : c ≤ 511) :
    rasterRow (pixelEdge f r c) = 256 + r ∧ rasterColumn (pixelEdge f r c) = 320 + c := by
  unfold rasterRow rasterColumn pixelEdge
  omega

theorem frameBase_pixelEdge (f : Nat) {r c : Nat} (hr : r ≤ 511) (hc : c ≤ 511) :
    frameBase (pixelEdge f r c) = if f = 0 then 0 else 65536 := by
  unfold frameBase pixelEdge
  split <;> split <;> omega

def AlikeWords (mem : BitVec 17 → BitVec 32) : Prop :=
  (∀ w ≤ 65535, wordAt mem w = wordAt mem 0) ∧ ∀ k ≤ 1, lane (wordAt mem 65536) k = lane (wordAt mem 0) k

section
variable {mem : BitVec 17 → BitVec 32}

theorem ShowsFrameBuffer.succ (h : ShowsFrameBuffer mem) {w : Nat} (hw : w < 65535) :
    wordAt mem w = wordAt mem (w + 1) := by
  refine ByteMemory.eq_of_bytes fun k hk => ?_
  have hc : 4 * ((w + 1) % 128) + (3 - k) ≤ 511 := by omega
  have hr : (w + 1) / 128 ≤ 511 := by omega
  have hp := (showsFrameBuffer_iff_lanes mem).mp h _ _ _ hr hc (pixelEdge_position 0 hr hc)
  rw [shownWord, show 128 * ((w + 1) / 128) + (4 * ((w + 1) % 128) + (3 - k)) / 4 = w + 1 by omega,
    if_neg (Nat.succ_ne_zero w), Nat.add_sub_cancel, show 3 - (4 * ((w + 1) % 128) + (3 - k)) % 4 = k by omega] at hp
  exact hp

theorem ShowsFrameBuffer.word_zero (h : ShowsFrameBuffer mem) : ∀ w ≤ 65535, wordAt mem w = wordAt mem 0
  | 0, _ => rfl
  | w + 1, hw => (h.succ (by omega)).symm.trans (h.word_zero w (by omega))

/-- **When the display shows the frame buffer.** -/
theorem showsFrameBuffer_iff (mem : BitVec 17 → BitVec 32) : ShowsFrameBuffer mem ↔ AlikeWords mem := by
  constructor
  · intro h
    refine ⟨h.word_zero, fun k hk => ?_⟩
    -- the second frame starts with what the first has left
    have hc : 3 - k ≤ 511 := by omega
    have hp := (showsFrameBuffer_iff_lanes mem).mp h _ 0 (3 - k) (by omega) hc (pixelEdge_position 1 (by omega) hc)
    rw [frameBase_pixelEdge 1 (by omega) hc, shownWord, if_pos (by omega), if_neg (by omega), if_neg (by omega)] at hp
    rwa [show 128 * 0 + (3 - k) / 4 = 0 by omega, show 3 - (3 - k) % 4 = k by omega] at hp
  · rintro ⟨hall, hlast⟩
    refine (showsFrameBuffer_iff_lanes mem).mpr fun n r c hr hc _ => ?_
    rw [hall (128 * r + c / 4) (by omega), shownWord]
    have hbase : frameBase n = 0 ∨ frameBase n = 65536 := by
      unfold frameBase
      split <;> omega
    by_cases h0 : 128 * r + c / 4 = 0
    · rw [if_pos h0]
      by_cases h2 : c < 2
      · rw [if_pos h2, hall _ (by omega)]
      · rw [if_neg h2]
        rcases hbase with hb | hb <;> rw [hb]
        exact hlast _ (by omega)
    · rw [if_neg h0, hall _ (by omega)]

end

def whiteWord : BitVec 17 → BitVec 32 := fun a => if a = 1 then 0xFFFFFFFF else 0

theorem whiteWord_not_shown : ¬ ShowsFrameBuffer whiteWord := by
  intro h
  have hp := pixelEdge_position 0 (show 0 ≤ 511 by omega) (show 4 ≤ 511 by omega)
  have h₁ := h _ 0 4 (by omega) (by omega) ((atPixel_iff whiteWord _ (by omega) (by omega)).mpr hp)
  have h₂ := pixel_shows whiteWord (by omega) (by omega) hp
  have heq := h₁.1.symm.trans h₂.1
  exact absurd heq (by decide)

end NiosSnake
