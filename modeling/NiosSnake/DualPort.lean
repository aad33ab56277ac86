import NiosSnake.Blanking
import NiosSnake.Scanout
import NiosSnake.StorePath

/-!
# The display beside the processor

The memory behind the frame buffer has two ports on one clock: the processor
stores through the first while the display reads through the second, which gives
the old word when both meet. Whatever the processor stores meanwhile, every clock of
the picture is a byte of what was in that memory two clocks before, the border, or
black.
-/

namespace NiosSnake

open ByteMemory

structure DualPort where
  display : Display
  ram : BitVec 17 → U32

namespace DualPort

def edge (s : DualPort) (store : Option Store) : DualPort where
  display := s.display.edge s.ram
  ram :=
    match store with
    | some store => store.send s.ram
    | none => s.ram

def run (ram : BitVec 17 → U32) (stores : Nat → Option Store) : Nat → DualPort
  | 0 => ⟨.powerUp, ram⟩
  | n + 1 => (run ram stores n).edge (stores n)

/-- What the stores of the first `n` clocks have written, and what of it has come to the frame buffer. -/
def memAt (mem : ByteMemory 32) (stores : Nat → Option Store) (n : Nat) : ByteMemory 32 :=
  ((List.range n).filterMap stores).foldl Store.perform mem

def landedAt (mem : ByteMemory 32) (stores : Nat → Option Store) (n : Nat) : ByteMemory 32 :=
  ((List.range n).filterMap stores).foldl Store.land mem

section
variable {ram : BitVec 17 → U32} {stores : Nat → Option Store}

theorem run_display (n : Nat) :
    (run ram stores n).display = Display.run (fun k => (run ram stores k).ram) n := by
  induction n with
  | zero => rfl
  | succ n ih =>
    change (run ram stores n).display.edge (run ram stores n).ram = _
    rw [ih, Display.run]

theorem run_ram (n : Nat) :
    (run ram stores n).ram = ((List.range n).filterMap stores).foldl Store.send ram := by
  induction n with
  | zero => rfl
  | succ n ih =>
    rw [List.range_succ, List.filterMap_append, List.foldl_append, ← ih]
    change (match stores n with | some store => store.send (run ram stores n).ram | none => _) = _
    cases h : stores n <;> simp [h]

theorem run_ram_sent (n : Nat) : (run ram stores n).ram = (sentStores .frameBuffer stores n).foldl Store.send ram := by
  rw [run_ram, foldl_sentStores]
  exact fun ram s hs => if_neg hs

end

def shownByte (base r c : Nat) : Nat := 4 * shownWord base r c + (3 - c % 4)

theorem shownWord_le (n : Nat) {r c : Nat} (hr : r ≤ 511) (hc : c ≤ 511) :
    shownWord (frameBase n) r c ≤ 65536 := by
  have := frameBase_le n
  unfold shownWord
  split
  · split <;> omega
  · omega

theorem lane_holds {ram : BitVec 17 → U32} {mem : ByteMemory 32} (h : HoldsBytes ram mem) {w k : Nat}
    (hw : w ≤ 65536) (hk : k < 4) :
    lane (wordAt ram w) k = mem (frameBufferBase + BitVec.ofNat 32 (4 * w + k)) := by
  have hnat : (BitVec.ofNat 17 w).toNat = w := by rw [BitVec.toNat_ofNat, Nat.mod_eq_of_lt (by omega)]
  rw [lane, wordAt, h _ (by rw [hnat, frameBufferWords]; omega), extractLsb'_word _ _ hk, wordAddress, hnat,
    BitVec.add_assoc, ← BitVec.ofNat_add]

def Border (s : DrawPixel) : Prop := s.red = 0b11111001 ∧ s.green = 0b10101001 ∧ s.blue = 0b10101001

theorem run_border (mem : Nat → BitVec 17 → BitVec 32) {n : Nat} (hn : 1 ≤ n)
    (hd : rasterColumn n < 1280 ∧ rasterRow n < 1024)
    (hw : ¬ ((256 ≤ rasterRow n ∧ rasterRow n < 768) ∧ 320 ≤ rasterColumn n ∧ rasterColumn n < 832)) :
    Border (Display.run mem (n + 1)).draw := by
  obtain ⟨n, rfl⟩ : ∃ k, n = k + 1 := ⟨n - 1, by omega⟩
  have hena : (Display.run mem (n + 1)).vga.dispEna = .one := by
    rw [Display.run_vga, VgaController.run_dispEna_iff]
    exact hd
  have hout : ¬ DrawPixel.InWindow (Display.run mem (n + 1)).vga.row (Display.run mem (n + 1)).vga.column :=
    fun h => hw ((Display.run_inWindow_iff mem (n + 1)).mp ⟨hena, h⟩)
  rw [Display.run, Display.edge, DrawPixel.step, if_pos hena, if_neg hout]
  exact ⟨rfl, rfl, rfl⟩

theorem landedAt_holds {ram : BitVec 17 → U32} {mem : ByteMemory 32} (hram : HoldsBytes ram mem)
    (stores : Nat → Option Store) (n : Nat) : HoldsBytes (run ram stores n).ram (landedAt mem stores n) := by
  rw [run_ram]
  exact List.foldl_rel hram fun s _ _ _ h => Store.send_lands h s

theorem memAt_holds {ram : BitVec 17 → U32} {mem : ByteMemory 32} {stores : Nat → Option Store}
    (hram : HoldsBytes ram mem) {n : Nat} (hplain : ∀ k < n, ∀ s, stores k = some s → Plain s.address) :
    HoldsBytes (run ram stores n).ram (memAt mem stores n) := by
  rw [run_ram]
  refine List.foldl_rel hram fun s hs _ _ h => Store.send_holds h ?_
  obtain ⟨k, hk, hks⟩ := List.mem_filterMap.mp hs
  exact hplain k (List.mem_range.mp hk) s hks

theorem run_pixel {ram : BitVec 17 → U32} {mem : ByteMemory 32} {stores : Nat → Option Store} {n : Nat}
    (hram : HoldsBytes (run ram stores (n - 1)).ram mem) {r c : Nat} (hr : r ≤ 511) (hc : c ≤ 511)
    (hpixel : rasterRow n = 256 + r ∧ rasterColumn n = 320 + c) :
    (run ram stores (n + 1)).display.draw.Shows
      (mem (frameBufferBase + BitVec.ofNat 32 (shownByte (frameBase n) r c))) := by
  rw [run_display]
  have hcolour := pixel_shows_at (fun k => (run ram stores k).ram) hr hc hpixel
  rwa [lane_holds hram (shownWord_le n hr hc) (by omega)] at hcolour

/-- **Every clock of the display**, whatever the processor stores meanwhile. In the game screen the colours
are one byte of what had come to the frame buffer two clocks before, which is what the program had written
if each of its stores was plain; around it they are the border; elsewhere they are black. -/
theorem run_shows {ram : BitVec 17 → U32} {mem : ByteMemory 32} (hram : HoldsBytes ram mem)
    (stores : Nat → Option Store) (n : Nat) :
    (∀ r c, r ≤ 511 → c ≤ 511 → rasterRow n = 256 + r ∧ rasterColumn n = 320 + c →
      (run ram stores (n + 1)).display.draw.Shows
          (landedAt mem stores (n - 1) (frameBufferBase + BitVec.ofNat 32 (shownByte (frameBase n) r c))) ∧
        ((∀ k < n - 1, ∀ s, stores k = some s → Plain s.address) →
          (run ram stores (n + 1)).display.draw.Shows
            (memAt mem stores (n - 1) (frameBufferBase + BitVec.ofNat 32 (shownByte (frameBase n) r c))))) ∧
    (1 ≤ n ∧ rasterColumn n < 1280 ∧ rasterRow n < 1024 →
      ¬ ((256 ≤ rasterRow n ∧ rasterRow n < 768) ∧ 320 ≤ rasterColumn n ∧ rasterColumn n < 832) →
      Border (run ram stores (n + 1)).display.draw) ∧
    (¬ (1 ≤ n ∧ rasterColumn n < 1280 ∧ rasterRow n < 1024) →
      (run ram stores (n + 1)).display.draw.Shows 0) := by
  refine ⟨fun r c hr hc hpixel => ⟨?_, fun hplain => ?_⟩, fun hd hw => ?_, fun hd => ?_⟩
  · exact run_pixel (landedAt_holds hram stores (n - 1)) hr hc hpixel
  · exact run_pixel (memAt_holds hram hplain) hr hc hpixel
  · rw [run_display]
    exact run_border _ hd.1 hd.2 hw
  · rw [run_display]
    exact Display.run_black _ hd

def oneStore (n : Nat) : Option Store := if n = 7 then some ⟨.mem8, frameBufferBase + 3, 255⟩ else none

theorem oneStore_plain {n : Nat} {s : Store} (h : oneStore n = some s) : Plain s.address := by
  unfold oneStore at h
  split at h
  · obtain rfl := Option.some.inj h
    decide
  · cases h

theorem run_shows_byte :
    (run (fun _ => 0) oneStore (pixelEdge 0 0 4 + 1)).display.draw.Shows
      (memAt (fun _ => 0) oneStore (pixelEdge 0 0 4 - 1)
        (frameBufferBase + BitVec.ofNat 32 (shownByte (frameBase (pixelEdge 0 0 4)) 0 4))) := by
  obtain ⟨hpixel, _⟩ := run_shows blank_holds oneStore (pixelEdge 0 0 4)
  have hshows := hpixel 0 4 (by decide) (by decide) (pixelEdge_position 0 (by decide) (by decide))
  exact hshows.2 fun _ _ _ hs => oneStore_plain hs

end DualPort

end NiosSnake
