import NiosSnake.VgaController

/-!
# `draw_pixel`

The pixel process: it reads the signals as they were before the clock edge and
fetches one memory word for four pixels. The counter of the four pixels is a
variable; the address is a signal, and so is its vector, which is assigned from
the old value of the address.
-/

namespace NiosSnake

structure DrawPixel where
  count : Nat
  frameBufAddr : Nat
  frameBufAddrVec : BitVec 17
  frameBufCs : StdLogic
  frameBufByteEnable : BitVec 4
  red : BitVec 8
  green : BitVec 8
  blue : BitVec 8

/-- Byte lane `k` of a word; lane 3 is the most significant one. -/
def lane (word : BitVec 32) (k : Nat) : BitVec 8 := word.extractLsb' (8 * k) 8

namespace DrawPixel

def powerUp : DrawPixel where
  count := 0
  frameBufAddr := 0
  frameBufAddrVec := 0
  frameBufCs := .zero
  frameBufByteEnable := 0b0000
  red := 0b11111111
  green := 0b11111111
  blue := 0b11111111

def gray (s : DrawPixel) (level : BitVec 8) : DrawPixel := { s with red := level, green := level, blue := level }

def Shows (s : DrawPixel) (level : BitVec 8) : Prop := s.red = level ∧ s.green = level ∧ s.blue = level

def AtReset (row column : Int) : Prop := row = 256 ∧ column = 320

def InWindow (row column : Int) : Prop := row > 255 ∧ row < 255 + 513 ∧ column > 319 ∧ column < 319 + 513

instance (row column : Int) : Decidable (AtReset row column) := inferInstanceAs (Decidable (_ ∧ _))
instance (row column : Int) : Decidable (InWindow row column) := inferInstanceAs (Decidable (_ ∧ _))

/-- The process up to its display-time test. -/
def resetPixel (row column : Int) (s : DrawPixel) : DrawPixel :=
  let s' := { s with frameBufCs := .zero }
  if AtReset row column then
    { s' with
      frameBufCs := .one
      frameBufByteEnable := 0b1111
      frameBufAddr := 0
      frameBufAddrVec := BitVec.ofNat 17 s.frameBufAddr
      count := 0 }
  else s'

/-- `case count`; `addr` is the address signal before the edge. -/
def countCase (memData : BitVec 32) (addr : Nat) (s : DrawPixel) : DrawPixel :=
  match s.count with
  | 0 => { s.gray (memData.extractLsb' 24 8) with frameBufByteEnable := 0b0000, count := 1 }
  | 1 => { s.gray (memData.extractLsb' 16 8) with count := 2 }
  | 2 =>
    { s.gray (memData.extractLsb' 8 8) with
      count := 3
      frameBufCs := .one
      frameBufByteEnable := 0b1111
      frameBufAddr := addr + 1
      frameBufAddrVec := BitVec.ofNat 17 addr }
  | 3 => { s.gray (memData.extractLsb' 0 8) with count := 0 }
  | _ => s.gray 0

def step (row column : Int) (dispEna : StdLogic) (memData : BitVec 32) (s : DrawPixel) : DrawPixel :=
  let s' := s.resetPixel row column
  if dispEna = .one then
    if InWindow row column then s'.countCase memData s.frameBufAddr
    else { s' with red := 0b11111001, green := 0b10101001, blue := 0b10101001 }
  else { s'.gray 0 with frameBufByteEnable := 0b0000 }

/-! ## The case on the count -/

section
variable (memData : BitVec 32) (addr : Nat) (s : DrawPixel)

theorem countCase_count (h : s.count ≤ 3) : (s.countCase memData addr).count = (s.count + 1) % 4 := by
  rcases (show s.count = 0 ∨ s.count = 1 ∨ s.count = 2 ∨ s.count = 3 by omega) with hc | hc | hc | hc <;>
    simp only [countCase, hc]

theorem countCase_addr : (s.countCase memData addr).frameBufAddr =
    if s.count = 2 then addr + 1 else s.frameBufAddr := by
  unfold countCase
  split <;> simp_all [gray]

theorem countCase_addrVec : (s.countCase memData addr).frameBufAddrVec =
    if s.count = 2 then BitVec.ofNat 17 addr else s.frameBufAddrVec := by
  unfold countCase
  split <;> simp_all [gray]

theorem countCase_colour (h : s.count ≤ 3) : (s.countCase memData addr).Shows (lane memData (3 - s.count)) := by
  rcases (show s.count = 0 ∨ s.count = 1 ∨ s.count = 2 ∨ s.count = 3 by omega) with hc | hc | hc | hc <;>
    simp only [countCase, hc, gray, lane, Shows, and_self]

end

/-! ## The registers of the fetch -/

section
variable (row column : Int) (dispEna : StdLogic) (memData : BitVec 32) (s : DrawPixel)

def entryCount : Nat := (s.resetPixel row column).count

def Increments : Prop := dispEna = .one ∧ InWindow row column ∧ s.entryCount row column = 2

instance : Decidable (s.Increments row column dispEna) := inferInstanceAs (Decidable (_ ∧ _))

theorem entryCount_eq : s.entryCount row column = if AtReset row column then 0 else s.count := by
  unfold entryCount resetPixel
  split <;> rfl

theorem entryCount_le (h : s.count ≤ 3) : s.entryCount row column ≤ 3 := by
  rw [entryCount_eq]
  split <;> omega

theorem resetPixel_addr : (s.resetPixel row column).frameBufAddr =
    if AtReset row column then 0 else s.frameBufAddr := by
  unfold resetPixel
  split <;> rfl

theorem resetPixel_addrVec : (s.resetPixel row column).frameBufAddrVec =
    if AtReset row column then BitVec.ofNat 17 s.frameBufAddr else s.frameBufAddrVec := by
  unfold resetPixel
  split <;> rfl

theorem step_inside (h : dispEna = .one ∧ InWindow row column) :
    s.step row column dispEna memData = (s.resetPixel row column).countCase memData s.frameBufAddr := by
  simp only [step, if_pos h.1, if_pos h.2]

theorem step_outside (h : ¬ (dispEna = .one ∧ InWindow row column)) :
    (s.step row column dispEna memData).count = s.entryCount row column ∧
      (s.step row column dispEna memData).frameBufAddr = (s.resetPixel row column).frameBufAddr ∧
      (s.step row column dispEna memData).frameBufAddrVec = (s.resetPixel row column).frameBufAddrVec := by
  unfold step
  dsimp only
  by_cases hd : dispEna = .one
  · have hw : ¬ InWindow row column := fun hw => h ⟨hd, hw⟩
    rw [if_pos hd, if_neg hw]
    exact ⟨rfl, rfl, rfl⟩
  · rw [if_neg hd]
    exact ⟨rfl, rfl, rfl⟩

theorem step_count (h : s.count ≤ 3) : (s.step row column dispEna memData).count =
    if dispEna = .one ∧ InWindow row column then (s.entryCount row column + 1) % 4
    else s.entryCount row column := by
  by_cases hw : dispEna = .one ∧ InWindow row column
  · rw [if_pos hw, step_inside row column dispEna memData s hw]
    exact countCase_count _ _ _ (s.entryCount_le row column h)
  · rw [if_neg hw]
    exact (step_outside row column dispEna memData s hw).1

theorem step_addr : (s.step row column dispEna memData).frameBufAddr =
    if s.Increments row column dispEna then s.frameBufAddr + 1
    else if AtReset row column then 0 else s.frameBufAddr := by
  rw [← resetPixel_addr]
  by_cases hw : dispEna = .one ∧ InWindow row column
  · rw [step_inside row column dispEna memData s hw, countCase_addr]
    simp only [Increments, hw.1, hw.2, true_and]
    rfl
  · rw [(step_outside row column dispEna memData s hw).2.1, if_neg fun h => hw ⟨h.1, h.2.1⟩]

theorem step_addrVec : (s.step row column dispEna memData).frameBufAddrVec =
    if s.Increments row column dispEna ∨ AtReset row column then BitVec.ofNat 17 s.frameBufAddr
    else s.frameBufAddrVec := by
  have hreset := resetPixel_addrVec row column s
  by_cases hw : dispEna = .one ∧ InWindow row column
  · rw [step_inside row column dispEna memData s hw, countCase_addrVec, hreset]
    simp only [Increments, hw.1, hw.2, true_and]
    split <;> split <;> simp_all [entryCount]
  · rw [(step_outside row column dispEna memData s hw).2.2, hreset]
    simp only [Increments, ← and_assoc, hw, false_and, false_or]

theorem step_colour (hw : dispEna = .one ∧ InWindow row column) (h : s.count ≤ 3) :
    (s.step row column dispEna memData).Shows (lane memData (3 - s.entryCount row column)) := by
  rw [step_inside row column dispEna memData s hw]
  exact countCase_colour _ _ _ (s.entryCount_le row column h)

end

end DrawPixel

end NiosSnake
