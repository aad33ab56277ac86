import NiosSnake.Buttons
import NiosSnake.Register

/-!
# The button port

`system_btn_pio`: two flip-flops behind the pins, an edge detector, one capture
bit for each button and an interrupt mask. A capture bit is set while a falling
edge since the last clear waits, and the interrupt is the capture bits under the
mask. The registers are cleared by the reset at any time.
-/

namespace NiosSnake

structure PioInput where
  address : BitVec 2
  chipselect : Bool
  inPort : BitVec 4
  writeN : Bool
  writedata : U32

namespace PioInput

def edgeCaptureWrStrobe (i : PioInput) : Bool := i.chipselect && !i.writeN && i.address == 3

def irqMaskWrStrobe (i : PioInput) : Bool := i.chipselect && !i.writeN && i.address == 2

end PioInput

/-- A clock edge, or the reset going or being active. -/
inductive PioEvent where
  | resetN
  | posedge (i : PioInput)

structure BtnPio where
  d1DataIn : BitVec 4
  d2DataIn : BitVec 4
  edgeCapture : BitVec 4
  irqMask : BitVec 4
  readdata : U32

namespace BtnPio

def cleared : BtnPio := ⟨0, 0, 0, 0, 0⟩

def irq (s : BtnPio) : Bool := s.edgeCapture &&& s.irqMask != 0

def edgeDetect (s : BtnPio) : BitVec 4 := ~~~s.d1DataIn &&& s.d2DataIn

def readMuxOut (s : BtnPio) (i : PioInput) : BitVec 4 :=
  (if i.address = 0 then i.inPort else 0) ||| (if i.address = 2 then s.irqMask else 0) |||
    (if i.address = 3 then s.edgeCapture else 0)

/-- All registers read the values from before the edge. Each bit of `edge_capture` is cleared by a
write to its address, whatever is written, and otherwise set by its own edge. -/
def step (s : BtnPio) : PioEvent → BtnPio
  | .resetN => cleared
  | .posedge i =>
    { d1DataIn := i.inPort
      d2DataIn := s.d1DataIn
      edgeCapture := if i.edgeCaptureWrStrobe then 0 else s.edgeCapture ||| s.edgeDetect
      irqMask := if i.irqMaskWrStrobe then i.writedata.extractLsb' 0 4 else s.irqMask
      readdata := (s.readMuxOut i).setWidth 32 }

def run (e : Nat → PioEvent) : Nat → BtnPio
  | 0 => cleared
  | n + 1 => (run e n).step (e n)

/-! ## What happened on the pins and on the bus -/

section
variable (e : Nat → PioEvent)

def Pin (k : Fin 4) (level : Bool) (j : Nat) : Prop := ∃ i, e j = .posedge i ∧ i.inPort.getLsbD k.val = level

def Falls (k : Fin 4) (n : Nat) : Prop := ∃ j, n = j + 2 ∧ Pin e k true j ∧ Pin e k false (j + 1)

def Clears (n : Nat) : Prop := e n = .resetN ∨ ∃ i, e n = .posedge i ∧ i.edgeCaptureWrStrobe = true

def SetsMask (n : Nat) : Prop := e n = .resetN ∨ ∃ i, e n = .posedge i ∧ i.irqMaskWrStrobe = true

def Waiting (n : Nat) (k : Fin 4) : Prop := ∃ i < n, Falls e k i ∧ ∀ j < n, i ≤ j → ¬ Clears e j

def Unmasked (n : Nat) (k : Fin 4) : Prop :=
  ∃ w < n, (∃ i, e w = .posedge i ∧ i.irqMaskWrStrobe = true ∧ i.writedata.getLsbD k.val = true) ∧
    ∀ j < n, w < j → ¬ SetsMask e j

end

/-! ## The flip-flops -/

section
variable {e : Nat → PioEvent} (k : Fin 4)

theorem run_succ (e : Nat → PioEvent) (n : Nat) : run e (n + 1) = (run e n).step (e n) := rfl

theorem run_d1DataIn (j : Nat) : (run e (j + 1)).d1DataIn.getLsbD k.val = true ↔ Pin e k true j := by
  rw [run_succ, Pin]
  cases h : e j with
  | resetN => simp [step, cleared]
  | posedge i => simp [step]

theorem edgeDetect_getLsbD (s : BtnPio) : s.edgeDetect.getLsbD k.val = true ↔
    s.d1DataIn.getLsbD k.val = false ∧ s.d2DataIn.getLsbD k.val = true := by
  simp [edgeDetect, k.isLt]

theorem run_edgeDetect (n : Nat) : (run e n).edgeDetect.getLsbD k.val = true ↔ Falls e k n := by
  rw [edgeDetect_getLsbD]
  match n with
  | 0 => simp [run, cleared, Falls]
  | 1 =>
    refine iff_of_false ?_ (by simp [Falls])
    rw [run_succ]
    cases h : e 0 with
    | resetN => simp [step, cleared]
    | posedge i => simp [step, run, cleared]
  | j + 2 =>
    have hfalls : Falls e k (j + 2) ↔ Pin e k true j ∧ Pin e k false (j + 1) := by simp [Falls]
    rw [hfalls, ← run_d1DataIn k j, run_succ e (j + 1), Pin]
    cases h : e (j + 1) with
    | resetN => simp [step, cleared]
    | posedge i => simp [step, and_comm]

/-! ## The capture bits and the mask -/

theorem edgeCapture_setClear : Register.SetClear (Falls e k) (Clears e)
    fun n => (run e n).edgeCapture.getLsbD k.val = true := by
  intro n
  dsimp only
  rw [← run_edgeDetect k n, run_succ, Clears]
  cases h : e n with
  | resetN => simp [step, cleared]
  | posedge i =>
    cases hstrobe : i.edgeCaptureWrStrobe with
    | true => simp [step, hstrobe]
    | false => simp [step, hstrobe, or_comm]

theorem edgeCapture_iff (n : Nat) : (run e n).edgeCapture.getLsbD k.val = true ↔ Waiting e n k := by
  rw [(edgeCapture_setClear k).iff n, Waiting]
  simp [run, cleared]

def maskData (e : Nat → PioEvent) (n : Nat) : BitVec 4 :=
  match e n with
  | .resetN => 0
  | .posedge i => i.writedata.extractLsb' 0 4

theorem irqMask_enabled : Register.Enabled (SetsMask e) (maskData e) fun n => (run e n).irqMask where
  stores n h := by
    rw [run_succ, maskData]
    rcases h with h | ⟨i, h, hstrobe⟩
    · simp [h, step, cleared]
    · simp [h, step, hstrobe]
  keeps n h := by
    rw [run_succ]
    cases he : e n with
    | resetN => exact absurd (.inl he) h
    | posedge i =>
      have hstrobe : i.irqMaskWrStrobe ≠ true := fun hs => h (.inr ⟨i, he, hs⟩)
      simp [step, hstrobe]

theorem irqMask_iff (n : Nat) : (run e n).irqMask.getLsbD k.val = true ↔ Unmasked e n k := by
  constructor
  · intro hbit
    rcases irqMask_enabled.history n with ⟨_, hv⟩ | ⟨w, hw, hset, hkept, hv⟩
    · rw [hv] at hbit
      simp [run, cleared] at hbit
    · refine ⟨w, hw, ?_, hkept⟩
      rw [hv, maskData] at hbit
      rcases hset with h | ⟨i, h, hstrobe⟩
      · simp [h] at hbit
      · exact ⟨i, h, hstrobe, by simpa [h, k.isLt] using hbit⟩
  · rintro ⟨w, hw, ⟨i, h, hstrobe, hbit⟩, hkept⟩
    rw [irqMask_enabled.last hw (.inr ⟨i, h, hstrobe⟩) hkept, maskData, h]
    simpa [k.isLt] using hbit

theorem irq_iff (s : BtnPio) : s.irq = true ↔
    ∃ k : Fin 4, s.edgeCapture.getLsbD k.val = true ∧ s.irqMask.getLsbD k.val = true := by
  have hbits : ∀ a b : BitVec 4, (a &&& b != 0) = true ↔
      ∃ k : Fin 4, a.getLsbD k.val = true ∧ b.getLsbD k.val = true := by decide
  exact hbits _ _

/-- **The port over any run of its pins and its bus.** A capture bit is set exactly while an edge waits,
the interrupt is up exactly while one waits on a button whose mask bit was written, and reading the
register gives what waits. -/
theorem edges_interrupt (e : Nat → PioEvent) (n : Nat) :
    (∀ k : Fin 4, (run e n).edgeCapture.getLsbD k.val = true ↔ Waiting e n k) ∧
    ((run e n).irq = true ↔ ∃ k, Waiting e n k ∧ Unmasked e n k) ∧
    ∀ i, e n = .posedge i → i.address = 3 →
      ∀ k : Fin 4, (run e (n + 1)).readdata.getLsbD k.val = true ↔ Waiting e n k := by
  refine ⟨fun k => edgeCapture_iff k n, ?_, fun i hi haddress k => ?_⟩
  · simp only [irq_iff, edgeCapture_iff, irqMask_iff]
  · rw [← edgeCapture_iff k n, run_succ, hi]
    simp [step, readMuxOut, haddress, show k.val < 32 by omega]

end

/-- A reset, the mask written with all buttons released, and button 2 pressed from the next clock on. -/
def pressEvents : Nat → PioEvent
  | 0 => .resetN
  | 1 => .posedge ⟨2, true, 0xf, false, 0xf⟩
  | 2 => .posedge ⟨0, false, 0xf, true, 0⟩
  | _ => .posedge ⟨3, true, 0xb, true, 0⟩

theorem edges_interrupt_press :
    (run pressEvents 5).irq = true ∧ (run pressEvents 6).readdata = 4 ∧
    (∀ k : Fin 4, (run pressEvents 5).edgeCapture.getLsbD k.val = true ↔ Waiting pressEvents 5 k) ∧
    ((run pressEvents 5).irq = true ↔ ∃ k, Waiting pressEvents 5 k ∧ Unmasked pressEvents 5 k) ∧
    ∀ i, pressEvents 5 = .posedge i → i.address = 3 →
      ∀ k : Fin 4, (run pressEvents 6).readdata.getLsbD k.val = true ↔ Waiting pressEvents 5 k :=
  ⟨by decide, by decide, edges_interrupt pressEvents 5⟩

end BtnPio

end NiosSnake
