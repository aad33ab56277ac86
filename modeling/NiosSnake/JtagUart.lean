import NiosSnake.Types

/-!
# The console

`printf` writes to the JTAG UART, whose driver polls: it reads the control register until
there is space in the FIFO, and writes one character. The program prints one piece of text
after the other, and does nothing else while it prints. At the other end a host may take
characters at any clock.
-/

namespace NiosSnake

/-- The side of `system_jtag` that the processor writes; the characters in the FIFO are oldest first. -/
structure JtagUart where
  wfifo : List U8
  fifoWr : Bool
  woverflow : Bool
  avWaitrequest : Bool

/-- `av_chipselect & ~av_read_n` and so on. -/
structure AvalonBus where
  read : Bool
  write : Bool
  address : Bool
  writedata : U32

namespace JtagUart

def reset : JtagUart := ⟨[], false, false, true⟩

def fifoFF (s : JtagUart) : Bool := s.wfifo.length == 64

def wfifoUsed (s : JtagUart) : BitVec 6 := BitVec.ofNat 6 s.wfifo.length

/-- The control register. The lower half is about the other direction and about interrupts. -/
def control (s : JtagUart) (low : BitVec 16) : U32 :=
  (0 : BitVec 9) ++ ((0x40 : BitVec 7) - (BitVec.ofBool s.fifoFF ++ s.wfifoUsed)) ++ low

def clock (s : JtagUart) (b : AvalonBus) (rEna : Bool) : JtagUart where
  wfifo := (if rEna then s.wfifo.tail else s.wfifo) ++ if s.fifoWr then [b.writedata.extractLsb' 0 8] else []
  fifoWr := b.write && s.avWaitrequest && !b.address && !s.fifoFF
  woverflow := if b.write && s.avWaitrequest && !b.address then s.fifoFF else s.woverflow
  avWaitrequest := !((b.write || b.read) && s.avWaitrequest)

end JtagUart

def ALTERA_AVALON_JTAG_UART_CONTROL_WSPACE_MSK : U32 := 0xFFFF0000

/-- Where the loop of `altera_avalon_jtag_uart_write` is. -/
inductive WriterPhase where
  | poll
  | reading
  | send
  | writing
  deriving DecidableEq

/-- The UART, the loop with the text from `ptr` to `end`, which piece of text this is of, and what the host
has taken. -/
structure Console where
  uart : JtagUart
  phase : WriterPhase
  text : List U8
  piece : Nat
  taken : List U8

structure ConsoleEvent where
  host : Bool
  cpu : Bool
  low : BitVec 16

namespace Console

def bus (s : Console) : AvalonBus :=
  match s.phase, s.text with
  | .reading, _ => ⟨true, false, true, 0⟩
  | .writing, c :: _ => ⟨false, true, false, c.setWidth 32⟩
  | _, _ => ⟨false, false, false, 0⟩

def takes (s : Console) (e : ConsoleEvent) : List U8 := s.taken ++ if e.host then s.uart.wfifo.take 1 else []

def served (s : Console) (e : ConsoleEvent) : Console :=
  { s with uart := s.uart.clock s.bus e.host, taken := s.takes e }

variable (pieces : Nat → List U8)

def step (s : Console) (e : ConsoleEvent) : Console :=
  match s.phase with
  | .poll =>
    if e.cpu then
      if s.text = [] then { s.served e with text := pieces (s.piece + 1), piece := s.piece + 1 }
      else { s.served e with phase := .reading }
    else s.served e
  | .reading =>
    if s.uart.avWaitrequest then s.served e
    else if s.uart.control e.low &&& ALTERA_AVALON_JTAG_UART_CONTROL_WSPACE_MSK ≠ 0 then
      { s.served e with phase := .send }
    else { s.served e with phase := .poll }
  | .send => if e.cpu then { s.served e with phase := .writing } else s.served e
  | .writing =>
    if s.uart.avWaitrequest then s.served e else { s.served e with phase := .poll, text := s.text.tail }

def boot : Console := ⟨.reset, .poll, pieces 0, 0, []⟩

def run (e : Nat → ConsoleEvent) : Nat → Console
  | 0 => boot pieces
  | n + 1 => (run e n).step pieces (e n)

def output : Nat → List U8
  | 0 => pieces 0
  | k + 1 => output k ++ pieces (k + 1)

end Console

/-! ## One clock -/

theorem JtagUart.control_space {s : JtagUart} (h : s.wfifo.length ≤ 64) (low : BitVec 16) :
    s.control low &&& ALTERA_AVALON_JTAG_UART_CONTROL_WSPACE_MSK ≠ 0 ↔ s.wfifo.length < 64 := by
  have hspace : ∀ n < 65, (0x40 : BitVec 7) - (BitVec.ofBool (n == 64) ++ BitVec.ofNat 6 n) ≠ 0 ↔ n < 64 := by decide
  have hhigh : ∀ v : BitVec 7, ((0 : BitVec 9) ++ v &&& 0xFFFF) ++ (0 : BitVec 16) ≠ 0 ↔ v ≠ 0 := by decide
  have hmask : ALTERA_AVALON_JTAG_UART_CONTROL_WSPACE_MSK = (0xFFFF : BitVec 16) ++ (0 : BitVec 16) := by decide
  have hand : s.control low &&& ALTERA_AVALON_JTAG_UART_CONTROL_WSPACE_MSK =
      ((0 : BitVec 9) ++ ((0x40 : BitVec 7) - (BitVec.ofBool s.fifoFF ++ s.wfifoUsed)) &&& 0xFFFF) ++ (low &&& 0) := by
    rw [hmask, control]
    exact BitVec.and_append
  rw [hand, show low &&& 0 = 0 from BitVec.and_zero, hhigh]
  exact hspace _ (by omega)

theorem taken_front (taken fifo : List U8) (host : Bool) :
    (taken ++ if host then fifo.take 1 else []) ++ (if host then fifo.tail else fifo) = taken ++ fifo := by
  cases host
  · simp
  · cases fifo <;> simp

def popped (fifo : List U8) (host : Bool) : List U8 := if host then fifo.tail else fifo

theorem popped_length_le (fifo : List U8) (host : Bool) : (popped fifo host).length ≤ fifo.length := by
  cases host <;> simp [popped]

namespace JtagUart

variable {s : JtagUart} {b : AvalonBus} (host : Bool)

theorem clock_idle (hw : b.write = false) (hf : s.fifoWr = false) :
    s.clock b host = ⟨popped s.wfifo host, false, s.woverflow, !(b.read && s.avWaitrequest)⟩ := by
  simp [clock, popped, hw, hf]

/-- The first clock of a write, and there is space. -/
theorem clock_begin (hw : b.write = true) (ha : b.address = false) (hwait : s.avWaitrequest = true)
    (hf : s.fifoWr = false) (hspace : s.wfifo.length < 64) :
    s.clock b host = ⟨popped s.wfifo host, true, false, false⟩ := by
  have hnot : s.fifoFF = false := by
    rw [fifoFF, beq_eq_false_iff_ne]
    omega
  simp [clock, popped, hw, ha, hwait, hf, hnot]

/-- The second clock of a write. -/
theorem clock_end (hwait : s.avWaitrequest = false) (hf : s.fifoWr = true) :
    s.clock b host = ⟨popped s.wfifo host ++ [b.writedata.extractLsb' 0 8], false, s.woverflow, true⟩ := by
  simp [clock, popped, hwait, hf]

end JtagUart

namespace Console

def BusInv (s : Console) : Prop :=
  match s.phase with
  | .poll => s.uart.avWaitrequest = true ∧ s.uart.fifoWr = false
  | .reading => s.uart.fifoWr = false
  | .send => s.uart.avWaitrequest = true ∧ s.uart.fifoWr = false ∧ s.uart.wfifo.length < 64 ∧ s.text ≠ []
  | .writing => s.uart.fifoWr = !s.uart.avWaitrequest ∧ s.uart.wfifo.length < 64 ∧ s.text ≠ []

structure Inv (pieces : Nat → List U8) (s : Console) : Prop where
  text : s.taken ++ s.uart.wfifo ++ s.text = output pieces s.piece
  suffix : s.text <:+ pieces s.piece
  room : s.uart.wfifo.length ≤ 64
  kept : s.uart.woverflow = false
  reading : s.phase = .reading → s.text ≠ []
  bus : BusInv s

section
variable {pieces : Nat → List U8} {s : Console}

theorem Inv.keep (h : Inv pieces s) {s' : Console} (e : ConsoleEvent) (htaken : s'.taken = s.takes e)
    (hwfifo : s'.uart.wfifo = popped s.uart.wfifo e.host) (hkept : s'.uart.woverflow = false) (htext : s'.text = s.text)
    (hpiece : s'.piece = s.piece) (hreading : s'.phase = .reading → s.text ≠ []) (hbus : BusInv s') :
    Inv pieces s' where
  text := by
    have hfront : s.takes e ++ popped s.uart.wfifo e.host = s.taken ++ s.uart.wfifo := taken_front ..
    rw [htaken, hwfifo, htext, hpiece, hfront]
    exact h.text
  suffix := by
    rw [htext, hpiece]
    exact h.suffix
  room := by
    rw [hwfifo]
    exact Nat.le_trans (popped_length_le ..) h.room
  kept := hkept
  reading := fun hp => by
    rw [htext]
    exact hreading hp
  bus := hbus

/-- The writing of the first character ends. -/
theorem Inv.sent (h : Inv pieces s) {s' : Console} {c : U8} {rest : List U8} (e : ConsoleEvent)
    (htext : s.text = c :: rest) (hspace : s.uart.wfifo.length < 64) (htaken : s'.taken = s.takes e)
    (huart : s'.uart = ⟨popped s.uart.wfifo e.host ++ [c], false, s.uart.woverflow, true⟩) (hrest : s'.text = rest)
    (hpiece : s'.piece = s.piece) (hphase : s'.phase = .poll) : Inv pieces s' where
  text := by
    have hfront : s.takes e ++ popped s.uart.wfifo e.host = s.taken ++ s.uart.wfifo := taken_front ..
    have hold := h.text
    rw [htext] at hold
    rw [htaken, huart, hrest, hpiece, ← List.append_assoc, hfront, List.append_assoc]
    exact hold
  suffix := by
    have hold := h.suffix
    rw [htext] at hold
    rw [hrest, hpiece]
    exact (List.suffix_cons c rest).trans hold
  room := by
    have hpop := popped_length_le s.uart.wfifo e.host
    rw [huart, List.length_append, List.length_singleton]
    omega
  kept := by
    rw [huart]
    exact h.kept
  reading := fun hr => by rw [hphase] at hr; cases hr
  bus := by
    simp only [BusInv, hphase, huart, and_self]

theorem Inv.next (h : Inv pieces s) {s' : Console} (e : ConsoleEvent) (htext : s.text = [])
    (htaken : s'.taken = s.takes e) (huart : s'.uart = ⟨popped s.uart.wfifo e.host, false, s.uart.woverflow, true⟩)
    (hnext : s'.text = pieces (s.piece + 1)) (hpiece : s'.piece = s.piece + 1) (hphase : s'.phase = .poll) :
    Inv pieces s' where
  text := by
    have hfront : s.takes e ++ popped s.uart.wfifo e.host = s.taken ++ s.uart.wfifo := taken_front ..
    have hold := h.text
    rw [htext, List.append_nil] at hold
    rw [htaken, huart, hnext, hpiece, hfront, hold, output]
  suffix := ⟨[], by rw [hnext, hpiece, List.nil_append]⟩
  room := by
    rw [huart]
    exact Nat.le_trans (popped_length_le ..) h.room
  kept := by
    rw [huart]
    exact h.kept
  reading := fun hr => by rw [hphase] at hr; cases hr
  bus := by
    simp only [BusInv, hphase, huart, and_self]

theorem setWidth_char (c : U8) : (c.setWidth 32).extractLsb' 0 8 = c := by
  revert c
  decide

theorem step_inv (h : Inv pieces s) (e : ConsoleEvent) : Inv pieces (s.step pieces e) := by
  have hpop := popped_length_le s.uart.wfifo e.host
  have hbus := h.bus
  cases hp : s.phase with
  | poll =>
    simp only [BusInv, hp] at hbus
    have hidle := JtagUart.clock_idle (b := s.bus) e.host (by simp [bus, hp]) hbus.2
    rw [show s.bus.read = false by simp [bus, hp]] at hidle
    simp only [step, hp, served, hidle]
    split
    · split
      · rename_i hempty
        exact h.next e hempty rfl rfl rfl rfl rfl
      · rename_i htext
        exact h.keep e rfl rfl h.kept rfl rfl (fun _ => htext) rfl
    · exact h.keep e rfl rfl h.kept rfl rfl (fun hr => by cases hr) ⟨rfl, rfl⟩
  | reading =>
    simp only [BusInv, hp] at hbus
    have hidle := JtagUart.clock_idle (b := s.bus) e.host (by simp [bus, hp]) hbus
    rw [show s.bus.read = true by simp [bus, hp]] at hidle
    simp only [step, hp, served, hidle]
    have htext := h.reading hp
    split
    · exact h.keep e rfl rfl h.kept rfl rfl (fun _ => htext) rfl
    · rename_i hwait
      split
      · rename_i hcontrol
        have hspace := (JtagUart.control_space h.room e.low).mp hcontrol
        exact h.keep e rfl rfl h.kept rfl rfl (fun hr => by cases hr)
          ⟨by simpa using hwait, rfl, Nat.lt_of_le_of_lt hpop hspace, htext⟩
      · exact h.keep e rfl rfl h.kept rfl rfl (fun hr => by cases hr) ⟨by simpa using hwait, rfl⟩
  | send =>
    simp only [BusInv, hp] at hbus
    obtain ⟨hwait, hfifo, hspace, htext⟩ := hbus
    have hidle := JtagUart.clock_idle (b := s.bus) e.host (by simp [bus, hp]) hfifo
    rw [show s.bus.read = false by simp [bus, hp]] at hidle
    simp only [step, hp, served, hidle]
    split
    · exact h.keep e rfl rfl h.kept rfl rfl (fun hr => by cases hr) ⟨rfl, Nat.lt_of_le_of_lt hpop hspace, htext⟩
    · exact h.keep e rfl rfl h.kept rfl rfl (fun hr => by cases hr) ⟨rfl, rfl, Nat.lt_of_le_of_lt hpop hspace, htext⟩
  | writing =>
    simp only [BusInv, hp] at hbus
    obtain ⟨hfifo, hspace, htext⟩ := hbus
    obtain ⟨c, rest, hcons⟩ := List.exists_cons_of_ne_nil htext
    have hdata : s.bus = ⟨false, true, false, c.setWidth 32⟩ := by simp [bus, hp, hcons]
    by_cases hwait : s.uart.avWaitrequest = true
    · rw [hwait] at hfifo
      have hbegin := JtagUart.clock_begin (b := s.bus) e.host (by rw [hdata]) (by rw [hdata]) hwait hfifo hspace
      simp only [step, hp, served, hbegin, if_pos hwait]
      exact h.keep e rfl rfl rfl rfl rfl (fun hr => by cases hr) ⟨rfl, Nat.lt_of_le_of_lt hpop hspace, htext⟩
    · have hwait' : s.uart.avWaitrequest = false := eq_false_of_ne_true hwait
      rw [hwait'] at hfifo
      have hend := JtagUart.clock_end (b := s.bus) e.host hwait' hfifo
      simp only [step, hp, served, hend, if_neg hwait]
      refine h.sent e hcons hspace rfl ?_ (by rw [hcons]; rfl) rfl rfl
      rw [hdata, setWidth_char]

variable (pieces) in
theorem run_inv (e : Nat → ConsoleEvent) : ∀ n, Inv pieces (run pieces e n)
  | 0 => ⟨rfl, List.suffix_refl _, Nat.zero_le _, rfl, fun hr => (by cases hr), ⟨rfl, rfl⟩⟩
  | n + 1 => step_inv (run_inv e n) (e n)

/-- **Nothing that is printed is lost**, doubled or put out of order, whenever the host takes characters and
however fast the processor is: what the host has taken, what is in the FIFO and what the loop has still to
write are the text so far; and the UART never overflows. -/
theorem run_printed (e : Nat → ConsoleEvent) (n : Nat) :
    (run pieces e n).taken ++ (run pieces e n).uart.wfifo ++ (run pieces e n).text =
      output pieces (run pieces e n).piece ∧
      (run pieces e n).uart.wfifo.length ≤ 64 ∧ (run pieces e n).uart.woverflow = false :=
  ⟨(run_inv pieces e n).text, (run_inv pieces e n).room, (run_inv pieces e n).kept⟩

end

end Console

end NiosSnake
