import NiosSnake.CmdMux
import NiosSnake.StorePath

/-!
# The bus between the processor and the frame buffer

The data master and the instruction master each have a translator and an agent that make
packets of their commands; a multiplexer lets them share the frame buffer. The processor
holds an access until the translator lets it go, and may hold it when the frame buffer
has it already.
-/

namespace NiosSnake

open ByteMemory

/-! ## Packets -/

structure BusCommand where
  read : Bool
  write : Bool
  bus : BusWrite

/-- `INCR` or `WRAP`. -/
def bursttypeValue (burstwrap : BitVec 3) : BitVec 2 := if burstwrap.getLsbD 2 then 1 else 2

/-- Bits 96 down to 61 of a packet: the burst of one word, the identities of master and slave, no lock. -/
def packetHeader (id burstwrap destId : BitVec 3) : BitVec 36 :=
  (2 : BitVec 3) ++ (0 : BitVec 2) ++ (0 : BitVec 4) ++ (2 : BitVec 3) ++ (0 : BitVec 1) ++ destId ++ id ++
    (0 : BitVec 4) ++ bursttypeValue burstwrap ++ (2 : BitVec 3) ++ burstwrap ++ (4 : BitVec 3) ++ (0 : BitVec 2)

/-- `cp_data` of the agent with `ID` and `BURSTWRAP_VALUE`, and the destination that the router sets. -/
def cpData (id burstwrap destId : BitVec 3) (c : BusCommand) : BitVec 97 :=
  packetHeader id burstwrap destId ++ BitVec.ofBool c.read ++ BitVec.ofBool c.write ++
    BitVec.ofBool c.write ++ (0 : BitVec 1) ++
    (c.bus.dAddress.extractLsb' 2 19 ++ (0 : BitVec 2)) ++ c.bus.dByteenable ++ c.bus.dWritedata

def cmdData (p : BitVec 97) : U32 := p.extractLsb' 0 32
def cmdByteen (p : BitVec 97) : BitVec 4 := p.extractLsb' 32 4
def cmdAddr (p : BitVec 97) : BitVec 21 := p.extractLsb' 36 21
def cmdWrite (p : BitVec 97) : Bool := p.getLsbD 59
def cmdRead (p : BitVec 97) : Bool := p.getLsbD 60
def cmdLock (p : BitVec 97) : Bool := p.getLsbD 61

section
variable (id burstwrap destId : BitVec 3) (c : BusCommand)

theorem cmdData_cpData : cmdData (cpData id burstwrap destId c) = c.bus.dWritedata :=
  BitVec.extractLsb'_append_eq_right

theorem cmdByteen_cpData : cmdByteen (cpData id burstwrap destId c) = c.bus.dByteenable := by
  rw [cmdByteen, cpData, BitVec.extractLsb'_append_eq_of_le (by decide)]
  exact BitVec.extractLsb'_append_eq_right

theorem cmdAddr_cpData :
    cmdAddr (cpData id burstwrap destId c) = c.bus.dAddress.extractLsb' 2 19 ++ (0 : BitVec 2) := by
  rw [cmdAddr, cpData, BitVec.extractLsb'_append_eq_of_le (by decide), BitVec.extractLsb'_append_eq_of_le (by decide)]
  exact BitVec.extractLsb'_append_eq_right

theorem cmdWrite_cpData : cmdWrite (cpData id burstwrap destId c) = c.write := by
  simp only [cmdWrite, cpData, BitVec.getLsbD_append]
  simp

theorem cmdRead_cpData : cmdRead (cpData id burstwrap destId c) = c.read := by
  simp only [cmdRead, cpData, BitVec.getLsbD_append]
  simp

theorem cmdLock_cpData : cmdLock (cpData id burstwrap destId c) = false := by
  simp only [cmdLock, cpData, packetHeader, BitVec.getLsbD_append]
  simp

theorem avAddress_cpData : avAddress 17 (cmdAddr (cpData id burstwrap destId c)) = avAddress 17 c.bus.dAddress := by
  rw [cmdAddr_cpData]
  apply BitVec.eq_of_getLsbD_eq
  intro i hi
  have hpos : ¬ 2 + i < 2 := by omega
  have hlow : 2 + i - 2 < 19 := by omega
  simp only [avAddress, BitVec.getLsbD_extractLsb', BitVec.getLsbD_append, if_neg hpos, decide_eq_true hi,
    decide_eq_true hlow, Bool.true_and]
  rw [Nat.add_sub_cancel_left]

end

/-! ## Masters and slave -/

/-- A load or a store that the processor begins: a load puts its size and address on the bus, too. -/
structure MemInst where
  isStore : Bool
  store : Store

/-- At a clock: the access that the processor has come to, a fetch from the frame buffer that it has come to,
whether the other slaves are ready, and whether a read of either master is answered. -/
structure BusEvent where
  access : Option MemInst
  fetch : Option (BitVec 21)
  otherReady : Bool
  answer : Bool
  fetchAnswer : Bool

/-- The data master, its translator and what goes with the response FIFO of the slave's agent; the instruction
master; both agents' `hold_waitrequest`; and the stores that the processor has begun, last first. -/
structure Bus where
  dRead : Bool
  dWrite : Bool
  bus : BusWrite
  readAccepted : Bool
  writeAccepted : Bool
  endBegintransfer : Bool
  iRead : Bool
  iAddress : BitVec 21
  iReadAccepted : Bool
  holdWaitrequest : Bool
  mux : CmdMux 2
  rspFifoUsed : Nat
  waitrequestResetOverride : Bool
  ram : BitVec 17 → U32
  issued : List Store

namespace Bus

variable (s : Bus) (e : BusEvent)

/-! The data master. -/

def uavRead : Bool := s.dRead && !s.readAccepted
def uavWrite : Bool := s.dWrite && !s.writeAccepted
def command : BusCommand := ⟨s.uavRead, s.uavWrite, s.bus⟩
def cpValid : Bool := (s.uavWrite || s.uavRead) && !s.holdWaitrequest
def routed : Bool := decide (Routed s.bus.dAddress .frameBuffer)

/-! The instruction master only reads. -/

def iUavRead : Bool := s.iRead && !s.iReadAccepted
def iCommand : BusCommand := ⟨s.iUavRead, false, ⟨s.iAddress, 0b1111, 0⟩⟩
def iCpValid : Bool := s.iUavRead && !s.holdWaitrequest

/-! The agent of the frame buffer has a FIFO of two reads that wait for their answer. -/

def rfSourceReady : Bool := decide (s.rspFifoUsed < 2)
def srcReady : Bool := !s.waitrequestResetOverride && s.rfSourceReady

def packets (k : Nat) : BitVec 97 := if k = 0 then cpData 0 7 2 s.command else cpData 1 3 2 s.iCommand

def muxInput : MuxInput 2 97 where
  valid := BitVec.ofBool s.iCpValid ++ BitVec.ofBool (s.cpValid && s.routed)
  endofpacket := 0b11
  lock := BitVec.ofBool (cmdLock (s.packets 1)) ++ BitVec.ofBool (cmdLock (s.packets 0))
  payload := s.packets
  srcReady := s.srcReady

def srcPacket : BitVec 97 := s.mux.srcPayload s.muxInput
def m0Write : Bool := s.rfSourceReady && (s.mux.srcValid s.muxInput && cmdWrite s.srcPacket)
def rfSourceValid : Bool := s.mux.srcValid s.muxInput && cmdRead s.srcPacket && s.srcReady

/-! What comes back. -/

def cpReady : Bool := if s.routed then s.mux.sinkReady s.muxInput 0 else e.otherReady
def uavWaitrequest : Bool := s.holdWaitrequest || !s.cpReady e
def uavReaddatavalid : Bool := e.answer && s.readAccepted
def internalBegintransfer : Bool := (s.uavWrite || s.uavRead) && !s.endBegintransfer

def dWaitrequest : Bool :=
  if s.dRead then !s.uavReaddatavalid e
  else if s.dWrite then (s.internalBegintransfer || s.uavWaitrequest e) && !s.writeAccepted
  else true

def iUavWaitrequest : Bool := s.holdWaitrequest || !s.mux.sinkReady s.muxInput 1
def iUavReaddatavalid : Bool := e.fetchAnswer && s.iReadAccepted
def iWaitrequest : Bool := if s.iRead then !s.iUavReaddatavalid e else s.iUavWaitrequest

def begins : Option MemInst := if s.dRead || s.dWrite then none else e.access

def fetches : Option (BitVec 21) := if s.iRead then none else e.fetch

def answers : Nat := (s.uavReaddatavalid e && s.routed).toNat + (s.iUavReaddatavalid e).toNat

def clock : Bus where
  dRead := (s.begins e).any (fun i => !i.isStore) || s.dRead && s.dWaitrequest e
  dWrite := (s.begins e).any (fun i => i.isStore) || s.dWrite && s.dWaitrequest e
  bus := ((s.begins e).map fun i => i.store.bus).getD s.bus
  readAccepted :=
    if s.readAccepted then !s.uavReaddatavalid e
    else if s.dWaitrequest e then s.dRead && !s.uavWaitrequest e else false
  writeAccepted :=
    if !s.dWaitrequest e then false else if s.uavWrite && !s.uavWaitrequest e then true else s.writeAccepted
  endBegintransfer :=
    if s.internalBegintransfer && s.uavWaitrequest e then true
    else if s.uavWaitrequest e then s.endBegintransfer else false
  iRead := (s.fetches e).isSome || s.iRead && s.iWaitrequest e
  iAddress := (s.fetches e).getD s.iAddress
  iReadAccepted :=
    if s.iReadAccepted then !s.iUavReaddatavalid e
    else if s.iWaitrequest e then s.iRead && !s.iUavWaitrequest else false
  holdWaitrequest := false
  mux := s.mux.clock s.muxInput
  rspFifoUsed := s.rspFifoUsed + s.rfSourceValid.toNat - s.answers e
  waitrequestResetOverride := false
  ram := fun a =>
    if s.m0Write ∧ a = avAddress 17 (cmdAddr s.srcPacket) then
      mergeBytes (cmdByteen s.srcPacket) (cmdData s.srcPacket) (s.ram a)
    else s.ram a
  issued := (s.begins e).elim s.issued fun i => if i.isStore then i.store :: s.issued else s.issued

def reset (ram : BitVec 17 → U32) : Bus where
  dRead := false
  dWrite := false
  bus := ⟨0, 0, 0⟩
  readAccepted := false
  writeAccepted := false
  endBegintransfer := false
  iRead := false
  iAddress := 0
  iReadAccepted := false
  holdWaitrequest := true
  mux := .reset
  rspFifoUsed := 0
  waitrequestResetOverride := true
  ram := ram
  issued := []

def run (ram : BitVec 17 → U32) (e : Nat → BusEvent) : Nat → Bus
  | 0 => reset ram
  | n + 1 => (run ram e n).clock (e n)

def taken : Option Store := if s.uavWrite && !s.uavWaitrequest e then s.issued.head? else none

/-- The stores that have been made: all but one that the slave has not accepted. -/
def performed : List Store := if s.uavWrite then s.issued.tail else s.issued

/-! ## What the multiplexer hands on -/

section
variable {s : Bus} {e : BusEvent}

theorem muxInput_valid (s : Bus) : s.muxInput.valid.getLsbD 0 = (s.cpValid && s.routed) ∧
    s.muxInput.valid.getLsbD 1 = s.iCpValid := by
  have hbits : ∀ a b : Bool, (BitVec.ofBool a ++ BitVec.ofBool b).getLsbD 0 = b ∧
      (BitVec.ofBool a ++ BitVec.ofBool b).getLsbD 1 = a := by decide
  exact hbits _ _

theorem muxInput_oneBeat (s : Bus) : CmdMux.OneBeat s.muxInput := by
  refine ⟨rfl, ?_⟩
  have hlock : ∀ k, cmdLock (s.packets k) = false := by
    intro k
    unfold packets
    split <;> exact cmdLock_cpData ..
  simp only [muxInput, hlock]
  rfl

theorem granted (hturn : ∃ p, s.mux.Turn p) :
    (s.mux.srcValid s.muxInput = false ∧ s.mux.sinkReady s.muxInput 0 = false ∧ s.mux.sinkReady s.muxInput 1 = false) ∨
    (s.mux.srcValid s.muxInput = (s.cpValid && s.routed) ∧ s.srcPacket = cpData 0 7 2 s.command ∧
      s.mux.sinkReady s.muxInput 0 = s.srcReady ∧ s.mux.sinkReady s.muxInput 1 = false) ∨
    (s.mux.srcValid s.muxInput = s.iCpValid ∧ s.srcPacket = cpData 1 3 2 s.iCommand ∧
      s.mux.sinkReady s.muxInput 0 = false ∧ s.mux.sinkReady s.muxInput 1 = s.srcReady) := by
  obtain ⟨p, hp⟩ := hturn
  rcases hp.grant with hnone | ⟨g, hg, hgrant, _⟩
  · exact .inl ⟨CmdMux.srcValid_none hnone, by simp [CmdMux.sinkReady, hnone], by simp [CmdMux.sinkReady, hnone]⟩
  · have hvalid := CmdMux.srcValid_granted (i := s.muxInput) hg hgrant
    have hpacket : s.srcPacket = s.packets g := CmdMux.srcPayload_granted hg hgrant
    rcases (show g = 0 ∨ g = 1 by omega) with rfl | rfl
    · refine .inr (.inl ⟨hvalid.trans (muxInput_valid s).1, hpacket, ?_, ?_⟩) <;>
        simp [CmdMux.sinkReady, hgrant, muxInput]
    · refine .inr (.inr ⟨hvalid.trans (muxInput_valid s).2, hpacket, ?_, ?_⟩) <;>
        simp [CmdMux.sinkReady, hgrant, muxInput]

variable (hturn : ∃ p, s.mux.Turn p) (hstart : s.waitrequestResetOverride = s.holdWaitrequest)
include hturn hstart

theorem m0Write_eq (e : BusEvent) : s.m0Write = (s.uavWrite && s.routed && !s.uavWaitrequest e) := by
  rcases granted hturn with ⟨hvalid, hready, _⟩ | ⟨hvalid, hpacket, hready, _⟩ | ⟨hvalid, hpacket, hready, _⟩ <;>
    rw [m0Write, hvalid, uavWaitrequest, cpReady, hready]
  · cases s.routed <;> simp
  · have hbool : ∀ w r h f : Bool, (f && ((w || r) && !h && w)) = (w && !(h || !(!h && f))) := by decide
    rw [hpacket, cmdWrite_cpData, srcReady, hstart, cpValid]
    cases s.routed
    · simp
    · simpa [command] using hbool s.uavWrite s.uavRead s.holdWaitrequest s.rfSourceReady
  · rw [hpacket, cmdWrite_cpData, iCommand]
    cases s.routed <;> simp

theorem clock_ram (e : BusEvent) : (s.clock e).ram =
    if s.uavWrite && !s.uavWaitrequest e then writeFrameBuffer s.ram s.bus else s.ram := by
  have hwrite := m0Write_eq hturn hstart e
  cases hm : s.m0Write with
  | false =>
    have hsame : (s.clock e).ram = s.ram := by simp [clock, hm]
    rw [hsame]
    split
    · rename_i haccepted
      rw [Bool.and_eq_true] at haccepted
      rw [hm, haccepted.1, haccepted.2, Bool.true_and, Bool.and_true] at hwrite
      have hnot : ¬ Routed s.bus.dAddress .frameBuffer := of_decide_eq_false hwrite.symm
      rw [writeFrameBuffer, if_neg hnot]
    · rfl
  | true =>
    rw [hm] at hwrite
    have hall := hwrite.symm
    rw [Bool.and_eq_true, Bool.and_eq_true] at hall
    obtain ⟨⟨hw, hrouted⟩, hwait⟩ := hall
    have hpacket : s.srcPacket = cpData 0 7 2 s.command := by
      rcases granted hturn with ⟨hvalid, _⟩ | ⟨_, hpacket, _⟩ | ⟨_, hpacket, _⟩
      · simp [m0Write, hvalid] at hm
      · exact hpacket
      · simp [m0Write, hpacket, cmdWrite_cpData, iCommand] at hm
    have hroute : Routed s.bus.dAddress .frameBuffer := of_decide_eq_true hrouted
    rw [hw, hwait, if_pos (by rfl), writeFrameBuffer, if_pos hroute]
    funext a
    simp only [clock, hm, hpacket, avAddress_cpData, cmdByteen_cpData, cmdData_cpData, command, true_and]

theorem rfSourceValid_eq (e : BusEvent) : s.rfSourceValid.toNat =
    (s.uavRead && s.routed && !s.uavWaitrequest e).toNat + (s.iUavRead && !s.iUavWaitrequest).toNat := by
  rcases granted hturn with ⟨hvalid, hready, hready'⟩ | ⟨hvalid, hpacket, hready, hready'⟩ |
      ⟨hvalid, hpacket, hready, hready'⟩ <;>
    rw [rfSourceValid, hvalid, uavWaitrequest, cpReady, hready, iUavWaitrequest, hready']
  · cases s.routed <;> simp
  · have hbool : ∀ w r h f : Bool, ((w || r) && !h && r && (!h && f)) = (r && !(h || !(!h && f))) := by decide
    rw [hpacket, cmdRead_cpData, srcReady, hstart, cpValid]
    cases s.routed
    · simp
    · simpa [command] using congrArg Bool.toNat (hbool s.uavWrite s.uavRead s.holdWaitrequest s.rfSourceReady)
  · have hbool : ∀ r h f : Bool, (r && !h && r && (!h && f)) = (r && !(h || !(!h && f))) := by decide
    rw [hpacket, cmdRead_cpData, srcReady, hstart, iCpValid]
    have hread : s.iCommand.read = s.iUavRead := rfl
    rw [hread, hbool]
    cases s.routed <;> simp

end

/-! ## Each store once -/

structure Inv (ram₀ : BitVec 17 → U32) (s : Bus) : Prop where
  turn : ∃ p, s.mux.Turn p
  start : s.waitrequestResetOverride = s.holdWaitrequest
  reads : s.readAccepted = true → s.dRead = true
  writes : s.writeAccepted = true → s.dWrite = true
  iReads : s.iReadAccepted = true → s.iRead = true
  one : ¬ (s.dRead = true ∧ s.dWrite = true)
  fifo : s.rspFifoUsed = (s.readAccepted && s.routed).toNat + s.iReadAccepted.toNat
  current : s.dWrite = true → ∃ store rest, s.issued = store :: rest ∧ s.bus = store.bus
  ram : s.ram = s.performed.foldr (fun store ram => store.send ram) ram₀

section
variable {ram₀ : BitVec 17 → U32} {s : Bus} {e : BusEvent}

theorem clock_turn (h : Inv ram₀ s) : ∃ p, (s.clock e).mux.Turn p := by
  obtain ⟨p, hp⟩ := h.turn
  rcases hp.step (i := s.muxInput) with ⟨_, _, h'⟩ | ⟨_, _, _, h'⟩ | ⟨_, k, _, _, h'⟩
  · exact ⟨p, h'⟩
  · exact ⟨p, h'⟩
  · exact ⟨_, h'⟩

theorem clock_busy (hbusy : (s.dRead || s.dWrite) = true) : (s.clock e).dRead = (s.dRead && s.dWaitrequest e) ∧
    (s.clock e).dWrite = (s.dWrite && s.dWaitrequest e) ∧ (s.clock e).bus = s.bus ∧ (s.clock e).issued = s.issued := by
  have hnone : s.begins e = none := if_pos hbusy
  simp [clock, hnone]

theorem clock_idle (hidle : (s.dRead || s.dWrite) = false) : (s.clock e).dRead = e.access.any (fun i => !i.isStore) ∧
    (s.clock e).dWrite = e.access.any (fun i => i.isStore) ∧
    (s.clock e).bus = (e.access.map fun i => i.store.bus).getD s.bus ∧
    (s.clock e).issued =
      e.access.elim s.issued fun i => if i.isStore then i.store :: s.issued else s.issued := by
  have hbegins : s.begins e = e.access := by rw [begins, hidle, if_neg (by decide)]
  rw [Bool.or_eq_false_iff] at hidle
  simp [clock, hbegins, hidle]

theorem Inv.idle (h : Inv ram₀ s) (hidle : (s.dRead || s.dWrite) = false) :
    s.readAccepted = false ∧ s.writeAccepted = false ∧ s.dWaitrequest e = true := by
  rw [Bool.or_eq_false_iff] at hidle
  refine ⟨eq_false_of_ne_true fun hr => ?_, eq_false_of_ne_true fun hw => ?_, by simp [dWaitrequest, hidle]⟩
  · rw [h.reads hr] at hidle
    cases hidle.1
  · rw [h.writes hw] at hidle
    cases hidle.2

theorem Inv.clock_reads (h : Inv ram₀ s) (hr : (s.clock e).readAccepted = true) :
    s.dRead = true ∧ s.dWaitrequest e = true := by
  cases hra : s.readAccepted with
  | true =>
    have hread := h.reads hra
    simp only [clock, hra] at hr
    exact ⟨hread, by simpa [dWaitrequest, hread] using hr⟩
  | false =>
    cases hw : s.dWaitrequest e with
    | true =>
      simp only [clock, hra, hw] at hr
      simp only [if_true, Bool.false_eq_true, if_false, Bool.and_eq_true] at hr
      exact ⟨hr.1, rfl⟩
    | false => simp [clock, hra, hw] at hr

theorem Inv.clock_writes (h : Inv ram₀ s) (hw : (s.clock e).writeAccepted = true) :
    s.dWrite = true ∧ s.dWaitrequest e = true := by
  cases hwait : s.dWaitrequest e with
  | false => simp [clock, hwait] at hw
  | true =>
    refine ⟨?_, rfl⟩
    cases hwa : s.writeAccepted with
    | true => exact h.writes hwa
    | false =>
      simp only [clock, hwait, hwa, uavWrite] at hw
      simp at hw
      exact hw.1

theorem Inv.clock_iReads (h : Inv ram₀ s) (hr : (s.clock e).iReadAccepted = true) : (s.clock e).iRead = true := by
  cases hra : s.iReadAccepted with
  | true =>
    have hread := h.iReads hra
    simp only [clock, hra] at hr ⊢
    simp [iWaitrequest, hread] at hr ⊢
    exact .inr hr
  | false =>
    cases hw : s.iWaitrequest e with
    | true =>
      simp only [clock, hra, hw] at hr ⊢
      simp at hr ⊢
      exact .inr hr.1
    | false => simp [clock, hra, hw] at hr

theorem Inv.clock_one (h : Inv ram₀ s) : ¬ ((s.clock e).dRead = true ∧ (s.clock e).dWrite = true) := by
  rintro ⟨hread, hwrite⟩
  cases hbusy : s.dRead || s.dWrite with
  | true =>
    obtain ⟨hr, hw, _⟩ := clock_busy (e := e) hbusy
    rw [hr, Bool.and_eq_true] at hread
    rw [hw, Bool.and_eq_true] at hwrite
    exact h.one ⟨hread.1, hwrite.1⟩
  | false =>
    obtain ⟨hr, hw, _⟩ := clock_idle (e := e) hbusy
    rw [hr] at hread
    rw [hw] at hwrite
    cases ha : e.access with
    | none => simp [ha] at hread
    | some i => simp_all

theorem Inv.clock_current (h : Inv ram₀ s) (hw : (s.clock e).dWrite = true) :
    ∃ store rest, (s.clock e).issued = store :: rest ∧ (s.clock e).bus = store.bus := by
  cases hbusy : s.dRead || s.dWrite with
  | true =>
    obtain ⟨_, hwrite, hbus, hissued⟩ := clock_busy (e := e) hbusy
    rw [hwrite, Bool.and_eq_true] at hw
    rw [hissued, hbus]
    exact h.current hw.1
  | false =>
    obtain ⟨_, hwrite, hbus, hissued⟩ := clock_idle (e := e) hbusy
    rw [hwrite] at hw
    cases ha : e.access with
    | none => simp [ha] at hw
    | some i =>
      have hstore : i.isStore = true := by simpa [ha] using hw
      exact ⟨i.store, s.issued, by rw [hissued]; simp [ha, hstore], by rw [hbus]; simp [ha]⟩

theorem Inv.clock_fifo (h : Inv ram₀ s) : (s.clock e).rspFifoUsed =
    ((s.clock e).readAccepted && (s.clock e).routed).toNat + (s.clock e).iReadAccepted.toNat := by
  have hused : (s.clock e).rspFifoUsed = s.rspFifoUsed + s.rfSourceValid.toNat - s.answers e := rfl
  have hdata : ((s.clock e).readAccepted && (s.clock e).routed).toNat + (s.uavReaddatavalid e && s.routed).toNat =
      (s.readAccepted && s.routed).toNat + (s.uavRead && s.routed && !s.uavWaitrequest e).toNat := by
    cases hread : s.dRead with
    | true =>
      have hrouted : (s.clock e).routed = s.routed := by
        rw [routed, routed, (clock_busy (e := e) (by rw [hread]; rfl)).2.2.1]
      rw [hrouted]
      cases hra : s.readAccepted with
      | true =>
        have hnext : (s.clock e).readAccepted = !s.uavReaddatavalid e := by simp [clock, hra]
        rw [hnext, uavRead, hra]
        cases s.uavReaddatavalid e <;> cases s.routed <;> simp
      | false =>
        have hnone : s.uavReaddatavalid e = false := by simp [uavReaddatavalid, hra]
        have hnext : (s.clock e).readAccepted = !s.uavWaitrequest e := by simp [clock, hra, dWaitrequest, hread, hnone]
        rw [hnext, hnone, uavRead, hread, hra]
        cases s.uavWaitrequest e <;> cases s.routed <;> simp
    | false =>
      have hra : s.readAccepted = false := eq_false_of_ne_true fun hc => by
        rw [h.reads hc] at hread
        cases hread
      have hnext : (s.clock e).readAccepted = false := by simp [clock, hra, hread]
      simp [hnext, uavReaddatavalid, hra, uavRead, hread]
  have hfetch : (s.clock e).iReadAccepted.toNat + (s.iUavReaddatavalid e).toNat =
      s.iReadAccepted.toNat + (s.iUavRead && !s.iUavWaitrequest).toNat := by
    cases hra : s.iReadAccepted with
    | true =>
      have hnext : (s.clock e).iReadAccepted = !s.iUavReaddatavalid e := by simp [clock, hra]
      rw [hnext, iUavRead, hra]
      cases s.iUavReaddatavalid e <;> simp
    | false =>
      have hnone : s.iUavReaddatavalid e = false := by simp [iUavReaddatavalid, hra]
      have hnext : (s.clock e).iReadAccepted = (s.iRead && !s.iUavWaitrequest) := by
        cases hread : s.iRead <;> simp [clock, hra, iWaitrequest, hread, hnone]
      rw [hnext, hnone, iUavRead, hra]
      simp
  rw [hused, h.fifo, rfSourceValid_eq h.turn h.start e, answers]
  omega

theorem performed_of_written (hw : s.uavWrite = false) : s.performed = s.issued := by
  rw [performed, hw]
  rfl

theorem Inv.store_waits (h : Inv ram₀ s) (hw : s.uavWrite = true) :
    (s.clock e).uavWrite = s.uavWaitrequest e ∧ (s.clock e).issued = s.issued := by
  rw [uavWrite, Bool.and_eq_true] at hw
  obtain ⟨hwrite, hnot⟩ := hw
  have hread : s.dRead = false := eq_false_of_ne_true fun hr => h.one ⟨hr, hwrite⟩
  have hwa : s.writeAccepted = false := by simpa using hnot
  obtain ⟨_, hnext, _, hissued⟩ := clock_busy (s := s) (e := e) (by rw [hwrite, Bool.or_true])
  have hwait : s.dWaitrequest e = (s.internalBegintransfer || s.uavWaitrequest e) := by
    simp [dWaitrequest, hread, hwrite, hwa]
  refine ⟨?_, hissued⟩
  have haccepted : (s.clock e).writeAccepted = (s.internalBegintransfer && !s.uavWaitrequest e) := by
    simp only [clock, hwait, uavWrite, hwrite, hwa]
    cases s.internalBegintransfer <;> cases s.uavWaitrequest e <;> rfl
  rw [uavWrite, hnext, hwrite, hwait, haccepted]
  cases s.internalBegintransfer <;> cases s.uavWaitrequest e <;> rfl

theorem Inv.clock_ends (h : Inv ram₀ s) (hbusy : (s.dRead || s.dWrite) = true) (hw : s.uavWrite = false) :
    (s.clock e).dWrite = false := by
  rw [(clock_busy hbusy).2.1]
  cases hwrite : s.dWrite with
  | false => rfl
  | true =>
    have hread : s.dRead = false := eq_false_of_ne_true fun hr => h.one ⟨hr, hwrite⟩
    have hwa : s.writeAccepted = true := by simpa [uavWrite, hwrite] using hw
    simp [dWaitrequest, hread, hwrite, hwa]

theorem Inv.store_begins (h : Inv ram₀ s) (hw : s.uavWrite = false) : (s.clock e).performed = s.issued := by
  cases hbusy : s.dRead || s.dWrite with
  | true =>
    obtain ⟨_, _, _, hissued⟩ := clock_busy (e := e) hbusy
    rw [performed_of_written (by rw [uavWrite, h.clock_ends hbusy hw, Bool.false_and]), hissued]
  | false =>
    obtain ⟨_, hnext, _, hissued⟩ := clock_idle (e := e) hbusy
    obtain ⟨_, hwa, hwait⟩ := h.idle (e := e) hbusy
    have haccepted : (s.clock e).writeAccepted = false := by simp [clock, hwait, hw, hwa]
    have huav : (s.clock e).uavWrite = (s.clock e).dWrite := by rw [uavWrite, haccepted, Bool.not_false, Bool.and_true]
    rw [performed, huav, hnext, hissued]
    cases e.access with
    | none => rfl
    | some i => cases hstore : i.isStore <;> simp [hstore]

theorem Inv.clock_performed (h : Inv ram₀ s) : (s.clock e).performed = (s.taken e).toList ++ s.performed := by
  cases hw : s.uavWrite with
  | false =>
    rw [h.store_begins hw, performed_of_written hw, taken, hw]
    rfl
  | true =>
    obtain ⟨hnext, hissued⟩ := h.store_waits (e := e) hw
    obtain ⟨store, rest, hcons, _⟩ := h.current (Bool.and_eq_true_iff.mp hw).1
    rw [performed, performed, taken, hnext, hissued, hw, hcons]
    cases s.uavWaitrequest e <;> rfl

theorem Inv.clock_taken (h : Inv ram₀ s) :
    (s.clock e).ram = match s.taken e with
      | some store => store.send s.ram
      | none => s.ram := by
  rw [Bus.clock_ram h.turn h.start e, taken]
  cases haccepted : s.uavWrite && !s.uavWaitrequest e with
  | false => rfl
  | true =>
    have hwrite := (Bool.and_eq_true_iff.mp (Bool.and_eq_true_iff.mp haccepted).1).1
    obtain ⟨store, rest, hcons, hbus⟩ := h.current hwrite
    rw [hcons, hbus]
    rfl

/-- **A store is made once**: at the clock at which it is accepted, which may be before the processor lets it
go. -/
theorem Inv.clock_ram (h : Inv ram₀ s) :
    (s.clock e).ram = (s.clock e).performed.foldr (fun store ram => store.send ram) ram₀ := by
  rw [h.clock_taken, h.clock_performed, h.ram]
  cases s.taken e <;> rfl

theorem Inv.clock (h : Inv ram₀ s) (e : BusEvent) : Inv ram₀ (s.clock e) where
  turn := clock_turn h
  start := rfl
  reads := fun hr => by
    obtain ⟨hread, hwait⟩ := h.clock_reads hr
    rw [(clock_busy (by rw [hread]; rfl)).1, hread, hwait]
    rfl
  writes := fun hw => by
    obtain ⟨hwrite, hwait⟩ := h.clock_writes hw
    rw [(clock_busy (by rw [hwrite, Bool.or_true])).2.1, hwrite, hwait]
    rfl
  iReads := h.clock_iReads
  one := h.clock_one
  fifo := h.clock_fifo
  current := h.clock_current
  ram := h.clock_ram

end

theorem run_inv (ram₀ : BitVec 17 → U32) (e : Nat → BusEvent) : ∀ n, Inv ram₀ (run ram₀ e n)
  | 0 => {
      turn := ⟨0, by decide, BitVec.twoPow_zero.symm, .inl rfl, rfl⟩
      start := rfl
      reads := fun h => by cases h
      writes := fun h => by cases h
      iReads := fun h => by cases h
      one := fun h => by cases h.1
      fifo := rfl
      current := fun h => by cases h
      ram := rfl }
  | n + 1 => (run_inv ram₀ e n).clock (e n)

/-- **Every store is made once and in order**, whatever else the masters and the other slaves do and however
long the processor holds an access: what the frame buffer holds is what all the stores make of it, but for one
that has not been accepted; and when the processor is not in a store there is no such one. -/
theorem run_stores (ram₀ : BitVec 17 → U32) (e : Nat → BusEvent) (n : Nat) :
    (run ram₀ e n).ram = (run ram₀ e n).performed.reverse.foldl Store.send ram₀ ∧
      ((run ram₀ e n).dWrite = false → (run ram₀ e n).performed = (run ram₀ e n).issued) := by
  have h := run_inv ram₀ e n
  refine ⟨?_, fun hw => performed_of_written (by rw [uavWrite, hw, Bool.false_and])⟩
  rw [h.ram, List.foldl_reverse]

/-! ## A store ends -/

section
variable {ram₀ : BitVec 17 → U32} {e : Nat → BusEvent}

theorem run_mux : ∀ n, (run ram₀ e n).mux = CmdMux.run (fun t => (run ram₀ e t).muxInput) n
  | 0 => rfl
  | n + 1 => by
    rw [CmdMux.run, ← run_mux n]
    rfl

/-- A master keeps its command until the multiplexer takes it. -/
theorem Inv.persists {s : Bus} (h : Inv ram₀ s) (e : BusEvent) (k : Nat)
    (hwait : CmdMux.Waits s.mux s.muxInput k) : (s.clock e).muxInput.valid.getLsbD k = true := by
  obtain ⟨hvalid, hnot⟩ := hwait
  rw [CmdMux.accepts, hvalid, Bool.true_and] at hnot
  have hk : k < 2 := BitVec.lt_of_getLsbD hvalid
  rcases (show k = 0 ∨ k = 1 by omega) with rfl | rfl
  · rw [(muxInput_valid s).1, cpValid, Bool.and_eq_true, Bool.and_eq_true, Bool.or_eq_true] at hvalid
    obtain ⟨⟨hcommand, -⟩, hrouted⟩ := hvalid
    have hwaits : s.uavWaitrequest e = true := by
      rw [uavWaitrequest, cpReady, hrouted, if_pos rfl, hnot, Bool.not_false, Bool.or_true]
    have hbusy : (s.dRead || s.dWrite) = true := by
      rcases hcommand with hw | hr
      · rw [(Bool.and_eq_true_iff.mp hw).1, Bool.or_true]
      · rw [(Bool.and_eq_true_iff.mp hr).1, Bool.true_or]
    have hkept : (s.clock e).uavWrite = true ∨ (s.clock e).uavRead = true := by
      rcases hcommand with hw | hr
      · exact .inl ((h.store_waits hw).1.trans hwaits)
      · obtain ⟨hread, hra⟩ := Bool.and_eq_true_iff.mp hr
        rw [Bool.not_eq_true'] at hra
        have hnext : (s.clock e).readAccepted = false := by simp [Bus.clock, hra, hwaits]
        refine .inr ?_
        simp [uavRead, (clock_busy (e := e) hbusy).1, hread, dWaitrequest, uavReaddatavalid, hra, hnext]
    have hcommand' : ((s.clock e).uavWrite || (s.clock e).uavRead) = true := by rwa [Bool.or_eq_true]
    have hrouted' : (s.clock e).routed = true := by rwa [routed, (clock_busy hbusy).2.2.1]
    rw [(muxInput_valid _).1, cpValid, hcommand', hrouted']
    rfl
  · rw [(muxInput_valid s).2, iCpValid, iUavRead, Bool.and_eq_true, Bool.and_eq_true] at hvalid
    obtain ⟨⟨hread, hra⟩, -⟩ := hvalid
    rw [Bool.not_eq_true'] at hra
    rw [(muxInput_valid _).2]
    simp [iCpValid, iUavRead, Bus.clock, iWaitrequest, iUavReaddatavalid, iUavWaitrequest, hread, hra, hnot]

/-- The slave is ready all through a store. -/
theorem Inv.ready_in_store {s : Bus} (h : Inv ram₀ s) (hw : s.dWrite = true) (hstarted : s.holdWaitrequest = false) :
    s.srcReady = true := by
  have hra : s.readAccepted = false := eq_false_of_ne_true fun hr => h.one ⟨h.reads hr, hw⟩
  have hused : s.rspFifoUsed < 2 := by
    rw [h.fifo, hra, Bool.false_and]
    cases s.iReadAccepted <;> decide
  rw [srcReady, h.start, hstarted, rfSourceReady, decide_eq_true hused]
  rfl

theorem run_started {n : Nat} (hw : (run ram₀ e n).dWrite = true) : (run ram₀ e n).holdWaitrequest = false := by
  cases n with
  | zero => cases hw
  | succ n => rfl

theorem run_waiting {n d : Nat} (hw : (run ram₀ e n).uavWrite = true)
    (hwait : ∀ j < d, (run ram₀ e (n + j)).uavWaitrequest (e (n + j)) = true) :
    (run ram₀ e (n + d)).uavWrite = true ∧ (run ram₀ e (n + d)).bus = (run ram₀ e n).bus := by
  induction d with
  | zero => exact ⟨hw, rfl⟩
  | succ d ih =>
    obtain ⟨hd, hbus⟩ := ih fun j hj => hwait j (Nat.lt_succ_of_lt hj)
    have hbusy : ((run ram₀ e (n + d)).dRead || (run ram₀ e (n + d)).dWrite) = true := by
      rw [(Bool.and_eq_true_iff.mp hd).1, Bool.or_true]
    refine ⟨?_, (clock_busy (e := e (n + d)) hbusy).2.2.1.trans hbus⟩
    exact ((run_inv ram₀ e (n + d)).store_waits hd).1.trans (hwait d (Nat.lt_succ_self d))

/-- The slave takes a store at the third clock or before. -/
theorem run_taken {n : Nat} (hw : (run ram₀ e n).uavWrite = true) (hrouted : (run ram₀ e n).routed = true) :
    ∃ j < 3, (run ram₀ e (n + j)).uavWrite = true ∧
      (∀ i < j, (run ram₀ e (n + i)).uavWaitrequest (e (n + i)) = true) ∧
      (run ram₀ e (n + j)).uavWaitrequest (e (n + j)) = false := by
  by_contra hnone
  have hwait : ∀ d ≤ 3, ∀ j < d, (run ram₀ e (n + j)).uavWaitrequest (e (n + j)) = true := by
    intro d
    induction d with
    | zero => intro _ j hj; omega
    | succ d ih =>
      intro hd j hj
      have hbefore := ih (by omega)
      rcases Nat.lt_succ_iff_lt_or_eq.mp hj with hlt | rfl
      · exact hbefore j hlt
      · exact eq_true_of_ne_false fun hc => hnone ⟨j, by omega, (run_waiting hw hbefore).1, hbefore, hc⟩
  have hsink : ∀ j < 3, (run ram₀ e (n + j)).srcReady = true ∧
      CmdMux.Waits (run ram₀ e (n + j)).mux (run ram₀ e (n + j)).muxInput 0 := by
    intro j hj
    obtain ⟨hstill, hbus⟩ := run_waiting (d := j) hw fun i hi => hwait 3 (Nat.le_refl 3) i (by omega)
    have hwrite := (Bool.and_eq_true_iff.mp hstill).1
    have hstarted := run_started hwrite
    have hroute : (run ram₀ e (n + j)).routed = true := by
      rw [← hrouted, routed, routed, hbus]
    have hwaits := hwait 3 (Nat.le_refl 3) j hj
    rw [uavWaitrequest, hstarted, Bool.false_or, cpReady, hroute, if_pos rfl, Bool.not_eq_true'] at hwaits
    refine ⟨(run_inv ram₀ e (n + j)).ready_in_store hwrite hstarted, ?_, ?_⟩
    · rw [(muxInput_valid _).1, cpValid, hstill, hstarted, hroute]
      rfl
    · rw [CmdMux.accepts, hwaits, Bool.and_false]
  obtain ⟨p, hp⟩ := CmdMux.run_turn (show 0 < 2 by decide) (fun t => (run ram₀ e t).muxInput) n
  have hle := hp.turns_le (show 0 < 2 by decide)
  obtain ⟨_, _, hnear⟩ := CmdMux.run_nearer (e := fun t => (run ram₀ e t).muxInput) (t := n) (k := 0) (d := 3)
    (fun _ => muxInput_oneBeat _) (fun t k hk => (run_inv ram₀ e t).persists (e t) k (by rwa [run_mux]))
    hp (by decide) (fun j hj => by
      rw [← run_mux]
      exact (hsink j hj).2)
  have hall : ∀ j ∈ List.range 3, (run ram₀ e (n + j)).muxInput.srcReady = true := fun j hj =>
    (hsink j (List.mem_range.mp hj)).1
  rw [List.countP_eq_length.mpr hall, List.length_range] at hnear
  omega

theorem clock_begun {s : Bus} {e : BusEvent} (hw : s.uavWrite = true) (hwait : s.uavWaitrequest e = true) :
    (s.clock e).endBegintransfer = true := by
  cases hbegun : s.endBegintransfer <;> simp [clock, internalBegintransfer, hw, hwait, hbegun]

theorem Inv.clock_lets_go {s : Bus} {e : BusEvent} (h : Inv ram₀ s) (hw : s.uavWrite = true)
    (hbegun : s.endBegintransfer = true) (htaken : s.uavWaitrequest e = false) : (s.clock e).dWrite = false := by
  have hwrite := (Bool.and_eq_true_iff.mp hw).1
  have hread : s.dRead = false := eq_false_of_ne_true fun hr => h.one ⟨hr, hwrite⟩
  rw [(clock_busy (by rw [hwrite, Bool.or_true])).2.1]
  simp [dWaitrequest, hread, hwrite, internalBegintransfer, hbegun, htaken]

theorem run_ends {n : Nat} (hw : (run ram₀ e n).dWrite = true) (hrouted : (run ram₀ e n).routed = true) :
    ∃ j ≤ 3, (run ram₀ e (n + j)).dWrite = false := by
  have hends : ∀ m, (run ram₀ e m).dWrite = true → (run ram₀ e m).uavWrite = false →
      (run ram₀ e (m + 1)).dWrite = false := fun m hwrite hnot =>
    (run_inv ram₀ e m).clock_ends (by rw [hwrite, Bool.or_true]) hnot
  cases huav : (run ram₀ e n).uavWrite with
  | false => exact ⟨1, by decide, hends n hw huav⟩
  | true =>
    obtain ⟨j, hj, hstill, hwaited, htaken⟩ := run_taken huav hrouted
    cases j with
    | zero =>
      have hnext : (run ram₀ e (n + 1)).uavWrite = false :=
        ((run_inv ram₀ e n).store_waits huav).1.trans htaken
      cases hdw : (run ram₀ e (n + 1)).dWrite with
      | false => exact ⟨1, by decide, hdw⟩
      | true => exact ⟨2, by decide, hends (n + 1) hdw hnext⟩
    | succ j =>
      have hbegun : (run ram₀ e (n + j + 1)).endBegintransfer = true :=
        clock_begun (run_waiting huav fun i hi => hwaited i (Nat.lt_succ_of_lt hi)).1
          (hwaited j (Nat.lt_succ_self j))
      exact ⟨j + 2, by omega, (run_inv ram₀ e (n + j + 1)).clock_lets_go hstill hbegun htaken⟩

/-- **A store to the frame buffer ends**, at the latest three clocks later, whatever the instruction master
fetches; all the stores are then in the RAM. -/
theorem store_ends {n : Nat} (hw : (run ram₀ e n).dWrite = true) (hrouted : (run ram₀ e n).routed = true) :
    ∃ j ≤ 3, (run ram₀ e (n + j)).dWrite = false ∧
      (run ram₀ e (n + j)).ram = (run ram₀ e (n + j)).issued.reverse.foldl Store.send ram₀ := by
  obtain ⟨j, hj, hnot⟩ := run_ends hw hrouted
  have hmade : (run ram₀ e (n + j)).performed = (run ram₀ e (n + j)).issued :=
    performed_of_written (by rw [uavWrite, hnot, Bool.false_and])
  refine ⟨j, hj, hnot, ?_⟩
  rw [(run_inv ram₀ e (n + j)).ram, hmade, List.foldl_reverse]

end

def storing : BusEvent := ⟨some ⟨true, ⟨.mem32, 0x80000, 0xffffff⟩⟩, some 0x80000, true, true, true⟩

theorem store_ends_storing : ∃ j ≤ 3, (run (fun _ => 0) (fun _ => storing) (1 + j)).dWrite = false ∧
    (run (fun _ => 0) (fun _ => storing) (1 + j)).ram =
      (run (fun _ => 0) (fun _ => storing) (1 + j)).issued.reverse.foldl Store.send fun _ => 0 :=
  store_ends (by decide) (by decide)

end Bus

end NiosSnake
