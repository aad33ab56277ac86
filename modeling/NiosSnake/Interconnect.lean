import Mathlib.Algebra.Order.Ring.Nat
import NiosSnake.Types

/-!
# The address decoder

`system_mm_interconnect_0_router`: the router of the processor's data master. It
compares the upper address bits with the base of each slave; an address that
matches none goes to the frame buffer. The translator of a slave hands on the word
address.
-/

namespace NiosSnake

/-- The loop of `log2ceil`; its counter `i` is 66 bits wide. -/
def log2ceilLoop (val : Nat) : Nat → Nat → Nat → Nat
  | 0, _, log => log
  | fuel + 1, i, log => if i < val then log2ceilLoop val fuel (2 * i) (log + 1) else log

def log2ceil (val : Nat) : Nat := log2ceilLoop val 66 1 0

inductive Slave where
  | btnPio
  | cpuDebug
  | frameBuffer
  | jtagUart
  | memory
  | scorePio
  | sysClkTimer
  deriving DecidableEq

/-- One comparison of the decoder: the range of a slave, and the channel and destination it sets. -/
structure DecodeRule where
  low : Nat
  high : Nat
  srcChannel : BitVec 7
  destId : BitVec 3

namespace DecodeRule

def pad (r : DecodeRule) : Nat := log2ceil (r.high - r.low)

/-- `{address[RG:PAD],{PAD{1'b0}}} == low` -/
def hit (r : DecodeRule) (address : BitVec 21) : Bool := address >>> r.pad <<< r.pad == BitVec.ofNat 21 r.low

end DecodeRule

def Slave.rule : Slave → DecodeRule
  | frameBuffer => ⟨0x80000, 0x100000, 0b0100000, 2⟩
  | memory => ⟨0x110000, 0x120000, 0b0001000, 4⟩
  | cpuDebug => ⟨0x120800, 0x121000, 0b0000010, 1⟩
  | sysClkTimer => ⟨0x121000, 0x121020, 0b0000100, 6⟩
  | scorePio => ⟨0x121020, 0x121030, 0b1000000, 5⟩
  | btnPio => ⟨0x121030, 0x121040, 0b0010000, 0⟩
  | jtagUart => ⟨0x121040, 0x121048, 0b0000001, 3⟩

/-- `DEFAULT_CHANNEL` and `DEFAULT_DESTID`, overridden by every comparison that matches. -/
def decode (address : BitVec 21) : BitVec 7 × BitVec 3 :=
  [Slave.frameBuffer, .memory, .cpuDebug, .sysClkTimer, .scorePio, .btnPio, .jtagUart].foldl
    (fun route s => if s.rule.hit address then (s.rule.srcChannel, s.rule.destId) else route)
    (1 <<< 5, 2)

def Routed (address : BitVec 21) (s : Slave) : Prop := decode address = (s.rule.srcChannel, s.rule.destId)

instance (address : BitVec 21) (s : Slave) : Decidable (Routed address s) := inferInstanceAs (Decidable (_ = _))

/-- The word address at a slave with `n` address bits, from `altera_merlin_slave_translator`. -/
def avAddress (n : Nat) (address : BitVec 21) : BitVec n := address.extractLsb' 2 n

/-! ## What the decoder does -/

def Slave.Range (s : Slave) (address : BitVec 21) : Prop :=
  s.rule.low ≤ address.toNat ∧ address.toNat < s.rule.high

theorem DecodeRule.hit_iff {r : DecodeRule} {q : Nat} (hlow : r.low = q * 2 ^ r.pad) (hlt : r.low < 2 ^ 21)
    (hhigh : r.high = r.low + 2 ^ r.pad) (address : BitVec 21) :
    r.hit address = true ↔ r.low ≤ address.toNat ∧ address.toNat < r.high := by
  have hpos : 0 < 2 ^ r.pad := Nat.two_pow_pos _
  have hdown : (address >>> r.pad <<< r.pad).toNat = address.toNat / 2 ^ r.pad * 2 ^ r.pad := by
    rw [BitVec.toNat_shiftLeft, BitVec.toNat_ushiftRight, Nat.shiftLeft_eq, Nat.shiftRight_eq_div_pow]
    exact Nat.mod_eq_of_lt (Nat.lt_of_le_of_lt (Nat.div_mul_le_self _ _) address.isLt)
  rw [hit, beq_iff_eq, ← BitVec.toNat_inj, hdown, BitVec.toNat_ofNat, Nat.mod_eq_of_lt hlt, hhigh, hlow,
    Nat.mul_left_inj (by omega), Nat.div_eq_iff hpos]
  omega

theorem Slave.hit_iff (s : Slave) (address : BitVec 21) : s.rule.hit address = true ↔ s.Range address := by
  cases s with
  | btnPio => exact DecodeRule.hit_iff (q := 0x12103) (by decide) (by decide) (by decide) address
  | cpuDebug => exact DecodeRule.hit_iff (q := 0x241) (by decide) (by decide) (by decide) address
  | frameBuffer => exact DecodeRule.hit_iff (q := 1) (by decide) (by decide) (by decide) address
  | jtagUart => exact DecodeRule.hit_iff (q := 0x24208) (by decide) (by decide) (by decide) address
  | memory => exact DecodeRule.hit_iff (q := 0x11) (by decide) (by decide) (by decide) address
  | scorePio => exact DecodeRule.hit_iff (q := 0x12102) (by decide) (by decide) (by decide) address
  | sysClkTimer => exact DecodeRule.hit_iff (q := 0x9080) (by decide) (by decide) (by decide) address

theorem Slave.range_unique {s t : Slave} {address : BitVec 21} (hs : s.Range address) (ht : t.Range address) :
    s = t := by
  cases s <;> cases t <;> first | rfl | (exfalso; simp only [Range, rule] at hs ht; omega)

theorem decode_of_range {s : Slave} {address : BitVec 21} (h : s.Range address) : Routed address s := by
  have hhit : ∀ t : Slave, t.rule.hit address = true ↔ t = s := by
    intro t
    rw [t.hit_iff]
    exact ⟨fun ht => Slave.range_unique ht h, fun ht => ht ▸ h⟩
  simp only [Routed, decode, List.foldl_cons, List.foldl_nil, hhit]
  cases s <;> simp

theorem decode_default {address : BitVec 21} (h : ∀ s : Slave, ¬ s.Range address) : Routed address .frameBuffer := by
  have hhit : ∀ t : Slave, ¬ t.rule.hit address = true := fun t ht => h t ((t.hit_iff address).mp ht)
  simp only [Routed, decode, List.foldl_cons, List.foldl_nil, hhit]
  decide

theorem Routed.unique {s t : Slave} {address : BitVec 21} (hs : Routed address s) (ht : Routed address t) : s = t := by
  have h := hs.symm.trans ht
  revert h
  cases s <;> cases t <;> decide

structure Device where
  slave : Slave
  base : Nat
  span : Nat
  addressBits : Nat

def systemDevices : List Device :=
  [⟨.btnPio, 0x121030, 16, 2⟩, ⟨.frameBuffer, 0x80000, 282144, 17⟩, ⟨.jtagUart, 0x121040, 8, 1⟩,
   ⟨.memory, 0x110000, 65536, 14⟩, ⟨.scorePio, 0x121020, 16, 2⟩, ⟨.sysClkTimer, 0x121000, 32, 3⟩]

theorem avAddress_toNat (n : Nat) (address : BitVec 21) : (avAddress n address).toNat = address.toNat / 4 % 2 ^ n := by
  rw [avAddress, BitVec.extractLsb'_toNat, Nat.shiftRight_eq_div_pow]

theorem systemDevices_range : ∀ e ∈ systemDevices, e.slave.rule.low = e.base ∧ e.base + e.span ≤ e.slave.rule.high ∧
    e.slave.rule.high < 2 ^ 21 ∧ e.span ≤ 4 * 2 ^ e.addressBits ∧ 4 * 2 ^ e.addressBits ∣ e.base := by
  decide

/-- **The address map.** An address goes to the slave whose range it is in, and to the frame buffer if it
is in none; every byte of a device of `system.h` goes to that device, at its own word. -/
theorem address_map :
    (∀ address s, Routed address s ↔ s.Range address ∨ s = .frameBuffer ∧ ∀ t : Slave, ¬ t.Range address) ∧
    ∀ e ∈ systemDevices, ∀ o < e.span, Routed (BitVec.ofNat 21 (e.base + o)) e.slave ∧
      (avAddress e.addressBits (BitVec.ofNat 21 (e.base + o))).toNat = o / 4 := by
  refine ⟨fun address s => ⟨fun h => ?_, ?_⟩, fun e he o ho => ?_⟩
  · by_cases hany : ∃ t : Slave, t.Range address
    · obtain ⟨t, ht⟩ := hany
      exact .inl (h.unique (decode_of_range ht) ▸ ht)
    · have hnone : ∀ t : Slave, ¬ t.Range address := fun t ht => hany ⟨t, ht⟩
      exact .inr ⟨h.unique (decode_default hnone), hnone⟩
  · rintro (h | ⟨rfl, h⟩)
    · exact decode_of_range h
    · exact decode_default h
  · obtain ⟨hlow, hhigh, hlt, hspan, k, hk⟩ := systemDevices_range e he
    have ho' : (BitVec.ofNat 21 (e.base + o)).toNat = e.base + o := by
      rw [BitVec.toNat_ofNat, Nat.mod_eq_of_lt (by omega)]
    refine ⟨decode_of_range ⟨by omega, by omega⟩, ?_⟩
    rw [avAddress_toNat, ho', hk, Nat.mul_assoc, Nat.mul_add_div (by decide), Nat.mul_add_mod,
      Nat.mod_eq_of_lt (by omega)]

end NiosSnake
