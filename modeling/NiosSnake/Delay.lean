import Mathlib.Algebra.Order.Ring.Nat
import NiosSnake.Types

/-!
# Waiting

`delay` of `main.c` sleeps in `alt_busy_sleep`, which counts a register down. Times
of 143165576 µs and more are cut into big loops, and the loop that counts what is
left tests for zero only after the first decrement: if nothing is left it goes all
the way around.
-/

namespace NiosSnake

def ALT_CPU_FREQ : U32 := 138000000

def NIOS2_CPU_IMPLEMENTATION : String := "tiny"

def INT_MAX : U32 := 0x7FFFFFFF

/-- `addi r,r,-1` and `bne r,zero`: how often they are executed. -/
def bneLoop (r : U32) : Nat :=
  if r - 1 ≠ 0 then bneLoop (r - 1) + 1 else 1
termination_by (r - 1).toNat
decreasing_by bv_omega

def bgtLoop (r : U32) : Nat :=
  if 0 < (r - 1).toInt then bgtLoop (r - 1) + 1 else 1
termination_by (r - 1).toNat
decreasing_by
  rename_i h
  have hne : r - 1 ≠ 0 := by
    intro hz
    rw [hz] at h
    exact absurd h (by decide)
  bv_omega

def cyclesPerLoop : U32 := if NIOS2_CPU_IMPLEMENTATION = "tiny" then 9 else 3

/-- `ALT_CPU_FREQ/(cycles_per_loop * 1000000)` -/
def loopsPerUs : U32 := ALT_CPU_FREQ / (cyclesPerLoop * 1000000)

def bigLoopUs : U32 := INT_MAX / loopsPerUs

/-- The `for` loop with `n` rounds to go: how often its countdowns go around, and the time that is left. -/
def bigLoops : Nat → U32 → Nat × U32
  | 0, us => (0, us)
  | n + 1, us => (bneLoop INT_MAX + (bigLoops n (us - bigLoopUs)).1, (bigLoops n (us - bigLoopUs)).2)

/-- `alt_busy_sleep`: how often its countdowns go around. -/
def altBusySleep (us : U32) : Nat :=
  let big := us / bigLoopUs
  if big ≠ 0 then
    let looped := bigLoops big.toNat us
    looped.1 + bneLoop (looped.2 * loopsPerUs)
  else bgtLoop (us * loopsPerUs)

def delay (msec : U32) : Nat := altBusySleep (msec * 300)

/-! ## The countdowns -/

theorem bneLoop_eq (r : U32) : bneLoop r = if r = 0 then 2 ^ 32 else r.toNat := by
  induction r using bneLoop.induct with
  | case1 r h ih =>
    rw [bneLoop, if_pos h, ih, if_neg h]
    split <;> bv_omega
  | case2 r h =>
    obtain rfl : r = 1 := by bv_omega
    rw [bneLoop, if_neg h, if_neg (by decide)]
    rfl

theorem bgtLoop_eq {r : U32} (hr : r.toNat < 2 ^ 31) : bgtLoop r = max 1 r.toNat := by
  induction r using bgtLoop.induct with
  | case1 r h ih =>
    have hpred : 2 ≤ r.toNat ∧ (r - 1).toNat = r.toNat - 1 := by
      rw [BitVec.toInt_eq_toNat_cond] at h
      split at h <;> bv_omega
    rw [bgtLoop, if_pos h, ih (by omega)]
    omega
  | case2 r h =>
    have hle : r.toNat ≤ 1 := by
      rw [BitVec.toInt_eq_toNat_cond] at h
      split at h <;> bv_omega
    rw [bgtLoop, if_neg h]
    omega

/-! ## The big loops -/

theorem loopsPerUs_eq : loopsPerUs = 15 := by decide

theorem bigLoopUs_eq : bigLoopUs = 143165576 := by
  rw [bigLoopUs, loopsPerUs_eq]
  decide

theorem bigLoops_eq (n : Nat) (us : U32) (h : n * 143165576 ≤ us.toNat) :
    (bigLoops n us).1 = n * 2147483647 ∧ (bigLoops n us).2.toNat = us.toNat - n * 143165576 := by
  induction n generalizing us with
  | zero =>
    simp [bigLoops]
  | succ n ih =>
    have hsub : (us - bigLoopUs).toNat = us.toNat - 143165576 := by
      rw [bigLoopUs_eq]
      bv_omega
    have hle : n * 143165576 ≤ (us - bigLoopUs).toNat := by
      rw [Nat.succ_mul] at h
      rw [hsub]
      exact Nat.le_sub_of_add_le h
    obtain ⟨hcount, hleft⟩ := ih (us - bigLoopUs) hle
    have hbne : bneLoop INT_MAX = 2147483647 := bneLoop_eq INT_MAX
    rw [bigLoops, hcount, hbne, hleft, hsub]
    omega

theorem altBusySleep_eq (us : U32) : altBusySleep us =
    if us.toNat < 143165576 then max 1 (15 * us.toNat)
    else us.toNat / 143165576 * 2147483647 +
      if us.toNat % 143165576 = 0 then 2 ^ 32 else 15 * (us.toNat % 143165576) := by
  have hbig : (us / bigLoopUs).toNat = us.toNat / 143165576 := by
    rw [bigLoopUs_eq, BitVec.toNat_udiv]
    rfl
  have hzero : us / bigLoopUs ≠ 0 ↔ ¬ us.toNat < 143165576 := by
    rw [ne_eq, ← BitVec.toNat_inj, hbig]
    show ¬ us.toNat / 143165576 = 0 ↔ _
    omega
  have hproduct : ∀ r : U32, r.toNat < 143165576 → (r * loopsPerUs).toNat = 15 * r.toNat := by
    intro r hr
    rw [loopsPerUs_eq, BitVec.toNat_mul]
    show r.toNat * 15 % 2 ^ 32 = _
    omega
  rw [altBusySleep]
  by_cases hsmall : us.toNat < 143165576
  · rw [if_pos hsmall, if_neg (mt hzero.mp (not_not_intro hsmall)), bgtLoop_eq] <;> rw [hproduct us hsmall]
    omega
  · rw [if_neg hsmall, if_pos (hzero.mpr hsmall), hbig]
    obtain ⟨hcount, hleft⟩ := bigLoops_eq (us.toNat / 143165576) us (Nat.div_mul_le_self ..)
    have hrest : (bigLoops (us.toNat / 143165576) us).2.toNat = us.toNat % 143165576 := by omega
    have hloop := hproduct _ (by omega : (bigLoops (us.toNat / 143165576) us).2.toNat < 143165576)
    rw [hrest] at hloop
    have hnone : (bigLoops (us.toNat / 143165576) us).2 * loopsPerUs = 0 ↔ us.toNat % 143165576 = 0 := by
      rw [← BitVec.toNat_inj, hloop]
      show 15 * _ = 0 ↔ _
      omega
    dsimp only
    rw [hcount, bneLoop_eq, hloop]
    simp only [hnone]

/-- **When a sleep takes as long as asked.** The countdowns take 15 rounds for each microsecond, and at most
210 more, exactly if the time is no multiple of 143165576 other than zero; for such a multiple the last of
them takes 2³². -/
theorem altBusySleep_iff (us : U32) : 15 * us.toNat ≤ altBusySleep us ∧
    (altBusySleep us ≤ 15 * us.toNat + 210 ↔ us = 0 ∨ us.toNat % 143165576 ≠ 0) ∧
    (us ≠ 0 → us.toNat % 143165576 = 0 → altBusySleep us = us.toNat / 143165576 * 2147483647 + 2 ^ 32) := by
  have hlt := us.isLt
  have hzero : us = 0 ↔ us.toNat = 0 := by rw [← BitVec.toNat_inj]; rfl
  rw [altBusySleep_eq, hzero]
  split
  · refine ⟨by omega, by omega, fun hne hmod => ?_⟩
    have hpos := mt hzero.mpr hne
    omega
  · refine ⟨?_, ?_, fun _ hmod => by rw [if_pos hmod]⟩ <;> split <;> omega

theorem delay_eq {msec : U32} (h0 : msec ≠ 0) (h : msec.toNat < 477218) : delay msec = 4500 * msec.toNat := by
  have hus : (msec * 300).toNat = 300 * msec.toNat := by
    rw [BitVec.toNat_mul]
    show msec.toNat * 300 % 2 ^ 32 = _
    omega
  have hpos : msec.toNat ≠ 0 := fun hz => h0 (BitVec.eq_of_toNat_eq hz)
  rw [delay, altBusySleep_eq, hus, if_pos (by omega)]
  omega

end NiosSnake
