import NiosSnake.FirstBit

/-!
# The arbiter of the interconnect

`altera_merlin_arbitrator` for any number of requesters, as the command multiplexers use
it: round-robin and pipelined. It grants the first request up from the one that has top
priority, and the next top priority is the one after the request granted.
-/

namespace NiosSnake

section
variable {w : Nat}

/-- `altera_merlin_arb_adder` for up to eight bits: the carry and the sum of each bit. -/
def fullAdder (a b : BitVec w) : BitVec w :=
  (BitVec.iunfoldr (fun (i : Fin w) cout =>
    ((a.getLsbD i && b.getLsbD i) || (cout && (a.getLsbD i ^^ b.getLsbD i)),
      (a.getLsbD i ^^ b.getLsbD i) ^^ cout)) false).2

def arbAdder (a b : BitVec w) : BitVec w := if w ≤ 8 then fullAdder a b else a + b

theorem arbAdder_eq (a b : BitVec w) : arbAdder a b = a + b := by
  have hcarry : ∀ x y c : Bool, ((x && y) || (c && (x ^^ y)), (x ^^ y) ^^ c) = BitVec.adcb x y c := by decide
  have hfull : fullAdder a b = a + b := by
    rw [BitVec.add_eq_adc, BitVec.adc, fullAdder]
    simp only [hcarry]
  rw [arbAdder]
  split
  · exact hfull
  · rfl

end

section
variable {n : Nat}

def arbGrant (request topPriority : BitVec n) : BitVec n :=
  let result := arbAdder (~~~request ++ ~~~request) ((0 : BitVec n) ++ topPriority)
  let grantDoubleVector := (request ++ request) &&& result
  grantDoubleVector.extractLsb' 0 n ||| grantDoubleVector.extractLsb' n n

structure Arbitrator (n : Nat) where
  topPriorityReg : BitVec n

namespace Arbitrator

def reset : Arbitrator n := ⟨1⟩

def grant (s : Arbitrator n) (request : BitVec n) : BitVec n := arbGrant request s.topPriorityReg

/-- `{grant[n-2:0], grant[n-1]}` -/
def clock (s : Arbitrator n) (request : BitVec n) (incrementTopPriority : Bool) : Arbitrator n :=
  if incrementTopPriority then
    if request ≠ 0 then ⟨(s.grant request).rotateLeft 1⟩ else s
  else s

def run (e : Nat → BitVec n × Bool) : Nat → Arbitrator n
  | 0 => reset
  | m + 1 => (run e m).clock (e m).1 (e m).2

end Arbitrator

/-! ## What is granted -/

variable {t : Nat} {r : BitVec n}

theorem arbGrant_iff (ht : t < n) (r : BitVec n) {i : Nat} (hi : i < n) :
    (arbGrant r (BitVec.twoPow n t)).getLsbD i = true ↔ FirstAround r t i := by
  have hdouble : (0 : BitVec n) ++ BitVec.twoPow n t = BitVec.twoPow (n + n) t := by
    apply BitVec.eq_of_getLsbD_eq
    intro j hj
    rw [BitVec.getLsbD_append, BitVec.getLsbD_twoPow, BitVec.getLsbD_twoPow]
    by_cases hjt : t = j
    · simp [hjt, show j < n by omega, hj]
    · simp [hjt]
  have hnot : ~~~r ++ ~~~r = ~~~(r ++ r) := BitVec.not_append.symm
  have hlow := found_iff (r ++ r) (show t < n + n by omega) i
  have hhigh := found_iff (r ++ r) (show t < n + n by omega) (n + i)
  have hgrant : arbGrant r (BitVec.twoPow n t) =
      ((r ++ r) &&& (~~~(r ++ r) + BitVec.twoPow (n + n) t)).extractLsb' 0 n |||
        ((r ++ r) &&& (~~~(r ++ r) + BitVec.twoPow (n + n) t)).extractLsb' n n := by
    rw [← hnot, ← hdouble, ← arbAdder_eq]
    rfl
  rw [← firstBit_twice ht hi, ← hlow, ← hhigh, hgrant, BitVec.getLsbD_or, BitVec.getLsbD_extractLsb',
    BitVec.getLsbD_extractLsb', decide_eq_true hi, Bool.true_and, Bool.true_and, Nat.zero_add, Bool.or_eq_true]

theorem arbGrant_zero (ht : t < n) : arbGrant 0 (BitVec.twoPow n t) = 0 := by
  apply BitVec.eq_of_getLsbD_eq
  intro i hi
  have hzero : (0 : BitVec n).getLsbD i = false := BitVec.getLsbD_zero
  rw [hzero]
  refine eq_false_of_ne_true fun hg => ?_
  have hbit := ((arbGrant_iff ht 0 hi).mp hg).2.1
  rw [hzero] at hbit
  cases hbit

theorem arbGrant_eq (ht : t < n) {k : Nat} (hk : FirstAround r t k) :
    arbGrant r (BitVec.twoPow n t) = BitVec.twoPow n k := by
  apply BitVec.eq_of_getLsbD_eq
  intro i hi
  have hiff := arbGrant_iff ht r hi
  rw [BitVec.getLsbD_twoPow, decide_eq_true hk.1, Bool.true_and]
  by_cases hki : k = i
  · rw [decide_eq_true hki]
    exact hiff.mpr (hki ▸ hk)
  · rw [decide_eq_false hki]
    exact eq_false_of_ne_true fun hg => hki (hk.unique ht (hiff.mp hg))

theorem rotateLeft_twoPow {k : Nat} (hk : k < n) :
    (BitVec.twoPow n k).rotateLeft 1 = BitVec.twoPow n ((k + 1) % n) := by
  apply BitVec.eq_of_getLsbD_eq
  intro i hi
  rcases Nat.lt_or_ge 1 n with hn | hn
  · have hnext := next_mod hk
    rw [BitVec.getLsbD_rotateLeft, Nat.mod_eq_of_lt hn, BitVec.getLsbD_twoPow, BitVec.getLsbD_twoPow,
      BitVec.getLsbD_twoPow, hnext]
    by_cases hi' : i = 0
    · subst hi'
      by_cases hlast : k + 1 = n <;> simp [hlast, show k < n by omega] <;> omega
    · have hprev : k = i - 1 ↔ k + 1 = i := by omega
      by_cases hlast : k + 1 = n
      · simp [hlast, hi, hprev, show ¬ i < 1 by omega, show ¬ n = i by omega, show ¬ 0 = i by omega]
      · simp [hlast, hi, hprev, hk, show ¬ i < 1 by omega, show k + 1 < n by omega]
  · obtain rfl : n = 1 := by omega
    obtain rfl : k = 0 := by omega
    obtain rfl : i = 0 := by omega
    decide

namespace Arbitrator

theorem clock_eq {s : Arbitrator n} (ht : t < n) (hs : s.topPriorityReg = BitVec.twoPow n t) {k : Nat}
    (hk : FirstAround r t k) : (s.clock r true).topPriorityReg = BitVec.twoPow n ((k + 1) % n) := by
  have hr : r ≠ 0 := by
    rintro rfl
    exact absurd hk.2.1 (by simp)
  rw [clock, if_pos rfl, if_pos hr, grant, hs, arbGrant_eq ht hk, rotateLeft_twoPow hk.1]

theorem run_oneHot (hn : 0 < n) (e : Nat → BitVec n × Bool) :
    ∀ m, ∃ t < n, (run e m).topPriorityReg = BitVec.twoPow n t
  | 0 => ⟨0, hn, BitVec.twoPow_zero.symm⟩
  | m + 1 => by
    obtain ⟨t, ht, htop⟩ := run_oneHot hn e m
    by_cases hr : (e m).2 = true ∧ (e m).1 ≠ 0
    · obtain ⟨k, hk⟩ := exists_firstAround (t := t) hr.2
      refine ⟨(k + 1) % n, Nat.mod_lt _ hn, ?_⟩
      rw [run, hr.1]
      exact clock_eq ht htop hk
    · have hsame : (run e m).clock (e m).1 (e m).2 = run e m := by
        unfold clock
        split
        · exact if_neg fun hne => hr ⟨‹_›, hne⟩
        · rfl
      rw [run, hsame]
      exact ⟨t, ht, htop⟩

/-- **The arbiter goes around.** Whenever requests come and the top priority is incremented, at every clock
some requester `t` has top priority; the only grant is to the first request from `t` on, and if it is
incremented then the one after that is next. -/
theorem run_grants (hn : 0 < n) (e : Nat → BitVec n × Bool) (m : Nat) :
    ∃ t < n, (run e m).topPriorityReg = BitVec.twoPow n t ∧ ((e m).1 = 0 → (run e m).grant (e m).1 = 0) ∧
      ((e m).1 ≠ 0 → ∃ k, FirstAround (e m).1 t k ∧ (run e m).grant (e m).1 = BitVec.twoPow n k ∧
        ((e m).2 = true → (run e (m + 1)).topPriorityReg = BitVec.twoPow n ((k + 1) % n))) := by
  obtain ⟨t, ht, htop⟩ := run_oneHot hn e m
  refine ⟨t, ht, htop, fun hr => ?_, fun hr => ?_⟩
  · rw [grant, htop, hr]
    exact arbGrant_zero ht
  · obtain ⟨k, hk⟩ := exists_firstAround (t := t) hr
    refine ⟨k, hk, ?_, fun hinc => ?_⟩
    · rw [grant, htop]
      exact arbGrant_eq ht hk
    · rw [run, hinc]
      exact clock_eq ht htop hk

def both : Nat → BitVec 2 × Bool := fun _ => (3, true)

theorem run_grants_both : ∃ t < 2, (run both 4).topPriorityReg = BitVec.twoPow 2 t ∧
    ((both 4).1 = 0 → (run both 4).grant (both 4).1 = 0) ∧
    ((both 4).1 ≠ 0 → ∃ k, FirstAround (both 4).1 t k ∧ (run both 4).grant (both 4).1 = BitVec.twoPow 2 k ∧
      ((both 4).2 = true → (run both 5).topPriorityReg = BitVec.twoPow 2 ((k + 1) % 2))) :=
  run_grants (by decide) both 4

end Arbitrator

end

end NiosSnake
