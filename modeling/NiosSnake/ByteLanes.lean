import NiosSnake.WordMemory

/-!
# Words written byte by byte

A word is the four bytes of its address. A write with byte enables changes the
bytes it names, and a store of an aligned unit of a few bytes changes those.
-/

namespace ByteMemory

variable {w : Nat}

theorem eq_of_bytes {x y : BitVec 32} (h : ∀ k < 4, x.extractLsb' (8 * k) 8 = y.extractLsb' (8 * k) 8) : x = y := by
  apply BitVec.eq_of_getLsbD_eq
  intro i hi
  have hk := congrArg (·.getLsbD (i % 8)) (h (i / 8) (by omega))
  simp only [BitVec.getLsbD_extractLsb', show 8 * (i / 8) + i % 8 = i by omega, show i % 8 < 8 by omega,
    decide_true, Bool.true_and] at hk
  exact hk

theorem eq_word_iff {m : ByteMemory w} {b : BitVec w} {x : BitVec 32} :
    x = word m b ↔ ∀ k < 4, x.extractLsb' (8 * k) 8 = m (b + BitVec.ofNat w k) := by
  constructor
  · rintro rfl k hk
    exact extractLsb'_word m b hk
  · intro h
    exact eq_of_bytes fun k hk => (h k hk).trans (extractLsb'_word m b hk).symm

theorem extractLsb'_halves (x : BitVec 16) {k : Nat} (hk : k < 4) :
    (x ++ x).extractLsb' (8 * k) 8 = x.extractLsb' (8 * (k % 2)) 8 := by
  apply BitVec.eq_of_getLsbD_eq
  intro i hi
  have hlow : 8 * (k % 2) + i < 16 := by omega
  simp only [BitVec.getLsbD_extractLsb', BitVec.getLsbD_append, hi, decide_true, Bool.true_and]
  by_cases h : k < 2
  · rw [if_pos (by omega), Nat.mod_eq_of_lt h]
  · rw [if_neg (by omega)]
    congr 1
    omega

def mergeBytes (enable : BitVec 4) (data old : BitVec 32) : BitVec 32 :=
  (if enable.getLsbD 3 then data.extractLsb' 24 8 else old.extractLsb' 24 8) ++
    (if enable.getLsbD 2 then data.extractLsb' 16 8 else old.extractLsb' 16 8) ++
    (if enable.getLsbD 1 then data.extractLsb' 8 8 else old.extractLsb' 8 8) ++
    (if enable.getLsbD 0 then data.extractLsb' 0 8 else old.extractLsb' 0 8)

theorem extractLsb'_mergeBytes (enable : BitVec 4) (data old : BitVec 32) {k : Nat} (hk : k < 4) :
    (mergeBytes enable data old).extractLsb' (8 * k) 8 =
      if enable.getLsbD k then data.extractLsb' (8 * k) 8 else old.extractLsb' (8 * k) 8 := by
  unfold mergeBytes
  obtain ⟨h₀, h₁, h₂, h₃⟩ := extractLsb'_bytes
    (if enable.getLsbD 3 then data.extractLsb' 24 8 else old.extractLsb' 24 8)
    (if enable.getLsbD 2 then data.extractLsb' 16 8 else old.extractLsb' 16 8)
    (if enable.getLsbD 1 then data.extractLsb' 8 8 else old.extractLsb' 8 8)
    (if enable.getLsbD 0 then data.extractLsb' 0 8 else old.extractLsb' 0 8)
  rcases (show k = 0 ∨ k = 1 ∨ k = 2 ∨ k = 3 by omega) with rfl | rfl | rfl | rfl
  · exact h₀
  · exact h₁
  · exact h₂
  · exact h₃

/-- The aligned unit of `n` bytes that holds `a` takes the low bytes of `data`. -/
def storeUnit (m : ByteMemory w) (n : Nat) (a : BitVec w) (data : BitVec 32) : ByteMemory w :=
  fun b => if b.toNat / n = a.toNat / n then data.extractLsb' (8 * (b.toNat % n)) 8 else m b

theorem storeUnit_one (m : ByteMemory w) (a : BitVec w) (data : BitVec 32) :
    m.storeUnit 1 a data = m.memset a (data.extractLsb' 0 8) 1 := by
  funext b
  simp only [storeUnit, memset, within_one, Nat.div_one, Nat.mod_one, Nat.mul_zero, BitVec.toNat_inj]

theorem foldl_memset_one (start : BitVec w) (c : BitVec 8) : ∀ {n : Nat}, n ≤ 2 ^ w → ∀ m : ByteMemory w,
    (List.range n).foldl (fun m i => m.memset (start + BitVec.ofNat w i) c 1) m = m.memset start c n
  | 0, _, m => by
    funext b
    exact (memset_frame (Nat.not_lt_zero _)).symm
  | n + 1, hn, m => by
    rw [List.range_succ, List.foldl_append, foldl_memset_one start c (by omega), List.foldl_cons, List.foldl_nil]
    have hlast : ∀ b : BitVec w, Within (start + BitVec.ofNat w n) 1 b ↔ (b - start).toNat = n := by
      intro b
      rw [within_one, show (b - start).toNat = n ↔ b - start = BitVec.ofNat w n by
        rw [← BitVec.toNat_inj, BitVec.toNat_ofNat, Nat.mod_eq_of_lt (by omega)]]
      constructor
      · rintro rfl
        rw [BitVec.add_comm, BitVec.add_sub_cancel]
      · intro h
        rw [← h, BitVec.add_comm, BitVec.sub_add_cancel]
    funext b
    by_cases hb : (b - start).toNat = n
    · rw [memset_within ((hlast b).mpr hb), memset_within (show (b - start).toNat < n + 1 by omega)]
    · rw [memset_frame (mt (hlast b).mp hb)]
      exact if_congr (show (b - start).toNat < n ↔ (b - start).toNat < n + 1 by omega) rfl rfl

end ByteMemory
