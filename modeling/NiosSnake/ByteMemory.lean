import Mathlib.Algebra.Group.Nat.Defs

/-!
# Byte memory and painted regions

Memory is a map from machine addresses to bytes. `memset` fills an address
range that may wrap at the end of the address space. A family of regions is
painted one at a time; a region keeps its colour as long as only regions
disjoint from it are painted.
-/

abbrev ByteMemory (w : Nat) := BitVec w → BitVec 8

namespace ByteMemory

/-- Address `a` is one of the `n` addresses from `start`, modulo the address space. -/
def Within {w : Nat} (start : BitVec w) (n : Nat) (a : BitVec w) : Prop := (a - start).toNat < n

instance {w : Nat} (start : BitVec w) (n : Nat) (a : BitVec w) : Decidable (Within start n a) :=
  inferInstanceAs (Decidable (_ < _))

theorem within_one {w : Nat} {start a : BitVec w} : Within start 1 a ↔ a = start := by
  rw [Within, Nat.lt_one_iff, ← BitVec.toNat_zero (w := w), BitVec.toNat_inj]
  constructor
  · intro h
    rw [← BitVec.sub_add_cancel a start, h, BitVec.zero_add]
  · rintro rfl
    exact BitVec.sub_self a

def memset {w : Nat} (m : ByteMemory w) (start : BitVec w) (c : BitVec 8) (n : Nat) : ByteMemory w :=
  fun a => if Within start n a then c else m a

theorem memset_within {w : Nat} {m : ByteMemory w} {start a : BitVec w} {c : BitVec 8} {n : Nat}
    (h : Within start n a) : m.memset start c n a = c := if_pos h

theorem memset_frame {w : Nat} {m : ByteMemory w} {start a : BitVec w} {c : BitVec 8} {n : Nat}
    (h : ¬ Within start n a) : m.memset start c n a = m a := if_neg h

theorem within_add_iff {w : Nat} (base c a : BitVec w) {n : Nat} (hn : n ≤ 2 ^ w) :
    Within (base + c) n a ↔ ∃ j < n, (a - base).toNat = (c.toNat + j) % 2 ^ w := by
  have hsplit : a - base = c + (a - (base + c)) := by
    rw [← BitVec.sub_sub, BitVec.add_comm, BitVec.sub_add_cancel]
  constructor
  · intro h
    exact ⟨_, h, by rw [hsplit, BitVec.toNat_add]⟩
  · rintro ⟨j, hj, h⟩
    have he : c + (a - (base + c)) = c + BitVec.ofNat w j := by
      apply BitVec.eq_of_toNat_eq
      rw [← hsplit, h, BitVec.toNat_add, BitVec.toNat_ofNat, Nat.mod_eq_of_lt (show j < 2 ^ w by omega)]
    rw [Within, (BitVec.add_right_inj c).mp he, BitVec.toNat_ofNat, Nat.mod_eq_of_lt (by omega)]
    exact hj

end ByteMemory

/-! ## Painting regions -/

namespace Paint

variable {ι α β : Type} (region : ι → α → Prop)

def Shows (m : α → β) (i : ι) (c : β) : Prop := ∀ a, region i a → m a = c

def Painted (m m' : α → β) (i : ι) (c : β) : Prop :=
  ∀ a, (region i a → m' a = c) ∧ (¬ region i a → m' a = m a)

variable {region} {m m' : α → β} {i j : ι} {c c' : β}

theorem shows_painted (h : Painted region m m' i c) : Shows region m' i c := fun a ha => (h a).1 ha

theorem Shows.frame (hs : Shows region m i c) (h : Painted region m m' j c')
    (hd : ∀ a, region i a → ¬ region j a) : Shows region m' i c :=
  fun a ha => ((h a).2 (hd a ha)).trans (hs a ha)

theorem Shows.same (hs : Shows region m i c) (h : Painted region m m' j c) : Shows region m' i c := by
  intro a ha
  by_cases hj : region j a
  · exact (h a).1 hj
  · exact ((h a).2 hj).trans (hs a ha)

theorem Shows.unique (hs : Shows region m i c) (hs' : Shows region m i c') {a : α} (ha : region i a) :
    c = c' := (hs a ha).symm.trans (hs' a ha)

/-- **Erasing and going on.** Some region is erased in colour `b` and a disjoint one is painted:
a region still shows its colour exactly if that is `b` or the erased region was another one. -/
theorem Shows.erased_iff {m₁ m₂ : α → β} {b : β} {k : ι} (hs : Shows region m i c)
    (he : Painted region m m₁ j b) (hj : i ≠ j → ∀ a, region i a → ¬ region j a)
    (hk : Painted region m₁ m₂ k c') (hd : ∀ a, region i a → ¬ region k a) (hne : ∃ a, region i a) :
    Shows region m₂ i c ↔ c = b ∨ i ≠ j := by
  classical
  constructor
  · intro h
    by_cases hij : i = j
    · obtain ⟨a, ha⟩ := hne
      subst hij
      exact Or.inl (h.unique ((shows_painted he).frame hk hd) ha)
    · exact Or.inr hij
  · rintro (rfl | hij)
    · exact (hs.same he).frame hk hd
    · exact (hs.frame he (hj hij)).frame hk hd

end Paint
