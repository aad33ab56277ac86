/-!
# Windows of fixed size

An array of fixed size that is shifted by one slot and refilled at the front
holds the last values pushed into it, newest first. Its first `k` slots behave
as a queue of length `k` for every `k` up to the size.
-/

structure Window (α : Type u) (n : Nat) where
  slots : List α
  size_eq : slots.length = n

namespace Window

variable {α : Type u} {n : Nat}

def replicate (n : Nat) (a : α) : Window α n := ⟨List.replicate n a, List.length_replicate⟩

def getD (w : Window α n) (i : Nat) (d : α) : α := w.slots.getD i d

def set (w : Window α n) (i : Nat) (a : α) : Window α n :=
  ⟨w.slots.set i a, by rw [List.length_set, w.size_eq]⟩

@[simp] theorem getD_replicate (a : α) (i : Nat) : (replicate n a).getD i a = a := by
  rw [getD, replicate, List.getD_eq_getElem?_getD, List.getElem?_replicate]
  split <;> rfl

theorem getD_set_ne (w : Window α n) {i j : Nat} (a d : α) (h : i ≠ j) :
    (w.set i a).getD j d = w.getD j d := by
  simp [set, getD, List.getD_eq_getElem?_getD, List.getElem?_set_ne h]

/-- `memmove` of `k` slots from slot `src` to slot `dst`; the ranges may overlap. -/
def memmove (w : Window α n) (dst src k : Nat) (hd : dst + k ≤ n) (hs : src + k ≤ n) : Window α n :=
  ⟨w.slots.take dst ++ ((w.slots.drop src).take k ++ w.slots.drop (dst + k)), by
    have := w.size_eq
    simp only [List.length_append, List.length_take, List.length_drop]
    omega⟩

def push (w : Window α (n + 1)) (a : α) : Window α (n + 1) :=
  (w.memmove 1 0 n (by omega) (by omega)).set 0 a

theorem slots_push (w : Window α (n + 1)) (a : α) : (w.push a).slots = a :: w.slots.take n := by
  obtain ⟨slots, hw⟩ := w
  cases slots with
  | nil => cases hw
  | cons b l =>
    have hl : l.length = n := by simpa using hw
    simp [push, set, memmove, Nat.add_comm 1 n, List.drop_eq_nil_of_le (Nat.le_of_eq hl)]

@[simp] theorem getD_push_zero (w : Window α (n + 1)) (a d : α) : (w.push a).getD 0 d = a := by
  simp [getD, slots_push]

theorem getD_push_succ (w : Window α (n + 1)) (a d : α) {i : Nat} (hi : i < n) :
    (w.push a).getD (i + 1) d = w.getD i d := by
  simp [getD, slots_push, List.getD_eq_getElem?_getD, List.getElem?_take_of_lt hi]

theorem getD_of_le (w : Window α n) (d : α) {i : Nat} (hi : n ≤ i) : w.getD i d = d := by
  rw [getD, List.getD_eq_getElem?_getD, List.getElem?_eq_none (by rw [w.size_eq]; exact hi)]
  rfl

theorem take_push (w : Window α (n + 1)) (a : α) {k : Nat} (hk : k ≤ n) :
    (w.push a).slots.take (k + 1) = a :: w.slots.take k := by
  rw [slots_push, List.take_succ_cons, List.take_take, Nat.min_eq_left hk]

theorem length_take (w : Window α n) {k : Nat} (hk : k ≤ n) : (w.slots.take k).length = k := by
  rw [List.length_take, w.size_eq, Nat.min_eq_left hk]

theorem mem_take (w : Window α n) (d : α) {k : Nat} (hk : k ≤ n) {a : α} :
    a ∈ w.slots.take k ↔ ∃ i < k, w.getD i d = a := by
  have hl : k ≤ w.slots.length := by rw [w.size_eq]; exact hk
  rw [List.mem_take_iff_getElem]
  constructor
  · rintro ⟨i, hi, rfl⟩
    have hi' : i < w.slots.length := by omega
    exact ⟨i, by omega, by simp [getD, List.getD_eq_getElem?_getD, hi']⟩
  · rintro ⟨i, hi, rfl⟩
    have hi' : i < w.slots.length := by omega
    exact ⟨i, by omega, by simp [getD, List.getD_eq_getElem?_getD, hi']⟩

theorem getD_ne_of_nodup (w : Window α n) (d : α) {k : Nat} (hk : k ≤ n) (h : (w.slots.take k).Nodup) {i j : Nat}
    (hij : i < j) (hj : j < k) : w.getD i d ≠ w.getD j d := by
  have hl := w.length_take hk
  have hne := List.pairwise_iff_getElem.mp h i j (by omega) (by omega) hij
  have hi' : i < w.slots.length := by rw [w.size_eq]; omega
  have hj' : j < w.slots.length := by rw [w.size_eq]; omega
  rw [List.getElem_take, List.getElem_take] at hne
  simpa [getD, List.getD_eq_getElem?_getD, hi', hj'] using hne

theorem dropLast_take (w : Window α n) {k : Nat} (hk : k + 1 ≤ n) :
    (w.slots.take (k + 1)).dropLast = w.slots.take k := by
  rw [List.dropLast_eq_take, w.length_take hk, List.take_take]
  congr 1
  omega

/-! ## Windows over a sequence -/

/-- The slots hold the last values of `a` up to `a m`, newest first, and `d` where there is none yet. -/
def Holds (w : Window α n) (d : α) (a : Nat → α) (m : Nat) : Prop :=
  ∀ i < n, w.getD i d = if i ≤ m then a (m - i) else d

theorem holds_first (d : α) (a : Nat → α) : ((replicate (n + 1) d).set 0 (a 0)).Holds d a 0 := by
  intro i _
  cases i with
  | zero => simp [set, replicate, getD, List.replicate_succ]
  | succ i => rw [getD_set_ne _ _ _ (Nat.zero_ne_add_one i), getD_replicate, if_neg (Nat.not_succ_le_zero i)]

theorem Holds.push {w : Window α (n + 1)} {d : α} {a : Nat → α} {m : Nat} (h : w.Holds d a m) :
    (w.push (a (m + 1))).Holds d a (m + 1) := by
  intro i hi
  cases i with
  | zero => rw [getD_push_zero, if_pos (Nat.zero_le _), Nat.sub_zero]
  | succ i =>
    rw [getD_push_succ _ _ _ (by omega), h i (by omega), Nat.add_sub_add_right]
    simp only [Nat.add_le_add_iff_right]

end Window
