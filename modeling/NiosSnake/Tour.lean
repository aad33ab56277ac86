import Mathlib.Data.Nat.Find
import NiosSnake.Forecast

/-!
# A player who always wins

A player whose snake goes around the whole board on a tour that is longer than the snake
never bites, and meets every food within one round. Down, and right with every 32nd move,
is such a tour: every game of this player is won, wherever the food is put.
-/

namespace NiosSnake

structure IsTour (inp : Inputs) (N : Nat) : Prop where
  apart : ∀ i j, pathAt inp i = pathAt inp j → i % N = j % N
  meets : ∀ p, OnBoard p → ∀ k, ∃ j, k ≤ j ∧ j < k + N ∧ pathAt inp (j + 1) = p

section
variable {inp : Inputs}

/-! ## The meals of a walk -/

theorem tally_food_onBoard (hin : inp.Within 1 32) : ∀ k, OnBoard (tally inp k).food := by
  have hdraw : ∀ k, OnBoard (drawAt inp k) := fun k => ⟨(hin k).1, (hin k).2, (hin (k + 1)).1, (hin (k + 1)).2⟩
  intro k
  induction k with
  | zero => exact hdraw 0
  | succ k ih =>
    rw [tally]
    split
    · split <;> exact hdraw _
    · exact ih

theorem tally_walk {k : Nat} (h : pathAt inp (k + 1) ≠ (tally inp k).food) : tally inp (k + 1) = tally inp k := by
  rw [tally]
  exact if_neg h

theorem tally_meal {k : Nat} (h : pathAt inp (k + 1) = (tally inp k).food) :
    (tally inp (k + 1)).length = (tally inp k).length + 1 := by
  rw [tally, if_pos h]
  split <;> rfl

theorem tally_length_succ (k : Nat) : (tally inp k).length ≤ (tally inp (k + 1)).length := by
  by_cases h : pathAt inp (k + 1) = (tally inp k).food
  · rw [tally_meal h]
    exact Nat.le_succ _
  · exact Nat.le_of_eq (congrArg Tally.length (tally_walk h).symm)

theorem tally_length_le {j k : Nat} (h : j ≤ k) : (tally inp j).length ≤ (tally inp k).length := by
  induction h with
  | refl => exact Nat.le_refl _
  | step _ ih => exact Nat.le_trans ih (tally_length_succ _)

theorem tally_waits {k : Nat} : ∀ m, (∀ j, k ≤ j → j < k + m → pathAt inp (j + 1) ≠ (tally inp k).food) →
    tally inp (k + m) = tally inp k
  | 0, _ => rfl
  | m + 1, h => by
    have hold := tally_waits m fun j hj hlt => h j hj (Nat.lt_succ_of_lt hlt)
    have hnow := h (k + m) (Nat.le_add_right ..) (Nat.lt_succ_self _)
    rw [← hold] at hnow
    rw [← hold]
    exact tally_walk hnow

/-! ## Tours -/

section
variable {N : Nat} (h : IsTour inp N)
include h

/-- A snake that is not longer than the tour never meets itself. -/
theorem IsTour.not_crashes {k : Nat} (hlen : (tally inp k).length ≤ N) : ¬ Crashes inp k := by
  rintro ⟨i, hi, hp⟩
  have hmod := Nat.sub_mod_eq_zero_of_mod_eq (h.apart _ _ hp).symm
  have hgap : k + 1 - (k - i) < N := by omega
  rw [Nat.mod_eq_of_lt hgap] at hmod
  omega

/-- The food is eaten within one round of the tour. -/
theorem IsTour.next_meal (hin : inp.Within 1 32) (k : Nat) : ∃ j, k ≤ j ∧ j < k + N ∧ tally inp j = tally inp k ∧
    pathAt inp (j + 1) = (tally inp k).food := by
  have hmeets : ∃ j, k ≤ j ∧ pathAt inp (j + 1) = (tally inp k).food := by
    obtain ⟨j, hj, _, hp⟩ := h.meets _ (tally_food_onBoard hin k) k
    exact ⟨j, hj, hp⟩
  obtain ⟨j, ⟨hj, hp⟩, hfirst⟩ : ∃ j, (k ≤ j ∧ pathAt inp (j + 1) = (tally inp k).food) ∧
      ∀ i < j, ¬ (k ≤ i ∧ pathAt inp (i + 1) = (tally inp k).food) :=
    ⟨Nat.find hmeets, Nat.find_spec hmeets, fun _ => Nat.find_min hmeets⟩
  obtain ⟨m, rfl⟩ : ∃ m, j = k + m := ⟨j - k, by omega⟩
  refine ⟨k + m, hj, ?_, ?_, hp⟩
  · obtain ⟨j', hj', hlt, hp'⟩ := h.meets _ (tally_food_onBoard hin k) k
    have hle : k + m ≤ j' := Nat.le_of_not_lt fun hless => hfirst j' hless ⟨hj', hp'⟩
    exact Nat.lt_of_le_of_lt hle hlt
  · exact tally_waits m fun j hj hlt hp => hfirst j hlt ⟨hj, hp⟩

/-- A round for each meal is enough. -/
theorem IsTour.grows (hin : inp.Within 1 32) : ∀ l, ∃ k ≤ N * l, (tally inp k).length = l + 1
  | 0 => ⟨0, Nat.zero_le _, rfl⟩
  | l + 1 => by
    obtain ⟨k, hk, hlen⟩ := IsTour.grows hin l
    obtain ⟨j, _, hlt, htally, hp⟩ := h.next_meal hin k
    rw [← htally] at hp hlen
    refine ⟨j + 1, ?_, by rw [tally_meal hp, hlen]⟩
    rw [Nat.mul_succ]
    omega

theorem IsTour.wins {d : SnakeDriver} {mem : ByteMemory 32} (hcall : d.Callable) (h2 : 2 ≤ d.snakeLength.toNat)
    (h33 : d.snakeLength.toNat ≤ 33) (hlong : d.snakeLength.toNat ≤ N + 1) (hin : inp.Within 1 32) :
    ∃ m, snakePlay d inp mem (N * (d.snakeLength.toNat - 1)) = .returned wonMessage m := by
  obtain ⟨l, hl⟩ : ∃ l, d.snakeLength.toNat = l + 2 := ⟨d.snakeLength.toNat - 2, by omega⟩
  obtain ⟨k, hk, hlen⟩ := h.grows hin l
  obtain ⟨j, _, hlt, htally, hp⟩ := h.next_meal hin k
  have hcompletes : Completes inp d j := by
    rw [Completes, htally, hlen, hl]
    exact ⟨hp, rfl⟩
  have hexists : ∃ j, Completes inp d j := ⟨j, hcompletes⟩
  obtain ⟨c, hdone, hfirst⟩ : ∃ c, Completes inp d c ∧ ∀ i < c, ¬ Completes inp d i :=
    ⟨Nat.find hexists, Nat.find_spec hexists, fun _ => Nat.find_min hexists⟩
  have hle : c ≤ j := Nat.le_of_not_lt fun hlt => hfirst j hlt hcompletes
  have hshort : ∀ i ≤ c, ¬ Crashes inp i := by
    intro i hi
    refine h.not_crashes ?_
    have hgrow : (tally inp i).length ≤ (tally inp c).length := tally_length_le hi
    have hfull := hdone.2
    omega
  have hbound : c < N * (d.snakeLength.toNat - 1) := by
    rw [hl, show l + 2 - 1 = l + 1 from rfl, Nat.mul_succ]
    omega
  exact snakePlay_won hcall h2 h33 hbound (fun i hi => ⟨hshort i (Nat.le_of_lt hi), hfirst i hi⟩)
    (hshort c (Nat.le_refl c)) hdone

end

/-! ## Down and right -/

def tourDirection (k : Nat) : Direction := if k % 32 = 31 then .right else .down

theorem stepUp_toNat {c : U8} (h : 1 ≤ c.toNat ∧ c.toNat ≤ 32) : (stepUp c).toNat = c.toNat % 32 + 1 := by
  unfold stepUp
  by_cases hc : c = SIZE
  · rw [if_pos hc, hc]
    decide
  · rw [if_neg hc]
    simp only [SIZE] at hc
    bv_omega

section
variable (hread : ∀ k, inp.readDirection k = tourDirection k)
include hread

theorem heading_tour (k : Nat) : heading inp (k + 1) = tourDirection k := by
  have hforward : heading inp k = .down ∨ heading inp k = .right := by
    induction k with
    | zero => exact .inr rfl
    | succ k ih =>
      rw [heading, hread, tourDirection]
      rcases ih with ih | ih <;> rw [ih] <;> split <;> simp [filterDirection]
  rw [heading, hread, tourDirection]
  rcases hforward with hf | hf <;> rw [hf] <;> split <;> rfl

theorem pathAt_tour (k : Nat) : (pathAt inp k).x.toNat = (15 + k / 32) % 32 + 1 ∧
    (pathAt inp k).y.toNat = (15 + (k - k / 32)) % 32 + 1 := by
  induction k with
  | zero => exact ⟨rfl, rfl⟩
  | succ k ih =>
    obtain ⟨hx, hy⟩ := ih
    rw [pathAt, heading_tour hread, tourDirection]
    by_cases hlast : k % 32 = 31
    · rw [if_pos hlast]
      have hright : (moveLocation .right (pathAt inp k)).x.toNat = (pathAt inp k).x.toNat % 32 + 1 :=
        stepUp_toNat (by omega)
      have hsame : (moveLocation .right (pathAt inp k)).y.toNat = (pathAt inp k).y.toNat := rfl
      omega
    · rw [if_neg hlast]
      have hdown : (moveLocation .down (pathAt inp k)).y.toNat = (pathAt inp k).y.toNat % 32 + 1 :=
        stepUp_toNat (by omega)
      have hsame : (moveLocation .down (pathAt inp k)).x.toNat = (pathAt inp k).x.toNat := rfl
      omega

theorem isTour_tour : IsTour inp 1024 where
  apart := by
    intro i j hp
    obtain ⟨hx, hy⟩ := pathAt_tour hread i
    obtain ⟨hx', hy'⟩ := pathAt_tour hread j
    rw [hp] at hx hy
    obtain ⟨q, hq⟩ : ∃ q : Int, (i / 32 : Nat) = (j / 32 : Nat) + 32 * q :=
      ⟨(i / 32 : Nat) / 32 - (j / 32 : Nat) / 32, by omega⟩
    have hrow : i % 32 = j % 32 := by omega
    omega
  meets := by
    intro p hp k
    obtain ⟨hx₁, hx₂, hy₁, hy₂⟩ := hp
    -- the column of the tour, and the move on it
    obtain ⟨a, ha, hcolumn⟩ : ∃ a < 32, (15 + a) % 32 + 1 = p.x.toNat := ⟨(p.x.toNat + 16) % 32, by omega, by omega⟩
    obtain ⟨b, hb, hrow⟩ : ∃ b < 32, (15 + (31 * a + b)) % 32 + 1 = p.y.toNat :=
      ⟨(p.y.toNat + 16 + a) % 32, by omega, by omega⟩
    obtain ⟨j, hj, hlt, hmod⟩ : ∃ j, k ≤ j ∧ j < k + 1024 ∧ (j + 1) % 1024 = 32 * a + b :=
      ⟨k + (32 * a + b + 1024 - (k + 1) % 1024) % 1024, by omega, by omega, by omega⟩
    obtain ⟨hx, hy⟩ := pathAt_tour hread (j + 1)
    refine ⟨j, hj, hlt, ?_⟩
    have hpx : (pathAt inp (j + 1)).x = p.x := BitVec.eq_of_toNat_eq (by omega)
    have hpy : (pathAt inp (j + 1)).y = p.y := BitVec.eq_of_toNat_eq (by omega)
    cases hq : pathAt inp (j + 1)
    rw [hq] at hpx hpy
    cases p
    cases hpx
    cases hpy
    rfl

/-- **The game can always be won.** Who goes down, and right with every 32nd move, wins within 1024 moves
for each meal, whatever random numbers the driver gives. -/
theorem tour_wins {d : SnakeDriver} {mem : ByteMemory 32} (hcall : d.Callable) (h2 : 2 ≤ d.snakeLength.toNat)
    (h33 : d.snakeLength.toNat ≤ 33) (hin : inp.Within 1 32) :
    ∃ m, snakePlay d inp mem (1024 * (d.snakeLength.toNat - 1)) = .returned wonMessage m :=
  (isTour_tour hread).wins hcall h2 h33 (by omega) hin

end

theorem tour_wins_corner :
    ∃ m, snakePlay (mainDriver someAddresses) ⟨tourDirection, fun _ => 1⟩ (fun _ => 0) 31744 =
      .returned wonMessage m := by
  have hcorner : (Inputs.mk tourDirection fun _ => 1).Within 1 32 :=
    fun _ => show 1 ≤ (1 : U8).toNat ∧ (1 : U8).toNat ≤ 32 by decide
  exact tour_wins (fun _ => rfl) (by decide) (by decide) (by decide) hcorner

end

end NiosSnake
