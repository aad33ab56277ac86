/-!
# Processes that run until they return

A process is a step function on states that either goes on with a new state or
returns a value. `Outcome.run` takes `n` steps. An invariant that a step keeps
holds along every run, and two processes whose steps correspond stay in
correspondence and return at the same step.
-/

/-- Still running, or returned with a value; `s` is the last state either way. -/
inductive Outcome (σ ρ : Type) where
  | running (s : σ)
  | returned (r : ρ) (s : σ)

namespace Outcome

variable {σ ρ τ π : Type}

def state : Outcome σ ρ → σ
  | running s => s
  | returned _ s => s

@[simp] theorem state_running (s : σ) : (running s : Outcome σ ρ).state = s := rfl
@[simp] theorem state_returned (r : ρ) (s : σ) : (returned r s).state = s := rfl

def isReturned : Outcome σ ρ → Bool
  | running _ => false
  | returned _ _ => true

/-- `n` steps of `f` from `o`; `f` is given the number of steps taken before. -/
def run (f : Nat → σ → Outcome σ ρ) (o : Outcome σ ρ) : Nat → Outcome σ ρ
  | 0 => o
  | n + 1 =>
    match run f o n with
    | running s => f n s
    | returned r s => returned r s

section
variable {f : Nat → σ → Outcome σ ρ} {o : Outcome σ ρ}

theorem run_succ_running {n : Nat} {s : σ} (h : run f o n = running s) : run f o (n + 1) = f n s := by
  simp only [run, h]

theorem run_succ_returned {n : Nat} {r : ρ} {s : σ} (h : run f o n = returned r s) :
    run f o (n + 1) = returned r s := by
  simp only [run, h]

theorem running_pred {n : Nat} {s' : σ} (h : run f o (n + 1) = running s') :
    ∃ s, run f o n = running s ∧ f n s = running s' := by
  cases hn : run f o n with
  | running s => exact ⟨s, rfl, (run_succ_running hn).symm.trans h⟩
  | returned r s => rw [run_succ_returned hn] at h; cases h

theorem run_returned {n : Nat} {r : ρ} {s : σ} (h : run f o n = returned r s) :
    ∀ k, n ≤ k → run f o k = returned r s := by
  intro k hk
  induction hk with
  | refl => exact h
  | step _ ih => exact run_succ_returned ih

theorem isReturned_le {n k : Nat} (h : (run f o n).isReturned = true) (hk : n ≤ k) :
    (run f o k).isReturned = true := by
  cases hn : run f o n with
  | running s => rw [hn] at h; cases h
  | returned r s => rw [run_returned hn k hk]; rfl

theorem running_of_le {n : Nat} {s : σ} (h : run f o n = running s) :
    ∀ k, k ≤ n → ∃ t, run f o k = running t := by
  intro k hk
  cases hr : run f o k with
  | running t => exact ⟨t, rfl⟩
  | returned r t => rw [run_returned hr n hk] at h; cases h

theorem exists_running {n : Nat} (h : (run f o n).isReturned = false) : ∃ s, run f o n = running s := by
  cases hn : run f o n with
  | running s => exact ⟨s, rfl⟩
  | returned r s => rw [hn] at h; cases h

/-- **Invariants of running states.** The step may use the invariant and the run itself. -/
theorem running_invariant (P : Nat → σ → Prop) (h0 : ∀ s, o = running s → P 0 s)
    (hs : ∀ n s s', run f o n = running s → P n s → f n s = running s' → P (n + 1) s') :
    ∀ n s, run f o n = running s → P n s := by
  intro n
  induction n with
  | zero => exact h0
  | succ n ih =>
    intro s' h
    obtain ⟨s, hr, hf⟩ := running_pred h
    exact hs n s s' hr (ih s hr) hf

/-- **Invariants of all states**, the last one included. -/
theorem state_invariant (P : σ → Prop) (h0 : P o.state)
    (hs : ∀ n s, run f o n = running s → P s → P (f n s).state) : ∀ n, P (run f o n).state := by
  intro n
  induction n with
  | zero => exact h0
  | succ n ih =>
    cases hr : run f o n with
    | running s =>
      rw [run_succ_running hr]
      rw [hr] at ih
      exact hs n s hr ih
    | returned r s =>
      rw [run_succ_returned hr]
      rw [hr] at ih
      exact ih

/-- **What a log of the run holds.** If each step adds to the entries that must
satisfy a law exactly those of its own condition, the law holds of the whole log
exactly if every step met its condition. -/
theorem log_iff (L : σ → Prop) (C : Nat → σ → Prop) (h0 : L o.state)
    (hs : ∀ n s, run f o n = running s → (L (f n s).state ↔ L s ∧ C n s)) :
    ∀ n, L (run f o n).state ↔ ∀ k < n, ∀ s, run f o k = running s → C k s := by
  intro n
  induction n with
  | zero => exact ⟨fun _ k hk => absurd hk (Nat.not_lt_zero k), fun _ => h0⟩
  | succ n ih =>
    cases hr : run f o n with
    | running s =>
      rw [run_succ_running hr, hs n s hr]
      rw [hr] at ih
      refine (and_congr_left fun _ => ih).trans ?_
      constructor
      · rintro ⟨hl, hc⟩ k hk t ht
        rcases Nat.lt_succ_iff_lt_or_eq.mp hk with h | rfl
        · exact hl k h t ht
        · rw [hr] at ht; cases ht; exact hc
      · intro h
        exact ⟨fun k hk => h k (Nat.lt_succ_of_lt hk), h n (Nat.lt_succ_self n) s hr⟩
    | returned r s =>
      rw [run_succ_returned hr]
      rw [hr] at ih
      refine ih.trans ?_
      constructor
      · intro h k hk t ht
        rcases Nat.lt_succ_iff_lt_or_eq.mp hk with h' | rfl
        · exact h k h' t ht
        · rw [hr] at ht; cases ht
      · exact fun h k hk => h k (Nat.lt_succ_of_lt hk)

end

inductive Corr (R : σ → τ → Prop) (F : ρ → π → Prop) : Outcome σ ρ → Outcome τ π → Prop
  | running {s t} : R s t → Corr R F (running s) (running t)
  | returned {r p s t} : F r p → Corr R F (returned r s) (returned p t)

/-- **Lock-step simulation.** -/
theorem run_corr {R : σ → τ → Prop} {F : ρ → π → Prop} {f : Nat → σ → Outcome σ ρ}
    {g : Nat → τ → Outcome τ π} {o : Outcome σ ρ} {q : Outcome τ π} (h0 : Corr R F o q)
    (hs : ∀ n s t, run f o n = running s → R s t → Corr R F (f n s) (g n t)) :
    ∀ n, Corr R F (run f o n) (run g q n) := by
  intro n
  induction n with
  | zero => exact h0
  | succ n ih =>
    cases hr : run f o n with
    | running s =>
      rw [hr] at ih
      rw [run_succ_running hr]
      generalize hq : run g q n = q' at ih
      cases ih with
      | running hR =>
        rw [run_succ_running hq]
        exact hs n s _ hr hR
    | returned r s =>
      rw [hr] at ih
      rw [run_succ_returned hr]
      generalize hq : run g q n = q' at ih
      cases ih with
      | returned hF =>
        rw [run_succ_returned hq]
        exact .returned hF

end Outcome
