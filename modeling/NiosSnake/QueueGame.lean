import NiosSnake.Process

/-!
# The snake game on a queue

The body is a queue of cells, head first. A step turns, moves the head to the
next cell, drops the last cell unless the head reached the food, and loses when
the head is on what is left. Cells and headings are arbitrary.
-/

namespace QueueGame

structure Rules (C H : Type) where
  /-- The heading after a request, from the heading of the previous move. -/
  turn : H → H → H
  next : H → C → C
  goal : Nat

structure Game (C H : Type) where
  head : C
  tail : List C
  heading : H
  food : C
  eaten : Nat

inductive Ending where
  | lost
  | won

variable {C H : Type}

def Game.body (g : Game C H) : List C := g.head :: g.tail

def start (c : C) (h : H) (food : C) : Game C H := ⟨c, [], h, food, 0⟩

/-- The body is self-avoiding, one cell longer than the foods eaten, and has not won. -/
structure Good (r : Rules C H) (g : Game C H) : Prop where
  nodup : g.body.Nodup
  length : g.body.length = 1 + g.eaten
  below : g.body.length < r.goal

theorem start_good (r : Rules C H) (c : C) (h : H) (food : C) (hg : 1 < r.goal) : Good r (start c h food) where
  nodup := List.pairwise_singleton ..
  length := rfl
  below := hg

section
variable [DecidableEq C] (r : Rules C H)

def Rules.newHead {C H : Type} (r : Rules C H) (request : H) (g : Game C H) : C :=
  r.next (r.turn g.heading request) g.head

/-- One move; `fresh` is the food put out if this one is eaten. -/
def step (request : H) (fresh : C) (g : Game C H) : Outcome (Game C H) Ending :=
  let heading := r.turn g.heading request
  let head := r.newHead request g
  let rest := if head = g.food then g.body else g.body.dropLast
  if head ∈ rest then .returned .lost g
  else if head = g.food then
    if rest.length + 1 = r.goal then .returned .won ⟨head, rest, heading, g.food, g.eaten + 1⟩
    else .running ⟨head, rest, heading, fresh, g.eaten + 1⟩
  else .running ⟨head, rest, heading, g.food, g.eaten⟩

section
variable {r} {request : H} {g : Game C H} (fresh : C)

/-- A cell that stays even if the tail is dropped is fatal either way. -/
theorem step_lost (h : r.newHead request g ∈ g.body.dropLast) :
    step r request fresh g = .returned .lost g := by
  unfold step
  dsimp only
  by_cases heat : r.newHead request g = g.food
  · rw [if_pos heat, if_pos (List.dropLast_subset _ h)]
  · rw [if_neg heat, if_pos h]

theorem step_won (heat : r.newHead request g = g.food) (hfree : r.newHead request g ∉ g.body)
    (hgoal : g.body.length + 1 = r.goal) :
    step r request fresh g =
      .returned .won ⟨r.newHead request g, g.body, r.turn g.heading request, g.food, g.eaten + 1⟩ := by
  unfold step
  dsimp only
  rw [if_pos heat, if_neg hfree, if_pos heat, if_pos hgoal]

theorem step_eats (heat : r.newHead request g = g.food) (hfree : r.newHead request g ∉ g.body)
    (hgoal : g.body.length + 1 ≠ r.goal) :
    step r request fresh g =
      .running ⟨r.newHead request g, g.body, r.turn g.heading request, fresh, g.eaten + 1⟩ := by
  unfold step
  dsimp only
  rw [if_pos heat, if_neg hfree, if_pos heat, if_neg hgoal]

theorem step_walks (heat : r.newHead request g ≠ g.food)
    (hfree : r.newHead request g ∉ g.body.dropLast) :
    step r request fresh g =
      .running ⟨r.newHead request g, g.body.dropLast, r.turn g.heading request, g.food, g.eaten⟩ := by
  unfold step
  dsimp only
  rw [if_neg heat, if_neg hfree, if_neg heat]

end

theorem step_good {request : H} {fresh : C} {g g' : Game C H} (hg : Good r g)
    (h : step r request fresh g = .running g') : Good r g' := by
  have hlen := hg.length
  have hbelow := hg.below
  by_cases heat : r.newHead request g = g.food
  · by_cases hm : r.newHead request g ∈ g.body
    · unfold step at h
      dsimp only at h
      rw [if_pos heat, if_pos hm] at h
      cases h
    · by_cases hgoal : g.body.length + 1 = r.goal
      · rw [step_won fresh heat hm hgoal] at h
        cases h
      · rw [step_eats fresh heat hm hgoal] at h
        cases h
        refine ⟨List.nodup_cons.mpr ⟨hm, hg.nodup⟩, ?_, ?_⟩ <;>
          simp only [Game.body, List.length_cons] at * <;> omega
  · by_cases hm : r.newHead request g ∈ g.body.dropLast
    · rw [step_lost fresh hm] at h
      cases h
    · rw [step_walks fresh heat hm] at h
      cases h
      refine ⟨List.nodup_cons.mpr ⟨hm, hg.nodup.sublist (List.dropLast_sublist _)⟩, ?_, ?_⟩ <;>
        simp only [Game.body, List.length_cons, List.length_dropLast] at * <;> omega

end

end QueueGame
