import NiosSnake.Types

/-!
# Buttons and their interrupt

The edge-capture register of the button port and `interrupt` of `main.c`, whose
accesses interleave with the falling edges in any order. The handler reads the
register in one access and clears it in the next, and its switch knows the values
of a single button only.
-/

namespace NiosSnake

inductive Handler where
  | idle
  | clear
  | switch
  deriving DecidableEq, Repr

inductive Event where
  | edge (button : Fin 4)
  | handler
  deriving DecidableEq, Repr

structure Buttons where
  register : BitVec 4
  edgeCapture : BitVec 32
  direction : Direction
  handler : Handler
  deriving DecidableEq

def press (register : BitVec 4) (button : Fin 4) : BitVec 4 := register ||| (1#4 <<< button.val)

def irqMask : BitVec 4 := 0xf

/-- The switch of `interrupt`. -/
def switchDirection (edgeCapture : BitVec 32) (direction : Direction) : Direction :=
  if edgeCapture = 8 then .up
  else if edgeCapture = 4 then .right
  else if edgeCapture = 2 then .left
  else if edgeCapture = 1 then .down
  else direction

def buttonDirection : Fin 4 → Direction
  | 3 => .up
  | 2 => .right
  | 1 => .left
  | 0 => .down

namespace Buttons

/-- An edge, or the next access of the handler; an idle one starts only on a pending interrupt. -/
def step (s : Buttons) : Event → Buttons
  | .edge button => { s with register := press s.register button }
  | .handler =>
    match s.handler with
    | .idle =>
      if s.register &&& irqMask = 0 then s
      else { s with edgeCapture := s.register.setWidth 32, handler := .clear }
    | .clear => { s with register := 0, handler := .switch }
    | .switch => { s with direction := switchDirection s.edgeCapture s.direction, handler := .idle }

def run (start : Buttons) (e : Nat → Event) : Nat → Buttons
  | 0 => start
  | n + 1 => (run start e n).step (e n)

def Quiescent (s : Buttons) : Prop := s.handler = .idle ∧ s.register = 0

instance (s : Buttons) : Decidable s.Quiescent := inferInstanceAs (Decidable (_ ∧ _))

end Buttons

/-! ## The register -/

def Single (r : BitVec 4) : Prop := ∃ button, r = press 0 button

instance (r : BitVec 4) : Decidable (Single r) := inferInstanceAs (Decidable (∃ _, _))

theorem press_getLsbD : ∀ (r : BitVec 4) (button k : Fin 4),
    (press r button).getLsbD k.val = true ↔ r.getLsbD k.val = true ∨ k = button := by decide

theorem and_irqMask (r : BitVec 4) : r &&& irqMask = r := by
  revert r
  decide

theorem switchDirection_single (button : Fin 4) (direction : Direction) :
    switchDirection ((press 0 button).setWidth 32) direction = buttonDirection button := by
  revert button
  cases direction <;> decide

theorem switchDirection_other {r : BitVec 4} (h : ¬ Single r) (direction : Direction) :
    switchDirection (r.setWidth 32) direction = direction := by
  revert r
  cases direction <;> decide

theorem setWidth_inj {r r' : BitVec 4} (h : r.setWidth 32 = r'.setWidth 32) : r = r' := by
  have := congrArg (BitVec.setWidth 4) h
  simpa using this

theorem not_single_zero : ¬ Single 0 := by decide

/-! ## One access -/

namespace Buttons

theorem step_edge (s : Buttons) (button : Fin 4) :
    s.step (.edge button) = { s with register := press s.register button } := rfl

theorem step_waiting {s : Buttons} (hs : s.handler = .idle) (hr : s.register = 0) : s.step .handler = s := by
  simp [step, hs, hr]

theorem step_read {s : Buttons} (hs : s.handler = .idle) (hr : s.register ≠ 0) :
    s.step .handler = { s with edgeCapture := s.register.setWidth 32, handler := .clear } := by
  simp only [step, hs, and_irqMask, if_neg hr]

theorem step_clear {s : Buttons} (hs : s.handler = .clear) :
    s.step .handler = { s with register := 0, handler := .switch } := by
  simp only [step, hs]

theorem step_switch {s : Buttons} (hs : s.handler = .switch) :
    s.step .handler =
      { s with direction := switchDirection s.edgeCapture s.direction, handler := .idle } := by
  simp only [step, hs]

/-! ## The edges of a run -/

section
variable (start : Buttons) (e : Nat → Event)

def Reads (i : Nat) (k : Fin 4) : Prop :=
  e i = .handler ∧ (run start e i).handler = .idle ∧ (run start e i).register.getLsbD k.val = true

def Clears (i : Nat) : Prop := e i = .handler ∧ (run start e i).handler = .clear

/-- The edge of `k` at `i` is in a value that was read after it and before the next clear. -/
def Captured (i n : Nat) (k : Fin 4) : Prop :=
  ∃ j < n, i < j ∧ Reads start e j k ∧ ∀ l < j, i < l → ¬ Clears start e l

def NoEdgeLost (n : Nat) : Prop := ∀ i < n, ∀ k, e i = .edge k → Captured start e i n k

def Pressed (j n : Nat) (k : Fin 4) : Prop := ∃ i < n, j ≤ i ∧ e i = .edge k

def LastQuiet (j n : Nat) : Prop :=
  (run start e j).Quiescent ∧ ∀ l < n, j < l → ¬ (run start e l).Quiescent

/-- If a button was pressed since the previous quiescent point, `direction` stands for one
that was. -/
def DirectionPressed (n : Nat) : Prop :=
  ∀ j < n, LastQuiet start e j n → (∃ k, Pressed e j n k) →
    ∃ k, Pressed e j n k ∧ (run start e n).direction = buttonDirection k

def EdgesOutside (n : Nat) : Prop :=
  ∀ i < n, ∀ k, e i = .edge k → (run start e i).handler ≠ .clear

def SingleRead (j n : Nat) : Prop :=
  ∃ i < n, j ≤ i ∧ e i = .handler ∧ (run start e i).handler = .idle ∧ Single (run start e i).register

/-- After each press a handler starts on one button alone, or the direction already stood
for a pressed button. -/
def DirectionKnown (n : Nat) : Prop :=
  ∀ j < n, LastQuiet start e j n → (∃ k, Pressed e j n k) →
    SingleRead start e j n ∨ ∃ k, Pressed e j n k ∧ (run start e j).direction = buttonDirection k

instance (i : Nat) (k : Fin 4) : Decidable (Reads start e i k) := inferInstanceAs (Decidable (_ ∧ _))

instance (i : Nat) : Decidable (Clears start e i) := inferInstanceAs (Decidable (_ ∧ _))

instance (i n : Nat) (k : Fin 4) : Decidable (Captured start e i n k) :=
  inferInstanceAs (Decidable (∃ _ < _, _))

instance (n : Nat) : Decidable (NoEdgeLost start e n) := inferInstanceAs (Decidable (∀ _ < _, _))

instance (j n : Nat) (k : Fin 4) : Decidable (Pressed e j n k) :=
  inferInstanceAs (Decidable (∃ _ < _, _))

instance (j n : Nat) : Decidable (LastQuiet start e j n) := inferInstanceAs (Decidable (_ ∧ _))

instance (n : Nat) : Decidable (DirectionPressed start e n) :=
  inferInstanceAs (Decidable (∀ _ < _, _))

end

variable {start : Buttons} {e : Nat → Event}

/-! ## Presses and single reads, one event later -/

theorem Pressed.mono {j m : Nat} {k : Fin 4} (h : Pressed e j m k) : Pressed e j (m + 1) k := by
  obtain ⟨i, hi, hji, he⟩ := h
  exact ⟨i, by omega, hji, he⟩

theorem SingleRead.mono {j m : Nat} (h : SingleRead start e j m) : SingleRead start e j (m + 1) := by
  obtain ⟨i, hi, hread⟩ := h
  exact ⟨i, by omega, hread⟩

theorem SingleRead.of_succ {j m : Nat} (h : SingleRead start e j (m + 1))
    (hm : ¬ (e m = .handler ∧ (run start e m).handler = .idle ∧ Single (run start e m).register)) :
    SingleRead start e j m := by
  obtain ⟨i, hi, hji, hread⟩ := h
  have hne : i ≠ m := by
    rintro rfl
    exact hm hread
  exact ⟨i, by omega, hji, hread⟩

/-! ## No edge is lost outside the gap -/

/-- An edge outside the gap waits in the register until it is read. -/
theorem edge_waits {i : Nat} {k : Fin 4} (he : e i = .edge k) (hi : (run start e i).handler ≠ .clear) :
    ∀ m, i < m →
      Captured start e i m k ∨
      ((∀ l < m, i < l → ¬ Clears start e l) ∧ (run start e m).register.getLsbD k.val = true ∧
        (run start e m).handler ≠ .clear) := by
  intro m
  induction m with
  | zero => intro h; omega
  | succ m ih =>
    intro him
    by_cases hm : i = m
    · subst hm
      refine .inr ⟨by omega, ?_, ?_⟩
      · simp only [run, he, step_edge]
        exact (press_getLsbD _ k k).mpr (.inr rfl)
      · simp only [run, he, step_edge]
        exact hi
    · rcases ih (by omega) with ⟨j, hj, hread⟩ | ⟨hclears, hbit, hphase⟩
      · exact .inl ⟨j, by omega, hread⟩
      · have hnext : ∀ l < m + 1, i < l → ¬ Clears start e l := by
          intro l hl hil
          rcases Nat.lt_succ_iff_lt_or_eq.mp hl with h | rfl
          · exact hclears l h hil
          · exact fun hc => hphase hc.2
        cases hem : e m with
        | edge k' =>
          refine .inr ⟨hnext, ?_, ?_⟩
          · simp only [run, hem, step_edge]
            exact (press_getLsbD _ k' k).mpr (.inl hbit)
          · simp only [run, hem, step_edge]
            exact hphase
        | handler =>
          cases hs : (run start e m).handler with
          | idle => exact .inl ⟨m, by omega, by omega, ⟨hem, hs, hbit⟩, hclears⟩
          | clear => exact absurd hs hphase
          | switch =>
            refine .inr ⟨hnext, ?_, ?_⟩ <;> simp only [run, hem, step_switch hs]
            · exact hbit
            · exact nofun

/-- After an edge inside the gap no handler starts before the clear. -/
theorem edge_cleared {i : Nat} {k : Fin 4} (he : e i = .edge k) (hi : (run start e i).handler = .clear) :
    ∀ m, i < m →
      (∃ l < m, i < l ∧ Clears start e l ∧ ∀ j ≤ l, i < j → (run start e j).handler = .clear) ∨
      ∀ j ≤ m, i < j → (run start e j).handler = .clear := by
  intro m
  induction m with
  | zero => intro h; omega
  | succ m ih =>
    intro him
    by_cases hm : i = m
    · subst hm
      right
      intro j hj hij
      obtain rfl : j = i + 1 := by omega
      simp only [run, he, step_edge]
      exact hi
    · rcases ih (by omega) with ⟨l, hl, hclear⟩ | hphase
      · exact .inl ⟨l, by omega, hclear⟩
      · have hs := hphase m (Nat.le_refl m) (by omega)
        cases hem : e m with
        | handler => exact .inl ⟨m, by omega, by omega, ⟨hem, hs⟩, hphase⟩
        | edge k' =>
          right
          intro j hj hij
          rcases Nat.le_succ_iff.mp hj with h | rfl
          · exact hphase j h hij
          · simp only [run, hem, step_edge]
            exact hs

theorem noEdgeLost_iff {n : Nat} (hn : (run start e n).Quiescent) :
    NoEdgeLost start e n ↔ EdgesOutside start e n := by
  constructor
  · intro h i hi k he hgap
    obtain ⟨j, hj, hij, hread, hclears⟩ := h i hi k he
    rcases edge_cleared he hgap n hi with ⟨l, -, hil, hclear, hphase⟩ | hphase
    · by_cases hlj : l < j
      · exact hclears l hlj hil hclear
      · have := hphase j (by omega) hij
        simp [hread.2.1] at this
    · have := hphase n (Nat.le_refl n) hi
      simp [hn.1] at this
  · intro h i hi k he
    rcases edge_waits he (h i hi k he) n hi with hread | ⟨-, hbit, -⟩
    · exact hread
    · simp [hn.2] at hbit

/-! ## The direction since a quiescent point -/

/-- What the presses since `j` have done to the port and the variables by `m`. -/
structure Since (start : Buttons) (e : Nat → Event) (j m : Nat) : Prop where
  register : ∀ k : Fin 4, (run start e m).register.getLsbD k.val = true → Pressed e j m k
  captured : (run start e m).handler ≠ .idle → ∃ r : BitVec 4,
    (run start e m).edgeCapture = r.setWidth 32 ∧ (∀ k : Fin 4, r.getLsbD k.val = true → Pressed e j m k) ∧
      (Single r → SingleRead start e j m)
  direction :
    (SingleRead start e j m ∧ ∃ k, Pressed e j m k ∧ (run start e m).direction = buttonDirection k) ∨
    ((run start e m).direction = (run start e j).direction ∧
      (SingleRead start e j m → (run start e m).handler ≠ .idle ∧
        ∃ k, (run start e m).edgeCapture = (press 0 k).setWidth 32))

theorem Since.kept {j m : Nat} (h : Since start e j m)
    (hnot : ¬ (e m = .handler ∧ (run start e m).handler = .idle ∧ Single (run start e m).register))
    (hregister : ∀ k : Fin 4, (run start e (m + 1)).register.getLsbD k.val = true → Pressed e j (m + 1) k)
    (hcapture : (run start e (m + 1)).edgeCapture = (run start e m).edgeCapture)
    (hdirection : (run start e (m + 1)).direction = (run start e m).direction)
    (hphase : (run start e (m + 1)).handler = .idle ↔ (run start e m).handler = .idle) :
    Since start e j (m + 1) := by
  constructor
  · exact hregister
  · intro hbusy
    obtain ⟨r, hr, hbits, hsingle⟩ := h.captured (mt hphase.mpr hbusy)
    exact ⟨r, hcapture.trans hr, fun k hk => (hbits k hk).mono, fun hs => (hsingle hs).mono⟩
  · rw [hdirection, hcapture]
    rcases h.direction with ⟨hread, k, hk, hdir⟩ | ⟨hdir, hread⟩
    · exact .inl ⟨hread.mono, k, hk.mono, hdir⟩
    · refine .inr ⟨hdir, fun hread' => ?_⟩
      obtain ⟨hbusy, hk⟩ := hread (hread'.of_succ hnot)
      exact ⟨mt hphase.mp hbusy, hk⟩

theorem since_edge {j m : Nat} {k : Fin 4} (hjm : j ≤ m) (he : e m = .edge k) (h : Since start e j m) :
    Since start e j (m + 1) := by
  have hrun : run start e (m + 1) =
      { run start e m with register := press (run start e m).register k } := by
    rw [run, he, step_edge]
  apply h.kept
  · simp [he]
  · intro k' hbit
    rw [hrun, press_getLsbD] at hbit
    rcases hbit with hbit | rfl
    · exact (h.register k' hbit).mono
    · exact ⟨m, by omega, hjm, he⟩
  · rw [hrun]
  · rw [hrun]
  · rw [hrun]

theorem since_waiting {j m : Nat} (he : e m = .handler) (hs : (run start e m).handler = .idle)
    (hr : (run start e m).register = 0) (h : Since start e j m) : Since start e j (m + 1) := by
  have hrun : run start e (m + 1) = run start e m := by rw [run, he, step_waiting hs hr]
  apply h.kept
  · rw [hr]
    exact fun hc => not_single_zero hc.2.2
  · intro k hbit
    rw [hrun] at hbit
    exact (h.register k hbit).mono
  · rw [hrun]
  · rw [hrun]
  · rw [hrun]

theorem since_read {j m : Nat} (hjm : j ≤ m) (he : e m = .handler) (hs : (run start e m).handler = .idle)
    (hr : (run start e m).register ≠ 0) (h : Since start e j m) : Since start e j (m + 1) := by
  have hrun : run start e (m + 1) =
      { run start e m with edgeCapture := (run start e m).register.setWidth 32, handler := .clear } := by
    rw [run, he, step_read hs hr]
  constructor
  · intro k hbit
    rw [hrun] at hbit
    exact (h.register k hbit).mono
  · intro _
    rw [hrun]
    exact ⟨_, rfl, fun k hk => (h.register k hk).mono, fun hsingle => ⟨m, by omega, hjm, he, hs, hsingle⟩⟩
  · rw [hrun]
    rcases h.direction with ⟨hread, k, hk, hdir⟩ | ⟨hdir, hread⟩
    · exact .inl ⟨hread.mono, k, hk.mono, hdir⟩
    · refine .inr ⟨hdir, fun hread' => ⟨nofun, ?_⟩⟩
      -- The handler was idle, so this read is the first with a single bit.
      by_cases hsingle : Single (run start e m).register
      · obtain ⟨k, hk⟩ := hsingle
        exact ⟨k, by simp only [hk]⟩
      · exact absurd hs (hread (hread'.of_succ fun hc => hsingle hc.2.2)).1

theorem since_clear {j m : Nat} (he : e m = .handler) (hs : (run start e m).handler = .clear)
    (h : Since start e j m) : Since start e j (m + 1) := by
  have hrun : run start e (m + 1) = { run start e m with register := 0, handler := .switch } := by
    rw [run, he, step_clear hs]
  apply h.kept
  · simp [hs]
  · intro k hbit
    simp [hrun] at hbit
  · rw [hrun]
  · rw [hrun]
  · simp [hrun, hs]

/-- The handler returns: one captured bit sets the direction, more leave it. -/
theorem since_switch {j m : Nat} (he : e m = .handler) (hs : (run start e m).handler = .switch)
    (h : Since start e j m) : Since start e j (m + 1) := by
  have hnot : ¬ (e m = .handler ∧ (run start e m).handler = .idle ∧ Single (run start e m).register) := by
    simp [hs]
  have hrun : run start e (m + 1) = { run start e m with
      direction := switchDirection (run start e m).edgeCapture (run start e m).direction,
      handler := .idle } := by
    rw [run, he, step_switch hs]
  obtain ⟨r, hr, hbits, hsingle⟩ := h.captured (by simp [hs])
  constructor
  · intro k hbit
    rw [hrun] at hbit
    exact (h.register k hbit).mono
  · intro hphase
    simp [hrun] at hphase
  · rw [hrun]
    by_cases hone : Single r
    · left
      have hread := hsingle hone
      obtain ⟨k, rfl⟩ := hone
      have hbit : (press 0 k).getLsbD k.val = true := (press_getLsbD 0 k k).mpr (.inr rfl)
      refine ⟨hread.mono, k, (hbits k hbit).mono, ?_⟩
      simp only [hr, switchDirection_single]
    · have hkeep : switchDirection (run start e m).edgeCapture (run start e m).direction =
          (run start e m).direction := by rw [hr, switchDirection_other hone]
      rw [hkeep]
      rcases h.direction with ⟨hread, k, hk, hdir⟩ | ⟨hdir, hread⟩
      · exact .inl ⟨hread.mono, k, hk.mono, hdir⟩
      · refine .inr ⟨hdir, fun hread' => ?_⟩
        obtain ⟨-, k, hk⟩ := hread (hread'.of_succ hnot)
        exact absurd ⟨k, setWidth_inj (hr.symm.trans hk)⟩ hone

theorem since_quiet {j : Nat} (hq : (run start e j).Quiescent) : Since start e j j where
  register k hbit := by simp [hq.2] at hbit
  captured hphase := absurd hq.1 hphase
  direction := by
    refine .inr ⟨rfl, ?_⟩
    rintro ⟨i, hi, hji, -⟩
    omega

theorem since_run {j : Nat} (hq : (run start e j).Quiescent) : ∀ m, j ≤ m → Since start e j m := by
  intro m hjm
  induction hjm with
  | refl => exact since_quiet hq
  | @step m hjm ih =>
    cases he : e m with
    | edge k => exact since_edge hjm he ih
    | handler =>
      cases hs : (run start e m).handler with
      | clear => exact since_clear he hs ih
      | switch => exact since_switch he hs ih
      | idle =>
        by_cases hr : (run start e m).register = 0
        · exact since_waiting he hs hr ih
        · exact since_read hjm he hs hr ih

theorem directionPressed_iff {n : Nat} (hn : (run start e n).Quiescent) :
    DirectionPressed start e n ↔ DirectionKnown start e n := by
  have hiff : ∀ j < n, LastQuiet start e j n →
      ((∃ k, Pressed e j n k ∧ (run start e n).direction = buttonDirection k) ↔
        SingleRead start e j n ∨ ∃ k, Pressed e j n k ∧ (run start e j).direction = buttonDirection k) := by
    intro j hj hquiet
    rcases (since_run hquiet.1 n (by omega)).direction with ⟨hread, hknown⟩ | ⟨hdir, hread⟩
    · exact ⟨fun _ => .inl hread, fun _ => hknown⟩
    · have hnone : ¬ SingleRead start e j n := fun hs => (hread hs).1 hn.1
      simp only [hnone, hdir, false_or]
  constructor
  · intro h j hj hquiet hpressed
    exact (hiff j hj hquiet).mp (h j hj hquiet hpressed)
  · intro h j hj hquiet hpressed
    exact (hiff j hj hquiet).mpr (h j hj hquiet hpressed)

/-- At a quiescent point every edge was captured and the last direction was pressed exactly
when no edge came between a read and its clear and the presses were told apart. -/
theorem presses_kept_iff {n : Nat} (hn : (run start e n).Quiescent) :
    NoEdgeLost start e n ∧ DirectionPressed start e n ↔
      EdgesOutside start e n ∧ DirectionKnown start e n :=
  and_congr (noEdgeLost_iff hn) (directionPressed_iff hn)

/-! ## A press between the accesses, and two presses at once -/

def armed : Buttons := { register := 0, edgeCapture := 0, direction := .down, handler := .idle }

def betweenAccesses : Nat → Event :=
  fun i => [.edge 3, .handler, .edge 2, .handler, .handler].getD i .handler

def twoAtOnce : Nat → Event :=
  fun i => [.edge 3, .edge 2, .handler, .handler, .handler].getD i .handler

theorem presses_lost :
    ((run armed betweenAccesses 5).Quiescent ∧ ¬ NoEdgeLost armed betweenAccesses 5) ∧
    (run armed twoAtOnce 5).Quiescent ∧ ¬ DirectionPressed armed twoAtOnce 5 := by decide

theorem presses_kept_iff_once :
    NoEdgeLost armed (fun i => [.edge 3].getD i .handler) 4 ∧
        DirectionPressed armed (fun i => [.edge 3].getD i .handler) 4 ↔
      EdgesOutside armed (fun i => [.edge 3].getD i .handler) 4 ∧
        DirectionKnown armed (fun i => [.edge 3].getD i .handler) 4 :=
  presses_kept_iff (by decide)

end Buttons

end NiosSnake
