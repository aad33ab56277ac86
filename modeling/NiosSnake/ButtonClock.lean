import NiosSnake.BtnPio

/-!
# The handler on the clock

The port and the accesses of `interrupt`, one clock edge at a time. Every clock is a
few events of the buttons: the edges that are detected at it and the access that
the handler makes, in the order in which the register takes them. A read sees the
register before the edges of its clock, and a clear wins over them.
-/

namespace NiosSnake

structure ButtonInput where
  inPort : BitVec 4
  access : Bool

structure ButtonClock where
  pio : BtnPio
  edgeCapture : U32
  direction : Direction
  handler : Handler

namespace ButtonClock

/-- `IORD_ALTERA_AVALON_PIO_EDGE_CAP` and `IOWR_ALTERA_AVALON_PIO_EDGE_CAP` on the bus; the switch and a
handler that is not called leave it alone. -/
def request (s : ButtonClock) (i : ButtonInput) : PioInput :=
  match i.access, s.handler with
  | true, .idle => { address := 3, chipselect := s.pio.irq, inPort := i.inPort, writeN := true, writedata := 0 }
  | true, .clear => { address := 3, chipselect := true, inPort := i.inPort, writeN := false, writedata := 0 }
  | _, _ => { address := 0, chipselect := false, inPort := i.inPort, writeN := true, writedata := 0 }

def step (s : ButtonClock) (i : ButtonInput) : ButtonClock :=
  let pio := s.pio.step (.posedge (s.request i))
  match i.access, s.handler with
  | true, .idle =>
    if s.pio.irq then { s with pio, edgeCapture := pio.readdata, handler := .clear } else { s with pio }
  | true, .clear => { s with pio, handler := .switch }
  | true, .switch => { s with pio, direction := switchDirection s.edgeCapture s.direction, handler := .idle }
  | false, _ => { s with pio }

def run (start : ButtonClock) (i : Nat → ButtonInput) : Nat → ButtonClock
  | 0 => start
  | n + 1 => (run start i n).step (i n)

/-! ## The events of a clock -/

def edgesOf (edgeDetect : BitVec 4) : List Event :=
  ((List.finRange 4).filter fun k => edgeDetect.getLsbD k.val).map .edge

def events (s : ButtonClock) (i : ButtonInput) : List Event :=
  match i.access, s.handler with
  | true, .clear => edgesOf s.pio.edgeDetect ++ [.handler]
  | true, _ => .handler :: edgesOf s.pio.edgeDetect
  | false, _ => edgesOf s.pio.edgeDetect

def eventLog (start : ButtonClock) (i : Nat → ButtonInput) : Nat → List Event
  | 0 => []
  | n + 1 => eventLog start i n ++ (run start i n).events (i n)

def buttons (s : ButtonClock) : Buttons := ⟨s.pio.edgeCapture, s.edgeCapture, s.direction, s.handler⟩

theorem foldl_edges (s : Buttons) (d : BitVec 4) :
    (edgesOf d).foldl Buttons.step s = { s with register := s.register ||| d } := by
  have hpress : ∀ r d : BitVec 4,
      ((List.finRange 4).filter fun k => d.getLsbD k.val).foldl press r = r ||| d := by decide
  have hfold : ∀ (l : List (Fin 4)) (s : Buttons),
      (l.map Event.edge).foldl Buttons.step s = { s with register := l.foldl press s.register } := by
    intro l
    induction l with
    | nil => exact fun _ => rfl
    | cons k l ih => exact fun s => ih _
  rw [edgesOf, hfold, hpress]

section
variable {s : ButtonClock} (hmask : s.pio.irqMask = irqMask) (i : ButtonInput)
include hmask

theorem step_irqMask : (s.step i).pio.irqMask = irqMask := by
  have hkeep : (s.pio.step (.posedge (s.request i))).irqMask = irqMask := by
    cases ha : i.access <;> cases hs : s.handler <;>
      simp [BtnPio.step, request, PioInput.irqMaskWrStrobe, ha, hs, hmask]
  cases ha : i.access <;> cases hs : s.handler <;> simp only [step, ha, hs]
  all_goals first | exact hkeep | (split <;> exact hkeep)

theorem irq_eq : s.pio.irq = true ↔ s.pio.edgeCapture ≠ 0 := by
  rw [BtnPio.irq, hmask, and_irqMask, bne_iff_ne]

/-- **One clock is its events.** -/
theorem step_buttons : (s.step i).buttons = (s.events i).foldl Buttons.step s.buttons := by
  cases ha : i.access with
  | false =>
    simp only [step, events, ha, foldl_edges]
    simp [buttons, BtnPio.step, request, ha, PioInput.edgeCaptureWrStrobe]
  | true =>
    cases hs : s.handler with
    | idle =>
      simp only [step, events, ha, hs, List.foldl_cons, foldl_edges]
      by_cases hirq : s.pio.irq = true
      · have hr : s.buttons.register ≠ 0 := (irq_eq hmask).mp hirq
        rw [if_pos hirq, Buttons.step_read (show s.buttons.handler = .idle from hs) hr]
        simp [buttons, BtnPio.step, request, ha, hs, PioInput.edgeCaptureWrStrobe, BtnPio.readMuxOut]
      · have hr : s.buttons.register = 0 := Classical.byContradiction fun h => hirq ((irq_eq hmask).mpr h)
        rw [if_neg hirq, Buttons.step_waiting (show s.buttons.handler = .idle from hs) hr]
        simp [buttons, BtnPio.step, request, ha, hs, PioInput.edgeCaptureWrStrobe]
    | clear =>
      simp only [step, events, ha, hs, List.foldl_append, foldl_edges, List.foldl_cons, List.foldl_nil]
      rw [Buttons.step_clear hs]
      simp [buttons, BtnPio.step, request, ha, hs, PioInput.edgeCaptureWrStrobe]
    | switch =>
      simp only [step, events, ha, hs, List.foldl_cons, foldl_edges]
      rw [Buttons.step_switch hs]
      simp [buttons, BtnPio.step, request, ha, hs, PioInput.edgeCaptureWrStrobe]

end

theorem run_irqMask {start : ButtonClock} (hmask : start.pio.irqMask = irqMask) (i : Nat → ButtonInput) :
    ∀ n, (run start i n).pio.irqMask = irqMask
  | 0 => hmask
  | n + 1 => step_irqMask (run_irqMask hmask i n) (i n)

theorem foldl_eventLog {start : ButtonClock} (hmask : start.pio.irqMask = irqMask) (i : Nat → ButtonInput) (n : Nat) :
    (eventLog start i n).foldl Buttons.step start.buttons = (run start i n).buttons := by
  induction n with
  | zero => rfl
  | succ n ih =>
    rw [run, step_buttons (run_irqMask hmask i n), ← ih, eventLog, List.foldl_append]

/-- **The clocked port and handler run the events of the buttons**, whatever the pins do and whenever the
handler gets to its accesses. -/
theorem run_buttons {start : ButtonClock} (hmask : start.pio.irqMask = irqMask) (i : Nat → ButtonInput) (n : Nat) :
    (run start i n).buttons = (eventLog start i n).foldl Buttons.step start.buttons :=
  (foldl_eventLog hmask i n).symm

/-! ## The edges that are lost -/

/-- The handler reads the register at this clock, or has read it and not cleared it before. -/
def InGap (s : ButtonClock) (i : ButtonInput) : Prop :=
  s.handler = .clear ∨ (i.access = true ∧ s.handler = .idle ∧ s.pio.irq = true)

instance (s : ButtonClock) (i : ButtonInput) : Decidable (s.InGap i) := inferInstanceAs (Decidable (_ ∨ _))

def Outside : Buttons → List Event → Prop
  | _, [] => True
  | s, .edge k :: l => s.handler ≠ .clear ∧ Outside (s.step (.edge k)) l
  | s, .handler :: l => Outside (s.step .handler) l

theorem outside_append : ∀ (l l' : List Event) (s : Buttons),
    Outside s (l ++ l') ↔ Outside s l ∧ Outside (l.foldl Buttons.step s) l'
  | [], _, _ => by simp [Outside]
  | .edge k :: l, l', s => by
    simp only [List.cons_append, Outside, outside_append l l', List.foldl_cons, and_assoc]
  | .handler :: l, l', s => by
    simp only [List.cons_append, Outside, outside_append l l', List.foldl_cons]

theorem outside_edges (d : BitVec 4) (s : Buttons) : Outside s (edgesOf d) ↔ (d ≠ 0 → s.handler ≠ .clear) := by
  have hlist : ∀ (l : List (Fin 4)) (s : Buttons), Outside s (l.map .edge) ↔ (l ≠ [] → s.handler ≠ .clear) := by
    intro l
    induction l with
    | nil => simp [Outside]
    | cons k l ih =>
      intro s
      have hphase : (s.step (.edge k)).handler = s.handler := rfl
      simp only [List.map_cons, Outside, ih, hphase]
      simp +contextual
  have hnil : ∀ d : BitVec 4, ((List.finRange 4).filter fun k => d.getLsbD k.val) ≠ [] ↔ d ≠ 0 := by decide
  rw [edgesOf, hlist, hnil]

theorem foldl_range_run (start : Buttons) (e : Nat → Event) (n : Nat) :
    Buttons.run start e n = ((List.range n).map e).foldl Buttons.step start := by
  induction n with
  | zero => rfl
  | succ n ih => rw [Buttons.run, ih, List.range_succ, List.map_append, List.foldl_append]; rfl

theorem edgesOutside_iff (start : Buttons) (e : Nat → Event) (n : Nat) :
    Buttons.EdgesOutside start e n ↔ Outside start ((List.range n).map e) := by
  induction n with
  | zero => simp [Buttons.EdgesOutside, Outside]
  | succ n ih =>
    have hlast : Outside (Buttons.run start e n) [e n] ↔
        ∀ k, e n = .edge k → (Buttons.run start e n).handler ≠ .clear := by
      cases h : e n <;> simp [Outside]
    rw [List.range_succ, List.map_append, outside_append, ← foldl_range_run, ← ih, List.map_singleton, hlast]
    simp only [Buttons.EdgesOutside, Nat.lt_succ_iff_lt_or_eq, or_imp, forall_and, forall_eq]

def eventAt (start : ButtonClock) (i : Nat → ButtonInput) (n : Nat) (j : Nat) : Event :=
  (eventLog start i n).getD j .handler

theorem map_eventAt (start : ButtonClock) (i : Nat → ButtonInput) (n : Nat) :
    (List.range (eventLog start i n).length).map (eventAt start i n) = eventLog start i n := by
  refine List.ext_getElem (by simp) fun j hj hj' => ?_
  simp [eventAt, List.getElem?_eq_getElem hj']

theorem outside_clock {s : ButtonClock} (hmask : s.pio.irqMask = irqMask) (i : ButtonInput) :
    Outside s.buttons (s.events i) ↔ (s.pio.edgeDetect ≠ 0 → ¬ s.InGap i) := by
  have hphase : s.buttons.handler = s.handler := rfl
  cases ha : i.access with
  | false => simp only [events, InGap, ha, outside_edges, hphase]; simp
  | true =>
    cases hs : s.handler with
    | idle =>
      simp only [events, InGap, ha, hs, Outside, outside_edges]
      by_cases hirq : s.pio.irq = true
      · have hr : s.buttons.register ≠ 0 := (irq_eq hmask).mp hirq
        rw [Buttons.step_read (show s.buttons.handler = .idle from hs) hr]
        simp [hirq]
      · have hr : s.buttons.register = 0 := Classical.byContradiction fun h => hirq ((irq_eq hmask).mpr h)
        rw [Buttons.step_waiting (show s.buttons.handler = .idle from hs) hr]
        simp [hirq, hphase, hs]
    | clear => simp only [events, InGap, ha, hs, outside_append, Outside, outside_edges, hphase]; simp
    | switch =>
      simp only [events, InGap, ha, hs, Outside, outside_edges]
      rw [Buttons.step_switch hs]
      simp

section
variable {start : ButtonClock} (hmask : start.pio.irqMask = irqMask) (i : Nat → ButtonInput)
include hmask

theorem outside_log (n : Nat) : Outside start.buttons (eventLog start i n) ↔
    ∀ t < n, (run start i t).pio.edgeDetect ≠ 0 → ¬ (run start i t).InGap (i t) := by
  induction n with
  | zero => simp [eventLog, Outside]
  | succ n ih =>
    rw [eventLog, outside_append, ih, foldl_eventLog hmask, outside_clock (run_irqMask hmask i n) (i n)]
    simp only [Nat.lt_succ_iff_lt_or_eq, or_imp, forall_and, forall_eq]

/-- **Which edges the handler loses.** When the handler has returned and nothing waits, every edge was
read by it exactly if none was detected at a clock from its read of the register to its clear. -/
theorem edges_kept_iff {n : Nat} (hq : (run start i n).buttons.Quiescent) :
    Buttons.NoEdgeLost start.buttons (eventAt start i n) (eventLog start i n).length ↔
      ∀ t < n, (run start i t).pio.edgeDetect ≠ 0 → ¬ (run start i t).InGap (i t) := by
  rw [← foldl_eventLog hmask, ← map_eventAt, ← foldl_range_run] at hq
  rw [Buttons.noEdgeLost_iff hq, edgesOutside_iff, map_eventAt, outside_log hmask]

end

def armedClock : ButtonClock where
  pio := { BtnPio.cleared with d1DataIn := 0xf, d2DataIn := 0xf, irqMask := irqMask }
  edgeCapture := 0
  direction := .down
  handler := .idle

/-- Button 3 held for three clocks, with an access at every clock. -/
def heldInput (n : Nat) : ButtonInput := ⟨if 1 ≤ n ∧ n < 4 then 0x7 else 0xf, true⟩

theorem run_buttons_held : (run armedClock heldInput 6).direction = .up ∧
    (run armedClock heldInput 6).buttons =
      (eventLog armedClock heldInput 6).foldl Buttons.step armedClock.buttons :=
  ⟨by decide, run_buttons rfl heldInput 6⟩

theorem edges_kept_iff_held :
    Buttons.NoEdgeLost armedClock.buttons (eventAt armedClock heldInput 6)
        (eventLog armedClock heldInput 6).length ↔
      ∀ t < 6, (run armedClock heldInput t).pio.edgeDetect ≠ 0 →
        ¬ (run armedClock heldInput t).InGap (heldInput t) :=
  edges_kept_iff rfl heldInput (by decide)

end ButtonClock

end NiosSnake
