import NiosSnake.Interrupts

/-!
# Registered handlers

`alt_ic_isr_register` changes the handler, its argument and the mask of the enabled
interrupts one after the other, but with interrupts switched off: it is as if it did all
of this at once. So whenever interrupts come, every handler is called with the argument
it was last registered with, and none is called that is `NULL`.
-/

namespace NiosSnake

/-- The entry of the last registration of an interrupt; the list has the last registration first. -/
def lastRegistered : List Registration → Nat → IrqHandler
  | [], _ => ⟨0, 0⟩
  | r :: l, i => if r.irq.toNat = i then ⟨r.isr, r.isrContext⟩ else lastRegistered l i

structure Holds (l : List Registration) (s : IrqState) : Prop where
  pie : s.pie = true
  table : ∀ i : Nat, i < 32 → s.altIrq i = lastRegistered l i
  active : ∀ i, i < 32 → (s.altIrqActive.getLsbD i = true ↔ (lastRegistered l i).handler ≠ 0)
  ienable : s.ienable = s.altIrqActive &&& 7

/-! ## A registration that nothing interrupts -/

section
variable {l : List Registration} {r : Registration} {s : IrqState}

theorem toInt_irq (hr : r.irq.toNat < 32) : r.irq.toInt = r.irq.toNat := by
  rw [BitVec.toInt_eq_toNat_cond]
  split <;> omega

def activeAfter (r : Registration) (active : U32) : U32 :=
  if r.isr ≠ 0 then active ||| (1 : U32) <<< r.irq.toNat else active &&& ~~~((1 : U32) <<< r.irq.toNat)

def IrqState.register (s : IrqState) (r : Registration) : IrqState where
  pie := s.pie
  ienable := activeAfter r s.altIrqActive &&& 7
  altIrq := fun i => if i = r.irq.toInt then ⟨r.isr, r.isrContext⟩ else s.altIrq i
  altIrqActive := activeAfter r s.altIrqActive

theorem activeAfter_getLsbD {r : Registration} (hr : r.irq.toNat < 32) (active : U32) {i : Nat} (hi : i < 32) :
    (activeAfter r active).getLsbD i = if r.irq.toNat = i then decide (r.isr ≠ 0) else active.getLsbD i := by
  have hbit : ((1 : U32) <<< r.irq.toNat).getLsbD i = decide (r.irq.toNat = i) := by
    have hpow : (BitVec.twoPow 32 r.irq.toNat).getLsbD i = _ := BitVec.getLsbD_twoPow ..
    rwa [decide_eq_true hr, Bool.true_and] at hpow
  unfold activeAfter
  by_cases hn : r.isr = 0
  · rw [if_neg (not_not_intro hn), BitVec.getLsbD_and, BitVec.getLsbD_not, hbit]
    by_cases hie : r.irq.toNat = i <;> simp [hie, hn, hi]
  · rw [if_pos hn, BitVec.getLsbD_or, hbit, decide_eq_true hn]
    by_cases hie : r.irq.toNat = i <;> simp [hie]

theorem Holds.register (h : Holds l s) (hr : r.irq.toNat < 32) : Holds (r :: l) (s.register r) where
  pie := h.pie
  table := by
    intro i hi
    have heq : ((i : Nat) : Int) = r.irq.toInt ↔ r.irq.toNat = i := by
      rw [toInt_irq hr]
      omega
    simp only [IrqState.register, lastRegistered, heq, h.table i hi]
  active := by
    intro i hi
    have hactive := h.active i hi
    simp only [IrqState.register, lastRegistered, activeAfter_getLsbD hr _ hi]
    by_cases hie : r.irq.toNat = i
    · simp [hie]
    · simpa [hie] using hactive
  ienable := rfl

/-- Enabling and disabling differ in what they write into `alt_irq_active`. -/
def changeActive (f : U32 → U32) : IrqCode Int := do
  let status ← altIrqDisableAll
  let active ← IrqAccess.readActive.code
  let _ ← (IrqAccess.writeActive (f active)).code
  let active ← IrqAccess.readActive.code
  let _ ← (IrqAccess.writeIenable active).code
  let _ ← altIrqEnableAll status
  return 0

theorem changeActive_eq (r : Registration) :
    (if r.isr ≠ 0 then altIrqEnable r.irq else altIrqDisable r.irq) = changeActive (activeAfter r) := by
  by_cases hn : r.isr ≠ 0
  · have hr : activeAfter r = fun active => active ||| (1 : U32) <<< r.irq.toNat := funext fun _ => if_pos hn
    rw [if_pos hn, hr]
    rfl
  · rw [if_neg hn,
      show activeAfter r = fun active => active &&& ~~~((1 : U32) <<< r.irq.toNat) from funext fun _ => if_neg hn]
    rfl

theorem altIcIsrRegister_eq (hr : r.irq.toNat < 32) : altIcIsrRegister r = do
    let status ← altIrqDisableAll
    let _ ← (IrqAccess.setHandler r.irq.toInt r.isr).code
    let _ ← (IrqAccess.setContext r.irq.toInt r.isrContext).code
    let rc ← changeActive (activeAfter r)
    let _ ← altIrqEnableAll status
    return rc := by
  have hid : r.irq.toInt < ALT_NIRQ := by
    rw [toInt_irq hr, ALT_NIRQ]
    omega
  unfold altIcIsrRegister
  simp only [if_pos hid, changeActive_eq]

/-- The code makes twelve accesses. Before the third it has changed nothing; up to the last interrupts are
off; and then all is done. -/
theorem alone_register (hr : r.irq.toNat < 32) (hpie : s.pie = true) :
    (∀ j < 12, (∀ rc, (AccessCode.alone IrqAccess.exec (altIcIsrRegister r, s) j).1 ≠ .done rc) ∧
      (j < 2 → (AccessCode.alone IrqAccess.exec (altIcIsrRegister r, s) j).2 = s) ∧
      (2 ≤ j → (AccessCode.alone IrqAccess.exec (altIcIsrRegister r, s) j).2.pie = false)) ∧
    AccessCode.alone IrqAccess.exec (altIcIsrRegister r, s) 12 = (.done 0, s.register r) := by
  obtain ⟨pie, ienable, altIrq, active⟩ := s
  obtain rfl : pie = true := hpie
  rw [altIcIsrRegister_eq hr]
  refine ⟨fun j hj => ?_, ?_⟩
  · obtain rfl | rfl | rfl | rfl | rfl | rfl | rfl | rfl | rfl | rfl | rfl | rfl : j = 0 ∨ j = 1 ∨ j = 2 ∨ j = 3 ∨
      j = 4 ∨ j = 5 ∨ j = 6 ∨ j = 7 ∨ j = 8 ∨ j = 9 ∨ j = 10 ∨ j = 11 := by omega
    all_goals
      simp [AccessCode.alone, changeActive, altIrqDisableAll, altIrqEnableAll, IrqAccess.code, IrqAccess.exec]
  · simp [AccessCode.alone, changeActive, altIrqDisableAll, altIrqEnableAll, IrqAccess.code, IrqAccess.exec,
      IrqState.register]
    funext i
    by_cases hi : i = r.irq.toInt <;> simp [hi]

end

/-! ## The search for a pending interrupt -/

theorem and_mask_iff (active : U32) (i : Nat) : active &&& (1 : U32) <<< i ≠ 0 ↔ active.getLsbD i = true := by
  have hand : active &&& BitVec.twoPow 32 i = _ := BitVec.and_twoPow ..
  rw [show (1 : U32) <<< i = BitVec.twoPow 32 i from rfl, hand]
  by_cases hbit : active.getLsbD i = true
  · have hpow : (BitVec.twoPow 32 i).getLsbD i = true := by
      simp [BitVec.lt_of_getLsbD hbit]
    simp only [hbit, if_true, iff_true]
    intro hz
    rw [hz] at hpow
    simp at hpow
  · simp [hbit]

theorem firstActive_some {active : U32} : ∀ {fuel i k : Nat}, firstActive active fuel ((1 : U32) <<< i) i = some k →
    active.getLsbD k = true ∧ ∀ j, i ≤ j → j < k → active.getLsbD j = false
  | 0, _, _, h => by cases h
  | fuel + 1, i, k, h => by
    rw [firstActive, ← BitVec.shiftLeft_add] at h
    by_cases hbit : active.getLsbD i = true
    · rw [if_pos ((and_mask_iff active i).mpr hbit)] at h
      cases h
      exact ⟨hbit, fun j hj hlt => absurd hlt (Nat.not_lt.mpr hj)⟩
    · rw [if_neg (mt (and_mask_iff active i).mp hbit)] at h
      obtain ⟨hk, hnone⟩ := firstActive_some h
      refine ⟨hk, fun j hj hlt => ?_⟩
      rcases Nat.eq_or_lt_of_le hj with rfl | hj
      · exact eq_false_of_ne_true hbit
      · exact hnone j hj hlt

theorem firstActive_none {active : U32} : ∀ {fuel i : Nat}, firstActive active fuel ((1 : U32) <<< i) i = none →
    ∀ j, i ≤ j → j < i + fuel → active.getLsbD j = false
  | 0, _, _, j, hj, hlt => absurd hlt (Nat.not_lt.mpr hj)
  | fuel + 1, i, h, j, hj, hlt => by
    rw [firstActive, ← BitVec.shiftLeft_add] at h
    by_cases hbit : active.getLsbD i = true
    · rw [if_pos ((and_mask_iff active i).mpr hbit)] at h
      cases h
    · rw [if_neg (mt (and_mask_iff active i).mp hbit)] at h
      rcases Nat.eq_or_lt_of_le hj with rfl | hj
      · exact eq_false_of_ne_true hbit
      · exact firstActive_none h j hj (by omega)

/-- The search ends if something is pending. -/
theorem firstActive_isSome {active : U32} (h : active ≠ 0) : ∃ i, firstActive active 32 1 0 = some i := by
  cases hf : firstActive active 32 1 0 with
  | some i => exact ⟨i, rfl⟩
  | none =>
    refine absurd (BitVec.eq_of_getLsbD_eq fun j hj => ?_) h
    rw [firstActive_none (show firstActive active 32 ((1 : U32) <<< 0) 0 = none from hf) j (Nat.zero_le j) (by omega)]
    simp

/-! ## Interrupts at any time -/

namespace IrqSystem

def resumed (s : IrqSystem) : IrqState := if s.mode = .program then s.irq else { s.irq with pie := s.estatus }

def effective (s : IrqSystem) : List Registration :=
  match s.code with
  | .done _ => s.registered
  | .access _ _ => s.registered.tail

/-- The program is between two registrations, or within one, as far as it would be without interrupts. -/
inductive Progress (s : IrqSystem) : Prop
  | between (rc : Int) (hcode : s.code = .done rc) (hholds : Holds s.registered s.resumed)
  | within (r : Registration) (l : List Registration) (q : IrqState) (j : Nat) (hl : s.registered = r :: l)
      (hr : r.irq.toNat < 32) (hj : j < 12) (hholds : Holds l q)
      (halone : AccessCode.alone IrqAccess.exec (altIcIsrRegister r, q) j = (s.code, s.resumed))

structure Inv (rs : List Registration) (s : IrqSystem) : Prop where
  progress : Progress s
  off : s.mode ≠ .program → s.irq.pie = false ∧ s.estatus = true
  order : s.registered.reverse ++ s.rest = rs

section
variable {s s' : IrqSystem}

theorem Progress.congr (h : Progress s) (hcode : s'.code = s.code) (hregistered : s'.registered = s.registered)
    (hresumed : s'.resumed = s.resumed) : Progress s' := by
  cases h with
  | between rc hc hholds => exact .between rc (hcode.trans hc) (by rwa [hregistered, hresumed])
  | within r l q j hl hr hj hholds halone =>
    exact .within r l q j (hregistered.trans hl) hr hj hholds (by rwa [hcode, hresumed])

/-- While interrupts are on no registration is half done. -/
theorem Progress.effective (h : Progress s) (hpie : s.resumed.pie = true) : Holds s.effective s.resumed := by
  cases h with
  | between rc hc hholds =>
    simp only [IrqSystem.effective, hc]
    exact hholds
  | within r l q j hl hr hj hholds halone =>
    obtain ⟨hnot, hbefore, hoff⟩ := (alone_register hr hholds.pie).1 j hj
    rw [halone] at hnot hbefore hoff
    have hearly : j < 2 := Nat.lt_of_not_le fun hle => by
      have hnow := hoff hle
      rw [hpie] at hnow
      cases hnow
    have hsame : s.resumed = q := hbefore hearly
    rw [hsame]
    cases hc : s.code with
    | done rc => exact absurd hc (hnot rc)
    | access a k =>
      simp only [IrqSystem.effective, hc, hl, List.tail_cons]
      exact hholds

theorem resumed_program (h : s.mode = .program) : s.resumed = s.irq := if_pos h

theorem resumed_interrupt (h : s.mode ≠ .program) : s.resumed = { s.irq with pie := s.estatus } := if_neg h

theorem advance_mode (s : IrqSystem) : s.advance.mode = s.mode := by
  unfold advance
  split <;> rfl

theorem advance_done {rc : Int} (hc : s.code = .done rc) (hr : s.rest = []) : s.advance = s := by
  rw [advance, hc, hr]

theorem advance_begins {rc : Int} {r : Registration} {rest : List Registration} (hc : s.code = .done rc)
    (hr : s.rest = r :: rest) :
    s.advance = { s with code := altIcIsrRegister r, rest, registered := r :: s.registered } := by
  rw [advance, hc, hr]

theorem advance_access {a : IrqAccess} {k : U32 → IrqCode Int} (hc : s.code = .access a k) :
    s.advance = { s with code := k (a.exec s.irq).1, irq := (a.exec s.irq).2 } := by
  rw [advance, hc]

theorem advance_progress (h : Progress s) (hmode : s.mode = .program) (hrest : ∀ r ∈ s.rest, r.irq.toNat < 32) :
    Progress s.advance := by
  have hirq := resumed_program hmode
  have hnow := resumed_program ((advance_mode s).trans hmode)
  cases h with
  | between rc hc hholds =>
    rw [hirq] at hholds
    cases hr : s.rest with
    | nil =>
      rw [advance_done hc hr]
      exact .between rc hc (by rwa [hirq])
    | cons r rest =>
      rw [advance_begins hc hr] at hnow ⊢
      refine .within r s.registered s.irq 0 rfl (hrest r (by rw [hr]; exact List.mem_cons_self)) (by decide) hholds ?_
      rw [hnow]
      rfl
  | within r l q j hl hr hj hholds halone =>
    obtain ⟨hnot, _⟩ := (alone_register hr hholds.pie).1 j hj
    rw [halone] at hnot
    cases hc : s.code with
    | done rc => exact absurd hc (hnot rc)
    | access a k =>
      have hnext : AccessCode.alone IrqAccess.exec (altIcIsrRegister r, q) (j + 1) =
          (k (a.exec s.irq).1, (a.exec s.irq).2) := by
        rw [AccessCode.alone, halone, hc, hirq]
        rfl
      rw [advance_access hc] at hnow ⊢
      rcases Nat.lt_or_ge (j + 1) 12 with hlt | hge
      · exact .within r l q (j + 1) hl hr hlt hholds (by rw [hnext, hnow])
      · -- the twelfth access: the registration is done
        obtain rfl : j = 11 := by omega
        rw [(alone_register hr hholds.pie).2] at hnext
        obtain ⟨hdone, hstate⟩ := Prod.mk.inj hnext
        refine .between 0 hdone.symm ?_
        rw [hnow, hl]
        show Holds (r :: l) (a.exec s.irq).2
        rw [← hstate]
        exact hholds.register hr

theorem advance_order (s : IrqSystem) :
    s.advance.registered.reverse ++ s.advance.rest = s.registered.reverse ++ s.rest := by
  unfold advance
  split
  · rfl
  · simp_all
  · rfl

variable {rs : List Registration} (hrs : ∀ r ∈ rs, r.irq.toNat < 32)
include hrs

theorem step_inv (h : Inv rs s) (e : IrqEvent) : Inv rs (s.step e) := by
  have hrest : ∀ r ∈ s.rest, r.irq.toNat < 32 := fun r hr =>
    hrs r (h.order ▸ List.mem_append_right _ hr)
  cases hm : s.mode with
  | program =>
    simp only [step, hm]
    split
    · rename_i htaken
      refine ⟨h.progress.congr rfl rfl ?_, fun _ => ⟨rfl, htaken.1⟩, h.order⟩
      rw [resumed_program hm, resumed_interrupt (by simp)]
    · split
      · refine ⟨advance_progress h.progress hm hrest, fun hn => absurd ((advance_mode s).trans hm) hn, ?_⟩
        rw [advance_order]
        exact h.order
      · exact h
  | exception =>
    have hoff := h.off (by rw [hm]; decide)
    simp only [step, hm]
    refine ⟨h.progress.congr rfl rfl ?_, fun _ => hoff, h.order⟩
    have hleft : (if s.estatus = true ∧ s.pending e ≠ 0 then IrqMode.irqHandler true else .unknown) ≠ .program := by
      split <;> simp
    exact (resumed_interrupt hleft).trans (resumed_interrupt (by rw [hm]; decide)).symm
  | irqHandler first =>
    have hoff := h.off (by rw [hm]; simp)
    simp only [step, hm]
    split
    · refine ⟨h.progress.congr rfl rfl ?_, fun hn => absurd rfl hn, h.order⟩
      rw [resumed_program rfl, resumed_interrupt (by rw [hm]; simp)]
    · split
      · refine ⟨h.progress.congr rfl rfl ?_, fun _ => hoff, h.order⟩
        rw [resumed_interrupt (by simp), resumed_interrupt (by rw [hm]; simp)]
      · refine ⟨h.progress.congr rfl rfl ?_, fun _ => hoff, h.order⟩
        rw [resumed_interrupt (by simp), resumed_interrupt (by rw [hm]; simp)]
  | unknown => simpa only [step, hm] using h
  | spinning => simpa only [step, hm] using h

theorem run_inv (e : Nat → IrqEvent) : ∀ n, Inv rs (run (boot rs) e n)
  | 0 => by
    have hnone : Holds [] (boot rs).irq :=
      ⟨rfl, fun _ _ => rfl, fun i _ => by simp [boot, lastRegistered], by simp [boot]⟩
    exact ⟨.between 0 rfl hnone, fun hn => absurd rfl hn, rfl⟩
  | n + 1 => step_inv hrs (run_inv e n) (e n)

/-! ## What is called -/

omit hrs in
theorem Inv.effective_prefix (h : Inv rs s) : s.effective.reverse <+: rs := by
  rw [← h.order]
  unfold effective
  split
  · exact List.prefix_append ..
  · refine List.IsPrefix.trans ?_ (List.prefix_append ..)
    cases s.registered with
    | nil => exact List.prefix_refl _
    | cons r l => simp

omit hrs in
theorem pending_getLsbD {e : IrqEvent} {i : Nat} (h : (s.pending e).getLsbD i = true) :
    i < 3 ∧ e.lines.getLsbD i = true ∧ s.irq.ienable.getLsbD i = true := by
  simp only [pending, BitVec.getLsbD_and, Bool.and_eq_true] at h
  obtain ⟨⟨hline, henabled⟩, hthree⟩ := h
  refine ⟨Nat.lt_of_not_le fun hle => ?_, hline, henabled⟩
  have hseven : ∀ i, 3 ≤ i → (7 : U32).getLsbD i = false := by
    intro i hi
    show Nat.testBit 7 i = false
    exact Nat.testBit_lt_two_pow (Nat.lt_of_lt_of_le (by decide) (Nat.pow_le_pow_right (by decide) hi))
  rw [hseven i hle] at hthree
  cases hthree

/-- **Every handler is called as it was registered.** Whenever interrupts come while the program registers
handlers, a handler that is called is the one, with the argument, of the last registration of its interrupt
that has taken effect, and not `NULL`; and its interrupt is the first of those that are pending. -/
theorem nextCall_registered {e : Nat → IrqEvent} {n i : Nat} {entry : IrqHandler}
    (hcall : (run (boot rs) e n).nextCall (e n) = some (i, entry)) :
    (run (boot rs) e n).effective.reverse <+: rs ∧ entry = lastRegistered (run (boot rs) e n).effective i ∧
      entry.handler ≠ 0 ∧ i < 3 ∧ (e n).lines.getLsbD i = true ∧
      ∀ j < i, ((run (boot rs) e n).pending (e n)).getLsbD j = false := by
  have h := run_inv hrs e n
  generalize run (boot rs) e n = s at h hcall
  cases hm : s.mode with
  | irqHandler first =>
    have hmode : s.mode ≠ .program := by rw [hm]; simp
    have hresumed := resumed_interrupt hmode
    have hholds := h.progress.effective (by rw [hresumed]; exact (h.off hmode).2)
    simp only [nextCall, hm, Option.map_eq_some_iff, Prod.mk.injEq] at hcall
    obtain ⟨k, hfirst, rfl, rfl⟩ := hcall
    obtain ⟨hbit, hlower⟩ :=
      firstActive_some (show firstActive (s.pending (e n)) 32 ((1 : U32) <<< 0) 0 = some k from hfirst)
    obtain ⟨hk, hline, henabled⟩ := pending_getLsbD hbit
    have htable := hholds.table k (by omega)
    have hactive := hholds.active k (by omega)
    have hmask := hholds.ienable
    rw [hresumed] at htable hactive hmask
    rw [show s.irq.ienable = _ from hmask, BitVec.getLsbD_and, Bool.and_eq_true] at henabled
    refine ⟨h.effective_prefix, htable, ?_, hk, hline, fun j hj => hlower j (Nat.zero_le j) hj⟩
    rw [show s.irq.altIrq k = _ from htable]
    exact hactive.mp henabled.1
  | program => simp [nextCall, hm] at hcall
  | exception => simp [nextCall, hm] at hcall
  | unknown => simp [nextCall, hm] at hcall
  | spinning => simp [nextCall, hm] at hcall

end

/-! ## Coming back -/

structure Alive (s : IrqSystem) (e : IrqEvent) : Prop where
  known : s.mode ≠ .unknown ∧ s.mode ≠ .spinning
  waits : s.mode = .exception ∨ s.mode = .irqHandler true → ∃ i, (s.pending e).getLsbD i = true
  on : s.mode = .exception → s.estatus = true

theorem Alive.of_program {s : IrqSystem} {e : IrqEvent} (h : s.mode = .program) : Alive s e :=
  ⟨by simp [h], by simp [h], by simp [h]⟩

theorem ne_zero_of_getLsbD {v : U32} {i : Nat} (h : v.getLsbD i = true) : v ≠ 0 := by
  rintro rfl
  simp at h

theorem pending_holds {s s' : IrqSystem} {e e' : IrqEvent} {i : Nat} (h : (s.pending e).getLsbD i = true)
    (hline : e'.lines.getLsbD i = true) (hienable : s'.irq.ienable = s.irq.ienable) :
    (s'.pending e').getLsbD i = true := by
  simp only [pending, BitVec.getLsbD_and, Bool.and_eq_true, hienable] at h ⊢
  exact ⟨⟨hline, h.1.2⟩, h.2⟩

def Sticky (s : IrqSystem) (e e' : IrqEvent) : Prop :=
  ∀ i, e.lines.getLsbD i = true → (∀ entry, s.nextCall e ≠ some (i, entry)) → e'.lines.getLsbD i = true

theorem step_alive {s : IrqSystem} {e e' : IrqEvent} (h : Alive s e) (hsticky : Sticky s e e') :
    Alive (s.step e) e' := by
  -- if no handler is called what is pending stays so
  have hwaits : ∀ {s' : IrqSystem}, (∀ call, s.nextCall e ≠ some call) → s'.irq.ienable = s.irq.ienable →
      ∀ i, (s.pending e).getLsbD i = true → (s'.pending e').getLsbD i = true := fun hnone hienable i hi =>
    pending_holds hi (hsticky i (pending_getLsbD hi).2.1 fun entry => hnone (i, entry)) hienable
  cases hm : s.mode with
  | program =>
    have hnone : ∀ call, s.nextCall e ≠ some call := by simp [nextCall, hm]
    simp only [step, hm]
    split
    · rename_i htaken
      obtain ⟨i, hi⟩ := firstActive_isSome htaken.2
      have hbit := (firstActive_some (show firstActive _ 32 ((1 : U32) <<< 0) 0 = some i from hi)).1
      exact ⟨by simp, fun _ => ⟨i, hwaits hnone rfl i hbit⟩, fun _ => htaken.1⟩
    · split
      · exact .of_program ((advance_mode s).trans hm)
      · exact .of_program hm
  | exception =>
    have hnone : ∀ call, s.nextCall e ≠ some call := by simp [nextCall, hm]
    obtain ⟨i, hi⟩ := h.waits (.inl hm)
    simp only [step, hm, if_pos (And.intro (h.on hm) (ne_zero_of_getLsbD hi))]
    exact ⟨by simp, fun _ => ⟨i, hwaits hnone rfl i hi⟩, by simp⟩
  | irqHandler first =>
    simp only [step, hm]
    split
    · exact .of_program rfl
    · rename_i hagain
      have hpending : s.pending e ≠ 0 := by
        cases first with
        | false => exact fun hz => hagain ⟨rfl, hz⟩
        | true =>
          obtain ⟨i, hi⟩ := h.waits (.inr hm)
          exact ne_zero_of_getLsbD hi
      obtain ⟨i, hi⟩ := firstActive_isSome hpending
      have hcall : s.nextCall e = some (i, s.irq.altIrq i) := by
        rw [nextCall, hm]
        dsimp only
        rw [hi]
        rfl
      rw [hcall]
      exact ⟨by simp, by simp, by simp⟩
  | unknown => exact absurd hm h.known.1
  | spinning => exact absurd hm h.known.2

section
variable {start : IrqSystem} {e : Nat → IrqEvent} (hsticky : ∀ n, Sticky (run start e n) (e n) (e (n + 1)))
include hsticky

theorem run_alive (hstart : start.mode = .program) : ∀ n, Alive (run start e n) (e n)
  | 0 => .of_program hstart
  | n + 1 => step_alive (run_alive hstart n) (hsticky n)

/-- **The processor comes back from every interrupt** if each line that is up stays up until the handler of
its interrupt is called: it takes no interrupt for another exception, and `alt_irq_handler` always finds one
that is pending. -/
theorem run_comes_back (hstart : start.mode = .program) (n : Nat) :
    (run start e n).mode ≠ .unknown ∧ (run start e n).mode ≠ .spinning := (run_alive hsticky hstart n).known

end

end IrqSystem

/-- The timer and the buttons, in the order of `alt_sys_init` and `main`; their handlers are at some addresses.
The small driver of the UART registers none. -/
def bootRegistrations : List Registration := [⟨1, 0x110400, 0x121000⟩, ⟨2, 0x110600, 0x112100⟩]

def earlyPress (n : Nat) : IrqEvent := ⟨if 20 ≤ n ∧ n < 29 then 4 else 0, true⟩

namespace IrqSystem

theorem nextCall_registered_early : (⟨0x110600, 0x112100⟩ : IrqHandler) =
    lastRegistered (run (boot bootRegistrations) earlyPress 28).effective 2 :=
  (nextCall_registered (by decide) (e := earlyPress) (n := 28) (by decide +kernel)).2.1

theorem run_comes_back_early : (run (boot bootRegistrations) earlyPress 100).mode ≠ .unknown ∧
    (run (boot bootRegistrations) earlyPress 100).mode ≠ .spinning := by
  refine run_comes_back (fun n i hline hnone => ?_) rfl 100
  by_cases hup : 20 ≤ n ∧ n < 29
  · simp only [earlyPress, if_pos hup] at hline
    by_cases hlast : n = 28
    · subst hlast
      have hfour : ∀ i < 32, (4 : U32).getLsbD i = true → i = 2 := by decide
      have hcall : (run (boot bootRegistrations) earlyPress 28).nextCall (earlyPress 28) =
          some (2, ⟨0x110600, 0x112100⟩) := by decide +kernel
      rw [hfour i (BitVec.lt_of_getLsbD hline) hline] at hnone
      exact absurd hcall (hnone _)
    · simp only [earlyPress, if_pos (show 20 ≤ n + 1 ∧ n + 1 < 29 by omega)]
      exact hline
  · simp [earlyPress, hup] at hline

end IrqSystem

end NiosSnake
