import Mathlib.Data.Nat.Find
import NiosSnake.JtagUart

/-!
# How far the program gets

A loop that polls does not come to an end before the host has taken enough. With a
processor that always gets to its next access, the program gets past a piece of text
exactly if the host takes all but what the FIFO holds.
-/

namespace NiosSnake

namespace Console

section
variable {pieces : Nat → List U8} {s : Console}

def written (s : Console) : Nat := s.taken.length + s.uart.wfifo.length

theorem Inv.written (h : Inv pieces s) : s.written + s.text.length = (output pieces s.piece).length := by
  have hlength := congrArg List.length h.text
  rw [List.length_append, List.length_append] at hlength
  exact hlength

theorem step_text (s : Console) (e : ConsoleEvent) :
    ((s.step pieces e).piece = s.piece ∧ (s.step pieces e).text = s.text) ∨
    ((s.step pieces e).piece = s.piece ∧ (s.step pieces e).text = s.text.tail) ∨
    (s.text = [] ∧ (s.step pieces e).piece = s.piece + 1 ∧ (s.step pieces e).text = pieces (s.piece + 1)) := by
  unfold step
  split
  · split
    · split
      · rename_i hempty
        exact .inr (.inr ⟨hempty, rfl, rfl⟩)
      · exact .inl ⟨rfl, rfl⟩
    · exact .inl ⟨rfl, rfl⟩
  · split
    · exact .inl ⟨rfl, rfl⟩
    · split <;> exact .inl ⟨rfl, rfl⟩
  · split <;> exact .inl ⟨rfl, rfl⟩
  · split
    · exact .inl ⟨rfl, rfl⟩
    · exact .inr (.inl ⟨rfl, rfl⟩)

theorem step_taken (s : Console) (e : ConsoleEvent) : (s.step pieces e).taken = s.takes e := by
  unfold step
  split
  · split
    · split <;> rfl
    · rfl
  · split
    · rfl
    · split <;> rfl
  · split <;> rfl
  · split <;> rfl

def progress (s : Console) : Nat := s.written + s.piece

theorem step_written (h : Inv pieces s) (e : ConsoleEvent) : s.written ≤ (s.step pieces e).written := by
  have hnow := h.written
  have hnext := (step_inv h e).written
  rcases step_text s e with ⟨hp, ht⟩ | ⟨hp, ht⟩ | ⟨hempty, hp, ht⟩
  · rw [hp, ht] at hnext
    omega
  · rw [hp, ht, List.length_tail] at hnext
    omega
  · rw [hp, ht, output, List.length_append] at hnext
    rw [hempty, List.length_nil] at hnow
    omega

theorem step_progress (h : Inv pieces s) (e : ConsoleEvent) : s.progress ≤ (s.step pieces e).progress := by
  have hwritten := step_written h e
  unfold progress
  rcases step_text s e with ⟨hp, _⟩ | ⟨hp, _⟩ | ⟨_, hp, _⟩ <;> rw [hp] <;> omega

variable (pieces) in
theorem run_progress (e : Nat → ConsoleEvent) {n m : Nat} (h : n ≤ m) :
    (run pieces e n).progress ≤ (run pieces e m).progress := by
  induction h with
  | refl => exact Nat.le_refl _
  | step _ ih => exact Nat.le_trans ih (step_progress (run_inv pieces e _) (e _))

theorem step_reading_begins (hp : s.phase = .reading) (hwait : s.uart.avWaitrequest = true) (e : ConsoleEvent) :
    (s.step pieces e).phase = .reading ∧ (s.step pieces e).uart.avWaitrequest = false := by
  simp [step, hp, served, hwait, JtagUart.clock, bus]

theorem step_reading_ends (h : Inv pieces s) (hp : s.phase = .reading) (hwait : s.uart.avWaitrequest = false)
    (hspace : s.uart.wfifo.length < 64) (e : ConsoleEvent) : (s.step pieces e).phase = .send := by
  have hcontrol := (JtagUart.control_space h.room e.low).mpr hspace
  simp only [step, hp, hwait, if_pos hcontrol]
  rfl

theorem step_writing_begins (h : Inv pieces s) (hp : s.phase = .writing) (hwait : s.uart.avWaitrequest = true)
    (e : ConsoleEvent) : (s.step pieces e).phase = .writing ∧ (s.step pieces e).uart.avWaitrequest = false := by
  have hbus := h.bus
  simp only [BusInv, hp] at hbus
  obtain ⟨c, rest, hcons⟩ := List.exists_cons_of_ne_nil hbus.2.2
  simp [step, hp, served, hwait, JtagUart.clock, bus, hcons]

theorem step_writing_ends (h : Inv pieces s) (hp : s.phase = .writing) (hwait : s.uart.avWaitrequest = false)
    (e : ConsoleEvent) : s.progress < (s.step pieces e).progress := by
  have hbus := h.bus
  simp only [BusInv, hp] at hbus
  obtain ⟨c, rest, hcons⟩ := List.exists_cons_of_ne_nil hbus.2.2
  have hnow := h.written
  have hnext := (step_inv h e).written
  have hstep : (s.step pieces e).piece = s.piece ∧ (s.step pieces e).text = rest := by
    simp [step, hp, served, hwait, hcons]
  rw [hstep.1, hstep.2] at hnext
  rw [hcons, List.length_cons] at hnow
  rw [progress, progress, hstep.1]
  omega

/-! ## With a fair processor -/

section
variable {e : Nat → ConsoleEvent} (hfair : ∀ n, ∃ k, n ≤ k ∧ (e k).cpu = true)
include hfair

theorem waits_cpu {n : Nat} (hp : (run pieces e n).phase = .poll ∨ (run pieces e n).phase = .send) :
    ∃ k, n ≤ k ∧ (e k).cpu = true ∧ (run pieces e k).phase = (run pieces e n).phase ∧
      (run pieces e k).text = (run pieces e n).text := by
  have hexists := hfair n
  obtain ⟨k, ⟨hle, hcpu⟩, hfirst⟩ : ∃ k, (n ≤ k ∧ (e k).cpu = true) ∧ ∀ j < k, ¬ (n ≤ j ∧ (e j).cpu = true) :=
    ⟨Nat.find hexists, Nat.find_spec hexists, fun _ => Nat.find_min hexists⟩
  obtain ⟨m, rfl⟩ : ∃ m, k = n + m := ⟨k - n, by omega⟩
  have hsame : ∀ j ≤ m, (run pieces e (n + j)).phase = (run pieces e n).phase ∧
      (run pieces e (n + j)).text = (run pieces e n).text := by
    intro j
    induction j with
    | zero => exact fun _ => ⟨rfl, rfl⟩
    | succ j ih =>
      intro hj
      obtain ⟨hphase, htext⟩ := ih (by omega)
      have hidle : (e (n + j)).cpu = false := eq_false_of_ne_true fun hc => hfirst (n + j) (by omega) ⟨by omega, hc⟩
      have hstep : run pieces e (n + (j + 1)) = (run pieces e (n + j)).served (e (n + j)) := by
        rw [← Nat.add_assoc, run]
        rw [← hphase] at hp
        rcases hp with hp | hp <;> simp [step, hp, hidle]
      rw [hstep]
      exact ⟨hphase, htext⟩
  exact ⟨n + m, hle, hcpu, hsame m (Nat.le_refl m)⟩

variable {n₀ : Nat} (hspace : ∀ n, n₀ ≤ n → (run pieces e n).text ≠ [] → (run pieces e n).uart.wfifo.length < 64)

omit hfair in
theorem writing_goes_on {n : Nat} (hp : (run pieces e n).phase = .writing) :
    ∃ m, n ≤ m ∧ (run pieces e n).progress < (run pieces e m).progress := by
  have h := run_inv pieces e n
  cases hwait : (run pieces e n).uart.avWaitrequest with
  | false => exact ⟨n + 1, Nat.le_succ n, step_writing_ends h hp hwait (e n)⟩
  | true =>
    obtain ⟨hp', hwait'⟩ := step_writing_begins h hp hwait (e n)
    have hlast : (run pieces e (n + 1)).progress < (run pieces e (n + 2)).progress :=
      step_writing_ends (run_inv pieces e (n + 1)) hp' hwait' (e (n + 1))
    exact ⟨n + 2, by omega, Nat.lt_of_le_of_lt (run_progress pieces e (Nat.le_succ n)) hlast⟩

theorem send_goes_on {n : Nat} (hp : (run pieces e n).phase = .send) :
    ∃ m, n ≤ m ∧ (run pieces e n).progress < (run pieces e m).progress := by
  obtain ⟨k, hle, hcpu, hphase, _⟩ := waits_cpu hfair (.inr hp)
  have hwriting : (run pieces e (k + 1)).phase = .writing := by
    rw [run]
    simp [step, hphase, hp, hcpu]
  obtain ⟨m, hm, hlt⟩ := writing_goes_on hwriting
  exact ⟨m, by omega, Nat.lt_of_le_of_lt (run_progress pieces e (by omega)) hlt⟩

include hspace

theorem reading_goes_on {n : Nat} (hn : n₀ ≤ n) (hp : (run pieces e n).phase = .reading) :
    ∃ m, n ≤ m ∧ (run pieces e n).progress < (run pieces e m).progress := by
  have hend : ∀ n, n₀ ≤ n → (run pieces e n).phase = .reading → (run pieces e n).uart.avWaitrequest = false →
      ∃ m, n ≤ m ∧ (run pieces e n).progress < (run pieces e m).progress := by
    intro n hn hp hwait
    have h := run_inv pieces e n
    have hsend : (run pieces e (n + 1)).phase = .send :=
      step_reading_ends h hp hwait (hspace n hn (h.reading hp)) (e n)
    obtain ⟨m, hm, hlt⟩ := send_goes_on hfair hsend
    exact ⟨m, by omega, Nat.lt_of_le_of_lt (run_progress pieces e (Nat.le_succ n)) hlt⟩
  cases hwait : (run pieces e n).uart.avWaitrequest with
  | false => exact hend n hn hp hwait
  | true =>
    have hbegins : (run pieces e (n + 1)).phase = .reading ∧ (run pieces e (n + 1)).uart.avWaitrequest = false :=
      step_reading_begins hp hwait (e n)
    obtain ⟨hp', hwait'⟩ := hbegins
    obtain ⟨m, hm, hlt⟩ := hend (n + 1) (Nat.le_succ_of_le hn) hp' hwait'
    exact ⟨m, by omega, Nat.lt_of_le_of_lt (run_progress pieces e (Nat.le_succ n)) hlt⟩

theorem run_goes_on {n : Nat} (hn : n₀ ≤ n) : ∃ m, n ≤ m ∧ (run pieces e n).progress < (run pieces e m).progress := by
  cases hp : (run pieces e n).phase with
  | poll =>
    obtain ⟨k, hle, hcpu, hphase, htext⟩ := waits_cpu hfair (.inl hp)
    rw [hp] at hphase
    by_cases hempty : (run pieces e k).text = []
    · -- the next piece
      have hold := (run_inv pieces e k).written
      have hnew := (run_inv pieces e (k + 1)).written
      have hnext : (run pieces e (k + 1)).piece = (run pieces e k).piece + 1 ∧
          (run pieces e (k + 1)).text = pieces ((run pieces e k).piece + 1) := by
        rw [run]
        simp [step, hphase, hcpu, hempty]
      rw [hnext.1, hnext.2, output, List.length_append] at hnew
      rw [hempty, List.length_nil] at hold
      have hle' := run_progress pieces e hle
      refine ⟨k + 1, by omega, ?_⟩
      rw [progress, progress] at hle'
      rw [progress, progress, hnext.1]
      omega
    · have hreading : (run pieces e (k + 1)).phase = .reading := by
        rw [run]
        simp [step, hphase, hcpu, hempty]
      obtain ⟨m, hm, hlt⟩ := reading_goes_on hfair hspace (by omega) hreading
      exact ⟨m, by omega, Nat.lt_of_le_of_lt (run_progress pieces e (by omega)) hlt⟩
  | reading => exact reading_goes_on hfair hspace hn hp
  | send => exact send_goes_on hfair hp
  | writing => exact writing_goes_on hp

theorem progress_unbounded : ∀ b, ∃ n, n₀ ≤ n ∧ b < (run pieces e n).progress
  | 0 => by
    obtain ⟨m, hm, hlt⟩ := run_goes_on hfair hspace (Nat.le_refl n₀)
    exact ⟨m, hm, Nat.zero_lt_of_lt hlt⟩
  | b + 1 => by
    obtain ⟨n, hn, hb⟩ := progress_unbounded b
    obtain ⟨m, hm, hlt⟩ := run_goes_on hfair hspace hn
    exact ⟨m, Nat.le_trans hn hm, by omega⟩

end

end

/-! ## The text -/

section
variable {pieces : Nat → List U8} {e : Nat → ConsoleEvent}

theorem output_initial {j k : Nat} (h : j ≤ k) : output pieces j <+: output pieces k := by
  induction h with
  | refl => exact List.prefix_refl _
  | step _ ih => exact ih.trans (List.prefix_append _ _)

theorem takes_initial (s : Console) (e : ConsoleEvent) : s.taken <+: (s.step pieces e).taken := by
  rw [step_taken, takes]
  exact List.prefix_append _ _

theorem taken_initial {n m : Nat} (h : n ≤ m) : (run pieces e n).taken <+: (run pieces e m).taken := by
  induction h with
  | refl => exact List.prefix_refl _
  | step _ ih => exact ih.trans (takes_initial _ _)

theorem run_written {n m : Nat} (h : n ≤ m) : (run pieces e n).written ≤ (run pieces e m).written := by
  induction h with
  | refl => exact Nat.le_refl _
  | step _ ih => exact Nat.le_trans ih (step_written (run_inv pieces e _) (e _))

theorem Inv.output_le {s : Console} (h : Inv pieces s) {k : Nat} (hk : k < s.piece) :
    (output pieces k).length ≤ s.written := by
  obtain ⟨j, hj⟩ : ∃ j, s.piece = j + 1 := ⟨s.piece - 1, by omega⟩
  have hwritten := h.written
  have hsuffix := h.suffix.length_le
  have hle : (output pieces k).length ≤ (output pieces j).length := (output_initial (by omega)).length_le
  rw [hj, output, List.length_append] at hwritten
  rw [hj] at hsuffix
  omega

/-- With space in the FIFO from some time on, the program gets past every piece. -/
theorem run_passes (hfair : ∀ n, ∃ k, n ≤ k ∧ (e k).cpu = true) {n₀ : Nat}
    (hspace : ∀ n, n₀ ≤ n → (run pieces e n).text ≠ [] → (run pieces e n).uart.wfifo.length < 64) (k : Nat) :
    ∃ n, n₀ ≤ n ∧ k < (run pieces e n).piece := by
  obtain ⟨n, hn, hb⟩ := progress_unbounded hfair hspace ((output pieces k).length + k)
  refine ⟨n, hn, Nat.lt_of_not_le fun hk => ?_⟩
  have hwritten := (run_inv pieces e n).written
  have hle : (output pieces (run pieces e n).piece).length ≤ (output pieces k).length := (output_initial hk).length_le
  rw [progress] at hb
  omega

/-- What the program is past has been taken, but for what the FIFO holds. -/
theorem taken_of_piece {n k : Nat} (hn : k < (run pieces e n).piece) :
    (output pieces k).length ≤ 64 + (run pieces e n).taken.length := by
  have hle := (run_inv pieces e n).output_le hn
  have hroom := (run_inv pieces e n).room
  rw [written] at hle
  omega

theorem piece_of_taken (hfair : ∀ n, ∃ k, n ≤ k ∧ (e k).cpu = true) {n₀ k : Nat}
    (hn₀ : (output pieces k).length ≤ 64 + (run pieces e n₀).taken.length) : ∃ n, k < (run pieces e n).piece := by
  refine Classical.byContradiction fun hnever => ?_
  have hpiece : ∀ n, (run pieces e n).piece ≤ k := fun n => Nat.le_of_not_lt fun hlt => hnever ⟨n, hlt⟩
  -- what is left of the text up to `k` is less than the FIFO holds
  have hspace : ∀ n, n₀ ≤ n → (run pieces e n).text ≠ [] → (run pieces e n).uart.wfifo.length < 64 := by
    intro n hn htext
    have hwritten := (run_inv pieces e n).written
    have hle : (output pieces (run pieces e n).piece).length ≤ (output pieces k).length :=
      (output_initial (hpiece n)).length_le
    have htaken : (run pieces e n₀).taken.length ≤ (run pieces e n).taken.length := (taken_initial hn).length_le
    have hpos := List.length_pos_iff.mpr htext
    rw [written] at hwritten
    omega
  obtain ⟨n, _, hn⟩ := run_passes hfair hspace k
  exact hnever ⟨n, hn⟩

/-- **How far the program gets.** It gets past a piece of text exactly if at some time the host has taken all
but 64 characters of the text up to there; else it polls for ever. -/
theorem printed_iff (hfair : ∀ n, ∃ k, n ≤ k ∧ (e k).cpu = true) (k : Nat) :
    (∃ n, k < (run pieces e n).piece) ↔ ∃ n, (output pieces k).length ≤ 64 + (run pieces e n).taken.length :=
  ⟨fun ⟨n, hn⟩ => ⟨n, taken_of_piece hn⟩, fun ⟨_, hn₀⟩ => piece_of_taken hfair hn₀⟩

theorem printed_iff_ready : (∃ n, 99 < (run (fun _ => [72]) (fun _ => ⟨true, true, 0⟩) n).piece) ↔
    ∃ n, (output (fun _ => [72]) 99).length ≤ 64 + (run (fun _ => [72]) (fun _ => ⟨true, true, 0⟩) n).taken.length :=
  printed_iff (fun n => ⟨n, Nat.le_refl n, rfl⟩) 99

/-! ## With a host that goes on -/

variable (hfair : ∀ n, ∃ k, n ≤ k ∧ (e k).cpu = true) (hhost : ∀ n, ∃ k, n ≤ k ∧ (e k).host = true)

theorem step_host {s : Console} {e : ConsoleEvent} (he : e.host = true) (hfifo : s.uart.wfifo ≠ []) :
    (s.step pieces e).taken.length = s.taken.length + 1 := by
  obtain ⟨c, rest, hcons⟩ := List.exists_cons_of_ne_nil hfifo
  simp [step_taken, takes, he, hcons]

include hfair hhost

theorem takes_more {n k : Nat} (hn : (run pieces e n).taken.length < (output pieces k).length) :
    ∃ m, (run pieces e n).taken.length < (run pieces e m).taken.length := by
  refine Classical.byContradiction fun hnever => ?_
  have hsame : ∀ m, n ≤ m → (run pieces e m).taken.length = (run pieces e n).taken.length := fun m hm =>
    Nat.le_antisymm (Nat.le_of_not_lt fun hlt => hnever ⟨m, hlt⟩) (taken_initial hm).length_le
  -- the FIFO stays empty: the host would take what is in it
  have hempty : ∀ m, n ≤ m → (run pieces e m).uart.wfifo = [] := by
    intro m hm
    obtain ⟨j, hj, hready⟩ := hhost m
    have hlater : (run pieces e j).uart.wfifo = [] := by
      refine Classical.byContradiction fun hfifo => ?_
      have htaken : (run pieces e (j + 1)).taken.length = (run pieces e j).taken.length + 1 := step_host hready hfifo
      have hnow := hsame j (by omega)
      have hnext := hsame (j + 1) (by omega)
      omega
    have hwritten : (run pieces e m).written ≤ (run pieces e j).written := run_written hj
    rw [written, written, hlater, hsame m hm, hsame j (by omega), List.length_nil] at hwritten
    exact List.eq_nil_of_length_eq_zero (by omega)
  have hspace : ∀ m, n ≤ m → (run pieces e m).text ≠ [] → (run pieces e m).uart.wfifo.length < 64 := by
    intro m hm _
    rw [hempty m hm]
    exact Nat.zero_lt_succ 63
  obtain ⟨m, hm, hpiece⟩ := run_passes hfair hspace k
  have hle := (run_inv pieces e m).output_le hpiece
  rw [written, hempty m hm, hsame m hm, List.length_nil] at hle
  omega

/-- **All of the text arrives** if the host goes on taking characters: every piece is at some time with the
host as a whole, after the pieces before it and in order. -/
theorem run_delivered (k : Nat) : ∃ n, output pieces k <+: (run pieces e n).taken := by
  have hlong : ∀ b ≤ (output pieces k).length, ∃ n, b ≤ (run pieces e n).taken.length := by
    intro b
    induction b with
    | zero => exact fun _ => ⟨0, Nat.zero_le _⟩
    | succ b ih =>
      intro hb
      obtain ⟨n, hn⟩ := ih (by omega)
      by_cases hlt : (run pieces e n).taken.length < (output pieces k).length
      · obtain ⟨m, hm⟩ := takes_more hfair hhost hlt
        exact ⟨m, by omega⟩
      · exact ⟨n, by omega⟩
  obtain ⟨n, hn⟩ := hlong _ (Nat.le_refl _)
  have htaken : (run pieces e n).taken <+: output pieces (run pieces e n).piece := by
    have htext := (run_inv pieces e n).text
    rw [List.append_assoc] at htext
    exact ⟨_, htext⟩
  rcases Nat.le_total k (run pieces e n).piece with hk | hk
  · exact ⟨n, List.prefix_of_prefix_length_le (output_initial hk) htaken hn⟩
  · exact ⟨n, List.prefix_of_prefix_length_le (List.prefix_refl _) (htaken.trans (output_initial hk)) hn⟩

end

theorem run_delivered_ready :
    ∃ n, output (fun _ => [72]) 99 <+: (run (fun _ => [72]) (fun _ => ⟨true, true, 0⟩) n).taken :=
  run_delivered (fun n => ⟨n, Nat.le_refl n, rfl⟩) (fun n => ⟨n, Nat.le_refl n, rfl⟩) 99

end Console

end NiosSnake
