import NiosSnake.Bus
import NiosSnake.Picture

/-!
# The chip

The display and the bus of the processor on one clock. The program's stores go through
the bus, among the loads and fetches, and each has its clock; what the display shows is
what the two ports of the memory make of that.
-/

namespace NiosSnake

open ByteMemory

structure NiosDisplay where
  bus : Bus
  display : Display

namespace NiosDisplay

/-- The display is never reset; the bus is until clock `d`. -/
def run (ram : BitVec 17 → U32) (d : Nat) (e : Nat → BusEvent) : Nat → NiosDisplay
  | 0 => ⟨.reset ram, .powerUp⟩
  | n + 1 =>
    let s := run ram d e n
    ⟨if n < d then s.bus else s.bus.clock (e n), s.display.edge s.bus.ram⟩

section
variable (ram : BitVec 17 → U32) (d : Nat) (e : Nat → BusEvent)

def stores (n : Nat) : Option Store := (run ram d e n).bus.taken (e n)

theorem run_bus : ∀ n, (run ram d e n).bus = Bus.run ram (fun k => e (d + k)) (n - d)
  | 0 => by rw [Nat.zero_sub]; rfl
  | n + 1 => by
    rw [run]
    rcases Nat.lt_or_ge n d with hn | hn
    · rw [if_pos hn, run_bus n, Nat.sub_eq_zero_of_le (Nat.le_of_lt hn), Nat.sub_eq_zero_of_le hn]
    · rw [if_neg (Nat.not_lt.mpr hn), run_bus n, Nat.succ_sub hn, Bus.run, Nat.add_sub_cancel' hn]

theorem run_inv (n : Nat) : Bus.Inv ram (run ram d e n).bus := by
  rw [run_bus]
  exact Bus.run_inv ram _ _

theorem stores_reset {n : Nat} (hn : n < d) : stores ram d e n = none := by
  rw [stores, run_bus, Nat.sub_eq_zero_of_le (Nat.le_of_lt hn)]
  rfl

theorem run_succ (n : Nat) :
    (run ram d e (n + 1)).bus.performed = (stores ram d e n).toList ++ (run ram d e n).bus.performed ∧
    (run ram d e (n + 1)).bus.ram = match stores ram d e n with
      | some store => store.send (run ram d e n).bus.ram
      | none => (run ram d e n).bus.ram := by
  rcases Nat.lt_or_ge n d with hn | hn
  · have hsame : (run ram d e (n + 1)).bus = (run ram d e n).bus := if_pos hn
    rw [hsame, stores_reset ram d e hn]
    exact ⟨rfl, rfl⟩
  · have hclock : (run ram d e (n + 1)).bus = (run ram d e n).bus.clock (e n) := if_neg (Nat.not_lt.mpr hn)
    rw [hclock]
    exact ⟨(run_inv ram d e n).clock_performed, (run_inv ram d e n).clock_taken⟩

/-- **The bus is a port of the memory** that takes at most one store a clock. -/
theorem run_dualPort : ∀ n, DualPort.run ram (stores ram d e) n = ⟨(run ram d e n).display, (run ram d e n).bus.ram⟩
  | 0 => rfl
  | n + 1 => by
    rw [DualPort.run, run_dualPort n, (run_succ ram d e n).2]
    rfl

theorem run_performed : ∀ n, (List.range n).filterMap (stores ram d e) = (run ram d e n).bus.performed.reverse
  | 0 => rfl
  | n + 1 => by
    rw [List.range_succ, List.filterMap_append, run_performed n, (run_succ ram d e n).1, List.reverse_append]
    cases hs : stores ram d e n <;> simp [hs]

end

/-! ## While nothing is stored to the frame buffer -/

def drawn (l : List Store) : List Store := l.filter fun s => Routed s.bus.dAddress .frameBuffer

section
variable {ram : BitVec 17 → U32} {d : Nat} {e : Nat → BusEvent} {t W : Nat}

theorem sentStores_performed (n : Nat) :
    sentStores .frameBuffer (stores ram d e) n = (drawn (run ram d e n).bus.performed).reverse := by
  rw [sentStores, run_performed, List.filter_reverse, drawn]

theorem drawn_suffix {l l' : List Store} (h : l <:+ l') : drawn l <:+ drawn l' := h.filter _

theorem performed_suffix (s : Bus) : s.performed <:+ s.issued := by
  unfold Bus.performed
  split
  · exact List.tail_suffix _
  · exact List.suffix_refl _

theorem run_performed_suffix (n : Nat) : ∀ k, (run ram d e n).bus.performed <:+ (run ram d e (n + k)).bus.performed
  | 0 => List.suffix_refl _
  | k + 1 => by
    refine (run_performed_suffix n k).trans ?_
    rw [← Nat.add_assoc, (run_succ ram d e (n + k)).1]
    exact List.suffix_append _ _

def Quiet (ram : BitVec 17 → U32) (d : Nat) (e : Nat → BusEvent) (t W : Nat) : Prop :=
  ∀ k, t ≤ k → k < t + W → ∀ i, (run ram d e k).bus.begins (e k) = some i → i.isStore = true →
    ¬ Routed i.store.bus.dAddress .frameBuffer

theorem run_issued (hquiet : Quiet ram d e t W) :
    ∀ k ≤ W, drawn (run ram d e (t + k)).bus.issued = drawn (run ram d e t).bus.issued
  | 0, _ => rfl
  | k + 1, hk => by
    rw [← run_issued hquiet k (Nat.le_of_succ_le hk), ← Nat.add_assoc]
    rcases Nat.lt_or_ge (t + k) d with hn | hn
    · have hsame : (run ram d e (t + k + 1)).bus = (run ram d e (t + k)).bus := if_pos hn
      rw [hsame]
    · have hclock : (run ram d e (t + k + 1)).bus = (run ram d e (t + k)).bus.clock (e (t + k)) :=
        if_neg (Nat.not_lt.mpr hn)
      rw [hclock, Bus.clock]
      cases hb : (run ram d e (t + k)).bus.begins (e (t + k)) with
      | none => rfl
      | some i =>
        cases hstore : i.isStore with
        | false => simp [hstore]
        | true =>
          have hother := hquiet (t + k) (Nat.le_add_right t k) (by omega) i hb hstore
          simp [hstore, drawn, hother]

theorem drawn_performed {s : Bus} (h : Bus.Inv ram s) (hdone : s.dWrite = false ∨ s.routed = false) :
    drawn s.performed = drawn s.issued := by
  cases hw : s.uavWrite with
  | false => rw [Bus.performed_of_written hw]
  | true =>
    have hwrite := (Bool.and_eq_true_iff.mp hw).1
    obtain ⟨store, rest, hcons, hbus⟩ := h.current hwrite
    rcases hdone with hnot | hnot
    · rw [hwrite] at hnot
      cases hnot
    · rw [Bus.routed, hbus] at hnot
      have hother : ¬ Routed store.bus.dAddress .frameBuffer := of_decide_eq_false hnot
      simp [Bus.performed, hw, hcons, drawn, hother]

/-- A store that has begun is made three clocks later. -/
theorem run_settles (t : Nat) :
    ∃ j ≤ 3, drawn (run ram d e (t + j)).bus.performed = drawn (run ram d e (t + j)).bus.issued := by
  cases hw : (run ram d e t).bus.dWrite with
  | false => exact ⟨0, by decide, drawn_performed (run_inv ram d e t) (.inl hw)⟩
  | true =>
    cases hrouted : (run ram d e t).bus.routed with
    | false => exact ⟨0, by decide, drawn_performed (run_inv ram d e t) (.inr hrouted)⟩
    | true =>
      have hbus := run_bus ram d e t
      rcases Nat.lt_or_ge t d with hn | hn
      · rw [hbus, Nat.sub_eq_zero_of_le (Nat.le_of_lt hn)] at hw
        cases hw
      · rw [hbus] at hw hrouted
        obtain ⟨j, hj, hends⟩ := Bus.run_ends hw hrouted
        refine ⟨j, hj, drawn_performed (run_inv ram d e (t + j)) (.inl ?_)⟩
        rw [run_bus, Nat.sub_add_comm hn]
        exact hends

/-- In a quiet time the frame buffer has been sent what the processor has stored. -/
theorem run_sent (hquiet : Quiet ram d e t W) (hW : 3 ≤ W) : ∃ j ≤ 3, ∀ k, j ≤ k → k ≤ W →
    sentStores .frameBuffer (stores ram d e) (t + k) = (drawn (run ram d e t).bus.issued).reverse := by
  have hsettles : ∃ j ≤ 3, drawn (run ram d e (t + j)).bus.performed = drawn (run ram d e (t + j)).bus.issued :=
    run_settles t
  obtain ⟨j, hj, hmade⟩ := hsettles
  refine ⟨j, hj, fun k hjk hk => ?_⟩
  rw [sentStores_performed]
  congr 1
  -- no more than has been issued, and no less than at clock `t + j`
  have hmore : drawn (run ram d e (t + k)).bus.performed <:+ drawn (run ram d e t).bus.issued := by
    rw [← run_issued hquiet k hk]
    exact drawn_suffix (performed_suffix _)
  have hless : drawn (run ram d e t).bus.issued <:+ drawn (run ram d e (t + k)).bus.performed := by
    rw [← run_issued hquiet j (by omega), ← hmade, show t + k = t + j + (k - j) by omega]
    exact drawn_suffix (run_performed_suffix (t + j) (k - j))
  exact hmore.eq_of_length_le hless.length_le

/-- **From the processor to the screen.** The processor has begun the stores of `N` rounds by clock `t` and then
waits, in `delay` with two clocks or more for each round of its countdown; what it loads and fetches, how long
the other slaves keep it and when the bus leaves reset are arbitrary. While it waits every pixel is drawn and
shows its byte of what the game has left. But for the first four pixels, the head's square is white during a
game from the first move on, and all is black but the squares of the snake and of the food; after a game only
the letters are white. -/
theorem run_picture {cb : CallbackAddresses} {inp : Inputs} {mem : ByteMemory 32} (hin : inp.Within 1 30)
    {N : Nat} {memset : Write → List Store}
    (hmemset : ∀ w ∈ (mainLoop (mainDriver cb) inp mem N).log, Fills w (memset w)) (hram : HoldsBytes ram mem)
    (hissued : (drawn (run ram d e t).bus.issued).reverse =
      storesOf memset (mainLoop (mainDriver cb) inp mem N).log)
    (hquiet : Quiet ram d e t W) (hwait : 2 * delay 200 ≤ W) {r c : Nat} (hr : r ≤ 511) (hc : c ≤ 511) :
    ∃ n, t < n ∧ n ≤ t + W ∧ rasterRow n = 256 + r ∧ rasterColumn n = 320 + c ∧
      (run ram d e (n + 1)).display.draw.Shows
        ((mainLoop (mainDriver cb) inp mem N).game.state.mem (seenByte n r c)) ∧
      (4 ≤ 512 * r + c →
        (∀ m, (mainLoop (mainDriver cb) inp mem N).game = .running m →
          (1 ≤ m.moves → Square (m.snake.slot 0) r c → (run ram d e (n + 1)).display.draw.Shows 0xFF) ∧
          ((∀ i < m.snake.length, ¬ Square (m.snake.slot i) r c) → ¬ Square m.currentFood r c →
            (run ram d e (n + 1)).display.draw.Shows 0)) ∧
        (∀ message m, (mainLoop (mainDriver cb) inp mem N).game = .returned message m →
          ((∃ i < 96, Square (gameOverPoint i) r c) → (run ram d e (n + 1)).display.draw.Shows 0xFF) ∧
          ((∀ i < 96, ¬ Square (gameOverPoint i) r c) → (run ram d e (n + 1)).display.draw.Shows 0))) := by
  have hrounds : delay 200 = 900000 := delay_eq (by decide) (by decide)
  obtain ⟨j, hj, hsent⟩ := run_sent hquiet (by omega)
  obtain ⟨n, hlo, hhi, hpixel⟩ := raster_visits (t + j) hr hc
  obtain ⟨k, rfl⟩ : ∃ k, n = t + k + 1 := ⟨n - t - 1, by omega⟩
  have hshows := main_pixel hin hmemset hram ((hsent k (by omega) (by omega)).trans hissued) hr hc hpixel
  rw [run_dualPort] at hshows
  exact ⟨t + k + 1, by omega, by omega, hpixel.1, hpixel.2, hshows, game_shown hin hr hc hshows⟩

end

/-! ## Stores four clocks apart -/

def spaced (l : List Store) (k : Nat) : BusEvent :=
  ⟨if k % 4 = 0 then (l[k / 4]?).map (⟨true, ·⟩) else none, none, true, true, true⟩

theorem clock_none {s : Bus} {e : BusEvent} (hread : s.dRead = false) (hnone : e.access = none) :
    (s.clock e).dRead = false ∧ (s.clock e).issued = s.issued ∧ (s.dWrite = false → (s.clock e).dWrite = false) := by
  cases hwrite : s.dWrite with
  | true =>
    obtain ⟨hr, _, _, hissued⟩ := Bus.clock_busy (s := s) (e := e) (by rw [hwrite, Bool.or_true])
    exact ⟨by rw [hr, hread, Bool.false_and], hissued, fun h => by cases h⟩
  | false =>
    obtain ⟨hr, hw, _, hissued⟩ := Bus.clock_idle (s := s) (e := e) (by rw [hread, hwrite, Bool.or_false])
    rw [hr, hw, hissued, hnone]
    exact ⟨rfl, rfl, fun _ => rfl⟩

section
variable {ram : BitVec 17 → U32}

theorem run_none {e : Nat → BusEvent} {n : Nat} (hread : (Bus.run ram e n).dRead = false) :
    ∀ k, (∀ j < k, (e (n + j)).access = none) → (Bus.run ram e (n + k)).dRead = false ∧
      (Bus.run ram e (n + k)).issued = (Bus.run ram e n).issued ∧
      ((Bus.run ram e n).dWrite = false → (Bus.run ram e (n + k)).dWrite = false)
  | 0, _ => ⟨hread, rfl, id⟩
  | k + 1, hnone => by
    obtain ⟨hr, hissued, hw⟩ := run_none hread k fun j hj => hnone j (Nat.lt_succ_of_lt hj)
    obtain ⟨hr', hissued', hw'⟩ := clock_none hr (hnone k (Nat.lt_succ_self k))
    exact ⟨hr', hissued'.trans hissued, fun h => hw' (hw h)⟩

/-- Every store has ended when the next one begins. -/
theorem run_spaced {l : List Store} (hl : ∀ s ∈ l, Routed s.bus.dAddress .frameBuffer) : ∀ i ≤ l.length,
    (Bus.run ram (spaced l) (4 * i)).dRead = false ∧ (Bus.run ram (spaced l) (4 * i)).dWrite = false ∧
      (Bus.run ram (spaced l) (4 * i)).issued = (l.take i).reverse
  | 0, _ => ⟨rfl, rfl, rfl⟩
  | i + 1, hi => by
    obtain ⟨hread, hwrite, hissued⟩ := run_spaced hl i (Nat.le_of_succ_le hi)
    have haccess : (spaced l (4 * i)).access = some ⟨true, l[i]⟩ := by
      simp [spaced, show 4 * i % 4 = 0 by omega, show 4 * i / 4 = i by omega, List.getElem?_eq_getElem hi]
    have hrest : ∀ j < 3, (spaced l (4 * i + 1 + j)).access = none := fun j hj =>
      if_neg (show ¬ (4 * i + 1 + j) % 4 = 0 by omega)
    obtain ⟨hr, hw, hbus, hissued'⟩ := Bus.clock_idle (s := Bus.run ram (spaced l) (4 * i)) (e := spaced l (4 * i))
      (by rw [hread, hwrite, Bool.or_false])
    rw [haccess] at hr hw hbus hissued'
    have hrouted : (Bus.run ram (spaced l) (4 * i + 1)).routed = true := by
      rw [Bus.routed, Bus.run, hbus]
      exact decide_eq_true (hl _ (List.getElem_mem hi))
    have hbegun : (Bus.run ram (spaced l) (4 * i + 1)).dRead = false := hr
    obtain ⟨hr', hissued'', _⟩ := run_none hbegun 3 hrest
    refine ⟨hr', ?_, ?_⟩
    · obtain ⟨j, hj, hends⟩ := Bus.run_ends (n := 4 * i + 1) hw hrouted
      have hstays := run_none (n := 4 * i + 1 + j)
        (run_none hbegun j fun k hk => hrest k (Nat.lt_of_lt_of_le hk hj)).1 (3 - j)
        (fun k hk => by
          rw [Nat.add_assoc]
          exact hrest (j + k) (by omega))
      have hend := hstays.2.2 hends
      rwa [show 4 * i + 1 + j + (3 - j) = 4 * (i + 1) by omega] at hend
    · rw [show 4 * (i + 1) = 4 * i + 1 + 3 by omega, hissued'', List.take_succ_eq_append_getElem hi,
        List.reverse_append, ← hissued]
      exact hissued'

end

theorem run_picture_meal :
    let stores := storesOf byteStores (mainLoop (mainDriver someAddresses) mealInputs (fun _ => 0) 1).log
    ∃ n, 4 * stores.length < n ∧ n ≤ 4 * stores.length + 2 * delay 200 ∧ rasterRow n = 256 + 272 ∧
      rasterColumn n = 320 + 252 ∧ (run (fun _ => 0) 0 (spaced stores) (n + 1)).display.draw.Shows 0xFF := by
  intro stores
  have hin : mealInputs.Within 1 30 := Inputs.ofLists_within (by decide) (by decide)
  have hl : ∀ s ∈ stores, Routed s.bus.dAddress .frameBuffer := fun s hs =>
    (storesOf_near hin 1 meal_fills s hs).routed.1
  have hissued : (drawn (run (fun _ => 0) 0 (spaced stores) (4 * stores.length)).bus.issued).reverse = stores := by
    have hbegun : (Bus.run (fun _ => 0) (spaced stores) (4 * stores.length)).issued =
        (stores.take stores.length).reverse := (run_spaced hl stores.length (Nat.le_refl _)).2.2
    rw [run_bus, Nat.sub_zero]
    simp only [Nat.zero_add]
    rw [hbegun, List.take_length, drawn, List.filter_reverse, List.reverse_reverse, List.filter_eq_self]
    simpa using hl
  have hquiet : Quiet (fun _ => 0) 0 (spaced stores) (4 * stores.length) (2 * delay 200) := by
    intro k hk _ i hi
    have hnone : (spaced stores k).access = none := by
      simp [spaced, List.getElem?_eq_none (show stores.length ≤ k / 4 by omega)]
    simp [Bus.begins, hnone] at hi
  obtain ⟨n, hlo, hhi, hrow, hcolumn, _, hgame⟩ := run_picture hin meal_fills blank_holds hissued hquiet
    (Nat.le_refl _) (show 272 ≤ 511 by decide) (show 252 ≤ 511 by decide)
  refine ⟨n, hlo, hhi, hrow, hcolumn, ?_⟩
  obtain ⟨m, hg, hmoves, hhead⟩ := meal_head
  exact ((hgame (by decide)).1 m hg).1 hmoves hhead

end NiosDisplay

end NiosSnake
