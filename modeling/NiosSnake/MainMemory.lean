import NiosSnake.MainLoop
import NiosSnake.StorePath

/-!
# The stores of `main`

The memory is what the log of fills makes of it, from the first game on. Every fill
lies in the frame buffer or, for the tile of an empty slot, in the eight bytes
before it; the decoder sends these to the frame buffer too, past the end of its
memory. So the memory behind the frame buffer holds what the program has drawn,
and no other slave sees a byte of it.
-/

namespace NiosSnake

open ByteMemory

/-! ## The log replayed -/

def replay (mem : ByteMemory 32) (writes : List Write) : ByteMemory 32 :=
  writes.foldr (fun w mem => mem.memset w.start w.color w.count) mem

theorem replay_append (mem : ByteMemory 32) (new old : List Write) :
    replay mem (new ++ old) = replay (replay mem old) new := List.foldr_append ..

def Replays (mem : ByteMemory 32) (m : Machine) : Prop := m.mem = replay mem m.writes

section
variable {d : SnakeDriver} {inp : Inputs} {mem : ByteMemory 32} {m : Machine}

theorem Replays.memset (h : Replays mem m) (start : U32) (c : U8) (n : Nat) : Replays mem (m.memset start c n) := by
  rw [Replays, Machine.memset, h]
  rfl

theorem Replays.drawRows (c : U8) : ∀ (n : Nat) (start : U32) {m : Machine}, Replays mem m →
    Replays mem (drawRows d c n start m)
  | 0, _, _, h => h
  | n + 1, start, _, h => Replays.drawRows c n (start + d.resolution) (h.memset ..)

theorem Replays.drawSquare (h : Replays mem m) (p : Point) (c : U8) : Replays mem (drawSquare d p c m) :=
  Replays.drawRows c _ _ h

theorem Replays.drawGameOver (h : Replays mem m) : Replays mem (drawGameOver d m) := by
  have hfold : ∀ (l : List Nat) {m : Machine}, Replays mem m →
      Replays mem (l.foldl (fun m i => NiosSnake.drawSquare d (gameOverPoint i) d.snakeColor m) m) := by
    intro l
    induction l with
    | nil => exact fun h => h
    | cons i l ih => exact fun h => ih (h.drawSquare _ _)
  exact hfold _ (h.memset ..)

theorem Replays.afterMove (h : Replays mem m) : Replays mem (afterMove inp m) := by
  rw [Replays, afterMove_mem, afterMove_writes]
  exact h

theorem Replays.grow (h : Replays mem m) : Replays mem (grow d m) := by
  refine Replays.drawSquare ?_ _ _
  exact h

theorem Replays.respawn (h : Replays mem m) : Replays mem (respawn d inp m) := by
  have hplaced : Replays mem (placementLoop inp false (drawFood inp m)) ↔ Replays mem m :=
    Iff.of_eq (placementLoop_cases inp m (Replays mem) fun _ _ => rfl)
  exact (hplaced.mpr h).drawSquare _ _

theorem Replays.presentFrame (h : Replays mem m) : Replays mem (presentFrame d m) := by
  have herased : Replays mem (NiosSnake.drawSquare d (m.snake.slot m.snake.length) d.backgroundColor
      (m.access m.snake.length)) := by
    refine Replays.drawSquare ?_ _ _
    exact h
  have hdrawn : Replays mem (NiosSnake.drawSquare d (m.snake.slot 0) d.snakeColor
      ((NiosSnake.drawSquare d (m.snake.slot m.snake.length) d.backgroundColor
        (m.access m.snake.length)).access 0)) := by
    refine Replays.drawSquare ?_ _ _
    exact herased
  simpa [NiosSnake.presentFrame, Machine.access, Machine.call, Replays] using hdrawn

theorem Replays.endGame (h : Replays mem m) : Replays mem (endGame d m) := h.drawGameOver

theorem Replays.loopBody (h : Replays mem m) : Replays mem (loopBody d inp m).state := by
  rcases loopBody_cases d inp m with ⟨_, hr⟩ | ⟨_, _, _, hr⟩ | ⟨_, _, _, hr⟩ | ⟨_, _, hr⟩ <;> rw [hr]
  · exact h.afterMove.endGame
  · exact h.afterMove.grow.endGame
  · exact h.afterMove.grow.respawn.presentFrame
  · exact h.afterMove.presentFrame

theorem startPlay_replays : Replays mem (startPlay d inp mem).state := by
  rcases startPlay_cases d inp mem with hs | ⟨message, hs⟩ <;> rw [hs]
  · exact Replays.drawSquare (Replays.memset (m := drawFood inp (entry mem)) rfl ..) _ _
  · rfl

end

/-! ## What is written -/

structure DrawLaw (d : SnakeDriver) (P : U32 → Prop) : Prop where
  fill : ∀ a, Within d.frameBuffer (d.resolution * d.resolution).toNat a → P a
  board : ∀ p, OnBoard p → ∀ a, Tile d p a → P a
  empty : ∀ a, Tile d .zero a → P a

section
variable {d : SnakeDriver} {inp : Inputs} {mem : ByteMemory 32} {P : U32 → Prop} (hP : DrawLaw d P)
include hP

theorem DrawLaw.foodLaw : FoodLaw d P where
  fill := hP.fill
  food p hp := hP.board p hp.onBoard

theorem DrawLaw.slot {p : Point} (h : p = .zero ∨ OnBoard p) : ∀ a, Tile d p a → P a := by
  rcases h with rfl | h
  · exact hP.empty
  · exact hP.board p h

theorem DrawLaw.loopBody (hin : inp.Within 1 30) (h33 : d.snakeLength.toNat ≤ 33) {m : Machine}
    (hi : BodyInv d m.toState) (h : ∀ a, m.Wrote a → P a) : ∀ a, (loopBody d inp m).state.Wrote a → P a := by
  have hb := hi.below
  have hhead : ∀ a, Tile d (nextHead inp m.toState) a → P a := hP.board _ hi.nextHead_onBoard
  rcases loopBody_cases d inp m with ⟨_, hr⟩ | ⟨_, _, _, hr⟩ | ⟨_, _, h₃, hr⟩ | ⟨_, _, hr⟩ <;>
    rw [hr] <;> simp only [Outcome.state]
  · rw [hP.foodLaw.endGame_iff]
    simpa only [afterMove_wrote] using h
  · rw [hP.foodLaw.endGame_iff]
    simp only [grow_wrote, afterMove_wrote, afterMove_snake, movedSnake_slot_zero, or_imp, forall_and]
    exact ⟨hhead, h⟩
  · have hgrown := hi.length_of_not_wins h₃
    have hfood := hP.board _ (eatRound_foodCell (d := d) hin (show m.snake.length ≤ 32 by omega)).onBoard
    simp only [eatRound_wrote d inp m (show m.snake.length ≤ 254 by omega), or_imp, forall_and]
    exact ⟨hhead, hP.slot (movedSnake_all_slots hi _), hfood, h⟩
  · simp only [walkRound_wrote, or_imp, forall_and]
    exact ⟨hhead, hP.slot (movedSnake_all_slots hi _), h⟩

end

/-! ## The driver of `main` -/

def NearSpan (a : U32) : Prop := 524280 ≤ a.toNat ∧ a.toNat < 524288 + frameBufferSpan

theorem InSpan.near {a : U32} (h : InSpan a) : NearSpan a := by
  have hbase : frameBufferBase.toNat = 524288 := rfl
  unfold InSpan at h
  unfold NearSpan
  omega

section
variable (cb : CallbackAddresses)

theorem mainDriver_near : DrawLaw (mainDriver cb) NearSpan where
  fill a ha := ((mainDriver_span cb).fill a ha).near
  board p hp a ha := ((mainDriver_span cb).board p hp a ha).near
  empty a ha := by
    have hS := mainDriver_tileSize cb
    have hres := mainDriver_resolution cb
    have hoffset : offset (mainDriver cb) a = (2 ^ 32 - 524288 + a.toNat) % 2 ^ 32 :=
      BitVec.toNat_sub a frameBufferBase
    have hspan : frameBufferSpan = 282144 := rfl
    unfold NearSpan
    rcases tile_zero_offset (mainDriver_res cb) ha with hbefore | hfirst
    · omega
    · rw [hS, hres] at hfirst
      omega

end

theorem NearSpan.routed {a : U32} (h : NearSpan a) : Routed (a.setWidth 21) .frameBuffer ∧ Plain a := by
  have hspan : frameBufferSpan = 282144 := rfl
  obtain ⟨hlo, hhi⟩ := h
  have hlow : (a.setWidth 21).toNat = a.toNat := by
    rw [BitVec.toNat_setWidth, Nat.mod_eq_of_lt (by omega)]
  rcases Nat.lt_or_ge a.toNat 524288 with hlt | hge
  · have hnone : ∀ s : Slave, ¬ s.Range (a.setWidth 21) := by
      intro s hs
      cases s <;> simp only [Slave.Range, Slave.rule, hlow] at hs <;> omega
    refine ⟨decode_default hnone, by omega, fun _ => .inr ?_⟩
    rw [avAddress_toNat, hlow, frameBufferWords]
    omega
  · have hin : Slave.Range .frameBuffer (a.setWidth 21) := by
      simp only [Slave.Range, Slave.rule, hlow]
      omega
    exact ⟨decode_of_range hin, by omega, fun _ => .inl hin⟩

def MainState.log (s : MainState) : List Write := s.game.state.writes ++ s.writes

section
variable {cb : CallbackAddresses} {inp : Inputs} {mem : ByteMemory 32}

theorem mainLoop_replays (d : SnakeDriver) (n : Nat) :
    Replays (replay mem (mainLoop d inp mem n).writes) (mainLoop d inp mem n).game.state := by
  induction n with
  | zero => exact startPlay_replays
  | succ n ih =>
    cases hg : (mainLoop d inp mem n).game with
    | running m =>
      rw [mainLoop_running hg]
      rw [hg] at ih
      exact Replays.loopBody ih
    | returned message m =>
      rw [mainLoop_returned hg]
      rw [hg] at ih
      have hmem : m.mem = replay (replay mem (mainLoop d inp mem n).writes) m.writes := ih
      dsimp only
      rw [replay_append, ← hmem]
      exact startPlay_replays

theorem mainLoop_near (hin : inp.Within 1 30) (n : Nat) :
    ∀ a, (mainLoop (mainDriver cb) inp mem n).Wrote a → NearSpan a := by
  have hP := mainDriver_near cb
  induction n with
  | zero =>
    rintro a ⟨w, hw, hwa⟩
    exact hP.foodLaw.startPlay (hin.drop 0 0) mem a ⟨w, by simpa [mainLoop] using hw, hwa⟩
  | succ n ih =>
    simp only [wrote_iff, or_imp, forall_and] at ih
    cases hg : (mainLoop (mainDriver cb) inp mem n).game with
    | running m =>
      obtain ⟨mem', hrun⟩ := mainLoop_round hg
      rw [mainLoop_running hg]
      rw [hg] at ih
      simp only [wrote_iff, or_imp, forall_and]
      exact ⟨hP.loopBody (hin.drop _ _) (by simp) (run_bodyInv (by simp) (by simp) _ m hrun) ih.1, ih.2⟩
    | returned message m =>
      have hin' : (inp.drop ((mainLoop (mainDriver cb) inp mem n).draws + m.draws)
        ((mainLoop (mainDriver cb) inp mem n).moves + m.moves)).Within 1 30 := hin.drop _ _
      have hstart := hP.foodLaw.startPlay hin' m.mem
      rw [mainLoop_returned hg]
      rw [hg] at ih
      simp only [wrote_iff, List.mem_append, or_and_right, exists_or, or_imp, forall_and]
      exact ⟨hstart, ih⟩

/-- What `memset` of the C library does when it executes `stores`: it fills the range, and stores nothing
outside of it. -/
structure Fills (w : Write) (stores : List Store) : Prop where
  effect : ∀ mem : ByteMemory 32, stores.foldl Store.perform mem = mem.memset w.start w.color w.count
  inside : ∀ s ∈ stores, Within w.start w.count s.address

def storesOf (memset : Write → List Store) (writes : List Write) : List Store := writes.reverse.flatMap memset

theorem storesOf_perform {memset : Write → List Store} (mem : ByteMemory 32) : ∀ {writes : List Write},
    (∀ w ∈ writes, Fills w (memset w)) → (storesOf memset writes).foldl Store.perform mem = replay mem writes
  | [], _ => rfl
  | w :: writes, h => by
    have hold : (storesOf memset writes).foldl Store.perform mem = replay mem writes :=
      storesOf_perform mem fun w hw => h w (List.mem_cons_of_mem _ hw)
    rw [storesOf] at hold ⊢
    rw [List.reverse_cons, List.flatMap_append, List.foldl_append, hold, List.flatMap_singleton,
      (h w List.mem_cons_self).effect]
    rfl

section
variable (hin : inp.Within 1 30) (n : Nat) {memset : Write → List Store}
variable (hmemset : ∀ w ∈ (mainLoop (mainDriver cb) inp mem n).log, Fills w (memset w))
include hmemset

theorem mainLoop_mem : (mainLoop (mainDriver cb) inp mem n).game.state.mem =
    (storesOf memset (mainLoop (mainDriver cb) inp mem n).log).foldl Store.perform mem := by
  rw [storesOf_perform mem hmemset, MainState.log, replay_append]
  exact mainLoop_replays (mainDriver cb) n

include hin

theorem storesOf_near : ∀ s ∈ storesOf memset (mainLoop (mainDriver cb) inp mem n).log, NearSpan s.address := by
  intro s hs
  obtain ⟨w, hw, hsw⟩ := List.mem_flatMap.mp hs
  have hlog := List.mem_reverse.mp hw
  exact mainLoop_near hin n s.address ⟨w, hlog, (hmemset w hlog).inside s hsw⟩

/-- The memory behind the frame buffer holds what has been drawn. -/
theorem mainLoop_holds {ram : BitVec 17 → U32} (hram : HoldsBytes ram mem) :
    HoldsBytes ((storesOf memset (mainLoop (mainDriver cb) inp mem n).log).foldl Store.send ram)
      (mainLoop (mainDriver cb) inp mem n).game.state.mem := by
  rw [mainLoop_mem n hmemset]
  exact List.foldl_rel hram fun s hs _ _ h => Store.send_holds h (storesOf_near hin n hmemset s hs).routed.2

/-- **The program and the memory behind the frame buffer.** However the library fills memory, after any
number of rounds of any number of games the memory behind the frame buffer holds the bytes the games have
drawn, and every store went to the frame buffer. -/
theorem main_stores {ram : BitVec 17 → U32} (hram : HoldsBytes ram mem) :
    HoldsBytes ((storesOf memset (mainLoop (mainDriver cb) inp mem n).log).foldl Store.send ram)
        (mainLoop (mainDriver cb) inp mem n).game.state.mem ∧
      ∀ s ∈ storesOf memset (mainLoop (mainDriver cb) inp mem n).log,
        Routed s.bus.dAddress .frameBuffer :=
  ⟨mainLoop_holds hin n hmemset hram, fun s hs => (storesOf_near hin n hmemset s hs).routed.1⟩

end

end

/-! ## Filling byte by byte -/

def byteStores (w : Write) : List Store :=
  (List.range w.count).map fun i => ⟨.mem8, w.start + BitVec.ofNat 32 i, w.color.setWidth 32⟩

theorem byteStores_fills {w : Write} (h : w.count ≤ 2 ^ 32) : Fills w (byteStores w) where
  effect mem := by
    have hcolor : (w.color.setWidth 32).extractLsb' 0 8 = w.color := by
      have := w.color.isLt
      apply BitVec.eq_of_toNat_eq
      simp
      omega
    have hbyte : ∀ (mem : ByteMemory 32) (a : U32), Store.perform mem ⟨.mem8, a, w.color.setWidth 32⟩ =
        mem.memset a w.color 1 := fun mem a => (storeUnit_one mem a _).trans (by rw [hcolor])
    rw [byteStores, List.foldl_map]
    simp only [hbyte]
    exact foldl_memset_one w.start w.color h mem
  inside s hs := by
    simp only [byteStores, List.mem_map, List.mem_range] at hs
    obtain ⟨i, hi, rfl⟩ := hs
    rw [Within, BitVec.add_comm, BitVec.add_sub_cancel, BitVec.toNat_ofNat, Nat.mod_eq_of_lt (by omega)]
    exact hi

theorem meal_fills : ∀ w ∈ (mainLoop (mainDriver someAddresses) mealInputs (fun _ => 0) 1).log,
    Fills w (byteStores w) := by
  have hcount : ∀ w ∈ (mainLoop (mainDriver someAddresses) mealInputs (fun _ => 0) 1).log, w.count ≤ 2 ^ 32 := by
    decide +kernel
  exact fun w hw => byteStores_fills (hcount w hw)

/-- The first move of the game eats, and erases before the frame buffer. -/
theorem main_stores_meal :
    HoldsBytes ((storesOf byteStores (mainLoop (mainDriver someAddresses) mealInputs (fun _ => 0) 1).log).foldl
        Store.send fun _ => 0)
        (mainLoop (mainDriver someAddresses) mealInputs (fun _ => 0) 1).game.state.mem ∧
      ∀ s ∈ storesOf byteStores (mainLoop (mainDriver someAddresses) mealInputs (fun _ => 0) 1).log,
        Routed s.bus.dAddress .frameBuffer :=
  main_stores (Inputs.ofLists_within (by decide) (by decide)) 1 meal_fills blank_holds

end NiosSnake
