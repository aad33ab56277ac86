import NiosSnake.Calls
import NiosSnake.Screen
import NiosSnake.WordMemory
import NiosSnake.DrawPixel

/-!
# Byte order

The processor writes the frame buffer byte by byte and the display reads it in
words, most significant byte first. For resolutions of whole 256s every tile row
starts and ends at a word boundary, wherever the tile lies, so every word of the
buffer has four equal bytes once the buffer has been filled.
-/

namespace NiosSnake

open ByteMemory Paint

/-- The resolution is a positive multiple of 256 and the frame buffer starts at a word. -/
structure WordDriver (d : SnakeDriver) : Prop where
  pos : 0 < d.resolution.toNat
  whole : 256 ∣ d.resolution.toNat
  le : d.resolution.toNat ≤ 32768
  aligned : 4 ∣ d.frameBuffer.toNat

def WordsUniform (d : SnakeDriver) (mem : ByteMemory 32) : Prop :=
  ∀ o, 4 ∣ o → o < bufferSize d → Uniform 4 mem (d.frameBuffer + BitVec.ofNat 32 o)

section
variable {d : SnakeDriver} (hd : WordDriver d)
include hd

theorem WordDriver.res : Res d := by
  obtain ⟨hpos, hwhole, hle, _⟩ := hd
  exact ⟨Nat.le_trans (by decide) (Nat.le_of_dvd hpos hwhole), hle⟩

theorem WordDriver.aligned_sizes : 4 ∣ (squareSize d).toNat ∧ 4 ∣ (squareDiameter d).toNat := by
  obtain ⟨k, hk⟩ := hd.whole
  rw [squareSize_toNat, squareDiameter_toNat, tileSize, hk]
  omega

theorem WordDriver.aligned_tileStart (p : Point) : Aligned 4 (tileStart d p) := by
  obtain ⟨hs, hh⟩ := hd.aligned_sizes
  have h4 : 4 ∣ 2 ^ 32 := by decide
  exact (Aligned.add h4 hd.aligned ((Aligned.mul_left h4 _ hs).sub h4 hh)).add h4 (Aligned.mul_left h4 _ hs)

theorem WordDriver.tile_word (p : Point) {b : U32} (hb : Aligned 4 b) :
    ∀ j < 4, Tile d p (b + BitVec.ofNat 32 j) ↔ Tile d p b := by
  intro j hj
  have h4 : 4 ∣ 2 ^ 32 := by decide
  have hres : Aligned 4 d.resolution := Nat.dvd_trans (by decide) hd.whole
  refine exists_congr fun i => and_congr_right fun _ => ?_
  exact within_word h4 ((hd.aligned_tileStart p).add h4 (Aligned.mul_left h4 _ hres)) hb hd.aligned_sizes.1 hj

theorem WordDriver.letters_word {b : U32} (hb : Aligned 4 b) :
    ∀ j < 4, Letters d (b + BitVec.ofNat 32 j) ↔ Letters d b :=
  fun j hj => exists_congr fun _ => and_congr_right fun _ => hd.tile_word _ hb j hj

theorem WordDriver.buffer_word {b : U32} (hb : Aligned 4 b) :
    ∀ j < 4, Within d.frameBuffer (d.resolution * d.resolution).toNat (b + BitVec.ofNat 32 j) ↔
      Within d.frameBuffer (d.resolution * d.resolution).toNat b := by
  intro j hj
  have h4 : 4 ∣ 2 ^ 32 := by decide
  have hres : Aligned 4 d.resolution := Nat.dvd_trans (by decide) hd.whole
  exact within_word h4 hd.aligned hb (Aligned.mul_left h4 _ hres) hj

theorem WordDriver.word_aligned {o : Nat} (ho : 4 ∣ o) : Aligned 4 (d.frameBuffer + BitVec.ofNat 32 o) :=
  Aligned.add (by decide) hd.aligned (aligned_ofNat (by decide) ho)

/-! ## What drawing keeps -/

theorem WordsUniform.painted {mem mem' : ByteMemory 32} {p : Point} {c : U8} (h : WordsUniform d mem)
    (hp : Painted (Tile d) mem mem' p c) : WordsUniform d mem' :=
  fun o ho hlt => (h o ho hlt).painted hp (hd.tile_word p (hd.word_aligned ho))

theorem fillBuffer_uniform (c : U8) (m : Machine) : WordsUniform d (fillBuffer d c m).mem := by
  intro o ho hlt
  have hsize := bufferSize_lt hd.res
  refine uniform_of_painted (fillBuffer_painted d c m) (hd.buffer_word (hd.word_aligned ho)) ?_
  rw [fill_within hd.res, offset_add d (by omega)]
  exact hlt

theorem drawGameOver_uniform (m : Machine) : WordsUniform d (drawGameOver d m).mem :=
  fun o ho hlt => (fillBuffer_uniform hd d.backgroundColor m o ho hlt).painted (drawGameOver_painted d m)
    (hd.letters_word (hd.word_aligned ho))

/-! ## Along a run -/

structure UniformInv (d : SnakeDriver) (m : Machine) : Prop where
  mem : WordsUniform d m.mem
  calls : ∃ new old, m.calls = new ++ old ∧ old.length = 2 ∧ ∀ c ∈ new, WordsUniform d c.state.mem

theorem openGame_uniform (inp : Inputs) (mem : ByteMemory 32) : UniformInv d (openGame d inp mem) := by
  constructor
  · refine (fillBuffer_uniform hd d.backgroundColor (drawFood inp (entry mem))).painted hd (p := drawAt inp 0)
      (c := d.foodColor) ?_
    exact drawSquare_painted d (drawAt inp 0) d.foodColor _
  · obtain ⟨s, s', hcalls⟩ := openGame_calls d inp mem
    exact ⟨[], (openGame d inp mem).calls, rfl, by rw [hcalls]; rfl, by simp⟩

omit hd in
theorem UniformInv.add {m m' : Machine} (h : UniformInv d m) (new : List Call) (hcalls : m'.calls = new ++ m.calls)
    (hnew : ∀ c ∈ new, WordsUniform d c.state.mem) (hmem : WordsUniform d m'.mem) : UniformInv d m' := by
  obtain ⟨recent, old, hold, hlen, hrecent⟩ := h.calls
  refine ⟨hmem, new ++ recent, old, by rw [hcalls, hold, List.append_assoc], hlen, ?_⟩
  intro c hc
  rcases List.mem_append.mp hc with hc | hc
  · exact hnew c hc
  · exact hrecent c hc

section
variable {m : Machine} (h : UniformInv d m)
include h

omit hd in
theorem afterMove_uniform (inp : Inputs) : UniformInv d (afterMove inp m) := by
  refine h.add [_] (afterMove_calls inp m) ?_ ?_
  · simpa using h.mem
  · rw [afterMove_mem]
    exact h.mem

theorem grow_uniform : UniformInv d (grow d m) :=
  h.add [] (grow_calls d m) (by simp) (h.mem.painted hd (grow_painted d m))

theorem respawn_uniform (inp : Inputs) : UniformInv d (respawn d inp m) := by
  obtain ⟨new, hnew, hstate⟩ := respawn_calls d inp m
  refine h.add new hnew ?_ (h.mem.painted hd (respawn_painted d inp m))
  intro c hc
  rw [(hstate c hc).2]
  exact h.mem

theorem presentFrame_uniform : UniformInv d (presentFrame d m) := by
  obtain ⟨mem, herase, hhead⟩ := presentFrame_painted d m
  have hmem := (h.mem.painted hd herase).painted hd hhead
  exact h.add [_, _, _] (presentFrame_calls d m) (by simp [hmem]) hmem

theorem endGame_uniform : UniformInv d (endGame d m) := by
  have hmem := drawGameOver_uniform hd m
  exact h.add [_] (endGame_calls d m) (by simp [hmem]) hmem

theorem loopBody_uniform (inp : Inputs) : UniformInv d (loopBody d inp m).state := by
  have hmoved := afterMove_uniform h inp
  rcases loopBody_cases d inp m with ⟨_, hr⟩ | ⟨_, _, _, hr⟩ | ⟨_, _, _, hr⟩ | ⟨_, _, hr⟩ <;> rw [hr]
  · exact endGame_uniform hd hmoved
  · exact endGame_uniform hd (grow_uniform hd hmoved)
  · exact presentFrame_uniform hd (respawn_uniform hd (grow_uniform hd hmoved) inp)
  · exact presentFrame_uniform hd hmoved

end

theorem run_uniform {inp : Inputs} {mem : ByteMemory 32} :
    ∀ n m, snakePlay d inp mem n = .running m → UniformInv d m := by
  refine Outcome.running_invariant (fun _ m => UniformInv d m) ?_ ?_
  · intro m hm
    rw [startPlay_running hm]
    exact openGame_uniform hd inp mem
  · intro n m m' _ h hs
    have hround := loopBody_uniform hd h inp
    rwa [hs] at hround

/-- **Byte order does not matter**: at every call after the buffer was filled, the four bytes of each
word of the buffer are equal, and the display unpacks the word the processor wrote to the same pixels
in the same order. -/
theorem byte_orders_agree (inp : Inputs) (mem : ByteMemory 32) (n : Nat) :
    ∀ c ∈ (snakePlay d inp mem n).state.calls.take ((snakePlay d inp mem n).state.calls.length - 2),
      ∀ o, o % 4 = 0 → o < bufferSize d → ∀ k < 4,
        c.state.mem (d.frameBuffer + BitVec.ofNat 32 o + BitVec.ofNat 32 k) =
            c.state.mem (d.frameBuffer + BitVec.ofNat 32 o) ∧
          ∀ (s : DrawPixel) (addr : Nat), s.count = k →
            (s.countCase (word c.state.mem (d.frameBuffer + BitVec.ofNat 32 o)) addr).Shows
              (c.state.mem (d.frameBuffer + BitVec.ofNat 32 o + BitVec.ofNat 32 k)) := by
  have hinv : (snakePlay d inp mem n).state.calls = [] ∨ UniformInv d (snakePlay d inp mem n).state := by
    refine Outcome.state_invariant (fun m => m.calls = [] ∨ UniformInv d m) ?_ ?_ n
    · rcases startPlay_cases d inp mem with hs | ⟨message, hs⟩
      · rw [hs]
        exact Or.inr (openGame_uniform hd inp mem)
      · rw [hs]
        exact Or.inl rfl
    · exact fun k m hr _ => Or.inr (loopBody_uniform hd (run_uniform hd k m hr) inp)
  intro c hc o ho hlt k hk
  have huniform : WordsUniform d c.state.mem := by
    rcases hinv with hnil | hinv
    · simp [hnil] at hc
    · obtain ⟨new, old, hcalls, hlen, hnew⟩ := hinv.calls
      rw [hcalls, List.length_append, hlen, Nat.add_sub_cancel, List.take_left] at hc
      exact hnew c hc
  have hword := huniform o (Nat.dvd_of_mod_eq_zero ho) hlt
  refine ⟨hword k hk, fun s addr hs => ?_⟩
  subst hs
  rw [← hword.orders_agree hk]
  exact DrawPixel.countCase_colour _ _ s (by omega)

end

theorem byte_orders_agree_edge :
    (snakePlay (mainDriver someAddresses) edgeInputs (fun _ => 0) 16).state.calls.length = 66 ∧
      ∀ c ∈ (snakePlay (mainDriver someAddresses) edgeInputs (fun _ => 0) 16).state.calls.take
          ((snakePlay (mainDriver someAddresses) edgeInputs (fun _ => 0) 16).state.calls.length - 2),
        ∀ o, o % 4 = 0 → o < bufferSize (mainDriver someAddresses) → ∀ k < 4,
          c.state.mem (frameBufferBase + BitVec.ofNat 32 o + BitVec.ofNat 32 k) =
              c.state.mem (frameBufferBase + BitVec.ofNat 32 o) ∧
            ∀ (s : DrawPixel) (addr : Nat), s.count = k →
              (s.countCase (word c.state.mem (frameBufferBase + BitVec.ofNat 32 o)) addr).Shows
                (c.state.mem (frameBufferBase + BitVec.ofNat 32 o + BitVec.ofNat 32 k)) :=
  ⟨by decide +kernel, byte_orders_agree ⟨by decide, by decide, by decide, by decide⟩ edgeInputs _ 16⟩

end NiosSnake
