import NiosSnake.Machine

/-!
# The driver that `main` sets up

`main.c`: the driver's constants, the random numbers it hands out, and the
score register it writes.
-/

namespace NiosSnake

def frameBufferBase : U32 := 0x80000

/-- Where the linker put the five callbacks. -/
structure CallbackAddresses where
  delay : U32
  displayFlush : U32
  displayScore : U32
  rnd : U32
  readDirection : U32
  nonnull : delay ≠ 0 ∧ displayFlush ≠ 0 ∧ displayScore ≠ 0 ∧ rnd ≠ 0 ∧ readDirection ≠ 0

def mainDriver (cb : CallbackAddresses) : SnakeDriver where
  resolution := 512
  frameBuffer := frameBufferBase
  snakeLength := 32
  backgroundColor := 0x00
  foodColor := 0x5A
  snakeColor := 0xFF
  delayFunctionCb := cb.delay
  displayFrameCb := cb.displayFlush
  displayScoreCb := cb.displayScore
  readDirectionCb := cb.readDirection
  randomNumberCb := cb.rnd

@[simp] theorem mainDriver_resolution (cb : CallbackAddresses) : (mainDriver cb).resolution.toNat = 512 := rfl
@[simp] theorem mainDriver_snakeLength (cb : CallbackAddresses) : (mainDriver cb).snakeLength.toNat = 32 := rfl

def someAddresses : CallbackAddresses := ⟨4, 8, 12, 16, 20, by decide⟩

def rnd (rand : Nat) : U8 := BitVec.ofNat 8 (rand % 30 + 1)

def Inputs.Within (inp : Inputs) (lo hi : Nat) : Prop :=
  ∀ k, lo ≤ (inp.randomNumber k).toNat ∧ (inp.randomNumber k).toNat ≤ hi

theorem rnd_within (readDirection : Nat → Direction) (rand : Nat → Nat) :
    (Inputs.mk readDirection fun k => rnd (rand k)).Within 1 30 := by
  intro k
  simp only [rnd, BitVec.toNat_ofNat]
  omega

/-- A list of requests and random numbers; up and 1 when it is used up. -/
def Inputs.ofLists (directions : List Direction) (randoms : List U8) : Inputs where
  readDirection k := directions.getD k .up
  randomNumber k := randoms.getD k 1

theorem Inputs.ofLists_within {directions : List Direction} {randoms : List U8} {lo hi : Nat}
    (h1 : lo ≤ 1 ∧ 1 ≤ hi) (h : ∀ v ∈ randoms, lo ≤ v.toNat ∧ v.toNat ≤ hi) :
    (Inputs.ofLists directions randoms).Within lo hi := by
  intro k
  simp only [Inputs.ofLists, List.getD_eq_getElem?_getD]
  cases hk : randoms[k]? with
  | none => exact h1
  | some v => exact h v (List.mem_of_getElem? hk)

end NiosSnake
