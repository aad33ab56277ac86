import NiosSnake.AccessCode
import NiosSnake.Types

/-!
# Interrupts

How `main` and the drivers register their handlers with the HAL, and how the processor
and `alt_irq_handler` call them. Interrupts come at any time: between any two accesses
of `alt_ic_isr_register` one of the lines may have gone up, and then the processor
switches interrupts off and looks at what is pending.
-/

namespace NiosSnake

/-! ## The HAL -/

/-- `struct ALT_IRQ_HANDLER`: the addresses of a function, or `NULL`, and of its argument. -/
structure IrqHandler where
  handler : U32
  context : U32
  deriving DecidableEq

/-- What the code of the HAL reads and writes: `status`, of which there is only the bit PIE, `ienable`,
`alt_irq` and `alt_irq_active`. -/
structure IrqState where
  pie : Bool
  ienable : U32
  altIrq : Int → IrqHandler
  altIrqActive : U32

inductive IrqAccess where
  | readStatus
  | writeStatus (src : U32)
  | writeIenable (src : U32)
  | setHandler (id : Int) (isr : U32)
  | setContext (id : Int) (isrContext : U32)
  | readActive
  | writeActive (v : U32)

/-- An access and the value it returns. The processor has three interrupts. -/
def IrqAccess.exec : IrqAccess → IrqState → U32 × IrqState
  | readStatus, s => (if s.pie then 1 else 0, s)
  | writeStatus src, s => (0, { s with pie := src.getLsbD 0 })
  | writeIenable src, s => (0, { s with ienable := src &&& 7 })
  | setHandler id isr, s =>
    (0, { s with altIrq := fun i => if i = id then { s.altIrq id with handler := isr } else s.altIrq i })
  | setContext id isrContext, s =>
    (0, { s with altIrq := fun i => if i = id then { s.altIrq id with context := isrContext } else s.altIrq i })
  | readActive, s => (s.altIrqActive, s)
  | writeActive v, s => (0, { s with altIrqActive := v })

abbrev IrqCode := AccessCode IrqAccess U32

def IrqAccess.code (a : IrqAccess) : IrqCode U32 := .access a .done

open IrqAccess in
def altIrqDisableAll : IrqCode U32 := do
  let context ← readStatus.code
  let _ ← (writeStatus (context &&& ~~~(1 : U32))).code
  return context

def altIrqEnableAll (context : U32) : IrqCode U32 := (IrqAccess.writeStatus context).code

open IrqAccess in
def altIrqEnable (id : U32) : IrqCode Int := do
  let status ← altIrqDisableAll
  let active ← readActive.code
  let _ ← (writeActive (active ||| (1 : U32) <<< id.toNat)).code
  let active ← readActive.code
  let _ ← (writeIenable active).code
  let _ ← altIrqEnableAll status
  return 0

open IrqAccess in
def altIrqDisable (id : U32) : IrqCode Int := do
  let status ← altIrqDisableAll
  let active ← readActive.code
  let _ ← (writeActive (active &&& ~~~((1 : U32) <<< id.toNat))).code
  let active ← readActive.code
  let _ ← (writeIenable active).code
  let _ ← altIrqEnableAll status
  return 0

/-- The arguments of `alt_ic_isr_register` that are used. -/
structure Registration where
  irq : U32
  isr : U32
  isrContext : U32
  deriving DecidableEq

def ALT_NIRQ : Int := 32

def EINVAL : Int := 22

open IrqAccess in
def altIcIsrRegister (r : Registration) : IrqCode Int :=
  let id := r.irq.toInt
  if id < ALT_NIRQ then do
    let status ← altIrqDisableAll
    let _ ← (setHandler id r.isr).code
    let _ ← (setContext id r.isrContext).code
    let rc ← (if r.isr ≠ 0 then altIrqEnable r.irq else altIrqDisable r.irq)
    let _ ← altIrqEnableAll status
    return rc
  else return -EINVAL

/-- The inner loop of `alt_irq_handler`: the number of the first pending interrupt, if it comes to one in
`fuel` rounds. -/
def firstActive (active : U32) : (fuel : Nat) → (mask : U32) → (i : Nat) → Option Nat
  | 0, _, _ => none
  | fuel + 1, mask, i => if active &&& mask ≠ 0 then some i else firstActive active fuel (mask <<< 1) (i + 1)

/-! ## The processor -/

/-- What the processor is at: the program, `alt_exception` up to the test of `ipending`, or `alt_irq_handler`
before it reads `ipending`, the first time or again. It does not come back from an exception that is not an
interrupt, nor from the inner loop when nothing is pending. -/
inductive IrqMode where
  | program
  | exception
  | irqHandler (first : Bool)
  | unknown
  | spinning
  deriving DecidableEq

structure IrqSystem where
  irq : IrqState
  estatus : Bool
  mode : IrqMode
  code : IrqCode Int
  rest : List Registration
  registered : List Registration
  calls : List (Nat × IrqHandler)

structure IrqEvent where
  lines : U32
  runs : Bool

namespace IrqSystem

def pending (s : IrqSystem) (e : IrqEvent) : U32 := e.lines &&& s.irq.ienable &&& 7

def nextCall (s : IrqSystem) (e : IrqEvent) : Option (Nat × IrqHandler) :=
  match s.mode with
  | .irqHandler _ => (firstActive (s.pending e) 32 1 0).map fun i => (i, s.irq.altIrq i)
  | _ => none

def advance (s : IrqSystem) : IrqSystem :=
  match s.code, s.rest with
  | .done _, [] => s
  | .done _, r :: rest => { s with code := altIcIsrRegister r, rest, registered := r :: s.registered }
  | .access a k, _ => { s with code := k (a.exec s.irq).1, irq := (a.exec s.irq).2 }

def step (s : IrqSystem) (e : IrqEvent) : IrqSystem :=
  match s.mode with
  | .program =>
    if s.irq.pie = true ∧ s.pending e ≠ 0 then
      { s with mode := .exception, estatus := s.irq.pie, irq := { s.irq with pie := false } }
    else if e.runs then s.advance else s
  | .exception => { s with mode := if s.estatus = true ∧ s.pending e ≠ 0 then .irqHandler true else .unknown }
  | .irqHandler first =>
    if first = false ∧ s.pending e = 0 then { s with mode := .program, irq := { s.irq with pie := s.estatus } }
    else match s.nextCall e with
      | some call => { s with calls := call :: s.calls, mode := .irqHandler false }
      | none => { s with mode := .spinning }
  | .unknown => s
  | .spinning => s

def run (start : IrqSystem) (e : Nat → IrqEvent) : Nat → IrqSystem
  | 0 => start
  | n + 1 => (run start e n).step (e n)

/-- After `alt_irq_init`, with these registrations to come. -/
def boot (rest : List Registration) : IrqSystem where
  irq := { pie := true, ienable := 0, altIrq := fun _ => ⟨0, 0⟩, altIrqActive := 0 }
  estatus := false
  mode := .program
  code := .done 0
  rest := rest
  registered := []
  calls := []

end IrqSystem

end NiosSnake
