/-!
# Code between its accesses

Sequential code over a state that others may see or change meanwhile, cut at its
accesses: an access returns a value, and what follows depends on it. Run alone, the
code makes one access after the other.
-/

namespace NiosSnake

inductive AccessCode (A V R : Type) where
  | done (r : R)
  | access (a : A) (rest : V → AccessCode A V R)

namespace AccessCode

variable {A V R Q S : Type}

def bind : AccessCode A V R → (R → AccessCode A V Q) → AccessCode A V Q
  | done r, f => f r
  | access a rest, f => access a fun v => (rest v).bind f

instance : Monad (AccessCode A V) where
  pure := done
  bind := bind

@[simp] theorem pure_eq (r : R) : (pure r : AccessCode A V R) = done r := rfl

@[simp] theorem done_bind (r : R) (f : R → AccessCode A V Q) : done r >>= f = f r := rfl

@[simp] theorem access_bind (a : A) (rest : V → AccessCode A V R) (f : R → AccessCode A V Q) :
    access a rest >>= f = access a fun v => rest v >>= f := rfl

def step (exec : A → S → V × S) : AccessCode A V R × S → AccessCode A V R × S
  | (done r, s) => (done r, s)
  | (access a rest, s) => (rest (exec a s).1, (exec a s).2)

@[simp] theorem step_done (exec : A → S → V × S) (r : R) (s : S) : step exec (done r, s) = (done r, s) := rfl

@[simp] theorem step_access (exec : A → S → V × S) (a : A) (rest : V → AccessCode A V R) (s : S) :
    step exec (access a rest, s) = (rest (exec a s).1, (exec a s).2) := rfl

def alone (exec : A → S → V × S) (start : AccessCode A V R × S) : Nat → AccessCode A V R × S
  | 0 => start
  | n + 1 => step exec (alone exec start n)

end AccessCode

end NiosSnake
