/-
  ArgGuard.Call — computations that may run code from outside.

  Checks, coercions, factories and log sinks come from outside and may depend on what ran
  before. A call reads and writes a state of any type `σ` and may stop with an error; the
  state it had reached is kept either way.
-/

import ArgGuard.Failure.Thrown

namespace ArgGuard

abbrev Call (σ : Type) := ExceptT Thrown (StateM σ)

namespace Call

variable {σ α β : Type}

/-- Runs a call from a state. -/
def start (c : Call σ α) (s : σ) : Except Thrown α × σ := c s

def fail (t : Thrown) : Call σ α := fun s => (.error t, s)

/-- A result that is known, good or bad. -/
def ofExcept (r : Except Thrown α) : Call σ α := fun s => (r, s)

/-- A step on the state alone. -/
def ofState (f : σ → α × σ) : Call σ α := fun s => let (a, s') := f s; (.ok a, s')

/-- Runs a call and hands out its outcome, which never stops the computation. -/
def attempt (c : Call σ α) : Call σ (Except Thrown α) := fun s => let (r, s') := c s; (.ok r, s')

@[simp] theorem start_pure (a : α) (s : σ) : start (pure a : Call σ α) s = (.ok a, s) := rfl

@[simp] theorem start_fail (t : Thrown) (s : σ) : start (fail t : Call σ α) s = (.error t, s) := rfl

theorem start_bind (c : Call σ α) (f : α → Call σ β) (s : σ) :
    start (c >>= f) s =
      match start c s with
      | (.ok a, s') => start (f a) s'
      | (.error t, s') => (.error t, s') := by
  show (match c s with | (r, s') => (ExceptT.bindCont f r : StateM σ _) s') = _
  rcases h : start c s with ⟨r | r, s'⟩ <;> rw [show c s = _ from h] <;> rfl

@[simp] theorem start_attempt (c : Call σ α) (s : σ) :
    start (attempt c) s = (.ok (start c s).1, (start c s).2) := rfl

end Call

end ArgGuard
