/-
  ArgGuard.Proofs.Routine.Translation — a plan with its calls replaced.

  A plan calls out to capabilities and factories. Replacing these and nothing else gives a
  plan with the same names, positions, flags and modes (`Plan.map`). A replacement is
  faithful to a plan when each replaced coercion and factory agrees with the one it stands
  for, and each replaced check with the inline condition it stands for (`Translation.Faithful`);
  the routines of the two plans are compared under that condition only.
-/

import ArgGuard.Proofs.Call
import ArgGuard.Routine.Execution
import ArgGuard.Routine.Generic

namespace ArgGuard

open Call

variable {σ τ : Type}

/-- What stands in for capabilities and, by their source, for factories. -/
structure Translation (σ τ : Type) where
  capability : Capability σ → Capability τ
  factory : Nat → Call σ Value → Call τ Value

namespace Translation

def id : Translation σ σ := ⟨fun c => c, fun _ m => m⟩

end Translation

def Default.map (T : Translation σ τ) : Default σ → Default τ
  | .none => .none
  | .value v => .value v
  | .factory i m => .factory i (T.factory i m)

def Step.map (T : Translation σ τ) (s : Step σ) : Step τ where
  name := s.name
  position := s.position
  fetch := s.fetch
  required := s.required
  default := s.default.map T
  type := T.capability s.type

def Extras.map (T : Translation σ τ) : Extras σ → Extras τ
  | .reject => .reject
  | .ignore => .ignore
  | .keep t => .keep (t.map T.capability)

namespace Plan

def map (T : Translation σ τ) (p : Plan σ) : Plan τ where
  name := p.name
  sourceMode := p.sourceMode
  outputMode := p.outputMode
  steps := p.steps.map (Step.map T)
  extras := p.extras.map T
  strategy := p.strategy
  fallback? := p.fallback?

/-- The capabilities that the routines of a plan may call. -/
def capabilities (p : Plan σ) : List (Capability σ) := p.steps.map (·.type) ++ p.extras.type?.toList

theorem mem_capabilities_step {p : Plan σ} {s : Step σ} (h : s ∈ p.steps) : s.type ∈ p.capabilities :=
  List.mem_append_left _ (List.mem_map.mpr ⟨s, h, rfl⟩)

theorem mem_capabilities_extras {p : Plan σ} {t : Capability σ} (h : p.extras.type? = some t) :
    t ∈ p.capabilities := List.mem_append_right _ (by simp [h])

/-! ## Rejections

  A mismatch asks the capability for its reason and turns name and reason into a fault. -/

/-- Reports a rejected value. -/
def blame {α : Type} (c : Capability σ) (v : Value) (fault : String → Reason → CallFault) : Call σ α := do
  let reason ← reasonFor c v
  fail (fault c.name reason)

/-- A value that must meet an inline condition. -/
def demanded (c : Capability σ) (f : Fragment) (v : Value) (fault : String → Reason → CallFault) :
    Call σ Value := do
  if ← Call.ofExcept (f.holds v) then pure v else blame c v fault

/-- A value that must pass a check. -/
def checked (c : Capability σ) (v : Value) (fault : String → Reason → CallFault) : Call σ Value := do
  match ← c.check v with
  | .passed => pure v
  | .rejected _ => blame c v fault

def stepFault (p : Plan σ) (s : Step σ) (v : Value) (type : String) (reason : Reason) : CallFault :=
  .mismatch s.name (some s.position) p.name type reason v

def extraFault (p : Plan σ) (label : String) (v : Value) (type : String) (reason : Reason) : CallFault :=
  .mismatch label none p.name type reason v

theorem stepAt_eq {p : Plan σ} {i : Nat} {s : Step σ} (h : p.steps[i]? = some s) :
    p.stepAt (i : Int) = pure s := by simp [stepAt, h]

theorem complainMismatch_eq {α : Type} {p : Plan σ} {i : Nat} {s : Step σ} (h : p.steps[i]? = some s) (v : Value) :
    (p.complainMismatch (i : Int) v : Call σ α) = blame s.type v (p.stepFault s v) := by
  simp only [complainMismatch, stepAt_eq h, pure_bind]
  rfl

theorem complainMissing_eq {α : Type} {p : Plan σ} {i : Nat} {s : Step σ} (h : p.steps[i]? = some s) :
    (p.complainMissing (i : Int) : Call σ α) = fail (.missing s.name s.position p.name) := by
  simp only [complainMissing, stepAt_eq h, pure_bind]

theorem complainExtraMismatch_eq {α : Type} {p : Plan σ} {t : Capability σ} (h : p.extras.type? = some t)
    (label : String) (v : Value) :
    (p.complainExtraMismatch label v : Call σ α) = blame t v (p.extraFault label v) := by
  simp only [complainExtraMismatch, h]
  rfl

/-- A complaint never returns, so what would follow does not matter. -/
theorem blame_bind {α β : Type} (c : Capability σ) (v : Value) (fault : String → Reason → CallFault)
    (k : α → Call σ β) : (blame c v fault >>= k) = blame c v fault := by
  simp only [blame, bind_assoc]
  rfl

theorem screen_eq (c : Capability σ) {k : Value → Call σ Value} (fault : Value → String → Reason → CallFault)
    (h : ∀ w, k w = blame c w (fault w)) (v : Value) :
    screen c v k = (do let w ← c.coerced v; checked c w (fault w)) := by
  simp only [screen, h]
  rfl

/-! ## Faithful replacements -/

end Plan

/-- A replacement that the routines of a plan cannot tell from what it stands for, but for
errors that `E` lets stand for each other. -/
structure Translation.Faithful (T : Translation σ τ) (R : σ → τ → Prop) (E : Thrown → Thrown → Prop)
    (p : Plan σ) : Prop where
  refl : ∀ t, E t t
  coerces : ∀ c ∈ p.capabilities, (T.capability c).coerce?.isNone = c.coerce?.isNone
  coerced : ∀ c ∈ p.capabilities, ∀ v, Agree R E (c.coerced v) ((T.capability c).coerced v)
  made : ∀ s ∈ p.steps, ∀ i m, s.default = .factory i m → Agree R E m (T.factory i m)
  demanded : ∀ c ∈ p.capabilities, ∀ f, c.inline? = some f → ∀ v fault,
    Agree R E (Plan.demanded c f v fault) (Plan.checked (T.capability c) v fault)

namespace Plan

/-! ## What replacing leaves alone -/

section map

variable (T : Translation σ τ) (p : Plan σ)

theorem steps_map (i : Nat) : (p.map T).steps[i]? = (p.steps[i]?).map (Step.map T) := by simp [map]

@[simp] theorem declared_map : (p.map T).declared = p.declared := by simp [declared, map, Step.map]

@[simp] theorem type?_map : (p.map T).extras.type? = p.extras.type?.map T.capability := by
  cases h : p.extras <;> simp [map, Extras.map, Extras.type?, h]

@[simp] theorem isReject_map : (p.map T).extras.isReject = p.extras.isReject := by
  cases h : p.extras <;> simp [map, Extras.map, Extras.isReject, h]

@[simp] theorem isKeep_map : (p.map T).extras.isKeep = p.extras.isKeep := by
  cases h : p.extras <;> simp [map, Extras.map, Extras.isKeep, h]

end map

theorem map_id (p : Plan σ) : p.map Translation.id = p := by
  have hd : ∀ d : Default σ, d.map Translation.id = d := by rintro (_ | _ | _) <;> rfl
  have hs : Step.map (Translation.id (σ := σ)) = fun s => s := by
    funext s
    simp only [Step.map, hd]
    rfl
  have he : p.extras.map Translation.id = p.extras := by
    rcases p.extras with _ | _ | _ | _ <;> rfl
  simp [map, hs, he]

end Plan

end ArgGuard
