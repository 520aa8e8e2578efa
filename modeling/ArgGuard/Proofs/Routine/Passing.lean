/-
  ArgGuard.Proofs.Routine.Passing — which values get through a compiled validator.

  A compiled validator is the direct routine with the judge of its path
  (`Validator.validate_eq_direct`), and a value passes a judge or it does not
  (`Strategy.start_judge`): on the inline path its inline form decides, else its check, from
  the state that is reached. So whatever the code around does, a validator returns only if
  every argument that is given for a parameter passes once it is coerced
  (`Validator.supplied_passes`).
-/

import ArgGuard.Proofs.Routine.Guards
import ArgGuard.Proofs.Routine.Outcome

namespace ArgGuard

open Call

variable {σ : Type} {env : Surroundings σ}

/-- A call in two parts comes to a value when both parts do, one after the other. -/
theorem Call.start_bind_value {α β : Type} {c : Call σ α} {f : α → Call σ β} {s : σ} {b : β} :
    (start (c >>= f) s).1 = .ok b ↔ ∃ a s₁, start c s = (.ok a, s₁) ∧ (start (f a) s₁).1 = .ok b := by
  constructor
  · intro h
    obtain ⟨a, s₁, hc, hf⟩ := start_bind_eq_ok
      (show start (c >>= f) s = (.ok b, (start (c >>= f) s).2) from Prod.ext h rfl)
    exact ⟨a, s₁, hc, congrArg Prod.fst hf⟩
  · rintro ⟨a, s₁, hc, hf⟩
    rw [start_bind_ok hc, hf]

/-! ## Passing -/

namespace Strategy

/-- How a value has to pass on a path. -/
def judge : Strategy → Judge σ
  | .inline => Plan.conditioned
  | .generic => Plan.checked

/-- The steps of which a path takes for granted that they have a value. -/
def trusts : Strategy → Step σ → Bool
  | .inline => Plan.alwaysGiven
  | .generic => fun _ => false

/-- The value passes: it meets the inline form on the inline path, if there is a form, and
otherwise the check, asked in this state. -/
def Passes (path : Strategy) (c : Capability σ) (v : Value) (s : σ) : Prop :=
  match path, c.inline? with
  | .inline, some f => f.holds v = .ok true
  | _, _ => (start (c.check v) s).1 = .ok .passed

variable {path : Strategy} {c : Capability σ} {v w : Value} {fault : String → Reason → CallFault} {s : σ}

theorem passes_check (h : path = .generic ∨ c.inline? = none) :
    path.Passes c v s ↔ (start (c.check v) s).1 = .ok .passed := by
  unfold Passes
  rcases h with rfl | h
  · rfl
  · rw [h]
    cases path <;> rfl

theorem passes_form {f : Fragment} (h : c.inline? = some f) : inline.Passes c v s ↔ f.holds v = .ok true := by
  unfold Passes
  rw [h]

theorem judge_check (h : path = .generic ∨ c.inline? = none) : path.judge c v fault = Plan.checked c v fault := by
  rcases h with rfl | h
  · rfl
  · cases path
    · show Plan.conditioned c v fault = _
      rw [Plan.conditioned, h]
    · rfl

/-- Every value is judged by an inline form or by the check. -/
theorem check_or_form (path : Strategy) (c : Capability σ) :
    (path = .generic ∨ c.inline? = none) ∨ path = .inline ∧ ∃ f, c.inline? = some f := by
  cases path with
  | generic => exact .inl (.inl rfl)
  | inline =>
    cases hf : c.inline? with
    | none => exact .inl (.inr rfl)
    | some f => exact .inr ⟨rfl, f, rfl⟩

end Strategy

namespace Plan

variable {c : Capability σ} {v w : Value} {fault : String → Reason → CallFault} {s : σ}

theorem blame_ne_ok : (start (blame c v fault) s).1 ≠ .ok w := by
  intro h
  obtain ⟨reason, s₁, _, hfail⟩ := start_bind_value.mp h
  cases hfail

theorem start_checked : (start (checked c v fault) s).1 = .ok w ↔ w = v ∧ (start (c.check v) s).1 = .ok .passed := by
  unfold checked
  rw [start_bind_value]
  constructor
  · rintro ⟨r, s₁, hr, h⟩
    cases r with
    | passed =>
      cases h
      exact ⟨rfl, by rw [hr]⟩
    | rejected reason => exact absurd h blame_ne_ok
  · rintro ⟨rfl, hpassed⟩
    exact ⟨.passed, (start (c.check w) s).2, Prod.ext hpassed rfl, rfl⟩

theorem start_demanded {f : Fragment} : (start (demanded c f v fault) s).1 = .ok w ↔ w = v ∧ f.holds v = .ok true := by
  unfold demanded
  rw [start_bind_value]
  constructor
  · rintro ⟨b, s₁, hb, h⟩
    obtain ⟨hholds, rfl⟩ := start_ofExcept_eq_ok hb
    cases b with
    | true =>
      cases h
      exact ⟨rfl, hholds⟩
    | false => exact absurd h blame_ne_ok
  · rintro ⟨rfl, hholds⟩
    exact ⟨true, s, by rw [hholds]; rfl, rfl⟩

end Plan

/-- A judge hands on the values that pass, as they are. -/
theorem Strategy.start_judge {path : Strategy} {c : Capability σ} {v w : Value}
    {fault : String → Reason → CallFault} {s : σ} :
    (start (path.judge c v fault) s).1 = .ok w ↔ w = v ∧ path.Passes c v s := by
  rcases path.check_or_form c with h | ⟨rfl, f, hf⟩
  · rw [judge_check h, passes_check h, Plan.start_checked]
  · rw [passes_form hf, show inline.judge c v fault = Plan.demanded c f v fault from Plan.conditioned_eq hf v fault,
      Plan.start_demanded]

namespace Plan

/-- What a step settles on for a given value is that value, coerced, if it passes then. -/
theorem start_judgeStep {path : Strategy} {p : Plan σ} {q : Step σ} {v w : Value} {s : σ} :
    (start (p.judgeStep path.judge q v) s).1 = .ok w ↔
      ∃ s₁, start (q.type.coerced v) s = (.ok w, s₁) ∧ path.Passes q.type w s₁ := by
  unfold judgeStep
  rw [start_bind_value]
  constructor
  · rintro ⟨u, s₁, hu, h⟩
    obtain ⟨rfl, hpasses⟩ := Strategy.start_judge.mp h
    exact ⟨s₁, hu, hpasses⟩
  · rintro ⟨s₁, hw, hpasses⟩
    exact ⟨w, s₁, hw, Strategy.start_judge.mpr ⟨rfl, hpasses⟩⟩

theorem settleStep_given {judge : Judge σ} {p : Plan σ} {q : Step σ} {args : Value}
    (h : (fetch q args).isUndefined = false) :
    p.settleStep judge args q = p.judgeStep judge q (fetch q args) := by
  simp [settleStep, h]

theorem settleStep_static {judge : Judge σ} {p : Plan σ} {q : Step σ} {args d : Value} (hd : q.default = .value d)
    (h : (fetch q args).isUndefined = true) : p.settleStep judge args q = pure d := by
  simp only [settleStep, h, hd, if_true]

theorem settleStep_factory {judge : Judge σ} {p : Plan σ} {q : Step σ} {args : Value} {i : Nat} {make : Call σ Value}
    (hd : q.default = .factory i make) (h : (fetch q args).isUndefined = true) :
    p.settleStep judge args q = (do p.judgeStep judge q (← make)) := by
  simp only [settleStep, h, hd, if_true]

/-- A step looks at its own argument and, for its faults, at the name of the validator. -/
theorem settleStep_congr {judge : Judge σ} {p r : Plan σ} {q : Step σ} {args args' : Value} (hname : r.name = p.name)
    (hfetch : fetch q args' = fetch q args) : r.settleStep judge args' q = p.settleStep judge args q := by
  have hfault : ∀ v, r.stepFault q v = p.stepFault q v := fun v => by
    funext type reason
    simp only [stepFault, hname]
  simp only [settleStep, judgeStep, hfault, hname, hfetch]

theorem settleSteps_congr {judge : Judge σ} {p r : Plan σ} {args args' : Value} {steps : List (Step σ)}
    (h : ∀ q ∈ steps, r.settleStep judge args' q = p.settleStep judge args q) :
    r.settleSteps judge args' steps = p.settleSteps judge args steps := by
  induction steps with
  | nil => rfl
  | cons q steps ih =>
    rw [settleSteps, settleSteps, h q List.mem_cons_self, ih fun r hr => h r (List.mem_cons_of_mem _ hr)]

theorem returns_settleStep {judge : Judge σ} {p : Plan σ} {args : Value} {steps : List (Step σ)} {vs : List Value}
    (h : Returns (p.settleSteps judge args steps) vs) {q : Step σ} (hq : q ∈ steps) :
    ∃ w, Returns (p.settleStep judge args q) w := by
  induction steps generalizing vs with
  | nil => cases hq
  | cons r steps ih =>
    obtain ⟨v, hv, h⟩ := returns_bind h
    obtain ⟨us, hus, _⟩ := returns_bind h
    rcases List.mem_cons.mp hq with rfl | hq
    · exact ⟨v, hv⟩
    · exact ih hus hq

end Plan

/-! ## Compiled validators -/

namespace Validator

variable {set : ParameterSet σ} {o : Options σ} {descriptor : String} {validator : Validator σ}

/-- A compiled validator is the direct routine with the judge of its path. -/
theorem validate_eq_direct (hkeep : (Plan.make set o).KeepsOrder) (hv : Returns (compile env set o descriptor) validator)
    (args : Value) : validator.validate args =
      (Plan.make set o).direct validator.strategy.judge validator.strategy.trusts args := by
  obtain ⟨b, hb, hroutine, hstrategy⟩ := routine_of_compile hv
  rw [validate, hroutine, hstrategy]
  rcases Plan.build_cases hb with ⟨_, rfl⟩ | ⟨_, _, g, hg, _, rfl⟩
  · exact Plan.generic_eq_direct hkeep args
  · exact Plan.run_eq_direct (Plan.fetchesByMode_make set o) hkeep hg args

/-- A validator that returns has passed each argument that is given for a parameter, coerced. -/
theorem supplied_passes (hkeep : (Plan.make set o).KeepsOrder) (hv : Returns (compile env set o descriptor) validator)
    {args out : Value} (h : Returns (validator.validate args) out) {p : ParameterSpec σ} (hp : p ∈ set.specs) {v : Value}
    (hsupplied : p.supplied? o args = some v) :
    ∃ w s s₁, start (p.type.coerced v) s = (.ok w, s₁) ∧ validator.strategy.Passes p.type w s₁ := by
  rw [validate_eq_direct hkeep hv] at h
  obtain ⟨_, hreceive, h⟩ := returns_bind h
  obtain ⟨values, hvalues, _⟩ := returns_bind h
  obtain ⟨hfetch, hdefined⟩ := fetch_supplied (T := .along .generic) (Plan.shapeFits_of_returns hreceive) hsupplied
  obtain ⟨w, s, hw⟩ := Plan.returns_settleStep hvalues (List.mem_map_of_mem (f := Plan.step o.sourceMode) hp)
  have hfetch' : Plan.fetch (Plan.step o.sourceMode p) args = v := hfetch
  rw [Plan.settleStep_given (hfetch' ▸ hdefined), hfetch'] at hw
  obtain ⟨s₁, hcoerced, hpasses⟩ := Plan.start_judgeStep.mp hw
  exact ⟨w, s, s₁, hcoerced, hpasses⟩

end Validator

end ArgGuard
