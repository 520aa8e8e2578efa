/-
  ArgGuard.Proofs.Routine.Nulls — null where it is admitted.

  `maybe` admits null in its check and in its inline form, but coerces as the capability
  inside does, null too, and what is judged is what the coercion made of it. So under any
  layers of `maybe` and of numbers as text, a parameter that is given null gets what the
  innermost coercion makes of null, if that is absent again or passes the innermost
  capability (`Plan.start_settleStep_null`). Null stays null, and is no cause of a
  rejection, where that coercion leaves it alone (`Validator.null_layered`); a coercion that
  does not may have it rejected (`Validator.null_coerced_away`).
-/

import ArgGuard.Proofs.Routine.Slots
import ArgGuard.Proofs.Routine.Widening

namespace ArgGuard

open Call

variable {σ : Type} {env : Surroundings σ}

/-! ## Layers -/

namespace Capability

/-- What is put around a capability: an alternative to nothing, or numbers as text. -/
inductive Layer where
  | optional (id : Nat)
  | numeric (id : Nat)
  deriving DecidableEq, Repr

def Layer.isOptional : Layer → Bool
  | .optional _ => true
  | .numeric _ => false

def Layer.around : Layer → Capability σ → Capability σ
  | .optional id, c => maybe id c
  | .numeric id, c => Numeric.wrap id c

/-- The capability in its layers, the outermost first. -/
def layered (inner : Capability σ) (layers : List Layer) : Capability σ := layers.foldr Layer.around inner

variable {inner c : Capability σ} {layers : List Layer} {v : Value}

/-- Whatever the layers, null is coerced as it is inside. -/
theorem coerced_layered (inner : Capability σ) (layers : List Layer) :
    (inner.layered layers).coerced .null = inner.coerced .null := by
  induction layers with
  | nil => rfl
  | cons l layers ih =>
    cases l with
    | optional id => exact ih
    | numeric id => exact ih

/-- The value passes without anything being asked. -/
structure Admits (c : Capability σ) (v : Value) : Prop where
  check : c.check v = pure .passed
  form : ∀ f, c.inline? = some f → f.holds v = .ok true

theorem Admits.maybe (h : v.isAbsent = true) (id : Nat) (c : Capability σ) : (maybe id c).Admits v where
  check := if_pos h
  form f hf := by
    obtain ⟨g, _, rfl⟩ := Option.map_eq_some_iff.mp hf
    cases v with
    | undefined => rfl
    | null => rfl
    | _ => cases h

/-- An absent value passes wherever one of the layers is optional. -/
theorem admits_layered (h : v.isAbsent = true) (hoptional : layers.any Layer.isOptional = true) :
    (inner.layered layers).Admits v := by
  induction layers with
  | nil => cases hoptional
  | cons l layers ih =>
    cases l with
    | optional id => exact .maybe h id _
    | numeric id => exact ⟨(ih hoptional).check, (ih hoptional).form⟩

end Capability

open Capability

namespace Strategy

variable {path : Strategy} {inner c : Capability σ} {layers : List Layer} {v : Value} {s : σ}

/-- Layers let pass what passes inside, and what is absent if one of them is optional. -/
theorem passes_layered : path.Passes (inner.layered layers) v s ↔
    (layers.any Layer.isOptional = true ∧ v.isAbsent = true) ∨ path.Passes inner v s := by
  induction layers with
  | nil => simp [layered]
  | cons l layers ih =>
    cases l with
    | optional id =>
      show path.Passes (maybe id (inner.layered layers)) v s ↔ _
      rw [passes_maybe, ih]
      simp only [List.any_cons, Layer.isOptional, Bool.true_or, true_and]
      exact ⟨fun h => h.elim .inl (·.imp_left (·.2)), fun h => h.imp_right .inr⟩
    | numeric id => exact ih

theorem judge_of_admits (h : c.Admits v) (fault : String → Reason → CallFault) : path.judge c v fault = pure v := by
  rcases path.check_or_form c with hcheck | ⟨rfl, f, hf⟩
  · rw [judge_check hcheck, Plan.checked, h.check, pure_bind]
  · show Plan.conditioned c v fault = _
    rw [Plan.conditioned_eq hf, Plan.demanded, h.form f hf]
    rfl

end Strategy

/-! ## A parameter that is given null -/

namespace Plan

variable {path : Strategy} {set : ParameterSet σ} {o : Options σ} {args : Value} {p : ParameterSpec σ}
  {inner : Capability σ} {layers : List Layer}

theorem settleStep_null (ha : (make set o).ShapeFits args) (hnull : p.supplied? o args = some .null) :
    (make set o).settleStep path.judge args (step o.sourceMode p)
      = (make set o).judgeStep path.judge (step o.sourceMode p) .null := by
  obtain ⟨hfetch, _⟩ : fetch (step o.sourceMode p) args = .null ∧ Value.null.isUndefined = false :=
    fetch_supplied (T := .along .generic) ha hnull
  rw [settleStep_given (hfetch ▸ rfl), hfetch]

/-- Given null, the parameter settles on what the innermost coercion makes of it, if that is
absent or passes inside, and on nothing else. -/
theorem start_settleStep_null (ha : (make set o).ShapeFits args) (htype : p.type = inner.layered layers)
    (hoptional : layers.any Layer.isOptional = true) (hnull : p.supplied? o args = some .null) {s : σ} {w : Value} :
    (start ((make set o).settleStep path.judge args (step o.sourceMode p)) s).1 = .ok w ↔
      ∃ s₁, start (inner.coerced .null) s = (.ok w, s₁) ∧ (w.isAbsent = true ∨ path.Passes inner w s₁) := by
  rw [settleStep_null ha hnull, start_judgeStep, show (step o.sourceMode p).type = inner.layered layers from htype,
    coerced_layered]
  simp only [Strategy.passes_layered, hoptional, true_and]

/-- Where the innermost coercion leaves null alone, to settle the parameter is to run that. -/
theorem settleStep_null_kept (ha : (make set o).ShapeFits args) (htype : p.type = inner.layered layers)
    (hoptional : layers.any Layer.isOptional = true) (hnull : p.supplied? o args = some .null)
    (hcoerced : Always (inner.coerced .null) (.ok .null)) :
    (make set o).settleStep path.judge args (step o.sourceMode p) = inner.coerced .null := by
  rw [settleStep_null ha hnull, judgeStep, show (step o.sourceMode p).type = inner.layered layers from htype,
    coerced_layered]
  conv_rhs => rw [← bind_pure (inner.coerced .null)]
  refine bind_congr_of_returns fun w hw => ?_
  obtain ⟨s, hs⟩ := hw
  cases (hcoerced s).symm.trans hs
  exact Strategy.judge_of_admits (admits_layered rfl hoptional) _

theorem settleSteps_append (p : Plan σ) (judge : Judge σ) (args : Value) (ss ts : List (Step σ)) :
    p.settleSteps judge args (ss ++ ts) = (do
      let vs ← p.settleSteps judge args ss
      let ws ← p.settleSteps judge args ts
      return vs ++ ws) := by
  induction ss with
  | nil => exact (bind_pure _).symm
  | cons s ss ih => simp only [List.cons_append, settleSteps, ih, bind_assoc, pure_bind]

end Plan

/-! ## The theorem -/

namespace Validator

variable {set : ParameterSet σ} {given : Value} {o : Options σ} {descriptor : String} {validator : Validator σ}
  {before after : List (ParameterSpec σ)} {p : ParameterSpec σ} {inner : Capability σ} {layers : List Layer}

/-- Null for a parameter that may be null. The parameter settles on what the innermost coercion
makes of null, exactly if that is absent or passes inside, and this is what a result holds.
If the coercion leaves null alone, a call does nothing else for the parameter, on either
path, so null is accepted, and a result holds null. -/
theorem null_layered (hset : set.Declared env) (ho : Options.resolve env given = .ok o)
    (hv : Returns (compile env set o descriptor) validator) (hsplit : set.specs = before ++ p :: after)
    (htype : p.type = inner.layered layers) (hoptional : layers.any Layer.isOptional = true) {args : Value}
    (hnull : p.supplied? o args = some .null) :
    (∀ s w, (Plan.make set o).ShapeFits args →
      ((start ((Plan.make set o).settleStep validator.strategy.judge args (Plan.step o.sourceMode p)) s).1 = .ok w ↔
        ∃ s₁, start (inner.coerced .null) s = (.ok w, s₁) ∧ (w.isAbsent = true ∨ validator.strategy.Passes inner w s₁))) ∧
    (∀ out, Returns (validator.validate args) out →
      ∃ w s s₁, start (inner.coerced .null) s = (.ok w, s₁) ∧ (w.isAbsent = true ∨ validator.strategy.Passes inner w s₁) ∧
        p.held? o out = o.outputMode.holds? false w) ∧
    (Always (inner.coerced .null) (.ok .null) →
      (validator.validate args = do
        (Plan.make set o).receive args
        let vs ← (Plan.make set o).settleSteps validator.strategy.judge args (before.map (Plan.step o.sourceMode))
        let w ← inner.coerced .null
        let ws ← (Plan.make set o).settleSteps validator.strategy.judge args (after.map (Plan.step o.sourceMode))
        let kept ← (Plan.make set o).judgeKept validator.strategy.judge args
        return (Plan.make set o).extended ((Plan.make set o).outputOf validator.strategy.trusts (vs ++ w :: ws)) kept) ∧
      ∀ out, Returns (validator.validate args) out → p.held? o out = some .null) := by
  have hp : p ∈ set.specs := hsplit ▸ List.mem_append_right _ List.mem_cons_self
  have held : ∀ out, Returns (validator.validate args) out →
      ∃ w s s₁, start (inner.coerced .null) s = (.ok w, s₁) ∧ (w.isAbsent = true ∨ validator.strategy.Passes inner w s₁) ∧
        p.held? o out = o.outputMode.holds? false w := by
    intro out hout
    obtain ⟨w, hgets, hheld⟩ := held_unless_made hset ho hv hout hp (.inl (by simp [hnull]))
    cases hgets with
    | @supplied v _ s s₁ hsupplied hcoerced hpasses =>
      cases hnull.symm.trans hsupplied
      rw [htype] at hcoerced hpasses
      rw [coerced_layered] at hcoerced
      exact ⟨w, s, s₁, hcoerced, (Strategy.passes_layered.mp hpasses).imp_left (·.2), hheld⟩
    | made habsent => cases hnull.symm.trans habsent
    | static habsent => cases hnull.symm.trans habsent
    | nothing habsent => cases hnull.symm.trans habsent
  refine ⟨fun s w ha => Plan.start_settleStep_null ha htype hoptional hnull, held,
    fun hcoerced => ⟨?_, fun out hout => ?_⟩⟩
  · rw [validate_eq_direct (Plan.keepsOrder_make ho set) hv, Plan.direct]
    refine bind_congr_of_returns fun _ hreceive => ?_
    have hsteps : (Plan.make set o).steps
        = before.map (Plan.step o.sourceMode) ++ Plan.step o.sourceMode p :: after.map (Plan.step o.sourceMode) := by
      show set.specs.map _ = _
      rw [hsplit, List.map_append, List.map_cons]
    rw [hsteps, Plan.settleSteps_append]
    simp only [Plan.settleSteps, bind_assoc, pure_bind,
      Plan.settleStep_null_kept (Plan.shapeFits_of_returns hreceive) htype hoptional hnull hcoerced]
  · obtain ⟨w, s, s₁, hw, _, hheld⟩ := held out hout
    have hsame := hcoerced s
    rw [hw] at hsame
    cases hsame
    exact hheld.trans (o.outputMode.holds?_defined rfl false)

end Validator

/-! ## A count that may be null -/

namespace Capability

/-- Integers under three layers. -/
def nullableCount : Capability Nat := (Scalar.int.capability 1).layered [.numeric 4, .optional 3, .numeric 2]

/-- Texts, and a coercion that makes five of everything. -/
def fives : Capability Nat := { Scalar.str.capability 1 with coerce? := some fun _ => pure (.number (.ofNat 5)) }

end Capability

theorem Validator.null_layered_counted : ∃ validator : Validator Nat,
    Returns (compile (.knowing nullableCount) (.counting nullableCount) .lenient "") validator ∧
    (counted nullableCount).supplied? .lenient (.record [("count", .null)]) = some .null ∧
    Returns (validator.validate (.record [("count", .null)])) (.record [("count", .null)]) ∧
    (counted nullableCount).held? .lenient (.record [("count", .null)]) = some .null := by
  have ho : Options.resolve (.knowing nullableCount) (.record [("strict", .bool false)]) = .ok .lenient := rfl
  obtain ⟨validator, hv⟩ : ∃ v, Returns (compile (.knowing nullableCount) (.counting nullableCount) .lenient "") v :=
    ⟨_, 0, rfl⟩
  have hsplit : (ParameterSet.counting nullableCount).specs = [] ++ counted nullableCount :: [] := rfl
  have hnull : (counted nullableCount).supplied? .lenient (.record [("count", .null)]) = some .null := rfl
  have hcoerced : Always ((Scalar.int.capability 1 : Capability Nat).coerced .null) (.ok .null) := .pure _
  obtain ⟨_, _, hkept⟩ := null_layered (ParameterSet.declared_counting _) ho hv hsplit rfl rfl hnull
  obtain ⟨hvalidate, hheld⟩ := hkept hcoerced
  have hreturns : Returns (validator.validate (.record [("count", .null)])) (.record [("count", .null)]) := by
    rw [hvalidate]
    exact ⟨0, rfl⟩
  exact ⟨validator, hv, hnull, hreturns, hheld _ hreturns⟩

/-- `maybe` does not let null be: it is coerced to five, which is no text, and rejected on
either path. -/
theorem Validator.null_coerced_away : ∃ specialized generic : Validator Nat,
    Returns (compile (.knowing (maybe 3 fives)) (.counting (maybe 3 fives)) .lenient "") specialized ∧
    specialized.strategy = .inline ∧
    Returns (compile (.knowing (maybe 3 fives)) (.counting (maybe 3 fives)) { Options.lenient with codegen := false } "")
      generic ∧
    generic.strategy = .generic ∧
    ∀ out, ¬ Returns (specialized.validate (.record [("count", .null)])) out ∧
      ¬ Returns (generic.validate (.record [("count", .null)])) out := by
  refine ⟨_, _, ⟨0, rfl⟩, rfl, ⟨0, rfl⟩, rfl, fun out => ⟨?_, ?_⟩⟩
  · rintro ⟨s, hs⟩
    cases hs
  · rintro ⟨s, hs⟩
    cases hs

end ArgGuard
