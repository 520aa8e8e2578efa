/-
  ArgGuard.Proofs.Routine.Slots — what a result holds for one parameter.

  A parameter gets its value from its argument or from its factory, coerced, if it passes
  then, from its static default, or not at all (`ParameterSpec.Gets`). A call that returns
  has got a value for each parameter, and the result holds it under the parameter's name or
  at its position. Only a record leaves a value out, and only `undefined`, unless the routine
  takes for granted that the step has a value (`Validator.held_of_returns`).
-/

import ArgGuard.Proofs.Routine.Passing
import ArgGuard.Proofs.Routine.Validity
import ArgGuard.Proofs.Routine.WholeTexts

namespace ArgGuard

open Call

variable {σ : Type} {env : Surroundings σ}

/-! ## Where a value comes from and where it goes -/

/-- What a container holds of a value: a record leaves out what is undefined, unless it is
trusted to be defined. -/
def OutputMode.holds? (mode : OutputMode) (trusted : Bool) (v : Value) : Option Value :=
  match mode with
  | .mapped => if v.isUndefined && !trusted then none else some v
  | .orderedList => some v

theorem OutputMode.holds?_untrusted {trusted : Bool} {v : Value} (h : v.isUndefined = true → trusted = false)
    (mode : OutputMode) : mode.holds? trusted v = mode.holds? false v := by
  cases hv : v.isUndefined with
  | true => rw [h hv]
  | false => cases mode <;> simp [holds?, hv]

theorem OutputMode.holds?_defined {v : Value} (h : v.isUndefined = false) (mode : OutputMode) (trusted : Bool) :
    mode.holds? trusted v = some v := by
  cases mode <;> simp [holds?, h]

namespace ParameterSpec

/-- A value that the parameter may get on a path. -/
inductive Gets (path : Strategy) (o : Options σ) (args : Value) (p : ParameterSpec σ) : Value → Prop
  | supplied {v w : Value} {s s₁ : σ} (given : p.supplied? o args = some v)
      (coerced : start (p.type.coerced v) s = (.ok w, s₁)) (passes : path.Passes p.type w s₁) : Gets path o args p w
  | made {i : Nat} {make : Call σ Value} {v w : Value} {s s₁ : σ} (absent : p.supplied? o args = none)
      (default : p.default = .factory i make) (made : Returns make v)
      (coerced : start (p.type.coerced v) s = (.ok w, s₁)) (passes : path.Passes p.type w s₁) : Gets path o args p w
  | static {w : Value} (absent : p.supplied? o args = none) (default : p.default = .value w) : Gets path o args p w
  | nothing (absent : p.supplied? o args = none) (default : p.default = .none) (optional : p.isRequired = false) :
      Gets path o args p .undefined

/-- What a result holds for the parameter, if it holds anything. -/
def held? (o : Options σ) (out : Value) (p : ParameterSpec σ) : Option Value :=
  match o.outputMode with
  | .mapped => out.own? p.name
  | .orderedList => out.items[p.position]?.join

end ParameterSpec

namespace Plan

variable {path : Strategy} {set : ParameterSet σ} {o : Options σ} {args v w : Value} {p : ParameterSpec σ}

theorem gets_of_settleStep (ha : (make set o).ShapeFits args)
    (h : Returns ((make set o).settleStep path.judge args (step o.sourceMode p)) w) : p.Gets path o args w := by
  have judged : ∀ u, Returns ((make set o).judgeStep path.judge (step o.sourceMode p) u) w →
      ∃ s s₁, start (p.type.coerced u) s = (.ok w, s₁) ∧ path.Passes p.type w s₁ := fun u hu => by
    obtain ⟨s, hs⟩ := hu
    exact ⟨s, start_judgeStep.mp hs⟩
  cases hsupplied : p.supplied? o args with
  | some v =>
    obtain ⟨hfetch, hdefined⟩ : fetch (step o.sourceMode p) args = v ∧ v.isUndefined = false :=
      fetch_supplied (T := .along .generic) ha hsupplied
    rw [settleStep_given (hfetch ▸ hdefined), hfetch] at h
    obtain ⟨s, s₁, hcoerced, hpasses⟩ := judged v h
    exact .supplied hsupplied hcoerced hpasses
  | none =>
    have habsent : fetch (step o.sourceMode p) args = .undefined := fetch_absent (T := .along .generic) ha hsupplied
    simp only [settleStep, habsent, show (step o.sourceMode p).default = p.default from rfl] at h
    cases hdefault : p.default with
    | value d =>
      rw [hdefault] at h
      cases returns_pure h
      exact .static hsupplied hdefault
    | factory i make =>
      rw [hdefault] at h
      obtain ⟨u, hmade, h⟩ := returns_bind h
      obtain ⟨s, s₁, hcoerced, hpasses⟩ := judged u h
      exact .made hsupplied hdefault hmade hcoerced hpasses
    | none =>
      rw [hdefault, show (step o.sourceMode p).isRequired = p.isRequired from rfl] at h
      cases hrequired : p.isRequired with
      | true =>
        rw [hrequired] at h
        exact absurd h not_returns_fail
      | false =>
        rw [hrequired] at h
        cases returns_pure h
        exact .nothing hsupplied hdefault hrequired

end Plan

theorem Capability.eq_of_uncoerced {c : Capability σ} (hplain : c.coerce? = none) {v w : Value} {s s₁ : σ}
    (h : start (c.coerced v) s = (.ok w, s₁)) : w = v := by
  rw [Capability.coerced, hplain] at h
  cases h
  rfl

/-- A step that is taken for granted does not coerce. -/
theorem Strategy.coerce_of_trusts {path : Strategy} {q : Step σ} (h : path.trusts q = true) : q.type.coerce? = none := by
  cases path with
  | generic => cases h
  | inline => exact Option.isNone_iff_eq_none.mp (Bool.and_eq_true_iff.mp h).1

theorem ParameterSpec.defined_of_supplied {o : Options σ} {args v : Value} {p : ParameterSpec σ}
    (h : p.supplied? o args = some v) : v.isUndefined = false := by
  simpa using (Option.filter_eq_some_iff.mp h).2

/-- A step that is taken for granted has no value in one case only: the parameter counts as
required, and a factory made nothing of it, which its type accepts. -/
theorem ParameterSpec.Gets.made_of_trusts {path : Strategy} {o : Options σ} {args : Value} {p : ParameterSpec σ}
    (h : p.Gets path o args .undefined) (hp : p.Sound env) (htrusts : path.trusts (Plan.step o.sourceMode p) = true) :
    path = .inline ∧ p.isRequired = true ∧ p.supplied? o args = none ∧
      ∃ i make s, p.default = .factory i make ∧ Returns make .undefined ∧ path.Passes p.type .undefined s := by
  have hplain : p.type.coerce? = none := Strategy.coerce_of_trusts (q := Plan.step o.sourceMode p) htrusts
  cases path with
  | generic => cases htrusts
  | inline =>
    obtain ⟨_, hgiven⟩ := Bool.and_eq_true_iff.mp htrusts
    have required_or := Bool.or_eq_true_iff.mp hgiven
    generalize hw : Value.undefined = w at h
    cases h with
    | supplied hsupplied hcoerced =>
      cases Capability.eq_of_uncoerced hplain hcoerced
      have hdefined := defined_of_supplied hsupplied
      cases hw ▸ hdefined
    | @made i make v _ s s₁ habsent hdefault hmade hcoerced hpasses =>
      cases Capability.eq_of_uncoerced hplain hcoerced
      cases hw
      have hrequired : p.isRequired = true := required_or.resolve_right (by simp [Plan.step, hdefault])
      exact ⟨rfl, hrequired, habsent, i, make, s₁, hdefault, hmade, hpasses⟩
    | static _ hdefault =>
      cases hw
      cases (hp.static _ hdefault).2.2.2 hplain
    | nothing _ hdefault hoptional =>
      have hrequired : p.isRequired = true := required_or.resolve_right (by simp [Plan.step, hdefault])
      cases hoptional.symm.trans hrequired

/-! ## Settled values in a result -/

namespace Plan

variable {p : Plan σ} {judge : Judge σ} {trusted : Step σ → Bool} {args : Value} {steps : List (Step σ)}
    {values : List Value}

/-- Settling all steps settles each of them. -/
theorem settledSteps_of_returns (h : Returns (p.settleSteps judge args steps) values) :
    List.Forall₂ (fun q v => Returns (p.settleStep judge args q) v) steps values := by
  induction steps generalizing values with
  | nil =>
    cases returns_pure h
    exact .nil
  | cons q steps ih =>
    obtain ⟨v, hv, h⟩ := returns_bind h
    obtain ⟨vs, hvs, h⟩ := returns_bind h
    cases returns_pure h
    exact .cons hv (ih hvs)

theorem settled_at (h : Returns (p.settleSteps judge args steps) values) {i : Nat} {q : Step σ}
    (hq : steps[i]? = some q) : ∃ v, values[i]? = some v ∧ Returns (p.settleStep judge args q) v := by
  obtain ⟨hi, rfl⟩ := List.getElem?_eq_some_iff.mp hq
  have hvalue : i < values.length := length_settleSteps h ▸ hi
  exact ⟨values[i], List.getElem?_eq_getElem hvalue, (settledSteps_of_returns h).get hi hvalue⟩

/-- Extra arguments that a record keeps stand under names that are not declared. -/
theorem undeclared_of_judgeKept (hp : p.KeepsOrder) (hmapped : p.outputMode = .mapped) {kept : List (String × Value)}
    (h : Returns (p.judgeKept judge args) kept) : ∀ k ∈ kept.map (·.1), k ∉ p.declared := by
  unfold judgeKept at h
  split at h
  · rename_i hkeep
    intro k hk
    rw [judgeExtras_names h, extraArguments, hp.named hmapped hkeep] at hk
    obtain ⟨e, he, rfl⟩ := List.mem_map.mp hk
    simpa using (List.mem_filter.mp he).2
  · cases returns_pure h
    exact fun k hk => nomatch hk

/-- The record of a result holds a value under the name of its step, unless it is left out. -/
theorem own?_extended (hn : p.declared.Nodup) (hmapped : p.outputMode = .mapped) {kept : List (String × Value)}
    (hkept : ∀ k ∈ kept.map (·.1), k ∉ p.declared) {i : Nat} {q : Step σ} {v : Value} (hq : p.steps[i]? = some q)
    (hv : values[i]? = some v) : (p.extended (p.outputOf trusted values) kept).own? q.name =
      if v.isUndefined && !trusted q then none else some v := by
  have hout : p.extended (p.outputOf trusted values) kept =
      .record (Entries.putAll kept (Entries.putAll (trusting trusted p.steps values) [])) := by
    rw [outputOf, hmapped]
    rfl
  have hname : q.name ∈ p.declared := List.mem_map_of_mem (List.mem_of_getElem? hq)
  rw [hout, own?_record, Entries.find?_putAll fun hk => hkept _ hk hname, putAll_trusting hn]
  exact find?_trusting hn hq hv

/-- The list of a result holds every value, at the place of its step. -/
theorem items_extended (hlist : p.outputMode = .orderedList) (kept : List (String × Value)) {i : Nat} {v : Value}
    (hv : values[i]? = some v) : (p.extended (p.outputOf trusted values) kept).items[i]? = some (some v) := by
  obtain ⟨hi, rfl⟩ := List.getElem?_eq_some_iff.mp hv
  have hout : ∃ more, p.extended (p.outputOf trusted values) kept = .ofItems (values ++ more) := by
    rw [outputOf, hlist]
    cases hm : p.sourceMode <;> exact ⟨_, by simp only [extended, hm]; rfl⟩
  obtain ⟨more, hmore⟩ := hout
  rw [hmore]
  simp [Value.ofItems, Value.items, List.getElem?_append, hi]

end Plan

/-! ## The theorem -/

namespace Validator

variable {set : ParameterSet σ} {given : Value} {o : Options σ} {descriptor : String} {validator : Validator σ}

/-- A call that returns has got a value for each parameter, and the result holds it, unless it
is undefined: then a record holds nothing, if the routine tests the value. -/
theorem held_of_returns (hset : set.Declared env) (ho : Options.resolve env given = .ok o)
    (hv : Returns (compile env set o descriptor) validator) {args out : Value} (h : Returns (validator.validate args) out)
    {p : ParameterSpec σ} (hp : p ∈ set.specs) : ∃ w, p.Gets validator.strategy o args w ∧
      p.held? o out = o.outputMode.holds? (validator.strategy.trusts (Plan.step o.sourceMode p)) w := by
  have hkeep := Plan.keepsOrder_make ho set
  obtain ⟨hnodup, hsound⟩ := ParameterSet.declared_sound hset
  obtain ⟨i, hi⟩ := List.mem_iff_getElem?.mp hp
  have hstep : (Plan.make set o).steps[i]? = some (Plan.step o.sourceMode p) := by
    rw [show (Plan.make set o).steps = set.specs.map (Plan.step o.sourceMode) from rfl, List.getElem?_map, hi]
    rfl
  rw [validate_eq_direct hkeep hv] at h
  obtain ⟨_, hreceive, h⟩ := returns_bind h
  obtain ⟨values, hvalues, h⟩ := returns_bind h
  obtain ⟨kept, hkept, h⟩ := returns_bind h
  cases returns_pure h
  obtain ⟨w, hw, hsettled⟩ := Plan.settled_at hvalues hstep
  refine ⟨w, Plan.gets_of_settleStep (Plan.shapeFits_of_returns hreceive) hsettled, ?_⟩
  unfold ParameterSpec.held?
  cases hmode : o.outputMode with
  | mapped =>
    exact Plan.own?_extended (p := Plan.make set o) (by rwa [Plan.declared_make]) hmode
      (Plan.undeclared_of_judgeKept hkeep hmode hkept) hstep hw
  | orderedList =>
    rw [(hsound i p hi).1, Plan.items_extended (p := Plan.make set o) hmode kept hw]
    rfl

/-- Unless the value was made by a factory, a record holds nothing exactly if it is undefined. -/
theorem held_unless_made (hset : set.Declared env) (ho : Options.resolve env given = .ok o)
    (hv : Returns (compile env set o descriptor) validator) {args out : Value} (h : Returns (validator.validate args) out)
    {p : ParameterSpec σ} (hp : p ∈ set.specs)
    (hmade : p.supplied? o args ≠ none ∨ ∀ i make, p.default ≠ .factory i make) :
    ∃ w, p.Gets validator.strategy o args w ∧ p.held? o out = o.outputMode.holds? false w := by
  obtain ⟨w, hgets, hheld⟩ := held_of_returns hset ho hv h hp
  refine ⟨w, hgets, hheld.trans (o.outputMode.holds?_untrusted fun hw => ?_)⟩
  cases Value.eq_undefined hw
  by_contra htrusts
  obtain ⟨_, _, habsent, i, make, _, hdefault, _⟩ :=
    hgets.made_of_trusts (ParameterSet.sound_of_mem hset hp) (by simpa using htrusts)
  exact hmade.elim (fun hsupplied => hsupplied habsent) fun hnone => hnone i make hdefault

end Validator

/-! ## A count, declared

  Where one capability is known, a count of that type can be declared. -/

def Surroundings.knowing (type : Capability Nat) : Surroundings Nat :=
  { Surroundings.fixed with known := fun _ => some type }

theorem Capability.isCapability_toValue (c : Capability σ) : c.toValue.isCapability = true := by
  have hname : c.toValue.member? "name" = some (.text c.name) := rfl
  have hcheck : c.toValue.member? "check" = some (.function 0 []) := rfl
  have hform : c.toValue.member? "emitInlineCheck" = if c.inline?.isSome then some (.function 0 []) else none := by
    cases hi : c.inline?.isSome <;> cases hc : c.coerce?.isSome <;>
      simp [toValue, Value.member?, Value.own?, Entries.find?, hi, hc]
  have hcoerce : c.toValue.member? "coerce" = if c.coerce?.isSome then some (.function 0 []) else none := by
    cases hi : c.inline?.isSome <;> cases hc : c.coerce?.isSome <;>
      simp [toValue, Value.member?, Value.own?, Entries.find?, hi, hc]
  unfold Value.isCapability
  simp only [hname, hcheck, hform, hcoerce]
  cases c.inline?.isSome <;> cases c.coerce?.isSome <;> rfl

def countDefinition (type : Capability Nat) : Value :=
  .record [("name", .text "count"), ("type", type.toValue), ("required", .bool true)]

theorem ParameterSet.declared_counting (type : Capability Nat) : (counting type).Declared (.knowing type) := by
  have hknown : (Surroundings.knowing type).capability? type.toValue = some type := by
    unfold Surroundings.capability?
    rw [type.isCapability_toValue]
    rfl
  have hspec : start (ParameterSpec.ofDefinition (.knowing type) (countDefinition type) 0) 0 =
      (.ok (counted type), 0) := by
    have htype : (countDefinition type).get "type" = type.toValue := rfl
    simp only [ParameterSpec.ofDefinition, htype, hknown]
    rfl
  have hread : start (readList (.knowing type) 0 [some (countDefinition type)]) 0 = (.ok [some (counted type)], 0) := by
    rw [readList, start_bind_ok hspec]
    rfl
  refine ⟨.ofItems [countDefinition type], 0, 0, ?_⟩
  show start (do collect (← readList (.knowing type) 0 [some (countDefinition type)])) 0 = _
  rw [start_bind_ok hread]
  rfl

end ArgGuard
