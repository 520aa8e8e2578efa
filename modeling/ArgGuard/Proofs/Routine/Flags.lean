/-
  ArgGuard.Proofs.Routine.Flags — parameters that are both required and defaulted.

  A definition is refused where it is required by the boolean `true` and has a default. Any
  other flag is kept as it is and counts by its truth, so a parameter can be required and
  have a default, and it can in this way only (`ParameterSet.required_and_defaulted`). A
  specialized routine takes a required parameter for granted that does not coerce. It is
  right to, unless the flag slipped through and a factory makes nothing (`Slips`): then the
  record holds an undefined entry (`Validator.undefined_entry`), which the generic routine
  never writes.
-/

import ArgGuard.Proofs.Routine.Slots

namespace ArgGuard

open Call

variable {σ : Type} {env : Surroundings σ}

/-! ## Flags that were read -/

theorem requiredFlag_of_defaulted {definition : Value} (h : (definition.get "default").isUndefined = false) :
    (requiredFlag definition).truthy = (definition.get "required").truthy := by
  unfold requiredFlag
  rw [h]
  cases definition.get "required" <;> simp [Value.isAbsent, Value.truthy]

theorem ParameterSpec.isGiven_iff {definition : Value} {i : Nat} {p : ParameterSpec σ} {s s' : σ}
    (h : start (ofDefinition env definition i) s = (.ok p, s')) :
    p.default.isGiven = true ↔ (definition.get "default").isUndefined = false := by
  obtain ⟨name, type, d, rfl, _, _, _, _, ⟨hu, rfl⟩ | ⟨hgiven, t, hd⟩⟩ := ofDefinition_eq_ok h
  · simp [hu, Default.isGiven]
  · have hsome : d.isGiven = true := by
      rcases settleDefault_eq_ok hd with ⟨_, f, rfl⟩ | ⟨_, w, rfl, _⟩ <;> rfl
    simp [hgiven, hsome]

/-- A parameter that was read is required and has a default exactly if its definition gives a
default and a flag that is true but not the boolean. -/
theorem ParameterSet.required_and_defaulted {v : Value} {set : ParameterSet σ} {s s' : σ}
    (h : start (read env (.value v)) s = (.ok set, s')) {i : Nat} {p : ParameterSpec σ} (hi : set.specs[i]? = some p) :
    ∃ d, (definitions v)[i]? = some (some d) ∧ ((p.isRequired = true ∧ p.default.isGiven = true) ↔
      (d.get "required").truthy = true ∧ d.get "required" ≠ .bool true ∧ (d.get "default").isUndefined = false) := by
  obtain ⟨_, _, heach⟩ := read_eq_ok h
  obtain ⟨d, t, t', hd, hp⟩ := heach i p hi
  have hgiven := ParameterSpec.isGiven_iff hp
  obtain ⟨name, type, default, rfl, _, _, _, htested, _⟩ := ofDefinition_eq_ok hp
  refine ⟨d, hd, ?_⟩
  constructor
  · rintro ⟨hrequired, hdefault⟩
    have hdefined := hgiven.mp hdefault
    refine ⟨(requiredFlag_of_defaulted hdefined).symm.trans hrequired, fun htrue => ?_, hdefined⟩
    rw [htrue, hdefined] at htested
    exact htested rfl
  · rintro ⟨htruthy, _, hdefined⟩
    exact ⟨(requiredFlag_of_defaulted hdefined).trans htruthy, hgiven.mpr hdefined⟩

/-! ## Entries that are undefined -/

/-- The one way in which a parameter that is taken for granted has no value: its flag is true
but not the boolean, and a factory makes nothing. -/
structure ParameterSpec.Slips (o : Options σ) (args : Value) (p : ParameterSpec σ) : Prop where
  required : p.isRequired = true
  flag : p.required ≠ .bool true
  absent : p.supplied? o args = none
  made : ∃ i make, p.default = .factory i make ∧ Returns make .undefined

theorem ParameterSpec.slips_of_trusts {o : Options σ} {args : Value} {p : ParameterSpec σ} {path : Strategy}
    (h : p.Gets path o args .undefined) (hp : p.Sound env) (htrusts : path.trusts (Plan.step o.sourceMode p) = true) :
    path = .inline ∧ p.Slips o args := by
  obtain ⟨hpath, hrequired, habsent, i, make, _, hdefault, hmade, _⟩ := h.made_of_trusts hp htrusts
  refine ⟨hpath, hrequired, fun hflag => ?_, habsent, i, make, hdefault, hmade⟩
  cases hdefault.symm.trans (hp.required hflag)

/-- Where the factory always makes nothing, such a parameter settles on nothing. -/
theorem ParameterSpec.Slips.eq_undefined {o : Options σ} {args w : Value} {p : ParameterSpec σ} {path : Strategy}
    (hslips : p.Slips o args) (hplain : p.type.coerce? = none)
    (hmakes : ∀ i make, p.default = .factory i make → Always make (.ok .undefined)) (h : p.Gets path o args w) :
    w = .undefined := by
  obtain ⟨i, make, hdefault, _⟩ := hslips.made
  cases h with
  | @made j make' u _ t t₁ _ hdefault' hmade hcoerced =>
    obtain ⟨r, hr⟩ := hmade
    cases (hmakes j make' hdefault' r).symm.trans hr
    exact Capability.eq_of_uncoerced hplain hcoerced
  | supplied hsupplied => cases hslips.absent.symm.trans hsupplied
  | static _ hdefault' => cases hdefault.symm.trans hdefault'
  | nothing => rfl

namespace Validator

/-- A parameter is required and defaulted exactly if its flag is true but not the boolean. The
value that a specialized routine takes for granted is there, unless the parameter has such a
flag and its factory makes nothing. Only then a mapped result has an entry that is
undefined, and then it has. -/
theorem undefined_entry {v : Value} {set : ParameterSet σ} {s s' : σ}
    (hread : start (ParameterSet.read env (.value v)) s = (.ok set, s')) {i : Nat} {p : ParameterSpec σ}
    (hi : set.specs[i]? = some p) :
    (∃ d, (ParameterSet.definitions v)[i]? = some (some d) ∧ ((p.isRequired = true ∧ p.default.isGiven = true) ↔
      (d.get "required").truthy = true ∧ d.get "required" ≠ .bool true ∧ (d.get "default").isUndefined = false)) ∧
    (∀ (o : Options σ) (args : Value), Plan.alwaysGiven (Plan.step o.sourceMode p) = true →
      p.Gets .inline o args .undefined → p.Slips o args) ∧
    ∀ {given : Value} {o : Options σ} {descriptor : String} {validator : Validator σ}, Options.resolve env given = .ok o →
      Returns (compile env set o descriptor) validator → o.outputMode = .mapped →
      ∀ {args out : Value}, Returns (validator.validate args) out →
        (out.own? p.name = some .undefined →
          validator.strategy = .inline ∧ Plan.alwaysGiven (Plan.step o.sourceMode p) = true ∧ p.Slips o args) ∧
        (validator.strategy = .inline → Plan.alwaysGiven (Plan.step o.sourceMode p) = true → p.Slips o args →
          (∀ i make, p.default = .factory i make → Always make (.ok .undefined)) →
          out.own? p.name = some .undefined) := by
  have hset : set.Declared env := ⟨v, s, s', hread⟩
  have hp : p ∈ set.specs := List.mem_of_getElem? hi
  have hsound := ParameterSet.sound_of_mem hset hp
  refine ⟨ParameterSet.required_and_defaulted hread hi,
    fun o args hgiven hgets => (ParameterSpec.slips_of_trusts hgets hsound hgiven).2, ?_⟩
  intro given o descriptor validator ho hv hmapped args out hout
  obtain ⟨w, hgets, hheld⟩ := held_of_returns hset ho hv hout hp
  simp only [ParameterSpec.held?, OutputMode.holds?, hmapped] at hheld
  constructor
  · intro hentry
    rw [hentry] at hheld
    split at hheld
    · cases hheld
    rename_i htrusts
    cases hheld
    have htrusts : validator.strategy.trusts (Plan.step o.sourceMode p) = true := by
      simpa [Value.isUndefined] using htrusts
    obtain ⟨hinline, hslips⟩ := ParameterSpec.slips_of_trusts hgets hsound htrusts
    rw [hinline] at htrusts
    exact ⟨hinline, htrusts, hslips⟩
  · intro hinline hgiven hslips hmakes
    have htrusts : Strategy.inline.trusts (Plan.step o.sourceMode p) = true := hgiven
    have hw : w = .undefined := hslips.eq_undefined (Strategy.coerce_of_trusts htrusts) hmakes hgets
    rw [hheld, hw, hinline, htrusts]
    rfl

end Validator

/-! ## A count that is wanted and has a default -/

/-- Where anything may be the type and functions give nothing. -/
def Surroundings.idle : Surroundings Nat :=
  { Surroundings.knowing (Capability.Scalar.any.capability 1) with run := fun _ _ => pure .undefined }

/-- A count that is required by a text, with a factory. -/
def wantedDefinitions : Value :=
  .ofItems [.record [("name", .text "count"), ("type", (Capability.Scalar.any.capability 1 : Capability Nat).toValue),
    ("required", .text "yes"), ("default", .function 1 [])]]

def wantedCount : ParameterSpec Nat :=
  ⟨"count", 0, Capability.Scalar.any.capability 1, .text "yes", .factory 1 (pure .undefined)⟩

theorem Validator.undefined_entry_wanted : ∃ validator : Validator Nat,
    start (ParameterSet.read .idle (.value wantedDefinitions)) 0 = (.ok ⟨[wantedCount]⟩, 0) ∧
    Returns (compile .idle ⟨[wantedCount]⟩ .lenient "") validator ∧
    Returns (validator.validate (.record [])) (.record [("count", .undefined)]) ∧
    validator.strategy = .inline ∧ wantedCount.Slips .lenient (.record []) := by
  have hread : start (ParameterSet.read .idle (.value wantedDefinitions)) 0 = (.ok ⟨[wantedCount]⟩, 0) := rfl
  have ho : Options.resolve Surroundings.idle (.record [("strict", .bool false)]) = .ok .lenient := rfl
  obtain ⟨validator, hv, hout⟩ : ∃ validator, Returns (compile .idle ⟨[wantedCount]⟩ .lenient "") validator ∧
      Returns (validator.validate (.record [])) (.record [("count", .undefined)]) := ⟨_, ⟨0, rfl⟩, ⟨0, rfl⟩⟩
  obtain ⟨hinline, _, hslips⟩ := ((undefined_entry hread (i := 0) rfl).2.2 ho hv rfl hout).1 rfl
  exact ⟨validator, hread, hv, hout, hinline, hslips⟩

/-- A parameter is accepted that is required and has a default. The specialized routine returns
an undefined entry for it, the generic one none. -/
theorem Validator.required_with_default : ∃ specialized generic : Validator Nat,
    start (ParameterSet.read .idle (.value wantedDefinitions)) 0 = (.ok ⟨[wantedCount]⟩, 0) ∧
    wantedCount.isRequired = true ∧ wantedCount.default.isGiven = true ∧
    Returns (compile .idle ⟨[wantedCount]⟩ .lenient "") specialized ∧
    Returns (compile .idle ⟨[wantedCount]⟩ { Options.lenient with codegen := false } "") generic ∧
    Plan.alwaysGiven (Plan.step .named wantedCount) = true ∧
    (∀ n, (start (specialized.validate (.record [])) n).1 = .ok (.record [("count", .undefined)])) ∧
    ∀ n, (start (generic.validate (.record [])) n).1 = .ok (.record []) :=
  ⟨_, _, rfl, rfl, rfl, ⟨0, rfl⟩, ⟨0, rfl⟩, rfl, fun _ => rfl, fun _ => rfl⟩

end ArgGuard
