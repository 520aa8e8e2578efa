/-
  ArgGuard.Proofs.Routine.Guards — the errors that no routine reaches.

  Complaints, capabilities of extra arguments and inline forms are looked up where there could
  be none, and each look-up relies on a choice made elsewhere: accepted options keep
  positional arguments in a list only, the inline strategy is chosen only where every
  capability has an inline form (`strategy_make_iff`), and a program names the steps of its
  own plan. So both routines are the direct one, and what may stop them is an argument, or
  code from outside (`Cause`, `stops_direct`): none of its cases is a step, a capability or a
  container that is not there. `guards_make` puts this together for the plan of any set under
  accepted options.
-/

import ArgGuard.Proofs.Routine.Answers
import ArgGuard.Proofs.Routine.Blocks

namespace ArgGuard

open Call

variable {σ : Type} {env : Surroundings σ}

/-- An error of a capability's own code, the inline condition included. -/
def Capability.Foreign (c : Capability σ) (t : Thrown) : Prop :=
  c.Raises t ∨ ∃ f v, c.inline? = some f ∧ f.holds v = .error t

namespace Plan

/-- What a call of a routine may stop with. A complaint names a step of the plan, or the
capability that the plan has for extra arguments. -/
inductive Cause (p : Plan σ) : Thrown → Prop
  | shape (args : Value) : Cause p (.call (.shape p.name p.expectation args.describe))
  | unknown {k : String} (hk : k ∉ p.declared) : Cause p (.call (.unknown k p.name))
  | extra : Cause p (.call (.extra p.steps.length p.steps.length p.name))
  | missing {s : Step σ} (hs : s ∈ p.steps) : Cause p (.call (.missing s.name s.position p.name))
  | mismatch {s : Step σ} (hs : s ∈ p.steps) (v : Value) (reason : Reason) :
    Cause p (.call (p.stepFault s v s.type.name reason))
  | extraMismatch {t : Capability σ} (ht : p.extras.type? = some t) (label : String) (v : Value) (reason : Reason) :
    Cause p (.call (p.extraFault label v t.name reason))
  | capability {c : Capability σ} (hc : c ∈ p.capabilities) {t : Thrown} (h : c.Foreign t) : Cause p t
  | factory {s : Step σ} (hs : s ∈ p.steps) {i : Nat} {make : Call σ Value}
      (hd : s.default = .factory i make) {t : Thrown}
    (h : Stops make t) : Cause p t

/-! ## Capabilities -/

/-- A value is judged by blaming it, with the name of the capability, or by asking the
capability. -/
def Fair (judge : Judge σ) : Prop := ∀ (c : Capability σ) (v : Value) (fault : String → Reason → CallFault) (t : Thrown),
  Stops (judge c v fault) t → (∃ reason, t = .call (fault c.name reason)) ∨ c.Foreign t

theorem stops_blame {α : Type} {c : Capability σ} {v : Value} {fault : String → Reason → CallFault} {t : Thrown}
    (h : Stops (blame c v fault : Call σ α) t) : (∃ reason, t = .call (fault c.name reason)) ∨ c.Foreign t := by
  rcases stops_bind h with h | ⟨reason, _, h⟩
  · rcases stops_bind h with h | ⟨verdict, _, h⟩
    · exact .inr (.inl ⟨v, .inr h⟩)
    · cases verdict <;> exact absurd h not_stops_pure
  · exact .inl ⟨reason, eq_of_stops_fail h⟩

theorem fair_checked : Fair (checked : Judge σ) := by
  intro c v fault t h
  rcases stops_bind h with h | ⟨verdict, _, h⟩
  · exact .inr (.inl ⟨v, .inr h⟩)
  · cases verdict with
    | passed => exact absurd h not_stops_pure
    | rejected reason => exact stops_blame h

theorem fair_conditioned : Fair (conditioned : Judge σ) := by
  intro c v fault t h
  cases hf : c.inline? with
  | none =>
    unfold conditioned at h
    rw [hf] at h
    exact fair_checked c v fault t h
  | some f =>
    rw [conditioned_eq hf] at h
    rcases stops_bind h with ⟨s, h⟩ | ⟨b, _, h⟩
    · exact .inr (.inr ⟨f, v, hf, h⟩)
    · cases b with
      | true => exact absurd h not_stops_pure
      | false => exact stops_blame h

/-! ## Phases -/

section stops

variable {judge : Judge σ} {p : Plan σ} {args : Value} {t : Thrown}

theorem stops_coerced {c : Capability σ} (hc : c ∈ p.capabilities) {v : Value} (h : Stops (c.coerced v) t) : p.Cause t :=
  .capability hc (.inl ⟨v, .inl h⟩)

theorem stops_receive (h : Stops (p.receive args) t) : p.Cause t := by
  have hshape : ∀ {α : Type}, Stops (p.complainShape args : Call σ α) t → p.Cause t := fun h => by
    rw [eq_of_stops_fail h]
    exact .shape args
  unfold receive at h
  split at h
  · split at h
    · split at h
      · split at h
        · rename_i e he
          rw [eq_of_stops_fail h]
          exact .unknown (by simpa using List.find?_some he)
        · exact absurd h not_stops_pure
      · exact absurd h not_stops_pure
    · exact hshape h
  · split at h
    · split at h
      · rw [eq_of_stops_fail h]
        exact .extra
      · exact absurd h not_stops_pure
    · exact hshape h

theorem stops_judgeStep (hj : Fair judge) {s : Step σ} (hs : s ∈ p.steps) {v : Value}
    (h : Stops (p.judgeStep judge s v) t) :
    p.Cause t := by
  rcases stops_bind h with h | ⟨w, _, h⟩
  · exact stops_coerced (mem_capabilities_step hs) h
  · rcases hj _ _ _ _ h with ⟨reason, rfl⟩ | h
    · exact .mismatch hs w reason
    · exact .capability (mem_capabilities_step hs) h

theorem stops_settleStep (hj : Fair judge) {s : Step σ} (hs : s ∈ p.steps) (h : Stops (p.settleStep judge args s) t) :
    p.Cause t := by
  unfold settleStep at h
  by_cases hv : (fetch s args).isUndefined = true
  · simp only [hv, if_true] at h
    cases hd : s.default with
    | value d =>
      rw [hd] at h
      exact absurd h not_stops_pure
    | factory i make =>
      rw [hd] at h
      rcases stops_bind h with h | ⟨_, _, h⟩
      · exact .factory hs hd h
      · exact stops_judgeStep hj hs h
    | none =>
      simp only [hd] at h
      split at h
      · rw [eq_of_stops_fail h]
        exact .missing hs
      · exact absurd h not_stops_pure
  · simp only [hv] at h
    exact stops_judgeStep hj hs h

theorem stops_settleSteps (hj : Fair judge) {ss : List (Step σ)} (hss : ∀ s ∈ ss, s ∈ p.steps)
    (h : Stops (p.settleSteps judge args ss) t) : p.Cause t := by
  induction ss with
  | nil => exact absurd h not_stops_pure
  | cons s ss ih =>
    rcases stops_bind h with h | ⟨_, _, h⟩
    · exact stops_settleStep hj (hss s List.mem_cons_self) h
    · rcases stops_bind h with h | ⟨_, _, h⟩
      · exact ih (fun u hu => hss u (List.mem_cons_of_mem _ hu)) h
      · exact absurd h not_stops_pure

theorem stops_judgeExtra (hj : Fair judge) {label : String} {v : Value} (h : Stops (p.judgeExtra judge label v) t) :
    p.Cause t := by
  unfold judgeExtra at h
  cases hc : p.extras.type? with
  | none =>
    rw [hc] at h
    exact absurd h not_stops_pure
  | some c =>
    rw [hc] at h
    have hmem : c ∈ p.capabilities := mem_capabilities_extras hc
    rcases stops_bind h with h | ⟨w, _, h⟩
    · exact stops_coerced hmem h
    · rcases hj _ _ _ _ h with ⟨reason, rfl⟩ | h
      · exact .extraMismatch hc label w reason
      · exact .capability hmem h

theorem stops_judgeExtras (hj : Fair judge) {es : List (String × Value)} (h : Stops (p.judgeExtras judge es) t) :
    p.Cause t := by
  induction es with
  | nil => exact absurd h not_stops_pure
  | cons e es ih =>
    rcases stops_bind h with h | ⟨_, _, h⟩
    · exact stops_judgeExtra hj h
    · rcases stops_bind h with h | ⟨_, _, h⟩
      · exact ih h
      · exact absurd h not_stops_pure

/-- The direct routine has nothing to look up, and stops for a cause only. -/
theorem stops_direct (hj : Fair judge) {trusted : Step σ → Bool} (h : Stops (p.direct judge trusted args) t) :
    p.Cause t := by
  rcases stops_bind h with h | ⟨_, _, h⟩
  · exact stops_receive h
  rcases stops_bind h with h | ⟨_, _, h⟩
  · exact stops_settleSteps hj (fun _ hs => hs) h
  rcases stops_bind h with h | ⟨_, _, h⟩
  · unfold judgeKept at h
    split at h
    · exact stops_judgeExtras hj h
    · exact absurd h not_stops_pure
  · exact absurd h not_stops_pure

end stops

/-! ## The plan of a set -/

theorem fetchesByMode_make (set : ParameterSet σ) (o : Options σ) : (make set o).FetchesByMode := by
  intro s hs
  obtain ⟨spec, _, rfl⟩ := steps_make hs
  rfl

theorem type?_extrasOf_eq {o : Options σ} {t : Capability σ} : (extrasOf o).type? = some t ↔ o.slurpy = .checked t := by
  cases hs : o.slurpy with
  | off => simp [type?_extrasOf hs]
  | on => simp [extrasOf, hs, Extras.type?]
  | checked c => simp [extrasOf, hs, Extras.type?]

theorem strategy_make (set : ParameterSet σ) (o : Options σ) :
    (make set o).strategy = if (make set o).fallback?.isSome then .generic else .inline := rfl

theorem isSome_fallback_make_iff (set : ParameterSet σ) (o : Options σ) :
    (make set o).fallback?.isSome = true ↔ (make set o).strategy = .generic := by
  rw [strategy_make]
  split <;> simp_all

/-- A plan is specialized exactly where code generation is allowed and every capability that it
has, that of extra arguments included, has an inline form. -/
theorem strategy_make_iff (set : ParameterSet σ) (o : Options σ) :
    (make set o).strategy = .inline ↔ o.codegen = true ∧ (∀ spec ∈ set.specs, spec.type.inline?.isSome = true) ∧
      ∀ t, o.slurpy = .checked t → t.inline?.isSome = true := by
  have hextras : (extrasOf o).inline = true ↔ ∀ t, o.slurpy = .checked t → t.inline?.isSome = true := by
    simp only [← type?_extrasOf_eq]
    unfold Extras.inline
    cases (extrasOf o).type? <;> simp
  have hsteps : (make set o).steps.all (·.inline) = true ↔ ∀ spec ∈ set.specs, spec.type.inline?.isSome = true := by
    simp [make, Step.inline, step]
  have hsome : (make set o).fallback?.isSome = !(o.codegen && (make set o).steps.all (·.inline) && (extrasOf o).inline) :=
    isSome_fallbackOf ..
  rw [strategy_make, hsome, ← hextras, ← hsteps]
  cases o.codegen <;> cases (make set o).steps.all (·.inline) <;> cases (extrasOf o).inline <;> simp

/-- A routine that never looks for what is not there: it is the direct one, and whatever stops
it has a cause. -/
structure Guarded (p : Plan σ) (judge : Judge σ) (trusted : Step σ → Bool) (routine : Value → Call σ Value) : Prop where
  direct : ∀ args, routine args = p.direct judge trusted args
  cause : ∀ args t, Stops (routine args) t → p.Cause t

theorem Guarded.of_eq {p : Plan σ} {judge : Judge σ} (hj : Fair judge) {trusted : Step σ → Bool}
    {routine : Value → Call σ Value} (h : ∀ args, routine args = p.direct judge trusted args) :
    p.Guarded judge trusted routine where
  direct := h
  cause args _ hstops := stops_direct hj (h args ▸ hstops)

/-- Under accepted options, the plan of a set is specialized exactly where it can be and gives a
reason exactly where it is not. A specialized plan has a program, whose text closes every
block that it opens and is never indented below none, and this program and the generic
routine are the direct one. Extra arguments beside positional ones are kept in a list only. -/
theorem guards_make {given : Value} {o : Options σ} (ho : Options.resolve env given = .ok o) (set : ParameterSet σ) :
    ((make set o).strategy = .inline ↔ o.codegen = true ∧ (∀ spec ∈ set.specs, spec.type.inline?.isSome = true) ∧
      ∀ t, o.slurpy = .checked t → t.inline?.isSome = true) ∧
    ((make set o).fallback?.isSome = true ↔ (make set o).strategy = .generic) ∧
    ((make set o).strategy = .inline → ∃ g, (make set o).program = .ok g ∧
      Mark.Balanced g.marks ∧ Mark.depthAfter 0 g.marks = 0 ∧ (∀ l ∈ g.lines, 0 ≤ l.depth) ∧
      (make set o).Guarded conditioned alwaysGiven ((make set o).run g)) ∧
    (make set o).Guarded checked (fun _ => false) (make set o).generic ∧
    (make set o).KeepsOrder := by
  have hkeeps : (make set o).KeepsOrder := keepsOrder_make ho set
  refine ⟨strategy_make_iff set o, isSome_fallback_make_iff set o, ?program,
    .of_eq fair_checked fun args => generic_eq_direct hkeeps args, hkeeps⟩
  intro hinline
  obtain ⟨g, hg⟩ := exists_program (inline_of_strategy hinline).2
  obtain ⟨hdepth, hlines⟩ := g.depth_marks
  exact ⟨g, hg, g.balanced_marks, hdepth, hlines,
    .of_eq fair_conditioned fun args => run_eq_direct (fetchesByMode_make set o) hkeeps hg args⟩

/-- Bookings in a list, with whatever stands behind them. -/
theorem guards_make_booking : ∃ o : Options Nat,
    Options.resolve .alternating (.record [("sourceMode", .text "positional"), ("outputMode", .text "ordered-list"),
      ("slurpy", .bool true)]) = .ok o ∧
    (make ParameterSet.booking o).strategy = .inline ∧ (make ParameterSet.booking o).extras.isKeep = true ∧
    ∃ g, (make ParameterSet.booking o).program = .ok g ∧ Mark.Balanced g.marks ∧
      (make ParameterSet.booking o).Guarded conditioned alwaysGiven ((make ParameterSet.booking o).run g) ∧
      (make ParameterSet.booking o).outputMode = .orderedList := by
  have ho : Options.resolve Surroundings.alternating (.record [("sourceMode", .text "positional"),
      ("outputMode", .text "ordered-list"), ("slurpy", .bool true)]) =
      .ok ⟨.positional, .orderedList, true, .on, "validator", true, none⟩ := rfl
  obtain ⟨hstrategy, -, hprogram, -, hkeeps⟩ := guards_make ho ParameterSet.booking
  have hinline := hstrategy.mpr ⟨rfl, ParameterSet.forall_pair rfl rfl, fun _ h => nomatch h⟩
  obtain ⟨g, hg, hbalanced, -, -, hguarded⟩ := hprogram hinline
  exact ⟨_, ho, hinline, rfl, g, hg, hbalanced, hguarded, hkeeps rfl rfl⟩

end Plan

end ArgGuard
