/-
  ArgGuard.Proofs.Routine.Simulation — the program of a plan against the loop over its steps.

  Both are the direct routine, under inline conditions and under checks
  (Proofs.Routine.Direct), so what is compared is one routine with two ways to judge a
  value: a faithful replacement of a plan judges every value alike (`agree_conditioned`),
  and hence settles every step alike (`agree_settleSteps`) and keeps the same extra
  arguments (`agree_judgeKept`).

  The program skips one test of the generic loop, whether a value is there when it is
  written into a record, so it agrees with a loop that trusts these steps (`agree_run_loop`).
  Where a plan is well made their values are never undefined (`settle_given`), and the
  program agrees with the generic loop (`agree_run_generic`).
-/

import ArgGuard.Proofs.Routine.Direct

namespace ArgGuard

open Call

variable {σ τ : Type}

/-- What the plan of a set of parameters under accepted options has. -/
structure Plan.WellMade (p : Plan σ) : Prop where
  fetch : ∀ s ∈ p.steps, s.fetch = match p.sourceMode with
    | .named => .key s.name
    | .positional => .index s.position
  kept : p.sourceMode = .positional → p.extras.isKeep = true → p.outputMode = .orderedList
  /-- A required parameter has no default. -/
  required : ∀ s ∈ p.steps, s.isRequired = true → s.default = .none
  /-- A static default that no coercion made is a value. -/
  static : ∀ s ∈ p.steps, ∀ v, s.default = .value v → s.type.coerce? = none → v.isUndefined = false

namespace Plan

section simulation

variable {R : σ → τ → Prop} {E : Thrown → Thrown → Prop} {T : Translation σ τ} {p : Plan σ}

/-! ## Values, steps and extra arguments -/

/-- A condition judges as the check that stands for it. -/
theorem agree_conditioned (hT : T.Faithful R E p) {c : Capability σ} (hc : c ∈ p.capabilities)
    (hi : ∃ f, c.inline? = some f) (v : Value) (fault : String → Reason → CallFault) :
    Agree R E (conditioned c v fault) (checked (T.capability c) v fault) := by
  obtain ⟨f, hf⟩ := hi
  rw [conditioned_eq hf]
  exact hT.demanded c hc f hf v fault

theorem agree_judgeStep (hT : T.Faithful R E p) {s : Step σ} (hs : s ∈ p.steps) (hi : ∃ f, s.type.inline? = some f)
    (v : Value) : Agree R E (p.judgeStep conditioned s v) ((p.map T).judgeStep checked (s.map T) v) :=
  (hT.coerced _ (mem_capabilities_step hs) v).bind fun w =>
    agree_conditioned hT (mem_capabilities_step hs) hi w (p.stepFault s w)

/-- A step settles as the one that stands for it. -/
theorem agree_settleStep (hT : T.Faithful R E p) {s : Step σ} (hs : s ∈ p.steps) (hi : ∃ f, s.type.inline? = some f)
    (args : Value) : Agree R E (p.settleStep conditioned args s) ((p.map T).settleStep checked args (s.map T)) := by
  have hfetch : fetch (s.map T) args = fetch s args := rfl
  have hreq : (s.map T).isRequired = s.isRequired := rfl
  unfold settleStep
  rw [hfetch, hreq]
  by_cases hv : (fetch s args).isUndefined = true
  · simp only [hv, if_true]
    cases hd : s.default with
    | value d =>
      simp only [Step.map, hd, Default.map]
      exact .pure _
    | factory j make =>
      have hmade := hT.made s hs j make hd
      simp only [Step.map, hd, Default.map]
      exact hmade.bind fun w => agree_judgeStep hT hs hi w
    | none =>
      simp only [Step.map, hd, Default.map]
      split
      · exact .fail (hT.refl _)
      · exact .pure _
  · simp only [hv, Bool.false_eq_true, if_false]
    exact agree_judgeStep hT hs hi _

theorem agree_settleSteps (hT : T.Faithful R E p) (args : Value) (ss : List (Step σ))
    (hss : ∀ s ∈ ss, s ∈ p.steps ∧ ∃ f, s.type.inline? = some f) :
    Agree R E (p.settleSteps conditioned args ss) ((p.map T).settleSteps checked args (ss.map (Step.map T))) := by
  induction ss with
  | nil => exact .pure _
  | cons s ss ih =>
    obtain ⟨hs, hi⟩ := hss s List.mem_cons_self
    exact (agree_settleStep hT hs hi args).bind fun v =>
      (ih fun t ht => hss t (List.mem_cons_of_mem _ ht)).bind fun vs => .pure _

theorem agree_judgeExtra (hT : T.Faithful R E p) (hi : ∀ t, p.extras.type? = some t → ∃ f, t.inline? = some f)
    (label : String) (v : Value) :
    Agree R E (p.judgeExtra conditioned label v) ((p.map T).judgeExtra checked label v) := by
  unfold judgeExtra
  rw [type?_map]
  cases ht : p.extras.type? with
  | none => exact .pure v
  | some t =>
    have hc := mem_capabilities_extras ht
    exact (hT.coerced t hc v).bind fun w => agree_conditioned hT hc (hi t ht) w (p.extraFault label w)

theorem agree_judgeExtras (hT : T.Faithful R E p) (hi : ∀ t, p.extras.type? = some t → ∃ f, t.inline? = some f)
    (es : List (String × Value)) :
    Agree R E (p.judgeExtras conditioned es) ((p.map T).judgeExtras checked es) := by
  induction es with
  | nil => exact .pure _
  | cons e es ih => exact (agree_judgeExtra hT hi e.1 e.2).bind fun v => ih.bind fun vs => .pure _

theorem agree_judgeKept (hT : T.Faithful R E p) (hi : ∀ t, p.extras.type? = some t → ∃ f, t.inline? = some f)
    (args : Value) : Agree R E (p.judgeKept conditioned args) ((p.map T).judgeKept checked args) := by
  have hsame : (p.map T).extraArguments args = p.extraArguments args := by
    have hlength : (p.map T).steps.length = p.steps.length := by simp [map]
    unfold extraArguments undeclared
    rw [hlength, declared_map]
    rfl
  unfold judgeKept
  rw [isKeep_map, hsame]
  split
  · exact agree_judgeExtras hT hi _
  · exact .pure _

theorem agree_receive (hT : T.Faithful R E p) (args : Value) : Agree R E (p.receive args) ((p.map T).receive args) := by
  have hmode : (p.map T).sourceMode = p.sourceMode := rfl
  have hlength : (p.map T).steps.length = p.steps.length := by simp [map]
  unfold receive
  rw [hmode, isReject_map, declared_map, hlength]
  cases p.sourceMode with
  | named =>
    by_cases ha : args.isObject = true
    · simp only [ha, if_true]
      by_cases hx : p.extras.isReject = true
      · simp only [hx, if_true]
        cases List.find? (fun e => !p.declared.contains e.1) args.entries with
        | none => exact .pure _
        | some e => exact .fail (hT.refl _)
      · simp only [hx]
        exact .pure _
    · simp only [ha]
      exact .fail (hT.refl _)
  | positional =>
    cases args with
    | list items =>
      simp only
      by_cases hx : (p.extras.isReject && decide (p.steps.length < items.length)) = true
      · rw [if_pos hx, if_pos hx, complainExtra, complainExtra, hlength]
        exact .fail (hT.refl _)
      · rw [if_neg hx, if_neg hx]
        exact .pure _
    | _ => exact .fail (hT.refl _)

/-! ## Trusted values -/

/-- A value that the program writes into a record without a test is there. -/
theorem settle_given (hT : T.Faithful R E p) (hp : p.WellMade) {s : Step σ} (hs : s ∈ p.steps)
    (hg : alwaysGiven s = true) {j : Nat} {args v : Value} (h : Returns ((p.map T).settle j (s.map T) args) v) :
    v.isUndefined = false := by
  simp only [alwaysGiven, Bool.and_eq_true, Bool.or_eq_true, Option.isNone_iff_eq_none] at hg
  obtain ⟨hc, hg⟩ := hg
  have hc' : (T.capability s.type).coerce? = none := by
    have := hT.coerces _ (mem_capabilities_step hs)
    rw [hc] at this
    simpa using this
  have hpure : ∀ u, (s.map T).type.coerced u = pure u := fun u => by simp [Step.map, Capability.coerced, hc']
  rcases settle_cases h with ⟨_, hd⟩ | ⟨_, hd, hr, _⟩ | ⟨_, ⟨j, m, u, _, hd, _⟩ | ⟨hv, hw⟩⟩
  · refine hp.static s hs v ?_ hc
    cases hd' : s.default <;> simp_all [Step.map, Default.map]
  · have hr' : s.isRequired = false := hr
    cases hd' : s.default <;> simp_all [Step.map, Default.map]
  · rcases hg with hr | hg
    · simp [Step.map, hp.required s hs hr, Default.map] at hd
    · cases hd' : s.default <;> simp_all [Step.map, Default.map]
  · rw [hpure] at hw
    cases returns_pure hw
    exact hv

theorem settled_given (hT : T.Faithful R E p) (hp : p.WellMade) {args : Value} {vs : List Value}
    (h : Returns ((p.map T).settleFrom args 0 (p.steps.map (Step.map T))) vs) :
    List.Forall₂ (fun s v => alwaysGiven s = true → v.isUndefined = false) p.steps vs := by
  have hall := List.forall₂_map_left_iff.mp (settled_of_returns h)
  exact (List.forall₂_and_left p.steps vs).mpr ⟨fun _ h => h, hall⟩ |>.imp
    fun s v ⟨hs, _, hv⟩ hg => settle_given hT hp hs hg hv

/-! ## The container -/

theorem alwaysGiven_map (hT : T.Faithful R E p) {s : Step σ} (hs : s ∈ p.steps) :
    alwaysGiven (s.map T) = alwaysGiven s := by
  have hcoerce : (s.map T).type.coerce?.isNone = s.type.coerce?.isNone := hT.coerces _ (mem_capabilities_step hs)
  have hreq : (s.map T).isRequired = s.isRequired := rfl
  unfold alwaysGiven
  rw [hcoerce, hreq]
  cases hd : s.default <;> simp only [Step.map, hd, Default.map]

theorem outputOf_map (hT : T.Faithful R E p) (vs : List Value) :
    (p.map T).outputOf alwaysGiven vs = p.outputOf alwaysGiven vs := by
  have hall : ∀ (steps : List (Step σ)) (vs : List Value), (∀ s ∈ steps, alwaysGiven (s.map T) = alwaysGiven s) →
      trusting alwaysGiven (steps.map (Step.map T)) vs = trusting alwaysGiven steps vs := by
    intro steps
    induction steps with
    | nil => exact fun _ _ => rfl
    | cons s steps ih =>
      intro vs h
      cases vs with
      | nil => rfl
      | cons v vs =>
        have hrest : trusting alwaysGiven (steps.map (Step.map T)) vs = trusting alwaysGiven steps vs :=
          ih vs fun t ht => h t (List.mem_cons_of_mem _ ht)
        rw [List.map_cons, trusting_cons, trusting_cons, hrest, h s List.mem_cons_self]
        rfl
  unfold outputOf
  rw [show (p.map T).steps = p.steps.map (Step.map T) from rfl, hall p.steps vs fun s hs => alwaysGiven_map hT hs]
  rfl

/-! ## The whole routine -/

/-- The program of a plan agrees with the loop of a faithful replacement that trusts the steps
of which the program does not test whether they have a value. -/
theorem agree_run_loop (hT : T.Faithful R E p) (hf : p.FetchesByMode) (hk : p.KeepsOrder) {g : Program}
    (hg : p.program = .ok g) (args : Value) : Agree R E (p.run g args) ((p.map T).loop alwaysGiven args) := by
  have hi := inline_of_program hg
  have hextended : ∀ out kept, (p.map T).extended out kept = p.extended out kept := by
    intro out kept
    unfold extended
    rw [isKeep_map]
    rfl
  rw [run_eq_direct hf hk hg, loop_eq_direct]
  refine (agree_receive hT args).bind fun _ => ?_
  refine (agree_settleSteps hT args p.steps fun s hs => ⟨hs, hi _ (mem_capabilities_step hs)⟩).bind fun vs => ?_
  refine (agree_judgeKept hT (fun t ht => hi t (mem_capabilities_extras ht)) args).bind fun kept => ?_
  rw [hextended, outputOf_map hT]
  exact .pure _

/-- The program of a plan that is well made agrees with the generic loop of a faithful
replacement. -/
theorem agree_run_generic (hT : T.Faithful R E p) (hp : p.WellMade) {g : Program} (hg : p.program = .ok g)
    (args : Value) : Agree R E (p.run g args) ((p.map T).generic args) := by
  have hkeep : (p.map T).KeepsOrder := by
    rw [KeepsOrder, isKeep_map]
    exact hp.kept
  have hgiven : ∀ values, Returns ((p.map T).settleFrom args 0 (p.map T).steps) values →
      List.Forall₂ (fun s v => alwaysGiven s = true → v.isUndefined = false) (p.map T).steps values := by
    intro values hvalues
    refine List.forall₂_map_left_iff.mpr ?_
    refine ((List.forall₂_and_left p.steps values).mpr ⟨fun _ h => h, settled_given hT hp hvalues⟩).imp ?_
    rintro s v ⟨hs, hv⟩ hg
    exact hv (alwaysGiven_map hT hs ▸ hg)
  rw [← loop_eq_generic hkeep hgiven]
  exact agree_run_loop hT hp.fetch hp.kept hg args

end simulation

end Plan

end ArgGuard
