/-
  ArgGuard.Proofs.Routine.Outcome — a call comes to the outcome that the answers give.

  With repeatable code around, each phase of a call comes to the same from every state
  (`Always`), be it the phase of the generic routine or of the specialized one: a routine
  that is specialized cannot tell a capability from one whose check its inline form decides
  (`agree_demanded_byForm`), so both are the loop over the plan as the routine sees it
  (`Plan.always_loop`). So a validator comes to `ParameterSet.outcome`
  (`Validator.always_validate`).
-/

import ArgGuard.Proofs.Routine.Answers
import ArgGuard.Proofs.Routine.Conformance

namespace ArgGuard

open Call

variable {σ : Type} {env : Surroundings σ}

/-! ## Screening -/

namespace Plan

variable {c : Capability σ}

theorem always_reasonFor {v : Value} {reason : Reason} (h : Always (c.check v) (.ok (.rejected reason))) :
    Always (reasonFor c v) (.ok reason) := h.bind_ok (.pure reason)

theorem always_blame {v : Value} {r : Except Thrown Reason} (h : Always (reasonFor c v) r)
    (fault : String → Reason → CallFault) :
    Always (blame c v fault : Call σ Value) (do .error (.call (fault c.name (← r)))) :=
  h.bind fun _ _ => .fail _

theorem always_checked {v : Value} {r : Except Thrown Verdict} (h : Always (c.check v) r)
    (fault : String → Reason → CallFault) :
    Always (checked c v fault) (do
      match ← r with
      | .passed => .ok v
      | .rejected reason => .error (.call (fault c.name reason))) := by
  refine h.bind fun verdict hr => ?_
  cases verdict with
  | passed => exact .pure v
  | rejected reason => exact always_blame (always_reasonFor (hr ▸ h)) fault

/-- Where the inline form decides, the check is asked for a reason only. -/
theorem always_byForm (h : c.Repeatable) {f : Fragment} (hf : c.inline? = some f) (v : Value) (s : σ) :
    Always (c.byForm.check v) (do
      if ← f.holds v then .ok .passed else .ok (.rejected (← (start (reasonFor c v) s).1))) := by
  have hcheck : c.byForm.check v = (do
      if ← Call.ofExcept (f.holds v) then return .passed else return .rejected (← reasonFor c v)) := by
    simp only [Capability.byForm, hf]
  rw [hcheck]
  refine (Always.ofExcept _).bind fun b _ => ?_
  cases b with
  | true => exact .pure _
  | false => exact ((h.reasonFor v).always s).bind fun _ _ => .pure _

theorem always_demanded (h : c.Repeatable) (f : Fragment) (v : Value) (fault : String → Reason → CallFault) (s : σ) :
    Always (demanded c f v fault) (do
      if ← f.holds v then .ok v else .error (.call (fault c.name (← (start (reasonFor c v) s).1)))) := by
  refine (Always.ofExcept _).bind fun b _ => ?_
  cases b with
  | true => exact .pure v
  | false => exact always_blame ((h.reasonFor v).always s) fault

/-- A specialized routine cannot tell a repeatable capability from one whose check its inline
form decides. -/
theorem agree_demanded_byForm (h : c.Repeatable) {f : Fragment} (hf : c.inline? = some f) (v : Value)
    (fault : String → Reason → CallFault) :
    Agree (fun _ _ => True) (· = ·) (demanded c f v fault) (checked c.byForm v fault) := by
  intro s t _
  have hdemanded := always_demanded h f v fault s
  have hchecked := always_checked (always_byForm h hf v s) fault
  cases hv : f.holds v with
  | error u =>
    rw [hv] at hdemanded hchecked
    exact hdemanded.agree hchecked s t trivial
  | ok b =>
    rw [hv] at hdemanded hchecked
    cases b with
    | true => exact hdemanded.agree hchecked s t trivial
    | false =>
      cases hr : (start (reasonFor c v) s).1 <;> rw [hr] at hdemanded hchecked
        <;> exact hdemanded.agree hchecked s t trivial

theorem faithful_byForm {p : Plan σ} (hc : ∀ c ∈ p.capabilities, c.Repeatable)
    (hm : ∀ s ∈ p.steps, ∀ i make, s.default = .factory i make → Call.Repeatable make) :
    (Translation.along .inline).Faithful (fun _ _ => True) (· = ·) p where
  refl _ := rfl
  coerces _ _ := rfl
  coerced c h v := ((hc c h).coerced v).agree
  made s hs i make hd := (hm s hs i make hd).agree
  demanded c h _ hf v fault := agree_demanded_byForm (hc c h) hf v fault

theorem slurpy_of_type? {o : Options σ} {t : Capability σ} (h : (extrasOf o).type? = some t) : o.slurpy = .checked t := by
  unfold extrasOf at h
  cases hs : o.slurpy <;> rw [hs] at h
  case off =>
    simp only at h
    split at h <;> cases h
  all_goals cases h
  rfl

theorem alwaysGiven_stepOf (o : Options σ) (p : ParameterSpec σ) :
    alwaysGiven (stepOf (.along .inline) o p) = alwaysGiven (step .named p) := by
  cases hd : p.default <;> simp only [alwaysGiven, stepOf, Step.map, step, hd, Default.map] <;> rfl

/-! ## The phases of a call -/

section phases

variable {path : Strategy} {set : ParameterSet σ} {o : Options σ} {args : Value} (s : σ)

theorem always_screen (h : c.Repeatable) {complain : Value → Call σ Value} (fault : Value → String → Reason → CallFault)
    (hcomplain : ∀ w, complain w = blame (path.seen c) w (fault w)) (v : Value) :
    Always (screen (path.seen c) v complain) ((Answers.on path s).screened c (fun w => fault w c.name) v) := by
  rw [screen_eq _ fault hcomplain, path.coerced_seen]
  refine ((h.coerced v).always s).bind fun w _ => ?_
  have hcheck := ((path.repeatable_seen h).checked w).always s
  rw [← path.name_seen c]
  exact always_checked hcheck (fault w)

theorem receive_make {τ : Type} (T : Translation σ τ) :
    ((make set o).map T).receive args = Call.ofExcept (set.admitted o args) := by
  have hmode : ((make set o).map T).sourceMode = o.sourceMode := rfl
  unfold receive ParameterSet.admitted
  rw [hmode, isReject_make, declared_map, declared_make, length_steps_make]
  cases o.sourceMode with
  | named =>
    simp only
    split
    · split
      · cases List.find? (fun e => !set.names.contains e.1) args.entries <;> rfl
      · rfl
    · rfl
  | positional =>
    cases args with
    | list items =>
      simp only [complainExtra, length_steps_make, Bool.and_eq_true, decide_eq_true_eq]
      by_cases hlong : (extrasOf o).isReject = true ∧ set.size < items.length
      · rw [if_pos hlong]
        exact congrArg Call.ofExcept (if_pos hlong).symm
      · rw [if_neg hlong]
        exact congrArg Call.ofExcept (if_neg hlong).symm
    | _ => rfl

theorem receive_make_eq (set : ParameterSet σ) (o : Options σ) (args : Value) :
    (make set o).receive args = Call.ofExcept (set.admitted o args) := by
  have hreceive : ((make set o).map Translation.id).receive args = Call.ofExcept (set.admitted o args) :=
    receive_make Translation.id
  rwa [map_id] at hreceive

theorem extraArguments_make_eq (set : ParameterSet σ) (o : Options σ) (args : Value) :
    (make set o).extraArguments args = set.extras o args := by
  have hextras := extraArguments_make Translation.id set o args
  rwa [map_id] at hextras

theorem always_settle (hset : set.Repeatable) (ha : (make set o).ShapeFits args) {i : Nat} {p : ParameterSpec σ}
    (hi : set.specs[i]? = some p) :
    Always (((make set o).map (.along path)).settle i (stepOf (.along path) o p) args)
      (p.settled (Answers.on path s) o.name (p.supplied? o args)) := by
  have hmem := List.mem_of_getElem? hi
  have hstep := stepAt_specs (T := .along path) (o := o) hi
  have screened : ∀ v, Always (screen (path.seen p.type) v (((make set o).map (.along path)).complainMismatch i))
      ((Answers.on path s).screened p.type (p.mismatch o.name) v) :=
    always_screen s (hset.types p hmem) _ fun w => complainMismatch_eq hstep w
  cases hs : p.supplied? o args with
  | some v =>
    obtain ⟨hv, hu⟩ := fetch_supplied (T := .along path) ha hs
    rw [settle_supplied hv hu, ParameterSpec.settled_supplied]
    exact screened v
  | none =>
    have habsent := fetch_absent (T := .along path) ha hs
    cases hd : p.default with
    | value d =>
      rw [settle_static habsent (default_stepOf hd), ParameterSpec.settled_static _ _ hd]
      exact .pure d
    | factory j make =>
      rw [settle_factory habsent (default_stepOf hd), ParameterSpec.settled_factory _ _ hd]
      exact ((hset.factories p hmem j make hd).always s).bind fun v _ => screened v
    | none =>
      rw [settle_nothing habsent (default_stepOf hd), ParameterSpec.settled_nothing _ _ hd,
        show (stepOf (.along path) o p).isRequired = p.isRequired from rfl]
      cases p.isRequired with
      | true =>
        rw [if_pos rfl, complainMissing_eq hstep]
        exact .fail _
      | false => exact .pure _

theorem always_settleFrom (hset : set.Repeatable) (ha : (make set o).ShapeFits args) {specs : List (ParameterSpec σ)}
    {i : Nat} (hspecs : set.specs.drop i = specs) :
    Always (((make set o).map (.along path)).settleFrom args i (specs.map (stepOf (.along path) o)))
      (specs.mapM fun p => p.settled (Answers.on path s) o.name (p.supplied? o args)) := by
  induction specs generalizing i with
  | nil => exact .pure []
  | cons p specs ih =>
    obtain ⟨hi, hrest⟩ := drop_eq_cons hspecs
    rw [List.mapM_cons, List.map_cons, settleFrom]
    exact (always_settle s hset ha hi).bind fun v _ => (ih hrest).bind fun vs _ => .pure _

theorem always_screenAll {t : Capability σ} (ht : t.Repeatable) (hslurpy : o.slurpy = .checked t)
    (es : List (String × Value)) :
    Always (((make set o).map (.along path)).screenAll es) (es.mapM fun e => do
      .ok (e.1, ← (Answers.on path s).screened t (fun v reason => .mismatch e.1 none o.name t.name reason v) e.2)) := by
  have htype : ((make set o).map (.along path)).extras.type? = some (path.seen t) := by
    rw [type?_map, type?_make hslurpy]
    rfl
  induction es with
  | nil => exact .pure []
  | cons e es ih =>
    have hextra : Always (((make set o).map (.along path)).screenExtra e.1 e.2)
        ((Answers.on path s).screened t (fun v reason => .mismatch e.1 none o.name t.name reason v) e.2) := by
      rw [screenExtra, htype]
      exact always_screen s ht _ (fun w => complainExtraMismatch_eq htype e.1 w) e.2
    rw [List.mapM_cons, screenAll, bind_assoc]
    exact hextra.bind fun v _ => ih.bind fun kept _ => .pure _

theorem always_keepExtras (hslurpy : o.slurpy.Repeatable) :
    Always (((make set o).map (.along path)).keepExtras args) (set.screenedExtras (Answers.on path s) o args) := by
  rw [keepExtras, isKeep_map, isKeep_make, extraArguments_make, ParameterSet.screenedExtras]
  cases hs : o.slurpy with
  | off => exact .pure []
  | on =>
    have hfree : ((make set o).map (.along path)).extras.type? = none := by
      rw [type?_map, type?_make_on hs]
      rfl
    rw [if_pos rfl, screenAll_free hfree]
    exact .pure _
  | checked t => exact always_screenAll s (hslurpy t hs) hs _

theorem extended_make (values : List Value) (kept : List (String × Value)) {trusted : Step σ → Bool}
    (h : ∀ p, trusted (stepOf (.along path) o p) = (Answers.on path s).trusts p) :
    ((make set o).map (.along path)).extended (((make set o).map (.along path)).outputOf trusted values) kept
      = set.container (Answers.on path s) o values kept := by
  have hwritten : trusting trusted ((make set o).map (.along path)).steps values
      = set.written (Answers.on path s) values := by
    rw [steps_map_make, trusting, ParameterSet.written, List.zip_map_left, List.filterMap_map]
    simp only [Function.comp_def, Prod.map, h]
    rfl
  have hkeep := (isKeep_map (.along path) (make set o)).trans (isKeep_make set o)
  unfold extended outputOf ParameterSet.container Entries.ofList
  rw [hwritten, hkeep, List.foldl_append, show ((make set o).map (.along path)).outputMode = o.outputMode from rfl,
    show ((make set o).map (.along path)).sourceMode = o.sourceMode from rfl]
  cases o.outputMode <;> cases o.sourceMode <;> cases o.slurpy <;> rfl

theorem always_loop (hset : set.Repeatable) (hslurpy : o.slurpy.Repeatable) (args : Value) {trusted : Step σ → Bool}
    (h : ∀ p, trusted (stepOf (.along path) o p) = (Answers.on path s).trusts p) :
    Always (((make set o).map (.along path)).loop trusted args) (set.outcome (Answers.on path s) o args) := by
  rw [loop, receive_make, steps_map_make]
  refine (Always.ofExcept (set.admitted o args)).bind fun _ hadmitted => ?_
  have ha : (make set o).ShapeFits args := shapeFits_of_returns (p := (make set o).map (.along path)) (u := ())
    ⟨s, by rw [receive_make, hadmitted]; rfl⟩
  refine (always_settleFrom s hset ha List.drop_zero).bind fun values _ => ?_
  refine (always_keepExtras s hslurpy).bind fun kept _ => ?_
  rw [extended_make s values kept h]
  exact .pure _

end phases

end Plan

/-- On either path the verdict is the one of the check. -/
theorem Answers.verdict_eq {c : Capability σ} (h : c.Repeatable) (hform : c.FormDecides) (path : Strategy) (s t : σ)
    (v : Value) : (on path s).verdict c v = (start (c.check v) t).1 := by
  cases path with
  | generic => exact h.checked v s t
  | inline =>
    show (start (c.byForm.check v) s).1 = _
    cases hf : c.inline? with
    | none =>
      have hcheck : c.byForm.check v = c.check v := by simp only [Capability.byForm, hf]
      rw [hcheck]
      exact h.checked v s t
    | some f =>
      have hcheck := (h.checked v).always t
      rw [Plan.always_byForm h hf v s s, hform f hf v t]
      cases hr : (start (c.check v) t).1 with
      | error u => rfl
      | ok r =>
        rw [hr] at hcheck
        cases r with
        | passed => rfl
        | rejected reason =>
          rw [show Except.map Verdict.isPassed (Except.ok (Verdict.rejected reason) : Except Thrown _) =
            .ok false from rfl, Plan.always_reasonFor hcheck s]
          rfl

/-! ## The whole call -/

/-- With repeatable code around, a call of a compiled validator comes to the same outcome from
every state. -/
theorem Validator.always_validate {set : ParameterSet σ} {o : Options σ} {descriptor : String} {v : Validator σ}
    (hkeep : (Plan.make set o).KeepsOrder) (hset : set.Repeatable) (hslurpy : o.slurpy.Repeatable)
    (hv : Returns (compile env set o descriptor) v) (s : σ) (args : Value) :
    Always (v.validate args) (set.outcome (Answers.on v.strategy s) o args) := by
  obtain ⟨b, hb, hroutine, hstrategy⟩ := routine_of_compile hv
  rw [Validator.validate, hroutine, hstrategy]
  rcases Plan.build_cases hb with ⟨_, rfl⟩ | ⟨_, _, g, hg, _, rfl⟩
  · have hgeneric : (Plan.make set o).loop (fun _ => false) args = (Plan.make set o).generic args :=
      Plan.loop_eq_generic hkeep fun values hvalues => ((Plan.settled_of_returns hvalues).imp fun _ _ _ h => nomatch h)
    have hloop : Always (((Plan.make set o).map (.along .generic)).loop (fun _ => false) args) _ :=
      Plan.always_loop s hset hslurpy args fun _ => rfl
    have hsame : (Plan.make set o).map (.along .generic) = Plan.make set o := Plan.map_id _
    rw [hsame, hgeneric] at hloop
    exact hloop
  · have hcapabilities : ∀ c ∈ (Plan.make set o).capabilities, c.Repeatable := by
      intro c hc
      rcases List.mem_append.mp hc with hc | hc
      · obtain ⟨step, hstep, rfl⟩ := List.mem_map.mp hc
        obtain ⟨p, hp, rfl⟩ := Plan.steps_make hstep
        exact hset.types p hp
      · refine hslurpy c ?_
        have hc : (Plan.extrasOf o).type? = some c := by simpa [Plan.make] using hc
        exact Plan.slurpy_of_type? hc
    have hfactories : ∀ step ∈ (Plan.make set o).steps, ∀ i make, step.default = .factory i make →
        Call.Repeatable make := by
      intro step hstep
      obtain ⟨p, hp, rfl⟩ := Plan.steps_make hstep
      exact hset.factories p hp
    have hloop : Always (((Plan.make set o).map (.along .inline)).loop Plan.alwaysGiven args) _ :=
      Plan.always_loop s hset hslurpy args fun p => Plan.alwaysGiven_stepOf o p
    have hagree := Plan.agree_run_loop (Plan.faithful_byForm hcapabilities hfactories) (fun step hstep => by
      obtain ⟨p, hp, rfl⟩ := Plan.steps_make hstep
      rfl) hkeep hg args
    exact .of_agree (t := s) hagree hloop

/-! ## A booking

  Its factory is pure and its types are stock ones. -/

theorem ParameterSet.declared_fixedBooking : fixedBooking.Declared .fixed := ⟨bookingDefinitions, 0, 0, rfl⟩

theorem ParameterSet.repeatable_fixedBooking : fixedBooking.Repeatable where
  types := forall_pair (Capability.repeatable_ofTest ..) (Capability.repeatable_ofTest ..)
  factories := by
    apply forall_pair <;> intro i make hd <;> cases hd
    exact (Always.pure _).repeatable

theorem ParameterSet.flagsBoolean_fixedBooking : fixedBooking.FlagsBoolean := forall_pair ⟨_, rfl⟩ ⟨_, rfl⟩

end ArgGuard
