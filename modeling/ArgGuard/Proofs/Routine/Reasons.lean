/-
  ArgGuard.Proofs.Routine.Reasons — which answer the reason of a rejection is.

  The generic routine asks the check of a capability for a verdict, and where that is a
  rejection asks the same check again for the reason (`Capability.Fails`). So whatever the
  code around remembers, a call that returns has checked each value once, in order, and one
  that reports a mismatch has checked the value at fault twice, those before it once and
  nothing else; the reason is the second answer (`Validator.asked_again`). It is the answer
  that rejected the value if the check can be repeated. A check that cannot may give another
  reason, or none at all (`Validator.reason_of_another_check`).

  A watched call notes what it asks for (`watch`). What it notes is followed call by call:
  `Watches` has a rule for each way to put calls together.
-/

import ArgGuard.Proofs.Failure.Disclosure
import ArgGuard.Proofs.Routine.Slots
import ArgGuard.Proofs.Routine.Watch

namespace ArgGuard

open Call

variable {σ α β : Type} {env : Surroundings σ}

/-! ## Watched calls -/

/-- The checks among what was noted. -/
def checksOf (es : List Event) : List Event := es.filter Event.isCheck

/-- A watched call does what the call does, and which checks it notes is told by its result. -/
def Watches (w : Call (σ × List Event) α) (c : Call σ α) (good : α → List Event → Prop)
    (bad : Thrown → List Event → Prop) : Prop :=
  ∀ s es, ∃ new, start w (s, es) = ((start c s).1, (start c s).2, es ++ new) ∧
    match (start c s).1 with
    | .ok a => good a (checksOf new)
    | .error t => bad t (checksOf new)

namespace Watches

variable {good : α → List Event → Prop} {bad : Thrown → List Event → Prop}

theorem pure {a : α} (h : good a []) : Watches (Pure.pure a : Call (σ × List Event) α) (Pure.pure a) good bad :=
  fun _ es => ⟨[], by rw [List.append_nil]; rfl, h⟩

theorem fail {t : Thrown} (h : bad t []) : Watches (Call.fail t : Call (σ × List Event) α) (Call.fail t) good bad :=
  fun _ es => ⟨[], by rw [List.append_nil]; rfl, h⟩

theorem ofExcept {r : Except Thrown α} (hgood : ∀ a, r = .ok a → good a [])
    (hbad : ∀ t, Stops (Call.ofExcept r : Call σ α) t → bad t []) :
    Watches (Call.ofExcept r : Call (σ × List Event) α) (Call.ofExcept r) good bad := by
  intro s es
  refine ⟨[], by rw [List.append_nil]; rfl, ?_⟩
  cases r with
  | ok a => exact hgood a rfl
  | error t => exact hbad t ⟨s, rfl⟩

theorem noted {e : Event} {c : Call σ α} (hgood : ∀ a, Returns c a → good a (checksOf [e]))
    (hbad : ∀ t, Stops c t → bad t (checksOf [e])) : Watches (noted e c) c good bad := by
  intro s es
  refine ⟨[e], rfl, ?_⟩
  rcases hc : (start c s).1 with t | a
  · exact hbad t ⟨s, hc⟩
  · exact hgood a ⟨s, hc⟩

/-- What follows a call notes its checks behind those of the call. -/
theorem bind {w : Call (σ × List Event) α} {c : Call σ α} {g : α → Call (σ × List Event) β} {f : α → Call σ β}
    {good' : β → List Event → Prop} (hc : Watches w c good bad)
    {bad' : Thrown → List Event → Prop} (hbad : ∀ t cs, bad t cs → bad' t cs)
    (hf : ∀ a cs, Returns c a → good a cs →
      Watches (g a) (f a) (fun b cs' => good' b (cs ++ cs')) (fun t cs' => bad' t (cs ++ cs'))) :
    Watches (w >>= g) (c >>= f) good' bad' := by
  intro s es
  obtain ⟨new, hw, hnew⟩ := hc s es
  rcases hs : start c s with ⟨t | a, s₁⟩ <;> rw [hs] at hw hnew
  · rw [start_bind_error hs, start_bind_error hw]
    exact ⟨new, rfl, hbad t _ hnew⟩
  · obtain ⟨more, hg, hmore⟩ := hf a _ (returns_of_start hs) hnew s₁ (es ++ new)
    rw [start_bind_ok hs, start_bind_ok hw]
    refine ⟨new ++ more, by rw [hg, List.append_assoc], ?_⟩
    have hchecks : checksOf (new ++ more) = checksOf new ++ checksOf more := List.filter_append ..
    rw [hchecks]
    exact hmore

theorem mono {w : Call (σ × List Event) α} {c : Call σ α} (h : Watches w c good bad) {good' : α → List Event → Prop}
    {bad' : Thrown → List Event → Prop} (hgood : ∀ a cs, good a cs → good' a cs) (hbad : ∀ t cs, bad t cs → bad' t cs) :
    Watches w c good' bad' := by
  intro s es
  obtain ⟨new, hw, hnew⟩ := h s es
  refine ⟨new, hw, ?_⟩
  rcases hs : (start c s).1 with t | a <;> rw [hs] at hnew
  · exact hbad t _ hnew
  · exact hgood a _ hnew

end Watches

/-! ## One value -/

/-- What is reported of a verdict that was asked for as a reason. -/
def Verdict.told : Verdict → Reason
  | .passed => "rejected by inline check"
  | .rejected reason => reason

namespace Plan

section checked

variable {c : Capability σ} {v : Value} {fault : String → Reason → CallFault} {s s₁ : σ} {t : Thrown}

theorem checked_passed (h : start (c.check v) s = (.ok .passed, s₁)) : start (checked c v fault) s = (.ok v, s₁) := by
  rw [checked, start_bind_ok h]
  rfl

theorem checked_stops (h : start (c.check v) s = (.error t, s₁)) : start (checked c v fault) s = (.error t, s₁) := by
  rw [checked, start_bind_error h]

theorem checked_rejected {first : Reason} (h : start (c.check v) s = (.ok (.rejected first), s₁)) :
    start (checked c v fault) s = start (blame c v fault : Call σ Value) s₁ := by
  rw [checked, start_bind_ok h]

theorem blame_stops (h : start (c.check v) s = (.error t, s₁)) :
    start (blame c v fault : Call σ Value) s = (.error t, s₁) := by
  rw [blame, reasonFor, bind_assoc, start_bind_error h]

theorem blame_answered {again : Verdict} (h : start (c.check v) s = (.ok again, s₁)) :
    start (blame c v fault : Call σ Value) s = (.error (.call (fault c.name again.told)), s₁) := by
  rw [blame, reasonFor, bind_assoc, start_bind_ok h]
  cases again <;> rfl

end checked

end Plan

namespace Capability

/-- The check rejects the value for the reason `first`, and asked again right after it answers
with what is told. -/
def Rejects (c : Capability σ) (v : Value) (first told : Reason) : Prop :=
  ∃ s s₁ again, start (c.check v) s = (.ok (.rejected first), s₁) ∧
    (start (c.check v) s₁).1 = .ok again ∧ told = again.told

/-- A check that can be repeated gives the same reason again. -/
theorem Rejects.repeatable {c : Capability σ} {v : Value} {first told : Reason} (h : c.Rejects v first told)
    (hc : Call.Repeatable (c.check v)) : told = first := by
  obtain ⟨s, s₁, again, hfirst, hagain, rfl⟩ := h
  have hsame := (hc s₁ s).symm.trans hagain
  rw [hfirst] at hsame
  cases hsame
  rfl

/-- How the coercion and the check of a value stop a call, and which checks are made until then. -/
inductive Fails (c : Capability σ) (v : Value) (fault : Value → String → Reason → CallFault) : Thrown → List Event → Prop
  | uncoerced {t : Thrown} (stops : Stops (c.coerced v) t) : Fails c v fault t []
  | unanswered {w : Value} {t : Thrown} (coerced : Returns (c.coerced v) w) (stops : Stops (c.check w) t) :
      Fails c v fault t [.check c.id w]
  /-- The check rejects the value and stops when it is asked for the reason. -/
  | unexplained {w : Value} {reason : Reason} {s s₁ : σ} {t : Thrown} (coerced : Returns (c.coerced v) w)
      (rejects : start (c.check w) s = (.ok (.rejected reason), s₁)) (stops : (start (c.check w) s₁).1 = .error t) :
      Fails c v fault t [.check c.id w, .check c.id w]
  | rejected {w : Value} {first told : Reason} (coerced : Returns (c.coerced v) w) (rejects : c.Rejects w first told) :
      Fails c v fault (.call (fault w c.name told)) [.check c.id w, .check c.id w]

theorem watches_coerced (c : Capability σ) (v : Value) : Watches ((watch.capability c).coerced v) (c.coerced v)
    (fun _ cs => cs = []) (fun t cs => Stops (c.coerced v) t ∧ cs = []) := by
  rw [coerced_watch, coerced]
  cases c.coerce? with
  | none => exact .pure rfl
  | some f => exact .noted (fun _ _ => rfl) fun _ ht => ⟨ht, rfl⟩

/-- Unless the code around raised the error itself, the check rejected the value and told a reason
when it was asked again. -/
theorem Fails.rejects {c : Capability σ} {v : Value} {fault : Value → String → Reason → CallFault} {t : Thrown}
    {cs : List Event} (h : c.Fails v fault t cs) (hquiet : ¬ c.Raises t) :
    ∃ w first told, t = .call (fault w c.name told) ∧ c.Rejects w first told ∧ cs = [.check c.id w, .check c.id w] := by
  cases h with
  | uncoerced stops => exact absurd ⟨_, .inl stops⟩ hquiet
  | unanswered _ stops => exact absurd ⟨_, .inr stops⟩ hquiet
  | @unexplained w _ _ s₁ _ _ _ stops => exact absurd ⟨w, .inr ⟨s₁, stops⟩⟩ hquiet
  | rejected _ rejects => exact ⟨_, _, _, rfl, rejects, rfl⟩

/-- A watched check does what the check does and notes it. -/
theorem start_check_watch {c : Capability σ} {v : Value} {s s₁ : σ} {r : Except Thrown Verdict}
    (h : start (c.check v) s = (r, s₁)) (es : List Event) :
    start ((watch.capability c).check v) (s, es) = (r, s₁, es ++ [.check c.id v]) := by
  show ((start (c.check v) s).1, (start (c.check v) s).2, es ++ [Event.check c.id v]) = _
  rw [h]

/-- A value that passes is checked once. -/
theorem watches_screened (c : Capability σ) (v : Value) (fault : Value → String → Reason → CallFault) :
    Watches (do let w ← (watch.capability c).coerced v; Plan.checked (watch.capability c) w (fault w))
      (do let w ← c.coerced v; Plan.checked c w (fault w)) (fun w cs => cs = [.check c.id w]) (c.Fails v fault) := by
  refine (watches_coerced c v).bind ?_ ?_
  · rintro t _ ⟨ht, rfl⟩
    exact .uncoerced ht
  rintro w _ hw rfl s es
  rcases hs : start (c.check w) s with ⟨t | _ | first, s₁⟩
  case error =>
    rw [Plan.checked_stops hs, Plan.checked_stops (start_check_watch hs es)]
    exact ⟨[.check c.id w], rfl, .unanswered hw (stops_of_start hs)⟩
  case ok.passed =>
    rw [Plan.checked_passed hs, Plan.checked_passed (start_check_watch hs es)]
    exact ⟨[.check c.id w], rfl, rfl⟩
  case ok.rejected =>
    -- the reason is asked for in the state that the rejection left behind
    rw [Plan.checked_rejected hs, Plan.checked_rejected (start_check_watch hs es)]
    refine ⟨[.check c.id w, .check c.id w], ?_, ?_⟩ <;> rcases hs₁ : start (c.check w) s₁ with ⟨t | again, s₂⟩
    · rw [Plan.blame_stops hs₁, Plan.blame_stops (start_check_watch hs₁ _), List.append_assoc]
      rfl
    · rw [Plan.blame_answered hs₁, Plan.blame_answered (start_check_watch hs₁ _), List.append_assoc]
      rfl
    · rw [Plan.blame_stops hs₁]
      exact .unexplained hw hs (congrArg Prod.fst hs₁)
    · rw [Plan.blame_answered hs₁]
      exact .rejected hw ⟨s, s₁, again, hs, congrArg Prod.fst hs₁, rfl⟩

end Capability

/-! ## One step -/

/-- A value that a step has to pass: its argument, or what its factory makes instead. -/
inductive Step.Candidate (q : Step σ) (args : Value) : Value → Prop
  | given (h : (Plan.fetch q args).isUndefined = false) : Candidate q args (Plan.fetch q args)
  | made {i : Nat} {make : Call σ Value} {v : Value} (absent : (Plan.fetch q args).isUndefined = true)
      (default : q.default = .factory i make) (made : Returns make v) : Candidate q args v

/-- The checks of a step that settles on a value: one, if it had to pass. -/
def Step.asked (args : Value) (q : Step σ) (v : Value) : List Event :=
  if (Plan.fetch q args).isUndefined then
    match q.default with
    | .factory .. => [.check q.type.id v]
    | _ => []
  else [.check q.type.id v]

namespace Plan

variable (p : Plan σ) (args : Value)

/-- How a step stops a call, and which checks are made until then. -/
inductive Halts (q : Step σ) : Thrown → List Event → Prop
  | missing (absent : (fetch q args).isUndefined = true) (default : q.default = .none) (required : q.isRequired = true) :
      Halts q (.call (.missing q.name q.position p.name)) []
  | unmade {i : Nat} {make : Call σ Value} {t : Thrown} (absent : (fetch q args).isUndefined = true)
      (default : q.default = .factory i make) (stops : Stops make t) : Halts q t []
  | fails {v : Value} {t : Thrown} {cs : List Event} (candidate : q.Candidate args v)
      (fails : q.type.Fails v (p.stepFault q) t cs) : Halts q t cs

/-- The checks of steps that settle on values, one after the other. -/
def asked (steps : List (Step σ)) (values : List Value) : List Event :=
  (steps.zip values).flatMap fun e => e.1.asked args e.2

variable {p args}

theorem watches_settleStep (q : Step σ) :
    Watches ((p.map watch).settleStep checked args (q.map watch)) (p.settleStep checked args q)
      (fun v cs => cs = q.asked args v) (p.Halts args q) := by
  have hfetch : fetch (q.map watch) args = fetch q args := rfl
  have hdefault : (q.map watch).default = q.default.map watch := rfl
  have judged : ∀ v, Watches ((p.map watch).judgeStep checked (q.map watch) v) (p.judgeStep checked q v)
      (fun w cs => cs = [.check q.type.id w]) (q.type.Fails v (p.stepFault q)) :=
    fun v => q.type.watches_screened v (p.stepFault q)
  unfold settleStep
  simp only [hfetch, hdefault]
  by_cases habsent : (fetch q args).isUndefined = true
  · simp only [habsent, if_true]
    cases hd : q.default with
    | value d => exact .pure (by simp [Step.asked, habsent, hd])
    | none =>
      simp only [Default.map, show (q.map watch).isRequired = q.isRequired from rfl]
      cases hrequired : q.isRequired with
      | true => exact .fail (.missing habsent hd hrequired)
      | false => exact .pure (by simp [Step.asked, habsent, hd])
    | factory i make =>
      have hmake : Watches (noted (.make i) make) make (fun _ cs => cs = []) (fun t cs => Stops make t ∧ cs = []) :=
        .noted (fun _ _ => rfl) fun _ ht => ⟨ht, rfl⟩
      refine hmake.bind ?_ ?_
      · rintro t _ ⟨ht, rfl⟩
        exact .unmade habsent hd ht
      · rintro v _ hv rfl
        exact (judged v).mono (fun w cs hcs => by simp [Step.asked, habsent, hd, hcs])
          fun t cs h => .fails (.made habsent hd hv) h
  · have hgiven : (fetch q args).isUndefined = false := by simpa using habsent
    simp only [hgiven, Bool.false_eq_true, if_false]
    exact (judged _).mono (fun w cs hcs => by simp [Step.asked, hgiven, hcs]) fun t cs h => .fails (.given hgiven) h

/-- Steps that settle ask for one check each, at most; the first that does not settle halts the call. -/
theorem watches_settleSteps (steps : List (Step σ)) :
    Watches ((p.map watch).settleSteps checked args (steps.map (Step.map watch))) (p.settleSteps checked args steps)
      (fun values cs => List.Forall₂ (fun q v => Returns (p.settleStep checked args q) v) steps values ∧
        cs = asked args steps values)
      (fun t cs => ∃ before q after values cs', steps = before ++ q :: after ∧
        List.Forall₂ (fun q v => Returns (p.settleStep checked args q) v) before values ∧ p.Halts args q t cs' ∧
        cs = asked args before values ++ cs') := by
  induction steps with
  | nil => exact .pure ⟨.nil, rfl⟩
  | cons q steps ih =>
    refine (watches_settleStep q).bind (fun t cs h => ⟨[], q, steps, [], cs, rfl, .nil, h, rfl⟩) ?_
    rintro v _ hv rfl
    refine ih.bind ?_ ?_
    · rintro t _ ⟨before, r, after, values, cs, rfl, hvalues, hhalts, rfl⟩
      refine ⟨q :: before, r, after, v :: values, cs, rfl, .cons hv hvalues, hhalts, ?_⟩
      simp [asked]
    · rintro values _ _ ⟨hvalues, rfl⟩
      exact .pure ⟨.cons hv hvalues, by simp [asked]⟩

/-! ## Extra arguments -/

/-- The checks of extra arguments that are kept, one each if a capability is given. -/
def askedExtras (p : Plan σ) (kept : List (String × Value)) : List Event :=
  match p.extras.type? with
  | some t => kept.map fun e => .check t.id e.2
  | none => []

theorem askedExtras_cons (p : Plan σ) (e : String × Value) (kept : List (String × Value)) :
    p.askedExtras (e :: kept) = p.askedExtras [e] ++ p.askedExtras kept := by
  unfold askedExtras
  cases p.extras.type? <;> rfl

theorem watches_judgeExtra (label : String) (v : Value) :
    Watches ((p.map watch).judgeExtra checked label v) (p.judgeExtra checked label v)
      (fun w cs => cs = p.askedExtras [(label, w)])
      (fun t cs => ∃ type, p.extras.type? = some type ∧ type.Fails v (p.extraFault label) t cs) := by
  unfold judgeExtra askedExtras
  rw [type?_map]
  cases ht : p.extras.type? with
  | none => exact .pure rfl
  | some type =>
    exact (type.watches_screened v (p.extraFault label)).mono (fun _ _ h => h) fun t cs h => ⟨type, rfl, h⟩

/-- An argument is kept under its label, as what it is judged to be. -/
def Keeps (p : Plan σ) (e e' : String × Value) : Prop := e'.1 = e.1 ∧ Returns (p.judgeExtra checked e.1 e.2) e'.2

theorem watches_judgeExtras (es : List (String × Value)) :
    Watches ((p.map watch).judgeExtras checked es) (p.judgeExtras checked es)
      (fun kept cs => List.Forall₂ p.Keeps es kept ∧ cs = p.askedExtras kept)
      (fun t cs => ∃ before label v after kept type cs', es = before ++ (label, v) :: after ∧
        List.Forall₂ p.Keeps before kept ∧ p.extras.type? = some type ∧ type.Fails v (p.extraFault label) t cs' ∧
        cs = p.askedExtras kept ++ cs') := by
  induction es with
  | nil =>
    refine .pure ⟨.nil, ?_⟩
    unfold askedExtras
    cases p.extras.type? <;> rfl
  | cons e es ih =>
    obtain ⟨label, v⟩ := e
    refine (watches_judgeExtra label v).bind ?_ ?_
    · rintro t cs ⟨type, htype, h⟩
      refine ⟨[], label, v, es, [], type, cs, rfl, .nil, htype, h, ?_⟩
      simp [askedExtras, htype]
    · rintro w _ hw rfl
      refine ih.bind ?_ ?_
      · rintro t _ ⟨before, label', v', after, kept, type, cs, rfl, hkept, htype, h, rfl⟩
        refine ⟨(label, v) :: before, label', v', after, (label, w) :: kept, type, cs, rfl, .cons ⟨rfl, hw⟩ hkept,
          htype, h, ?_⟩
        rw [askedExtras_cons p (label, w) kept, List.append_assoc]
      · rintro kept _ _ ⟨hkept, rfl⟩
        exact .pure ⟨.cons ⟨rfl, hw⟩ hkept, by rw [askedExtras_cons p (label, w) kept, List.append_nil]⟩

/-! ## A whole call -/

variable (p args)

/-- How a call stops, and which checks are made until then. -/
inductive Ends : Thrown → List Event → Prop
  | refused {t : Thrown} (stops : Stops (p.receive args) t) : Ends t []
  /-- The steps before one settle, and that one halts. -/
  | step {before after : List (Step σ)} {q : Step σ} {values : List Value} {t : Thrown} {cs : List Event}
      (split : p.steps = before ++ q :: after)
      (settled : List.Forall₂ (fun q v => Returns (p.settleStep checked args q) v) before values)
      (halts : p.Halts args q t cs) : Ends t (asked args before values ++ cs)
  /-- All steps settle, the extra arguments before one are kept, and that one fails. -/
  | extra {values : List Value} {before after kept : List (String × Value)} {label : String} {v : Value}
      {type : Capability σ} {t : Thrown} {cs : List Event}
      (settled : List.Forall₂ (fun q v => Returns (p.settleStep checked args q) v) p.steps values)
      (split : p.extraArguments args = before ++ (label, v) :: after) (keeps : List.Forall₂ p.Keeps before kept)
      (checks : p.extras.type? = some type) (fails : type.Fails v (p.extraFault label) t cs) :
      Ends t (asked args p.steps values ++ (p.askedExtras kept ++ cs))

/-- What a call returns, and which checks are made for it: one for each value that has to pass. -/
inductive Finishes : Value → List Event → Prop
  | intro {values : List Value} {kept : List (String × Value)}
      (settled : List.Forall₂ (fun q v => Returns (p.settleStep checked args q) v) p.steps values)
      (keeps : if p.extras.isKeep then List.Forall₂ p.Keeps (p.extraArguments args) kept else kept = []) :
      Finishes (p.container values kept) (asked args p.steps values ++ p.askedExtras kept)

variable {p args} {set : ParameterSet σ} {o : Options σ}

theorem watches_judgeKept : Watches ((make set o).map watch |>.judgeKept checked args)
    ((make set o).judgeKept checked args)
    (fun kept cs => (if (make set o).extras.isKeep then
      List.Forall₂ (make set o).Keeps ((make set o).extraArguments args) kept else kept = []) ∧
      cs = (make set o).askedExtras kept)
    (fun t cs => ∃ before label v after kept type cs', (make set o).extraArguments args = before ++ (label, v) :: after ∧
      List.Forall₂ (make set o).Keeps before kept ∧ (make set o).extras.type? = some type ∧
      type.Fails v ((make set o).extraFault label) t cs' ∧ cs = (make set o).askedExtras kept ++ cs') := by
  have hextras : ((make set o).map watch).extraArguments args = (make set o).extraArguments args := by
    rw [extraArguments_make, extraArguments_make_eq]
  unfold judgeKept
  rw [isKeep_map, hextras]
  cases hkeep : (make set o).extras.isKeep with
  | true => simpa using watches_judgeExtras _
  | false =>
    refine .pure ⟨rfl, ?_⟩
    unfold askedExtras
    cases (make set o).extras.type? <;> rfl

theorem container_map {τ : Type} (T : Translation σ τ) (p : Plan σ) (values : List Value) (kept : List (String × Value)) :
    (p.map T).container values kept = p.container values kept := by
  have hgiven : given (p.map T).steps values = given p.steps values := by
    rw [given, show (p.map T).steps = p.steps.map (Step.map T) from rfl, List.zip_map_left, List.filterMap_map]
    rfl
  rw [container, container, hgiven, isKeep_map]
  rfl

theorem extended_untrusted (p : Plan σ) (values : List Value) (kept : List (String × Value)) :
    p.extended (p.outputOf (fun _ => false) values) kept = p.container values kept :=
  extended_outputOf (trusting_untrusted p.steps values) kept

/-- The generic routine checks each value once that has to pass, until one of them fails. -/
theorem watches_generic (hkeep : (make set o).KeepsOrder) (args : Value) :
    Watches (((make set o).map watch).generic args) ((make set o).generic args) ((make set o).Finishes args)
      ((make set o).Ends args) := by
  have hkeep' : ((make set o).map watch).KeepsOrder := fun hs hk => hkeep hs (by rwa [isKeep_map] at hk)
  rw [generic_eq_direct hkeep', generic_eq_direct hkeep]
  unfold direct
  have hreceive : Watches (((make set o).map watch).receive args) ((make set o).receive args) (fun _ cs => cs = [])
      (fun t cs => Stops ((make set o).receive args) t ∧ cs = []) := by
    rw [receive_make, receive_make_eq]
    exact .ofExcept (fun _ _ => rfl) fun _ ht => ⟨ht, rfl⟩
  simp only [extended_untrusted, container_map]
  refine hreceive.bind ?_ ?_
  · rintro t _ ⟨ht, rfl⟩
    exact .refused ht
  rintro _ _ _ rfl
  refine (watches_settleSteps _).bind ?_ ?_
  · rintro t _ ⟨before, q, after, values, cs, hsplit, hvalues, hhalts, rfl⟩
    exact .step hsplit hvalues hhalts
  rintro values _ _ ⟨hvalues, rfl⟩
  refine watches_judgeKept.bind ?_ ?_
  · rintro t _ ⟨before, label, v, after, kept, type, cs, hsplit, hkept, htype, hfails, rfl⟩
    exact .extra hvalues hsplit hkept htype hfails
  rintro kept _ _ ⟨hkept, rfl⟩
  exact .pure (by rw [List.append_nil]; exact .intro hvalues hkept)

/-- A mismatch that the code around did not raise itself ends the call behind two checks of the
value at fault, which rejected it first and told the reason then. -/
theorem mismatch_of_ends {label : String} {position : Option Nat} {name type : String} {reason : Reason}
    {v : Value} {cs : List Event}
    (h : (make set o).Ends args (.call (.mismatch label position name type reason v)) cs)
    (hquiet : ∀ p ∈ set.specs, ¬ p.Raises (.call (.mismatch label position name type reason v)))
    (hslurpy : ∀ c, o.slurpy = .checked c → ¬ c.Raises (.call (.mismatch label position name type reason v))) :
    ∃ c first before, set.Screens o label position c ∧ name = o.name ∧ type = c.name ∧ c.Rejects v first reason ∧
      cs = before ++ [.check c.id v, .check c.id v] := by
  generalize ht : Thrown.call (.mismatch label position name type reason v) = t at h
  cases h with
  | refused stops =>
    rw [receive_make_eq, ← ht] at stops
    obtain ⟨s, hs⟩ := stops
    exact absurd hs ParameterSet.admitted_ne_mismatch
  | @step before after q values _ cs split _ halts =>
    have hq : q ∈ (make set o).steps := split ▸ List.mem_append_right _ List.mem_cons_self
    obtain ⟨p, hp, rfl⟩ := steps_make hq
    cases halts with
    | missing => cases ht
    | unmade _ default stops => exact absurd (.factory default (ht ▸ stops)) (hquiet p hp)
    | fails _ fails =>
      obtain ⟨w, first, told, hfault, hrejects, rfl⟩ := fails.rejects fun hraises => hquiet p hp (.type (ht ▸ hraises))
      cases ht.trans hfault
      exact ⟨p.type, first, _, .declared hp rfl rfl rfl, rfl, rfl, hrejects, rfl⟩
  | @extra values before after kept label' v' c _ cs _ _ _ checks fails =>
    have hchecked : o.slurpy = .checked c := slurpy_of_type? checks
    obtain ⟨w, first, told, hfault, hrejects, rfl⟩ := fails.rejects fun hraises => hslurpy c hchecked (ht ▸ hraises)
    cases ht.trans hfault
    exact ⟨c, first, _, .extra rfl hchecked, rfl, rfl, hrejects, (List.append_assoc ..).symm⟩

end Plan

/-! ## The theorem -/

namespace Validator

variable {set : ParameterSet σ} {given : Value} {o : Options σ} {descriptor : String} {validator : Validator σ}

/-- A validator on the generic path checks each value once that has to pass, in order, and where
it returns this is all. Where it stops, the last value may have been checked twice: if it
reports a mismatch, the first of the two checks rejected the value, and the reason is the
answer of the second one. It is that of the first one if the check can be repeated. -/
theorem asked_again (ho : Options.resolve env given = .ok o) (hv : Returns (compile env set o descriptor) validator)
    (hgeneric : validator.strategy = .generic) (args : Value) :
    Watches (((Plan.make set o).map watch).generic args) (validator.validate args) ((Plan.make set o).Finishes args)
      ((Plan.make set o).Ends args) ∧
    ∀ {s : σ} {label : String} {position : Option Nat} {name type : String} {reason : Reason} {v : Value},
      (start (validator.validate args) s).1 = .error (.call (.mismatch label position name type reason v)) →
      (∀ p ∈ set.specs, ¬ p.Raises (.call (.mismatch label position name type reason v))) →
      (∀ c, o.slurpy = .checked c → ¬ c.Raises (.call (.mismatch label position name type reason v))) →
      ∃ c first before s' es, set.Screens o label position c ∧ name = o.name ∧ type = c.name ∧
        c.Rejects v first reason ∧ (Call.Repeatable (c.check v) → reason = first) ∧
        start (((Plan.make set o).map watch).generic args) (s, [])
          = (.error (.call (.mismatch label position name type reason v)), s', es) ∧
        checksOf es = before ++ [.check c.id v, .check c.id v] := by
  have hkeep := Plan.keepsOrder_make ho set
  have hvalidate : validator.validate args = (Plan.make set o).generic args := by
    rw [validate_eq_direct hkeep hv, hgeneric, Plan.generic_eq_direct hkeep]
    rfl
  have hwatches := Plan.watches_generic hkeep args
  rw [← hvalidate] at hwatches
  refine ⟨hwatches, ?_⟩
  intro s label position name type reason v hmismatch hquiet hslurpy
  obtain ⟨es, hes, hends⟩ := hwatches s []
  rw [hmismatch] at hes hends
  obtain ⟨c, first, before, hscreens, hname, htype, hrejects, hchecks⟩ := Plan.mismatch_of_ends hends hquiet hslurpy
  exact ⟨c, first, before, _, es, hscreens, hname, htype, hrejects, hrejects.repeatable, hes, hchecks⟩

end Validator

/-! ## A check that changes its mind -/

/-- Rejects every other value that it is asked about. -/
def Capability.moody : Capability Nat where
  id := 1
  name := "Moody"
  check _ := Call.ofState fun n => (if n % 2 = 0 then .rejected "not now" else .passed, n + 1)
  inline? := none
  coerce? := none

theorem Capability.quiet_moody (t : Thrown) : ¬ moody.Raises t := by
  rintro ⟨v, ⟨s, hs⟩ | ⟨s, hs⟩⟩ <;> cases hs

theorem Validator.asked_again_moody : ∃ (validator : Validator Nat) (first : Reason),
    Returns (compile (.knowing Capability.moody) (.counting Capability.moody) .lenient "") validator ∧
    validator.strategy = .generic ∧
    (start (validator.validate (.record [("count", .text "few")])) 0).1 =
      .error (.call (.mismatch "count" (some 0) "validator" "Moody" "rejected by inline check" (.text "few"))) ∧
    Capability.moody.Rejects (.text "few") first "rejected by inline check" := by
  have ho : Options.resolve (.knowing Capability.moody) (.record [("strict", .bool false)]) = .ok .lenient := rfl
  obtain ⟨validator, hv, hgeneric, hmismatch⟩ : ∃ validator : Validator Nat,
      Returns (compile (.knowing Capability.moody) (.counting Capability.moody) .lenient "") validator ∧
      validator.strategy = .generic ∧
      (start (validator.validate (.record [("count", .text "few")])) 0).1 = .error (.call (.mismatch "count" (some 0)
        "validator" "Moody" "rejected by inline check" (.text "few"))) := ⟨_, ⟨0, rfl⟩, rfl, rfl⟩
  have hquiet : ∀ p ∈ (ParameterSet.counting Capability.moody).specs, ∀ t, ¬ p.Raises t := by
    intro p hp t hraises
    cases List.mem_singleton.mp hp
    cases hraises with
    | type h => exact Capability.quiet_moody t h
    | factory hd => cases hd
  obtain ⟨c, first, _, _, _, hscreens, _, _, hrejects, _⟩ := (asked_again ho hv hgeneric _).2 hmismatch
    (fun p hp => hquiet p hp _) fun _ hc => nomatch hc
  cases hscreens with
  | declared hp _ _ htype =>
    cases List.mem_singleton.mp hp
    cases htype
    exact ⟨validator, first, hv, hgeneric, hmismatch, hrejects⟩
  | extra hposition => cases hposition

/-- The count is rejected because it is not the time, and reported as rejected by a form that
does not exist: the check was asked again. -/
theorem Validator.reason_of_another_check : ∃ validator : Validator Nat,
    Returns (compile (.knowing Capability.moody) (.counting Capability.moody) .lenient "") validator ∧
    validator.strategy = .generic ∧
    start (Capability.moody.check (.text "few")) 0 = (.ok (.rejected "not now"), 1) ∧
    (start (validator.validate (.record [("count", .text "few")])) 0).1 =
      .error (.call (.mismatch "count" (some 0) "validator" "Moody" "rejected by inline check" (.text "few"))) ∧
    (start (((Plan.make (.counting Capability.moody) .lenient).map watch).generic (.record [("count", .text "few")]))
      (0, [])).2 = (2, [.check 1 (.text "few"), .check 1 (.text "few")]) :=
  ⟨_, ⟨0, rfl⟩, rfl, rfl, rfl, rfl⟩

end ArgGuard
