/-
  ArgGuard.Proofs.Routine.Conformance — the generic routine does what is specified.

  Every clause of `Specified` is followed through the three phases of a call: each part comes
  to one outcome and notes what it called (`Notes.Comes`), and parts in sequence note their
  uses in sequence. A plan is followed with its calls replaced (`Reading.Under`), so that one
  argument serves the plan itself, which notes nothing, and the plan that is watched.

  A call comes to an outcome exactly if that is specified, with what is called meanwhile
  (`Plan.generic_meets_specification`).
-/

import ArgGuard.Proofs.Routine.Specification

namespace ArgGuard

open Call

variable {σ τ α β : Type} {env : Surroundings σ}

/-! ## Parts of a call -/

/-- Where a state keeps what was called, if anywhere. -/
structure Notes (τ : Type) where
  write : List Event → τ → τ
  write_nil : ∀ t, write [] t = t
  write_append : ∀ es fs t, write (es ++ fs) t = write fs (write es t)

namespace Notes

def silent : Notes σ := ⟨fun _ s => s, fun _ => rfl, fun _ _ _ => rfl⟩

def beside : Notes (σ × List Event) where
  write es s := (s.1, s.2 ++ es)
  write_nil s := by rw [List.append_nil]
  write_append es fs s := by rw [List.append_assoc]

/-- From every state the call comes to `r` and notes `es`. -/
def Comes (N : Notes τ) (c : Call τ α) (r : Except Thrown α) (es : List Event) : Prop :=
  ∀ t, start c t = (r, N.write es t)

variable {N : Notes τ} {c : Call τ α} {f : α → Call τ β} {es fs : List Event}

theorem Comes.pure (a : α) : N.Comes (Pure.pure a) (.ok a) [] := by
  intro t
  rw [start_pure, N.write_nil]

theorem Comes.fail (u : Thrown) : N.Comes (Call.fail u : Call τ α) (.error u) [] := by
  intro t
  rw [start_fail, N.write_nil]

theorem Comes.bind {a : α} {r : Except Thrown β} (hc : N.Comes c (.ok a) es) (hf : N.Comes (f a) r fs) :
    N.Comes (c >>= f) r (es ++ fs) := by
  intro t
  rw [start_bind_ok (hc t), hf, N.write_append]

theorem Comes.map {a : α} {g : α → β} (hc : N.Comes c (.ok a) es) :
    N.Comes (do let a ← c; Pure.pure (g a)) (.ok (g a)) es := by
  rw [← List.append_nil es]
  exact hc.bind (.pure (g a))

theorem Comes.stop {u : Thrown} (hc : N.Comes c (.error u) es) : N.Comes (c >>= f) (.error u) es := by
  intro t
  rw [start_bind_error (hc t)]

end Notes

namespace Reading

/-- Replaced as `T` says, the code that a plan calls computes what `R` says and notes each use. -/
structure Under (R : Reading σ) (N : Notes τ) (T : Translation σ τ) (p : Plan σ) : Prop where
  name : ∀ c, (T.capability c).name = c.name
  coerced : ∀ c ∈ p.capabilities, ∀ v,
    N.Comes ((T.capability c).coerced v) (.ok (R.coerce c v)) (if c.coerce?.isSome then [.coerce c.id v] else [])
  checked : ∀ c ∈ p.capabilities, ∀ v, N.Comes ((T.capability c).check v) (.ok (R.verdict c v)) [.check c.id v]
  made : ∀ s ∈ p.steps, ∀ i make, s.default = .factory i make → N.Comes (T.factory i make) (.ok (R.made i)) [.make i]

variable {R : Reading σ} {p : Plan σ}

theorem under_id (h : R.Of p) : R.Under .silent .id p where
  name _ := rfl
  coerced c hc v := by
    rw [show (Translation.id.capability c).coerced v = c.coerced v from rfl, h.coerced c hc]
    exact fun _ => rfl
  checked c hc v := by
    rw [show (Translation.id.capability c).check v = c.check v from rfl, h.checked c hc]
    exact fun _ => rfl
  made s hs i make hd := by
    rw [show Translation.id.factory i make = make from rfl, h.made s hs i make hd]
    exact fun _ => rfl

theorem under_watch (h : R.Of p) : R.Under .beside watch p where
  name _ := rfl
  coerced c hc v t := by
    have hv : start (c.coerced v) t.1 = (.ok (R.coerce c v), t.1) := by
      rw [h.coerced c hc]
      rfl
    rw [coerced_watch]
    cases hk : c.coerce? with
    | none =>
      have hsame : v = R.coerce c v := by simpa [Capability.coerced, hk] using hv
      rw [← hsame]
      exact Notes.Comes.pure v t
    | some f =>
      simp only [Capability.coerced, hk] at hv
      simp only [start_noted, hv]
      rfl
  checked c hc v t := by
    rw [show (watch.capability c).check v = noted (.check c.id v) (c.check v) from rfl, start_noted, h.checked c hc]
    rfl
  made s hs i make hd t := by
    rw [show watch.factory i make = noted (.make i) make from rfl, start_noted, h.made s hs i make hd]
    rfl

namespace Under

variable {N : Notes τ} {T : Translation σ τ} (h : R.Under N T p)
include h

/-! ### Screening -/

theorem comes_blame {c : Capability σ} (hc : c ∈ p.capabilities) {v : Value} {reason : Reason}
    (hv : R.verdict c v = .rejected reason) (fault : String → Reason → CallFault) :
    N.Comes (Plan.blame (T.capability c) v fault : Call τ α) (.error (.call (fault c.name reason))) [.check c.id v] := by
  have hcheck := h.checked c hc v
  rw [hv] at hcheck
  have hreason : N.Comes (Plan.reasonFor (T.capability c) v) (.ok reason) [.check c.id v] := hcheck.bind (.pure reason)
  rw [← h.name c]
  exact hreason.bind (.fail _)

theorem comes_screen {c : Capability σ} (hc : c ∈ p.capabilities) {v : Value}
    (hv : R.verdict c (R.coerce c v) = .passed) (complain : Value → Call τ Value) :
    N.Comes (Plan.screen (T.capability c) v complain) (.ok (R.coerce c v)) (R.screening c v) := by
  have hcheck := h.checked c hc (R.coerce c v)
  rw [hv] at hcheck
  exact (h.coerced c hc v).bind (hcheck.bind (.pure _))

theorem comes_screen_rejected {c : Capability σ} (hc : c ∈ p.capabilities) {v : Value} {reason : Reason}
    (hv : R.verdict c (R.coerce c v) = .rejected reason) {complain : Value → Call τ Value}
    {fault : String → Reason → CallFault}
    (hk : complain (R.coerce c v) = Plan.blame (T.capability c) (R.coerce c v) fault) :
    N.Comes (Plan.screen (T.capability c) v complain) (.error (.call (fault c.name reason)))
      (R.screening c v ++ [.check c.id (R.coerce c v)]) := by
  have hcheck := h.checked c hc (R.coerce c v)
  rw [hv] at hcheck
  have hblame := h.comes_blame (α := Value) hc hv fault
  rw [← hk] at hblame
  rw [screening, List.append_assoc]
  exact (h.coerced c hc v).bind (hcheck.bind hblame)

end Under

end Reading

/-! ## Receiving arguments -/

section receive

variable {T : Translation σ τ} {set : ParameterSet σ} {o : Options σ} {args : Value}

theorem Plan.isReject_make (T : Translation σ τ) :
    ((make set o).map T).extras.isReject = (extrasOf o).isReject := isReject_map T _

theorem Plan.length_steps_make (T : Translation σ τ) : ((make set o).map T).steps.length = set.size := by
  simp [map, make, ParameterSet.size]

theorem Plan.receive_unfit (h : ¬ (make set o).ShapeFits args) :
    ((make set o).map T).receive args
      = Call.fail (.call (.shape o.name (make set o).expectation args.describe)) := by
  have hmode : ((make set o).map T).sourceMode = o.sourceMode := rfl
  unfold receive
  rw [hmode]
  cases hm : o.sourceMode with
  | named => exact if_neg fun hobject => h ((shapeFits_named hm args).mpr hobject)
  | positional =>
    cases args with
    | list items => exact absurd ((shapeFits_positional hm _).mpr rfl) h
    | _ => rfl

theorem Plan.receive_unknown (fits : (make set o).ShapeFits args) (reject : (extrasOf o).isReject = true)
    (named : o.sourceMode = .named) {before after : Entries Value} {k : String} {v : Value}
    (split : args.entries = before ++ (k, v) :: after) (declared : ∀ e ∈ before, e.1 ∈ set.names)
    (undeclared : k ∉ set.names) :
    ((make set o).map T).receive args = Call.fail (.call (.unknown k o.name)) := by
  have hmode : ((make set o).map T).sourceMode = .named := named
  have hobject : args.isObject = true := (shapeFits_named named args).mp fits
  have hfind : List.find? (fun e => !set.names.contains e.1) args.entries = some (k, v) := by
    rw [split, List.find?_eq_some_iff_append]
    exact ⟨by simpa using undeclared, before, after, rfl, by simpa using declared⟩
  unfold receive
  rw [hmode, isReject_make, declared_map, declared_make, reject, hfind]
  exact if_pos hobject

theorem Plan.receive_extra (fits : (make set o).ShapeFits args) (reject : (extrasOf o).isReject = true)
    (positional : o.sourceMode = .positional) (long : set.size < args.items.length) :
    ((make set o).map T).receive args = Call.fail (.call (.extra set.size set.size o.name)) := by
  have hmode : ((make set o).map T).sourceMode = .positional := positional
  have hlist : args.isList = true := (shapeFits_positional positional args).mp fits
  cases args with
  | list items =>
    unfold receive
    rw [hmode, isReject_make, reject, length_steps_make, complainExtra, length_steps_make]
    exact if_pos (by simpa [Value.items] using long)
  | _ => cases hlist

theorem Plan.receive_admitted (h : set.Admits o args) : ((make set o).map T).receive args = pure () := by
  obtain ⟨fits, declared, bounded⟩ := h
  have hmode : ((make set o).map T).sourceMode = o.sourceMode := rfl
  unfold receive
  rw [hmode, isReject_make, declared_map, declared_make, length_steps_make]
  cases hm : o.sourceMode with
  | named =>
    simp only
    rw [if_pos ((shapeFits_named hm args).mp fits)]
    cases hreject : (extrasOf o).isReject with
    | false => rfl
    | true =>
      have hfind : List.find? (fun e => !set.names.contains e.1) args.entries = none := by
        rw [List.find?_eq_none]
        intro e he
        simpa using declared hreject hm e he
      rw [if_pos rfl, hfind]
  | positional =>
    have hlist : args.isList = true := (shapeFits_positional hm args).mp fits
    cases args with
    | list items =>
      refine if_neg fun hlong => ?_
      obtain ⟨hreject, hlong⟩ := (Bool.and_eq_true ..).mp hlong
      exact absurd (bounded hreject hm) (Nat.not_le_of_lt (of_decide_eq_true hlong))
    | _ => cases hlist

end receive

/-! ## Extra arguments and results -/

/-- The step of a parameter in the plan with its calls replaced. -/
def stepOf (T : Translation σ τ) (o : Options σ) (p : ParameterSpec σ) : Step τ := (Plan.step o.sourceMode p).map T

theorem Plan.steps_map_make (T : Translation σ τ) (set : ParameterSet σ) (o : Options σ) :
    ((make set o).map T).steps = set.specs.map (stepOf T o) := by
  simp [map, make, Function.comp_def, stepOf]

section finish

variable {set : ParameterSet σ} {o : Options σ} {args : Value}

theorem Plan.type?_make {t : Capability σ} (h : o.slurpy = .checked t) : (make set o).extras.type? = some t := by
  show (extrasOf o).type? = _
  rw [extrasOf, h]
  rfl

theorem Plan.type?_make_on (h : o.slurpy = .on) : (make set o).extras.type? = none := by
  show (extrasOf o).type? = _
  rw [extrasOf, h]
  rfl

/-- Nothing is screened where no capability is given. -/
theorem Plan.screenAll_free {p : Plan σ} (h : p.extras.type? = none) (es : List (String × Value)) :
    p.screenAll es = pure es := by
  induction es with
  | nil => rfl
  | cons e es ih =>
    have hfree : p.screenExtra e.1 e.2 = pure e.2 := by rw [screenExtra, h]
    rw [screenAll, hfree, pure_bind, ih, pure_bind]

theorem Plan.extraArguments_make (T : Translation σ τ) (set : ParameterSet σ) (o : Options σ) (args : Value) :
    ((make set o).map T).extraArguments args = set.extras o args := by
  have hmode : ((make set o).map T).sourceMode = o.sourceMode := rfl
  have hundeclared : ∀ es, ((make set o).map T).undeclared es = es.filter fun e => !set.names.contains e.1 := by
    intro es
    rw [undeclared, declared_map, declared_make]
  unfold extraArguments ParameterSet.extras
  rw [hmode, length_steps_make]
  cases o.sourceMode with
  | named => exact hundeclared args.entries
  | positional => rfl

theorem Plan.container_make (T : Translation σ τ) (R : Reading σ) (set : ParameterSet σ) (o : Options σ) (args : Value) :
    ((make set o).map T).container (set.specs.map (·.value R o args)) (set.kept R o args) = set.result R o args := by
  have hsource : ((make set o).map T).sourceMode = o.sourceMode := rfl
  have houtput : ((make set o).map T).outputMode = o.outputMode := rfl
  have hgiven : given ((make set o).map T).steps (set.specs.map (·.value R o args)) = set.assigned R o args := by
    rw [steps_map_make, given, List.zip_map', List.filterMap_map]
    rfl
  rw [container, ParameterSet.result, hsource, houtput, hgiven, isKeep_map, isKeep_make]
  cases o.outputMode <;> cases o.sourceMode <;> cases o.slurpy <;> rfl

end finish

/-! ## Settling parameters -/

section settle

variable {p : Plan σ} {i : Nat} {s : Step σ} {args : Value}

theorem Plan.settle_supplied {v : Value} (hv : fetch s args = v) (hu : v.isUndefined = false) :
    p.settle i s args = screen s.type v (p.complainMismatch i) := by
  rw [← hv] at hu ⊢
  exact if_neg (by simp [hu])

theorem Plan.settle_factory (hv : fetch s args = .undefined) {j : Nat} {make : Call σ Value}
    (hd : s.default = .factory j make) :
    p.settle i s args = (do screen s.type (← make) (p.complainMismatch i)) := by
  rw [settle, hv, hd]
  rfl

theorem Plan.settle_static (hv : fetch s args = .undefined) {d : Value} (hd : s.default = .value d) :
    p.settle i s args = pure d := by
  rw [settle, hv, hd]
  rfl

theorem Plan.settle_nothing (hv : fetch s args = .undefined) (hd : s.default = .none) :
    p.settle i s args = if s.isRequired then p.complainMissing i else pure .undefined := by
  rw [settle, hv, hd]
  rfl

end settle

section stepOf

variable {T : Translation σ τ} {set : ParameterSet σ} {o : Options σ} {args : Value} {p : ParameterSpec σ}

theorem stepAt_specs {i : Nat} (hi : set.specs[i]? = some p) :
    ((Plan.make set o).map T).steps[i]? = some (stepOf T o p) := by
  rw [Plan.steps_map_make, List.getElem?_map, hi]
  rfl

theorem default_stepOf {d : Default σ} (hd : p.default = d) :
    (stepOf T o p).default = d.map T := by
  rw [← hd]
  rfl

theorem fetch_eq (ha : (Plan.make set o).ShapeFits args) :
    Plan.fetch (stepOf T o p) args = (p.supplied? o args).getD .undefined := by
  have hfilter : ∀ x : Option Value, (x.filter fun v => !v.isUndefined).getD .undefined = x.getD .undefined := by
    intro x
    cases x with
    | none => rfl
    | some v => cases v <;> rfl
  unfold ParameterSpec.supplied?
  rw [hfilter]
  cases hm : o.sourceMode with
  | named =>
    have hfetch : (stepOf T o p).fetch = .key p.name := by simp only [stepOf, Step.map, Plan.step, hm]
    have hobject : args.isObject = true := (Plan.shapeFits_named hm args).mp ha
    cases args with
    | object => simp only [Plan.fetch, hfetch]
    | _ => cases hobject
  | positional =>
    have hfetch : (stepOf T o p).fetch = .index p.position := by simp only [stepOf, Step.map, Plan.step, hm]
    have hlist : args.isList = true := (Plan.shapeFits_positional hm args).mp ha
    cases args with
    | list items =>
      simp only [Plan.fetch, hfetch, Value.items, List.getD_eq_getElem?_getD]
      cases items[p.position]? <;> rfl
    | _ => cases hlist

theorem fetch_supplied (ha : (Plan.make set o).ShapeFits args) {v : Value} (hv : p.supplied? o args = some v) :
    Plan.fetch (stepOf T o p) args = v ∧ v.isUndefined = false := by
  refine ⟨by rw [fetch_eq ha, hv]; rfl, ?_⟩
  have hdefined := (Option.filter_eq_some_iff.mp hv).2
  simpa using hdefined

theorem fetch_absent (ha : (Plan.make set o).ShapeFits args) (hv : p.supplied? o args = none) :
    Plan.fetch (stepOf T o p) args = .undefined := by
  rw [fetch_eq ha, hv]
  rfl

end stepOf

theorem drop_eq_cons {l : List α} {i : Nat} {a : α} {rest : List α} (h : l.drop i = a :: rest) :
    l[i]? = some a ∧ l.drop (i + 1) = rest := by
  constructor
  · rw [← List.head?_drop, h]
    rfl
  · rw [← List.tail_drop, h]
    rfl

namespace Reading.Under

variable {R : Reading σ} {N : Notes τ} {T : Translation σ τ} {set : ParameterSet σ} {o : Options σ} {args : Value}
variable (h : R.Under N T (Plan.make set o))

theorem mem_steps {p : ParameterSpec σ} (hp : p ∈ set.specs) : Plan.step o.sourceMode p ∈ (Plan.make set o).steps :=
  List.mem_map.mpr ⟨p, hp, rfl⟩

theorem mem_capabilities {p : ParameterSpec σ} (hp : p ∈ set.specs) : p.type ∈ (Plan.make set o).capabilities :=
  Plan.mem_capabilities_step (mem_steps hp)

include h

/-- A parameter that is not violated takes its value. -/
theorem comes_settle (ha : (Plan.make set o).ShapeFits args) {i : Nat} {p : ParameterSpec σ} (hi : set.specs[i]? = some p)
    (hp : ¬ p.Violated R o args) :
    N.Comes (((Plan.make set o).map T).settle i (stepOf T o p) args) (.ok (p.value R o args)) (p.uses R o args) := by
  have hmem := List.mem_of_getElem? hi
  have hc := mem_capabilities (o := o) hmem
  have hpassed : ∀ v, p.candidate? R o args = some v → R.verdict p.type (R.coerce p.type v) = .passed := by
    intro v hv
    by_contra hr
    exact hp (.inr ⟨v, hv, hr⟩)
  rcases p.value_cases R o args with ⟨v, hs, hcandidate, hvalue, huses⟩ | ⟨j, make, hs, hd, hcandidate, hvalue, huses⟩ |
    ⟨d, hs, hd, _, hvalue, huses⟩ | ⟨hs, hd, _, hvalue, huses⟩ <;> rw [hvalue, huses]
  · obtain ⟨hv, hu⟩ := fetch_supplied ha hs
    rw [Plan.settle_supplied hv hu]
    exact h.comes_screen hc (hpassed v hcandidate) _
  · rw [Plan.settle_factory (fetch_absent ha hs) (default_stepOf hd)]
    exact (h.made _ (mem_steps hmem) j make hd).bind (h.comes_screen hc (hpassed _ hcandidate) _)
  · rw [Plan.settle_static (fetch_absent ha hs) (default_stepOf hd)]
    exact .pure d
  · have hrequired : p.isRequired = false := by
      by_contra hr
      exact hp (.inl ⟨hs, by simpa using hr, hd⟩)
    rw [Plan.settle_nothing (fetch_absent ha hs) (default_stepOf hd),
      show (stepOf T o p).isRequired = false from hrequired]
    exact .pure Value.undefined

/-- A violated parameter is reported. -/
theorem comes_settle_violated (ha : (Plan.make set o).ShapeFits args) {i : Nat} {p : ParameterSpec σ}
    (hi : set.specs[i]? = some p) {f : CallFault} {es : List Event} (hp : p.Violation R o args f es) :
    N.Comes (((Plan.make set o).map T).settle i (stepOf T o p) args) (.error (.call f)) es := by
  have hmem := List.mem_of_getElem? hi
  have hc := mem_capabilities (o := o) hmem
  have hstep := stepAt_specs (T := T) (o := o) hi
  cases hp with
  | missing absent required default =>
    rw [Plan.settle_nothing (fetch_absent ha absent) (default_stepOf default),
      show (stepOf T o p).isRequired = true from required, if_pos rfl, Plan.complainMissing_eq hstep]
    exact .fail _
  | @mismatch v reason given rejected =>
    have hcomplain := Plan.complainMismatch_eq (α := Value) hstep (R.coerce p.type v)
    rcases p.value_cases R o args with ⟨w, hs, hcandidate, _, huses⟩ | ⟨j, make, hs, hd, hcandidate, _, huses⟩ |
      ⟨_, _, _, hcandidate, _⟩ | ⟨_, _, hcandidate, _⟩ <;> rw [hcandidate] at given <;> cases given
    · obtain ⟨hv, hu⟩ := fetch_supplied ha hs
      rw [Plan.settle_supplied hv hu, huses]
      exact h.comes_screen_rejected hc rejected hcomplain
    · rw [Plan.settle_factory (fetch_absent ha hs) (default_stepOf hd), huses]
      exact (h.made _ (mem_steps hmem) j make hd).bind (h.comes_screen_rejected hc rejected hcomplain)

/-- Parameters that are not violated settle one after the other. -/
theorem comes_settleFrom (ha : (Plan.make set o).ShapeFits args) {specs : List (ParameterSpec σ)} {i : Nat}
    (hspecs : set.specs.drop i = specs) (hp : ∀ q ∈ specs, ¬ q.Violated R o args) :
    N.Comes (((Plan.make set o).map T).settleFrom args i (specs.map (stepOf T o)))
      (.ok (specs.map (·.value R o args))) (specs.flatMap (·.uses R o args)) := by
  induction specs generalizing i with
  | nil => exact .pure []
  | cons p specs ih =>
    obtain ⟨hi, hrest⟩ := drop_eq_cons hspecs
    have here := h.comes_settle ha hi (hp p List.mem_cons_self)
    have rest := ih hrest fun q hq => hp q (List.mem_cons_of_mem _ hq)
    rw [List.flatMap_cons]
    exact here.bind rest.map

/-- The first violated parameter stops the sequence. -/
theorem comes_settleFrom_violated (ha : (Plan.make set o).ShapeFits args) {before after : List (ParameterSpec σ)}
    {p : ParameterSpec σ} {i : Nat} (hspecs : set.specs.drop i = before ++ p :: after)
    (hbefore : ∀ q ∈ before, ¬ q.Violated R o args) {f : CallFault} {es : List Event}
    (hp : p.Violation R o args f es) :
    N.Comes (((Plan.make set o).map T).settleFrom args i ((before ++ p :: after).map (stepOf T o)))
      (.error (.call f)) (before.flatMap (·.uses R o args) ++ es) := by
  induction before generalizing i with
  | nil => exact (h.comes_settle_violated ha (drop_eq_cons hspecs).1 hp).stop
  | cons q before ih =>
    obtain ⟨hi, hrest⟩ := drop_eq_cons hspecs
    have here := h.comes_settle ha hi (hbefore q List.mem_cons_self)
    have rest := ih hrest fun r hr => hbefore r (List.mem_cons_of_mem _ hr)
    rw [List.flatMap_cons, List.append_assoc]
    exact here.bind rest.stop

/-! ### Extra arguments -/

variable {t : Capability σ}

theorem comes_screenExtra (ht : (Plan.make set o).extras.type? = some t) {label : String} {v : Value}
    (hv : R.verdict t (R.coerce t v) = .passed) :
    N.Comes (((Plan.make set o).map T).screenExtra label v) (.ok (R.coerce t v)) (R.screening t v) := by
  unfold Plan.screenExtra
  rw [Plan.type?_map, ht]
  exact h.comes_screen (Plan.mem_capabilities_extras ht) hv _

theorem comes_screenExtra_rejected (ht : (Plan.make set o).extras.type? = some t) {label : String}
    {reason : Reason} {v : Value} (hv : R.verdict t (R.coerce t v) = .rejected reason) :
    N.Comes (((Plan.make set o).map T).screenExtra label v)
      (.error (.call (.mismatch label none o.name t.name reason (R.coerce t v))))
      (R.screening t v ++ [.check t.id (R.coerce t v)]) := by
  have htype : ((Plan.make set o).map T).extras.type? = some (T.capability t) := by rw [Plan.type?_map, ht]; rfl
  unfold Plan.screenExtra
  rw [htype]
  exact h.comes_screen_rejected (Plan.mem_capabilities_extras ht) hv (Plan.complainExtraMismatch_eq htype label _)

theorem comes_screenAll (ht : (Plan.make set o).extras.type? = some t) {es : List (String × Value)}
    (hes : ∀ e ∈ es, R.verdict t (R.coerce t e.2) = .passed) :
    N.Comes (((Plan.make set o).map T).screenAll es) (.ok (es.map fun e => (e.1, R.coerce t e.2)))
      (es.flatMap fun e => R.screening t e.2) := by
  induction es with
  | nil => exact .pure []
  | cons e es ih =>
    have here : N.Comes (((Plan.make set o).map T).screenExtra e.1 e.2) (.ok (R.coerce t e.2)) (R.screening t e.2) :=
      h.comes_screenExtra ht (hes e List.mem_cons_self)
    have rest := ih fun d hd => hes d (List.mem_cons_of_mem _ hd)
    rw [List.flatMap_cons]
    exact here.bind rest.map

theorem comes_screenAll_rejected (ht : (Plan.make set o).extras.type? = some t) {before after : List (String × Value)}
    (hbefore : ∀ e ∈ before, R.verdict t (R.coerce t e.2) = .passed) {label : String} {reason : Reason} {v : Value}
    (hv : R.verdict t (R.coerce t v) = .rejected reason) :
    N.Comes (((Plan.make set o).map T).screenAll (before ++ (label, v) :: after))
      (.error (.call (.mismatch label none o.name t.name reason (R.coerce t v))))
      ((before ++ [(label, v)]).flatMap (fun e => R.screening t e.2) ++ [.check t.id (R.coerce t v)]) := by
  induction before with
  | nil =>
    rw [List.nil_append, List.nil_append, List.flatMap_cons, List.flatMap_nil, List.append_nil]
    exact (h.comes_screenExtra_rejected ht hv).stop
  | cons e before ih =>
    have here : N.Comes (((Plan.make set o).map T).screenExtra e.1 e.2) (.ok (R.coerce t e.2)) (R.screening t e.2) :=
      h.comes_screenExtra ht (hbefore e List.mem_cons_self)
    have rest := ih fun d hd => hbefore d (List.mem_cons_of_mem _ hd)
    rw [List.cons_append, List.cons_append, List.flatMap_cons, List.append_assoc]
    exact here.bind rest.stop

/-! ### The phases -/

omit h in
theorem comes_fail {u : Thrown} (hu : ((Plan.make set o).map T).receive args = Call.fail u) :
    N.Comes (((Plan.make set o).map T).generic args) (.error u) [] := by
  rw [Plan.generic_eq, hu]
  exact (Notes.Comes.fail u).stop

theorem comes_violated (hset : set.Declared env) (admits : set.Admits o args) {p : ParameterSpec σ} (mem : p ∈ set.specs)
    {f : CallFault} {es : List Event} (violation : p.Violation R o args f es)
    (smallest : ∀ q ∈ set.specs, q.Violated R o args → p.position ≤ q.position) :
    N.Comes (((Plan.make set o).map T).generic args) (.error (.call f))
      ((set.specs.take p.position).flatMap (·.uses R o args) ++ es) := by
  have hposition := (ParameterSet.declared_sound hset).2
  obtain ⟨i, hi⟩ := List.mem_iff_getElem?.mp mem
  obtain ⟨rfl, -⟩ := hposition i p hi
  obtain ⟨hlt, hp⟩ := List.getElem?_eq_some_iff.mp hi
  have hdrop : set.specs.drop p.position = p :: set.specs.drop (p.position + 1) := by
    rw [List.drop_eq_getElem_cons hlt, hp]
  have hsplit : set.specs.drop 0 = set.specs.take p.position ++ p :: set.specs.drop (p.position + 1) := by
    rw [List.drop_zero, ← hdrop, List.take_append_drop]
  have hbefore : ∀ q ∈ set.specs.take p.position, ¬ q.Violated R o args := by
    intro q hq hviolated
    obtain ⟨j, hj, rfl⟩ := List.mem_take_iff_getElem.mp hq
    have hle := smallest _ (List.getElem_mem _) hviolated
    rw [(hposition j _ (List.getElem?_eq_getElem _)).1] at hle
    omega
  have hsettle := h.comes_settleFrom_violated admits.fits hsplit hbefore violation
  rw [← hsplit, List.drop_zero] at hsettle
  rw [Plan.generic_eq, Plan.receive_admitted admits, pure_bind, Plan.steps_map_make]
  exact hsettle.stop

/-- Once all parameters are settled, the extra arguments that are kept decide. -/
theorem comes_settled (hkeep : (Plan.make set o).KeepsOrder) (admits : set.Admits o args)
    (satisfied : ∀ q ∈ set.specs, ¬ q.Violated R o args) {r : Except Thrown Value}
    {es : List Event} (hr : N.Comes (do
      let kept ← ((Plan.make set o).map T).keepExtras args
      pure (((Plan.make set o).map T).container (set.specs.map (·.value R o args)) kept)) r es) :
    N.Comes (((Plan.make set o).map T).generic args) r (set.specs.flatMap (·.uses R o args) ++ es) := by
  have hordered : ((Plan.make set o).map T).KeepsOrder := by
    rw [Plan.KeepsOrder, Plan.isKeep_map]
    exact hkeep
  rw [Plan.generic_eq, Plan.receive_admitted admits, pure_bind, Plan.steps_map_make]
  refine (h.comes_settleFrom admits.fits List.drop_zero satisfied).bind ?_
  rw [Plan.finish_eq hordered]
  exact hr

theorem comes_extraRejected (hkeep : (Plan.make set o).KeepsOrder) (admits : set.Admits o args)
    (satisfied : ∀ q ∈ set.specs, ¬ q.Violated R o args) (slurpy : o.slurpy = .checked t)
    {before after : List (String × Value)} {label : String} {reason : Reason} {v : Value}
    (split : set.extras o args = before ++ (label, v) :: after)
    (accepted : ∀ e ∈ before, R.verdict t (R.coerce t e.2) = .passed)
    (rejected : R.verdict t (R.coerce t v) = .rejected reason) :
    N.Comes (((Plan.make set o).map T).generic args)
      (.error (.call (.mismatch label none o.name t.name reason (R.coerce t v))))
      (set.specs.flatMap (·.uses R o args) ++
        (ParameterSet.extraUses R o (before ++ [(label, v)]) ++ [.check t.id (R.coerce t v)])) := by
  refine h.comes_settled hkeep admits satisfied ?_
  rw [Plan.keepExtras, Plan.isKeep_map, Plan.isKeep_make, slurpy, if_pos rfl, Plan.extraArguments_make, split,
    ParameterSet.extraUses, slurpy]
  exact (h.comes_screenAll_rejected (Plan.type?_make slurpy) accepted rejected).stop

theorem comes_returned (hkeep : (Plan.make set o).KeepsOrder) (admits : set.Admits o args)
    (satisfied : ∀ q ∈ set.specs, ¬ q.Violated R o args)
    (accepted : ∀ t, o.slurpy = .checked t → ∀ e ∈ set.extras o args, R.verdict t (R.coerce t e.2) = .passed) :
    N.Comes (((Plan.make set o).map T).generic args) (.ok (set.result R o args))
      (set.specs.flatMap (·.uses R o args) ++ ParameterSet.extraUses R o (set.extras o args)) := by
  refine h.comes_settled hkeep admits satisfied ?_
  have hkept : N.Comes (((Plan.make set o).map T).keepExtras args) (.ok (set.kept R o args))
      (ParameterSet.extraUses R o (set.extras o args)) := by
    rw [Plan.keepExtras, Plan.isKeep_map, Plan.isKeep_make, Plan.extraArguments_make, ParameterSet.kept,
      ParameterSet.extraUses]
    cases hs : o.slurpy with
    | off => exact .pure []
    | on =>
      have htype : ((Plan.make set o).map T).extras.type? = none := by rw [Plan.type?_map, Plan.type?_make_on hs]; rfl
      rw [if_pos rfl, Plan.screenAll_free htype]
      exact .pure _
    | checked t => exact h.comes_screenAll (Plan.type?_make hs) (accepted t hs)
  rw [← Plan.container_make T]
  exact hkept.map

/-- Whatever is specified is what a call comes to. -/
theorem comes_specified (hset : set.Declared env) (hkeep : (Plan.make set o).KeepsOrder) {r : Except Thrown Value}
    {es : List Event} (hr : Specified R set o args r es) : N.Comes (((Plan.make set o).map T).generic args) r es := by
  cases hr with
  | shape unfit => exact comes_fail (Plan.receive_unfit unfit)
  | unknown fits reject named split declared undeclared =>
    exact comes_fail (Plan.receive_unknown fits reject named split declared undeclared)
  | extra fits reject positional long => exact comes_fail (Plan.receive_extra fits reject positional long)
  | violated admits mem violation smallest => exact h.comes_violated hset admits mem violation smallest
  | extraRejected admits satisfied slurpy split accepted rejected =>
    exact h.comes_extraRejected hkeep admits satisfied slurpy split accepted rejected
  | returned admits satisfied accepted => exact h.comes_returned hkeep admits satisfied accepted

end Reading.Under

/-! ## The theorem -/

/-- The generic routine comes to what is specified and to nothing else, calling what is
specified; its records hold each entry that is specified once. -/
theorem Plan.generic_meets_specification {set : ParameterSet σ} {given : Value} {o : Options σ} (hset : set.Declared env)
    (ho : Options.resolve env given = .ok o) {R : Reading σ} (hR : R.Of (Plan.make set o)) (args : Value) :
    (∀ s r s', start ((Plan.make set o).generic args) s = (r, s') ↔ s' = s ∧ ∃ es, Specified R set o args r es) ∧
    (∀ s log r s' log', start (((Plan.make set o).map watch).generic args) (s, log) = (r, s', log') ↔
      s' = s ∧ ∃ es, log' = log ++ es ∧ Specified R set o args r es) ∧
    ((args.entries.map (·.1)).Nodup →
      (o.outputMode = .mapped → Entries.ofList (set.assigned R o args ++ set.kept R o args)
        = set.assigned R o args ++ set.kept R o args) ∧
      (o.sourceMode = .named → Entries.ofList (set.kept R o args) = set.kept R o args)) := by
  have hkeep := Plan.keepsOrder_make ho set
  obtain ⟨r₀, es₀, hr₀⟩ := Specified.total R set o args
  refine ⟨fun s r s' => ?_, fun s log r s' log' => ?_, fun hargs => ⟨fun hm => ?_, fun hs => ?_⟩⟩
  · have plain : ∀ {r es}, Specified R set o args r es → start ((Plan.make set o).generic args) s = (r, s) := by
      intro r es hr
      have hcomes := (Reading.under_id hR).comes_specified hset hkeep hr s
      rwa [Plan.map_id] at hcomes
    constructor
    · intro hrun
      rw [plain hr₀] at hrun
      cases hrun
      exact ⟨rfl, es₀, hr₀⟩
    · rintro ⟨rfl, es, hr⟩
      exact plain hr
  · have watched : ∀ {r es}, Specified R set o args r es →
        start (((Plan.make set o).map watch).generic args) (s, log) = (r, s, log ++ es) :=
      fun hr => (Reading.under_watch hR).comes_specified hset hkeep hr (s, log)
    constructor
    · intro hrun
      rw [watched hr₀] at hrun
      cases hrun
      exact ⟨rfl, es₀, rfl, hr₀⟩
    · rintro ⟨rfl, es, rfl, hr⟩
      exact watched hr
  · obtain ⟨hassigned, hnames⟩ := ParameterSet.nodup_assigned (ParameterSet.declared_sound hset).1 R o args
    apply Entries.ofList_of_nodup
    rw [List.map_append, List.nodup_append]
    cases hsource : o.sourceMode with
    | named =>
      obtain ⟨hkept, hextra⟩ : ((set.kept R o args).map (·.1)).Nodup ∧
        ∀ k ∈ (set.kept R o args).map (·.1), k ∉ set.names :=
        ParameterSet.nodup_kept hargs hsource R
      exact ⟨hassigned, hkept, fun a ha b hb hab => hextra b hb (hab ▸ hnames a ha)⟩
    | positional =>
      have hoff : o.slurpy = .off := (Options.outputMode_of_positional ho hsource).resolve_right (by simp [hm])
      have hnone : set.kept R o args = [] := by rw [ParameterSet.kept, hoff]
      rw [hnone]
      exact ⟨hassigned, List.nodup_nil, fun _ _ _ hb => (nomatch hb)⟩
  · exact Entries.ofList_of_nodup (ParameterSet.nodup_kept hargs hs R).1

/-! ## A booking with a factory that is pure -/

/-- Function `1` says of every run that it is so. -/
def Surroundings.fixed : Surroundings Nat :=
  { Surroundings.alternating with run := fun _ _ => pure (.bool true) }

def ParameterSet.fixedBooking : ParameterSet Nat where
  specs := [⟨"seat", 0, Capability.Scalar.nonEmptyStr.capability 1, .bool true, .none⟩,
    ⟨"aisle", 1, Capability.Scalar.bool.capability 2, .bool false, .factory 1 (pure (.bool true))⟩]

def Reading.booking : Reading Nat where
  coerce _ v := v
  verdict c v := match start (c.check v) 0 with
    | (.ok r, _) => r
    | (.error _, _) => .passed
  made _ := .bool true

theorem Reading.of_booking : Reading.booking.Of (Plan.make ParameterSet.fixedBooking .standard) := by
  have hstock : ∀ c ∈ (Plan.make ParameterSet.fixedBooking .standard).capabilities,
      ∃ (s : Capability.Scalar) (id : Nat), c = s.capability id := by
    intro c hc
    have : c = Capability.Scalar.nonEmptyStr.capability 1 ∨ c = Capability.Scalar.bool.capability 2 := by
      simpa [Plan.capabilities, Plan.make, Plan.step, ParameterSet.fixedBooking,
        Plan.type?_extrasOf (o := .standard) rfl] using hc
    rcases this with rfl | rfl <;> exact ⟨_, _, rfl⟩
  refine ⟨fun c hc v => ?_, fun c hc v => ?_, fun s hs i make hd => ?_⟩
  · obtain ⟨s, id, rfl⟩ := hstock c hc
    rfl
  · obtain ⟨s, id, rfl⟩ := hstock c hc
    rfl
  · obtain ⟨p, hp, rfl⟩ := Plan.steps_make hs
    simp only [ParameterSet.fixedBooking, List.mem_cons, List.not_mem_nil, or_false] at hp
    rcases hp with rfl | rfl
    · cases hd
    · cases hd
      rfl

/-- Two parameters are violated, and the one that comes first is reported before anything is called. -/
theorem Plan.generic_meets_specification_booking :
    start (((Plan.make ParameterSet.fixedBooking .standard).map watch).generic (.record [("aisle", .text "yes")])) (0, [])
      = (.error (.call (.missing "seat" 0 "validator")), 0, []) := by
  have hset : ParameterSet.fixedBooking.Declared Surroundings.fixed := ⟨ParameterSet.bookingDefinitions, 0, 0, rfl⟩
  have admits : ParameterSet.fixedBooking.Admits .standard (.record [("aisle", .text "yes")]) := by
    refine ⟨rfl, fun _ _ e he => ?_, fun _ hs => by cases hs⟩
    have hindex : Text.arrayIndex? "aisle" = none := by decide
    have hentries : (Value.record [("aisle", .text "yes")]).entries = [("aisle", .text "yes")] := by
      simp [Value.record, Value.entries, Entries.ordered, hindex]
    rw [hentries] at he
    cases List.mem_singleton.mp he
    simp [ParameterSet.names, ParameterSet.fixedBooking]
  have hspecified : Specified Reading.booking ParameterSet.fixedBooking .standard (.record [("aisle", .text "yes")])
      (.error (.call (.missing "seat" 0 "validator"))) [] :=
    .violated admits List.mem_cons_self (.missing rfl rfl rfl) fun _ _ _ => Nat.zero_le _
  exact ((Plan.generic_meets_specification hset (Options.resolve_undefined rfl) Reading.of_booking _).2.1 0 [] _ 0 []).mpr
    ⟨rfl, [], rfl, hspecified⟩

end ArgGuard
