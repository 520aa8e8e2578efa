/-
  ArgGuard.Proofs.Routine.Widening — combinators at the level of a parameter.

  What passes a capability passes it as an alternative to nothing at all, whatever code the
  capability runs: `maybe` coerces as the inner capability does (`Strategy.Passes.maybe`). A
  union has no coercion. So it accepts what a member accepts as it stands
  (`Strategy.passes_union`) and nothing else (`Strategy.exists_passes_of_union`), and a
  validator widens by a union on the values that the member leaves as they are
  (`Validator.combinators_widen`); on others it may not (`Validator.union_not_coerced`).
-/

import ArgGuard.Proofs.Routine.Extras
import ArgGuard.Proofs.Routine.WholeTexts

namespace ArgGuard

open Call

variable {σ : Type} {env : Surroundings σ}

/-! ## Alternatives -/

namespace Fragment

theorem holds_either_iff {a b : Fragment} {v : Value} :
    (either a b).holds v = .ok true ↔ a.holds v = .ok true ∨ a.holds v = .ok false ∧ b.holds v = .ok true := by
  rw [holds]
  rcases a.holds v with t | _ | _ <;> simp [bind, Except.bind]

/-- Some condition holds, and those before it can be told not to. -/
def FirstHolds (v : Value) : List Fragment → Prop
  | [] => False
  | f :: fs => f.holds v = .ok true ∨ f.holds v = .ok false ∧ FirstHolds v fs

theorem holds_alternatives {f : Fragment} {fs : List Fragment} {v : Value} :
    (Capability.Union.alternatives f fs).holds v = .ok true ↔ FirstHolds v (f :: fs) := by
  induction fs generalizing f with
  | nil => simp [Capability.Union.alternatives, FirstHolds, holds]
  | cons g gs ih =>
    rw [Capability.Union.alternatives, holds_either_iff, ih]
    rfl

end Fragment

namespace Capability

/-- The check of a value comes to a verdict, whatever the state, and so does the inline form. -/
structure AnswersOn (c : Capability σ) (v : Value) : Prop where
  check : ∀ s, ∃ r, (start (c.check v) s).1 = .ok r
  form : ∀ f, c.inline? = some f → ∃ b, f.holds v = .ok b

theorem answersOn_of_decides {c : Capability σ} {f : Fragment} (hf : c.inline? = some f) (h : Decides f c) (v : Value) :
    c.AnswersOn v := by
  obtain ⟨r, hcheck, hholds⟩ := h.2 v
  refine ⟨fun s => ⟨r, by rw [hcheck]; rfl⟩, fun g hg => ⟨r.isPassed, ?_⟩⟩
  cases hf.symm.trans hg
  exact hholds

namespace Union

variable {members before after : List (Capability σ)} {c u : Capability σ} {id : Nat} {v : Value}

/-- The inline forms of the members, where all have one. -/
theorem forms_of_mapM {fs : List Fragment} (h : members.mapM (·.inline?) = some fs) :
    List.Forall₂ (fun c f => c.inline? = some f) members fs := by
  induction members generalizing fs with
  | nil =>
    cases h
    exact .nil
  | cons c members ih =>
    simp only [List.mapM_cons, Option.bind_eq_bind, Option.bind_eq_some_iff] at h
    obtain ⟨f, hf, gs, hgs, h⟩ := h
    cases h
    exact .cons hf (ih hgs)

theorem coerced_eq (hu : capability id members = .ok u) (v : Value) : u.coerced v = pure v := by
  rw [coerced, (capability_eq hu).1]

/-- The form of a union holds when one of its members does first. -/
theorem form_eq (hu : capability id members = .ok u) {g : Fragment} (hg : u.inline? = some g) :
    ∃ fs, List.Forall₂ (fun c f => c.inline? = some f) members fs ∧
      (g.holds v = .ok true ↔ Fragment.FirstHolds v fs) := by
  rw [(capability_eq hu).2.1, fragment?] at hg
  split at hg
  · rename_i f fs hfs
    cases hg
    exact ⟨f :: fs, forms_of_mapM hfs, Fragment.holds_alternatives⟩
  · cases hg

theorem inline_of_forms {fs : List Fragment} (hfs : List.Forall₂ (fun c f => c.inline? = some f) members fs)
    (hc : c ∈ members) : c.inline?.isSome = true := by
  induction hfs with
  | nil => cases hc
  | cons hf _ ih =>
    rcases List.mem_cons.mp hc with rfl | hc
    · rw [hf]
      rfl
    · exact ih hc

/-- A union has an inline form only where all its members have one. -/
theorem inline_of_union (hu : capability id members = .ok u) (hinline : u.inline?.isSome = true) (hc : c ∈ members) :
    c.inline?.isSome = true := by
  obtain ⟨g, hg⟩ := Option.isSome_iff_exists.mp hinline
  obtain ⟨fs, hfs, _⟩ := form_eq (v := .undefined) hu hg
  exact inline_of_forms hfs hc

theorem firstHolds_of_answers {fs : List Fragment}
    (hfs : List.Forall₂ (fun c f => c.inline? = some f) (before ++ c :: after) fs) (hbefore : ∀ m ∈ before, m.AnswersOn v)
    (hc : ∀ f, c.inline? = some f → f.holds v = .ok true) : Fragment.FirstHolds v fs := by
  induction before generalizing fs with
  | nil =>
    cases hfs with
    | cons hf _ => exact .inl (hc _ hf)
  | cons m before ih =>
    cases hfs with
    | cons hf hfs =>
      obtain ⟨b, hb⟩ := (hbefore m List.mem_cons_self).form _ hf
      cases b with
      | true => exact .inl hb
      | false => exact .inr ⟨hb, ih hfs fun m' hm => hbefore m' (List.mem_cons_of_mem _ hm)⟩

theorem exists_of_firstHolds {fs : List Fragment} (hfs : List.Forall₂ (fun c f => c.inline? = some f) members fs)
    (h : Fragment.FirstHolds v fs) : ∃ m ∈ members, ∃ f, m.inline? = some f ∧ f.holds v = .ok true := by
  induction hfs with
  | nil => cases h
  | @cons m f _ _ hf _ ih =>
    rcases h with h | ⟨_, h⟩
    · exact ⟨m, List.mem_cons_self, f, hf, h⟩
    · obtain ⟨m', hm, hholds⟩ := ih h
      exact ⟨m', List.mem_cons_of_mem _ hm, hholds⟩

/-- The members before one that accepts answer, so that one is reached. -/
theorem start_tryEach (hbefore : ∀ m ∈ before, m.AnswersOn v) (hc : ∀ s, (start (c.check v) s).1 = .ok .passed)
    (reasons : List String) (s : σ) : (start (tryEach v (before ++ c :: after) reasons) s).1 = .ok none := by
  induction before generalizing reasons s with
  | nil =>
    exact start_bind_value.mpr ⟨.passed, (start (c.check v) s).2, Prod.ext (hc s) rfl, rfl⟩
  | cons m before ih =>
    obtain ⟨r, hr⟩ := (hbefore m List.mem_cons_self).check s
    refine start_bind_value.mpr ⟨r, (start (m.check v) s).2, Prod.ext hr rfl, ?_⟩
    cases r with
    | passed => rfl
    | rejected reason => exact ih (fun m' hm => hbefore m' (List.mem_cons_of_mem _ hm)) _ _

theorem exists_of_tryEach {reasons : List String} {s : σ} (h : (start (tryEach v members reasons) s).1 = .ok none) :
    ∃ m ∈ members, ∃ t, (start (m.check v) t).1 = .ok .passed := by
  induction members generalizing reasons s with
  | nil => cases h
  | cons m members ih =>
    obtain ⟨r, s₁, hr, h⟩ := start_bind_value.mp h
    cases r with
    | passed => exact ⟨m, List.mem_cons_self, s, by rw [hr]⟩
    | rejected reason =>
      obtain ⟨m', hm, hpassed⟩ := ih h
      exact ⟨m', List.mem_cons_of_mem _ hm, hpassed⟩

theorem start_check (hu : capability id members = .ok u) {s : σ} :
    (start (u.check v) s).1 = .ok .passed ↔ (start (tryEach v members []) s).1 = .ok none := by
  rw [(capability_eq hu).2.2, start_bind_value]
  constructor
  · rintro ⟨r, s₁, hr, h⟩
    cases r with
    | none => rw [hr]
    | some reasons => cases h
  · intro h
    exact ⟨none, (start (tryEach v members []) s).2, Prod.ext h rfl, rfl⟩

end Union

end Capability

/-! ## What passes a combinator -/

namespace Strategy

variable {path : Strategy} {c u : Capability σ} {v : Value} {s : σ}

/-- Nothing or what passes the inner capability. -/
theorem passes_maybe {id : Nat} : path.Passes (Capability.maybe id c) v s ↔ v.isAbsent = true ∨ path.Passes c v s := by
  rcases path.check_or_form c with hcheck | ⟨rfl, f, hf⟩
  · have hcheck' : path = .generic ∨ (Capability.maybe id c).inline? = none :=
      hcheck.imp_right fun hnone => by
        show c.inline?.map _ = none
        rw [hnone]
        rfl
    rw [passes_check hcheck, passes_check hcheck']
    show (start (if v.isAbsent then pure .passed else c.check v) s).1 = _ ↔ _
    cases v.isAbsent <;> simp
  · have hform : (Capability.maybe id c).inline? = some (.group (.either .isNull (.either .isUndefined (.group f)))) := by
      show c.inline?.map _ = _
      rw [hf]
      rfl
    rw [passes_form hf, passes_form hform]
    show (Fragment.either .isNull (.either .isUndefined (.group f))).holds v = _ ↔ _
    cases v with
    | undefined => exact iff_of_true rfl (.inl rfl)
    | null => exact iff_of_true rfl (.inl rfl)
    | _ => exact ⟨.inr, fun h => h.resolve_left (by simp [Value.isAbsent])⟩

theorem Passes.maybe (h : path.Passes c v s) (id : Nat) : path.Passes (Capability.maybe id c) v s :=
  passes_maybe.mpr (.inr h)

variable {members before after : List (Capability σ)} {id : Nat}

/-- A union passes what a member passes as it stands, if the members before it answer. -/
theorem passes_union (hu : Capability.Union.capability id (before ++ c :: after) = .ok u)
    (hpath : path = .inline → u.inline?.isSome = true) (hbefore : ∀ m ∈ before, m.AnswersOn v)
    (hc : ∀ t, path.Passes c v t) : path.Passes u v s := by
  rcases path.check_or_form u with hcheck | ⟨rfl, g, hg⟩
  · have hgeneric : path = .generic := by
      rcases hcheck with rfl | hnone
      · rfl
      · cases path with
        | generic => rfl
        | inline =>
          rw [hnone] at hpath
          cases hpath rfl
    rw [passes_check (.inl hgeneric), Capability.Union.start_check hu]
    exact Capability.Union.start_tryEach hbefore (fun t => (passes_check (.inl hgeneric)).mp (hc t)) [] s
  · obtain ⟨fs, hfs, hholds⟩ := Capability.Union.form_eq (v := v) hu hg
    rw [passes_form hg, hholds]
    exact Capability.Union.firstHolds_of_answers hfs hbefore fun f hf => (passes_form hf).mp (hc s)

/-- A union passes nothing that no member passes as it stands. -/
theorem exists_passes_of_union (hu : Capability.Union.capability id members = .ok u)
    (hpath : path = .inline → u.inline?.isSome = true) (h : path.Passes u v s) :
    ∃ m ∈ members, ∃ t, path.Passes m v t := by
  cases path with
  | generic =>
    rw [passes_check (.inl rfl), Capability.Union.start_check hu] at h
    obtain ⟨m, hm, t, ht⟩ := Capability.Union.exists_of_tryEach h
    exact ⟨m, hm, t, (passes_check (.inl rfl)).mpr ht⟩
  | inline =>
    obtain ⟨g, hg⟩ := Option.isSome_iff_exists.mp (hpath rfl)
    obtain ⟨fs, hfs, hholds⟩ := Capability.Union.form_eq (v := v) hu hg
    obtain ⟨m, hm, f, hf, hholds⟩ := Capability.Union.exists_of_firstHolds hfs (hholds.mp ((passes_form hg).mp h))
    exact ⟨m, hm, s, (passes_form hf).mpr hholds⟩

/-- Judging by repeatable code can be repeated. -/
theorem repeatable_judge (h : c.Repeatable) (fault : String → Reason → CallFault) :
    Call.Repeatable (path.judge c v fault) := by
  have hblame : Call.Repeatable (Plan.blame c v fault : Call σ Value) :=
    (h.reasonFor v).bind fun _ => (Always.fail _).repeatable
  rcases path.check_or_form c with hcheck | ⟨rfl, f, hf⟩
  · rw [judge_check hcheck]
    refine (h.checked v).bind fun r => ?_
    cases r with
    | passed => exact (Always.pure v).repeatable
    | rejected reason => exact hblame
  · show Call.Repeatable (Plan.conditioned c v fault)
    rw [Plan.conditioned_eq hf]
    refine (Always.ofExcept _).repeatable.bind fun b => ?_
    cases b with
    | true => exact (Always.pure v).repeatable
    | false => exact hblame

end Strategy

/-! ## Sets that differ in one parameter -/

namespace Plan

variable {p r : Plan σ} {judge : Judge σ} {args : Value}

theorem judgeExtras_congr (hname : r.name = p.name) (hextras : r.extras = p.extras) (es : List (String × Value)) :
    r.judgeExtras judge es = p.judgeExtras judge es := by
  have hfault : ∀ k v, r.extraFault k v = p.extraFault k v := fun k v => by
    funext type reason
    simp only [extraFault, hname]
  induction es with
  | nil => rfl
  | cons e es ih => simp only [judgeExtras, judgeExtra, hfault, hextras, ih]

section repeatable

variable {path : Strategy}

theorem repeatable_judgeStep {q : Step σ} (h : q.type.Repeatable) (v : Value) :
    Call.Repeatable (p.judgeStep path.judge q v) :=
  (h.coerced v).bind fun _ => Strategy.repeatable_judge h _

theorem repeatable_settleStep {q : Step σ} (h : q.type.Repeatable)
    (hmake : ∀ i make, q.default = .factory i make → Call.Repeatable make) :
    Call.Repeatable (p.settleStep path.judge args q) := by
  unfold settleStep
  simp only
  split
  · split
    · exact (Always.pure _).repeatable
    · rename_i make hd
      exact (hmake _ _ hd).bind fun v => repeatable_judgeStep h v
    · split
      · exact (Always.fail _).repeatable
      · exact (Always.pure _).repeatable
  · exact repeatable_judgeStep h _

theorem repeatable_settleSteps {steps : List (Step σ)} (h : ∀ q ∈ steps, Call.Repeatable (p.settleStep judge args q)) :
    Call.Repeatable (p.settleSteps judge args steps) := by
  induction steps with
  | nil => exact (Always.pure _).repeatable
  | cons q steps ih =>
    exact (h q List.mem_cons_self).bind fun _ =>
      (ih fun r hr => h r (List.mem_cons_of_mem _ hr)).bind fun _ => (Always.pure _).repeatable

theorem repeatable_judgeKept (h : ∀ t, p.extras.type? = some t → t.Repeatable) :
    Call.Repeatable (p.judgeKept path.judge args) := by
  have hextra : ∀ k v, Call.Repeatable (p.judgeExtra path.judge k v) := by
    intro k v
    unfold judgeExtra
    split
    · rename_i t ht
      exact ((h t ht).coerced v).bind fun _ => Strategy.repeatable_judge (h t ht) _
    · exact (Always.pure _).repeatable
  have hall : ∀ es, Call.Repeatable (p.judgeExtras path.judge es) := by
    intro es
    induction es with
    | nil => exact (Always.pure _).repeatable
    | cons e es ih => exact (hextra e.1 e.2).bind fun _ => ih.bind fun _ => (Always.pure _).repeatable
  unfold judgeKept
  split
  · exact hall _
  · exact (Always.pure _).repeatable

end repeatable

/-- Steps settle on what they do when one is replaced by a step that settles on what it does;
those behind it may start from another state. -/
theorem start_settleSteps_replaced {before after : List (Step σ)} {q q' : Step σ}
    (hq : ∀ s w, (start (p.settleStep judge args q) s).1 = .ok w → (start (p.settleStep judge args q') s).1 = .ok w)
    (hafter : ∀ r ∈ after, Call.Repeatable (p.settleStep judge args r)) {s : σ} {vs : List Value}
    (h : (start (p.settleSteps judge args (before ++ q :: after)) s).1 = .ok vs) :
    (start (p.settleSteps judge args (before ++ q' :: after)) s).1 = .ok vs := by
  induction before generalizing s vs with
  | nil =>
    obtain ⟨w, s₁, hw, h⟩ := start_bind_value.mp h
    obtain ⟨ws, s₂, hws, h⟩ := start_bind_value.mp h
    cases h
    have hrest := (repeatable_settleSteps hafter).always_of_returns (returns_of_start hws)
    exact start_bind_value.mpr ⟨w, _, Prod.ext (hq s w (congrArg Prod.fst hw)) rfl,
      start_bind_value.mpr ⟨ws, _, Prod.ext (hrest _) rfl, rfl⟩⟩
  | cons r before ih =>
    obtain ⟨w, s₁, hw, h⟩ := start_bind_value.mp h
    obtain ⟨ws, s₂, hws, h⟩ := start_bind_value.mp h
    cases h
    exact start_bind_value.mpr ⟨w, s₁, hw,
      start_bind_value.mpr ⟨ws, _, Prod.ext (ih (congrArg Prod.fst hws)) rfl, rfl⟩⟩

end Plan

namespace ParameterSet

variable {set set' : ParameterSet σ} (hnames : set'.names = set.names)
include hnames

theorem size_congr : set'.size = set.size := by
  have hlength := congrArg List.length hnames
  simpa [names, size] using hlength

theorem admitted_congr (o : Options σ) (args : Value) : set'.admitted o args = set.admitted o args := by
  simp only [admitted, hnames, size_congr hnames]
  rfl

theorem extras_congr (o : Options σ) (args : Value) : set'.extras o args = set.extras o args := by
  simp only [extras, hnames, size_congr hnames]

end ParameterSet

namespace Plan

variable {set set' : ParameterSet σ} {o : Options σ} {args : Value}

/-- Where the parameters of one set settle, so do those of another with the same names: then a
call that comes to a value does so for the other set. -/
theorem start_direct_congr (hnames : set'.names = set.names) {path : Strategy} (hslurpy : o.slurpy.Repeatable)
    {s : σ} {out : Value} {trusted trusted' : Step σ → Bool}
    (hsettles : ∀ s vs, (start ((make set o).settleSteps path.judge args (make set o).steps) s).1 = .ok vs →
      ∃ vs', (start ((make set o).settleSteps path.judge args (make set' o).steps) s).1 = .ok vs')
    (h : (start ((make set o).direct path.judge trusted args) s).1 = .ok out) :
    ∃ out', (start ((make set' o).direct path.judge trusted' args) s).1 = .ok out' := by
  have hreceive : (make set' o).receive args = (make set o).receive args := by
    rw [receive_make_eq, receive_make_eq, ParameterSet.admitted_congr hnames]
  have hkept : (make set' o).judgeKept path.judge args = (make set o).judgeKept path.judge args := by
    simp only [judgeKept, extraArguments_make_eq, ParameterSet.extras_congr hnames,
      judgeExtras_congr (p := make set o) (r := make set' o) rfl rfl]
    rfl
  have hrepeatable : Call.Repeatable ((make set o).judgeKept path.judge args) :=
    repeatable_judgeKept fun t ht => hslurpy t (slurpy_of_type? ht)
  unfold direct at h ⊢
  rw [hreceive, hkept]
  obtain ⟨_, s₁, hs₁, h⟩ := start_bind_value.mp h
  obtain ⟨vs, s₂, hvs, h⟩ := start_bind_value.mp h
  obtain ⟨kept, s₃, hkept, h⟩ := start_bind_value.mp h
  obtain ⟨vs', hvs'⟩ := hsettles _ _ (congrArg Prod.fst hvs)
  have hagain := hrepeatable.always_of_returns (returns_of_start hkept)
  rw [settleSteps_congr (p := make set o) (r := make set' o) fun _ _ => settleStep_congr rfl rfl]
  exact ⟨_, start_bind_value.mpr ⟨_, s₁, hs₁, start_bind_value.mpr ⟨vs', _, Prod.ext hvs' rfl,
    start_bind_value.mpr ⟨kept, _, Prod.ext (hagain _) rfl, rfl⟩⟩⟩⟩

/-- A call that comes to a value does so when the type of one parameter that is supplied is
replaced by one that passes what it passed. -/
theorem start_direct_retyped {before after : List (ParameterSpec σ)} {p q : ParameterSpec σ} (hname : q.name = p.name)
    (hposition : q.position = p.position) (hafter : ParameterSet.Repeatable ⟨after⟩) (hslurpy : o.slurpy.Repeatable)
    {path : Strategy} {v : Value} (hsupplied : p.supplied? o args = some v)
    (hpasses : ∀ s w s₁, start (p.type.coerced v) s = (.ok w, s₁) → path.Passes p.type w s₁ →
      ∃ s₂, start (q.type.coerced v) s = (.ok w, s₂) ∧ path.Passes q.type w s₂)
    {s : σ} {out : Value} {trusted trusted' : Step σ → Bool}
    (h : (start ((make ⟨before ++ p :: after⟩ o).direct path.judge trusted args) s).1 = .ok out) :
    ∃ out', (start ((make ⟨before ++ q :: after⟩ o).direct path.judge trusted' args) s).1 = .ok out' := by
  have hnames : (⟨before ++ q :: after⟩ : ParameterSet σ).names = (⟨before ++ p :: after⟩ : ParameterSet σ).names := by
    simp [ParameterSet.names, hname]
  have hsteps : ∀ r : ParameterSpec σ, (make ⟨before ++ r :: after⟩ o).steps
      = before.map (step o.sourceMode) ++ step o.sourceMode r :: after.map (step o.sourceMode) := fun r => by
    simp [make]
  have hfits : (make ⟨before ++ p :: after⟩ o).ShapeFits args := by
    obtain ⟨_, _, hreceive, _⟩ := start_bind_value.mp h
    exact shapeFits_of_returns (returns_of_start hreceive)
  obtain ⟨hfetch, hdefined⟩ : fetch (step o.sourceMode p) args = v ∧ v.isUndefined = false :=
    fetch_supplied (T := .along .generic) hfits hsupplied
  have hfetch' : fetch (step o.sourceMode q) args = v := by
    rw [← hfetch]
    simp only [fetch, step, hname, hposition]
  refine start_direct_congr hnames hslurpy (fun s vs hvs => ⟨vs, ?_⟩) h
  rw [hsteps] at hvs ⊢
  refine start_settleSteps_replaced (fun s w hw => ?_) (fun r hr => ?_) hvs
  · rw [settleStep_given (hfetch ▸ hdefined), hfetch] at hw
    rw [settleStep_given (hfetch' ▸ hdefined), hfetch']
    obtain ⟨s₁, hcoerced, hp⟩ := start_judgeStep.mp hw
    exact start_judgeStep.mpr (hpasses s w s₁ hcoerced hp)
  · obtain ⟨spec, hspec, rfl⟩ := List.mem_map.mp hr
    exact repeatable_settleStep (hafter.types spec hspec) (hafter.factories spec hspec)

/-- What the specialized routine of a set comes to a value on, so does the generic one, where
the forms of its types decide. -/
theorem start_direct_generic (hset : set.Repeatable) (hslurpy : o.slurpy.Repeatable)
    (hforms : ∀ p ∈ set.specs, p.type.FormDecides) (hextras : ∀ t, o.slurpy = .checked t → t.FormDecides) {s : σ}
    {out : Value} (h : set.outcome (Answers.on .inline s) o args = .ok out) :
    ∃ out', (start ((make set o).direct Strategy.generic.judge Strategy.generic.trusts args) s).1 = .ok out' := by
  have hscreened : ∀ c : Capability σ, c.Repeatable → c.FormDecides → ∀ fault v,
      (Answers.on .generic s).screened c fault v = (Answers.on .inline s).screened c fault v := by
    intro c hc hform fault v
    have hverdict : (Answers.on .generic s).verdict c = (Answers.on .inline s).verdict c := by
      funext w
      rw [Answers.verdict_eq hc hform .generic s s, Answers.verdict_eq hc hform .inline s s]
    simp only [Answers.screened, hverdict]
    rfl
  have hsettled : set.settledAll (Answers.on .generic s) o args = set.settledAll (Answers.on .inline s) o args := by
    refine mapM_congr fun p hp => ?_
    simp only [ParameterSpec.settled, hscreened p.type (hset.types p hp) (hforms p hp)]
    rfl
  have hkept : set.screenedExtras (Answers.on .generic s) o args = set.screenedExtras (Answers.on .inline s) o args := by
    unfold ParameterSet.screenedExtras
    cases ht : o.slurpy with
    | checked t => simp only [hscreened t (hslurpy t ht) (hextras t ht)]
    | _ => rfl
  obtain ⟨hadmitted, values, kept, hvalues, hextra, _⟩ := ParameterSet.outcome_eq_ok.mp h
  have hgeneric := ParameterSet.outcome_eq_ok.mpr
    ⟨hadmitted, values, kept, hsettled.trans hvalues, hkept.trans hextra, rfl⟩
  have hloop : Always (((make set o).map (.along .generic)).loop (fun _ => false) args) _ :=
    always_loop s hset hslurpy args fun _ => rfl
  have hsame : (make set o).map (.along .generic) = make set o := map_id _
  rw [hsame, loop_eq_direct, hgeneric] at hloop
  exact ⟨_, hloop s⟩

end Plan

/-- What passes from one state passes from every other, where the code is repeatable. -/
theorem Strategy.Passes.anywhere {path : Strategy} {c : Capability σ} {v : Value} {s : σ} (h : path.Passes c v s)
    (hc : c.Repeatable) (t : σ) : path.Passes c v t := by
  rcases path.check_or_form c with hcheck | ⟨rfl, f, hf⟩
  · rw [passes_check hcheck] at h ⊢
    exact (hc.checked v).always_of_returns ⟨s, h⟩ t
  · rw [passes_form hf] at h ⊢
    exact h

/-! ## The theorem -/

namespace Validator

theorem start_accepts {validator : Validator σ} {args : Value} {s : σ} :
    (start (validator.accepts args) s).1 = .ok true ↔ ∃ out, (start (validator.validate args) s).1 = .ok out := by
  unfold accepts safeValidate
  rw [start_bind_value]
  constructor
  · rintro ⟨r, s₁, hr, haccepted⟩
    cases r with
    | error t => cases haccepted
    | ok out =>
      refine ⟨out, ?_⟩
      obtain ⟨r', s₂, hattempt, h⟩ := start_bind_eq_ok hr
      rw [start_attempt] at hattempt
      cases hattempt
      cases hv : (start (validator.validate args) s).1 with
      | ok out' =>
        rw [hv] at h
        cases h
        rfl
      | error t =>
        rw [hv] at h
        simp only at h
        split at h <;> cases h
  · rintro ⟨out, hout⟩
    refine ⟨.ok out, (start (validator.validate args) s).2, ?_, rfl⟩
    rw [start_bind_ok (start_attempt _ _), hout]
    rfl

section widen

variable {given : Value} {o : Options σ} {before after : List (ParameterSpec σ)} {p q : ParameterSpec σ}
  {descriptor descriptor' : String} {narrow wide : Validator σ} {args v : Value} {s : σ}

/-- What a specialized validator is made of has an inline form, and code may be generated. -/
theorem plan_of_inline {set : ParameterSet σ} (hwide : Returns (compile env set o descriptor) wide)
    (h : wide.strategy = .inline) : env.refusal?.isSome = false ∧ (Plan.make set o).strategy = .inline := by
  rw [strategy_of_compile hwide] at h
  split at h
  · cases h
  · rename_i hallowed
    exact ⟨by simpa using hallowed, h⟩

/-- A validator is specialized where one is that needs an inline form for more. -/
theorem strategy_retyped (hnarrow : Returns (compile env ⟨before ++ p :: after⟩ o descriptor) narrow)
    (hwide : Returns (compile env ⟨before ++ q :: after⟩ o descriptor') wide)
    (hinline : q.type.inline?.isSome = true → p.type.inline?.isSome = true) (h : wide.strategy = .inline) :
    narrow.strategy = .inline := by
  obtain ⟨hallowed, hplan⟩ := plan_of_inline hwide h
  obtain ⟨hcodegen, hspecs, hextras⟩ := Plan.strategy_eq_inline.mp hplan
  rw [strategy_of_compile hnarrow, hallowed, if_neg Bool.false_ne_true, Plan.strategy_eq_inline]
  refine ⟨hcodegen, fun r hr => ?_, hextras⟩
  rcases List.mem_append.mp hr with hr | hr
  · exact hspecs r (List.mem_append_left _ hr)
  rcases List.mem_cons.mp hr with rfl | hr
  · exact hinline (hspecs q (List.mem_append_right _ List.mem_cons_self))
  · exact hspecs r (List.mem_append_right _ (List.mem_cons_of_mem _ hr))

/-- Where both types have an inline form or neither has, the path is the same. -/
theorem strategy_eq_of_inline (hnarrow : Returns (compile env ⟨before ++ p :: after⟩ o descriptor) narrow)
    (hwide : Returns (compile env ⟨before ++ q :: after⟩ o descriptor') wide)
    (hinline : q.type.inline?.isSome = p.type.inline?.isSome) : wide.strategy = narrow.strategy := by
  cases hw : wide.strategy with
  | inline => exact (strategy_retyped hnarrow hwide (fun h => hinline ▸ h) hw).symm
  | generic =>
    cases hn : narrow.strategy with
    | generic => rfl
    | inline => cases hw.symm.trans (strategy_retyped hwide hnarrow (fun h => hinline ▸ h) hn)

/-- A validator that accepts arguments accepts them with another type for one parameter that is
supplied, on the same path, if that passes what the first one passed. -/
theorem accepts_retyped (ho : Options.resolve env given = .ok o)
    (hwide : Returns (compile env ⟨before ++ q :: after⟩ o descriptor') wide)
    (hname : q.name = p.name) (hposition : q.position = p.position) (hafter : ParameterSet.Repeatable ⟨after⟩)
    (hslurpy : o.slurpy.Repeatable) (hsupplied : p.supplied? o args = some v)
    (hpasses : ∀ s w s₁, start (p.type.coerced v) s = (.ok w, s₁) → wide.strategy.Passes p.type w s₁ →
      ∃ s₂, start (q.type.coerced v) s = (.ok w, s₂) ∧ wide.strategy.Passes q.type w s₂)
    {trusted : Step σ → Bool} {out : Value}
    (h : (start ((Plan.make ⟨before ++ p :: after⟩ o).direct wide.strategy.judge trusted args) s).1 = .ok out) :
    (start (wide.accepts args) s).1 = .ok true := by
  rw [start_accepts, validate_eq_direct (Plan.keepsOrder_make ho _) hwide]
  exact Plan.start_direct_retyped hname hposition hafter hslurpy hsupplied hpasses h

theorem narrow_direct (ho : Options.resolve env given = .ok o) {set : ParameterSet σ}
    (hnarrow : Returns (compile env set o descriptor) narrow) (h : (start (narrow.accepts args) s).1 = .ok true) :
    ∃ out, (start ((Plan.make set o).direct narrow.strategy.judge narrow.strategy.trusts args) s).1 = .ok out := by
  obtain ⟨out, hout⟩ := start_accepts.mp h
  rw [validate_eq_direct (Plan.keepsOrder_make ho _) hnarrow] at hout
  exact ⟨out, hout⟩

/-- What a validator accepts comes to a value on any path it may take, where the forms decide. -/
theorem direct_on_path (ho : Options.resolve env given = .ok o) {set : ParameterSet σ} {path : Strategy}
    (hnarrow : Returns (compile env set o descriptor) narrow) (hslurpy : o.slurpy.Repeatable)
    (haccepts : (start (narrow.accepts args) s).1 = .ok true) (hinline : path = .inline → narrow.strategy = .inline)
    (hpath : path = narrow.strategy ∨ set.Repeatable ∧
      (∀ r ∈ set.specs, r.type.FormDecides) ∧ ∀ t, o.slurpy = .checked t → t.FormDecides) :
    ∃ trusted out, (start ((Plan.make set o).direct path.judge trusted args) s).1 = .ok out := by
  obtain ⟨out, hout⟩ := narrow_direct ho hnarrow haccepts
  rcases hpath with rfl | ⟨hset, hforms, hextras⟩
  · exact ⟨_, out, hout⟩
  cases path with
  | inline => exact ⟨_, out, hinline rfl ▸ hout⟩
  | generic =>
    cases hn : narrow.strategy with
    | generic => exact ⟨_, out, hn ▸ hout⟩
    | inline =>
      obtain ⟨out, hvalidate⟩ := start_accepts.mp haccepts
      rw [always_validate (Plan.keepsOrder_make ho _) hset hslurpy hnarrow s args s, hn] at hvalidate
      exact ⟨_, Plan.start_direct_generic hset hslurpy hforms hextras hvalidate⟩

/-- With a union for a parameter, a validator accepts only what a member passes as it stands. -/
theorem member_passes (ho : Options.resolve env given = .ok o) {set : ParameterSet σ}
    (hwide : Returns (compile env set o descriptor) wide) (hq : q ∈ set.specs) {id : Nat} {members : List (Capability σ)}
    (hu : Capability.Union.capability id members = .ok q.type) (hsupplied : q.supplied? o args = some v)
    (h : (start (wide.accepts args) s).1 = .ok true) : ∃ m ∈ members, ∃ t, wide.strategy.Passes m v t := by
  obtain ⟨out, hout⟩ := start_accepts.mp h
  obtain ⟨w, s₁, s₂, hcoerced, hpasses⟩ := supplied_passes (Plan.keepsOrder_make ho set) hwide ⟨s, hout⟩ hq hsupplied
  rw [Capability.Union.coerced_eq hu] at hcoerced
  cases hcoerced
  exact Strategy.exists_passes_of_union hu
    (fun hi => (Plan.strategy_eq_inline.mp (plan_of_inline hwide hi).2).2.1 q hq) hpasses

/-- Widening a parameter that is supplied keeps what a validator accepts. With `maybe` it always
does. With a union it does if the former type leaves the argument as it is and the members
before it answer on it; on another path, also the inline forms have to decide. -/
theorem combinators_widen (ho : Options.resolve env given = .ok o)
    (hnarrow : Returns (compile env ⟨before ++ p :: after⟩ o descriptor) narrow)
    (hafter : ParameterSet.Repeatable ⟨after⟩)
    (hslurpy : o.slurpy.Repeatable) (hsupplied : p.supplied? o args = some v)
    (haccepts : (start (narrow.accepts args) s).1 = .ok true)
    (hwide : Returns (compile env ⟨before ++ q :: after⟩ o descriptor') wide) (hname : q.name = p.name)
    (hposition : q.position = p.position) :
    (∀ id, q.type = Capability.maybe id p.type → (start (wide.accepts args) s).1 = .ok true) ∧
    ∀ id earlier later, Capability.Union.capability id (earlier ++ p.type :: later) = .ok q.type →
      p.type.Repeatable → Returns (p.type.coerced v) v → (∀ m ∈ earlier, m.AnswersOn v) →
      (wide.strategy = narrow.strategy ∨ ParameterSet.Repeatable ⟨before ++ p :: after⟩ ∧
        (∀ r ∈ before ++ p :: after, r.type.FormDecides) ∧ ∀ t, o.slurpy = .checked t → t.FormDecides) →
      (start (wide.accepts args) s).1 = .ok true := by
  refine ⟨fun id hq => ?_, fun id earlier later hu htype hsame hearlier hpath => ?_⟩
  · have hstrategy : wide.strategy = narrow.strategy := strategy_eq_of_inline hnarrow hwide (by
      rw [hq]
      exact Option.isSome_map)
    obtain ⟨out, hout⟩ := narrow_direct ho hnarrow haccepts
    refine accepts_retyped ho hwide hname hposition hafter hslurpy hsupplied ?_ (hstrategy ▸ hout)
    intro s w s₁ hcoerced hpasses
    rw [hq]
    exact ⟨s₁, hcoerced, hpasses.maybe id⟩
  · have hmember : p.type ∈ earlier ++ p.type :: later := List.mem_append_right _ List.mem_cons_self
    have hform : wide.strategy = .inline → q.type.inline?.isSome = true := fun h =>
      (Plan.strategy_eq_inline.mp (plan_of_inline hwide h).2).2.1 q (List.mem_append_right _ List.mem_cons_self)
    obtain ⟨trusted, out, hout⟩ := direct_on_path ho hnarrow hslurpy haccepts
      (strategy_retyped hnarrow hwide fun h => Capability.Union.inline_of_union hu h hmember) hpath
    refine accepts_retyped ho hwide hname hposition hafter hslurpy hsupplied ?_ hout
    intro s w s₁ hcoerced hpasses
    -- the member left the value as it is, and a union always does
    have hw : w = v := by
      have hagain := (htype.coerced v).always_of_returns hsame s
      rw [hcoerced] at hagain
      exact Except.ok.inj hagain
    refine ⟨s, by rw [hw, Capability.Union.coerced_eq hu]; rfl, ?_⟩
    rw [hw] at hpasses ⊢
    exact Strategy.passes_union hu hform hearlier fun t => hpasses.anywhere htype t

end widen

/-! ## A count, widened -/

theorem accepts_counting {c : Capability Nat} {descriptor : String} {validator : Validator Nat}
    (hv : Returns (compile .fixed (.counting c) .lenient descriptor) validator) {v w : Value}
    (hdefined : v.isUndefined = false) {s s₁ : Nat} (hcoerced : start (c.coerced v) s = (.ok w, s₁))
    (hpasses : validator.strategy.Passes c w s₁) :
    (start (validator.accepts (.record [("count", v)])) s).1 = .ok true := by
  have hsettled : (start ((Plan.make (.counting c) .lenient).settleStep validator.strategy.judge (.record [("count", v)])
      (Plan.step .named (counted c))) s).1 = .ok w := by
    have hfetch : Plan.fetch (Plan.step .named (counted c)) (.record [("count", v)]) = v := rfl
    rw [Plan.settleStep_given (hfetch ▸ hdefined), hfetch]
    exact Plan.start_judgeStep.mpr ⟨s₁, hcoerced, hpasses⟩
  have ho : Options.resolve Surroundings.fixed (.record [("strict", .bool false)]) = .ok .lenient := rfl
  rw [start_accepts, validate_eq_direct (Plan.keepsOrder_make ho _) hv]
  exact ⟨_, start_bind_value.mpr ⟨(), s, rfl, start_bind_value.mpr ⟨[w], _,
    Prod.ext (start_bind_value.mpr ⟨w, _, Prod.ext hsettled rfl, rfl⟩) rfl, rfl⟩⟩⟩

theorem passes_five {path : Strategy} {s : Nat} : path.Passes (Capability.integers 1 2) (.number (.ofNat 5)) s :=
  Strategy.passes_integers.mpr (by decide +kernel)

theorem coerced_five {s : Nat} :
    start ((Capability.integers 1 2 : Capability Nat).coerced (.text "5")) s = (.ok (.number (.ofNat 5)), s) := by
  have hnumber : Capability.Numeric.exactly? "5" = some (.ofNat 5) := by decide +kernel
  rw [Capability.coerced_integers, Capability.Numeric.convert_of_names (Capability.Numeric.exactly?_eq_some.mp hnumber)]
  rfl

theorem combinators_widen_counted : ∃ (u : Capability Nat) (optional wide : Validator Nat),
    Capability.Union.capability 3 [Capability.Scalar.bool.capability 4, Capability.integers 1 2] = .ok u ∧
    Returns (compile .fixed (.counting (Capability.maybe 3 (Capability.integers 1 2))) .lenient "") optional ∧
    Returns (compile .fixed (.counting u) .lenient "") wide ∧
    (start (optional.accepts (.record [("count", .text "5")])) 0).1 = .ok true ∧
    (start (wide.accepts (.record [("count", .number (.ofNat 5))])) 0).1 = .ok true := by
  have ho : Options.resolve Surroundings.fixed (.record [("strict", .bool false)]) = .ok .lenient := rfl
  have hnarrow : Returns (compile .fixed (.counting (Capability.integers 1 2)) .lenient "") _ := ⟨0, rfl⟩
  have hoptional : Returns (compile .fixed (.counting (Capability.maybe 3 (Capability.integers 1 2))) .lenient "") _ :=
    ⟨0, rfl⟩
  have hafter : ParameterSet.Repeatable (⟨[]⟩ : ParameterSet Nat) := ⟨fun _ h => (nomatch h), fun _ h => (nomatch h)⟩
  have htype : (Capability.integers 1 2 : Capability Nat).Repeatable :=
    (Capability.stock_numeric (Capability.stock_ofTest ..) 1).repeatable
  have hbool : ∀ m ∈ [(Capability.Scalar.bool.capability 4 : Capability Nat)], m.AnswersOn (.number (.ofNat 5)) := by
    intro m hm
    cases List.mem_singleton.mp hm
    exact Capability.answersOn_of_decides rfl (Capability.decides_scalar .bool 4) _
  have hkept : ∀ x, (Capability.integers 1 2 : Capability Nat).coerced (.number x) = pure (.number x) := fun x => rfl
  have htext := accepts_counting hnarrow rfl (coerced_five (s := 0)) passes_five
  have hnumber := accepts_counting (s := 0) hnarrow (v := .number (.ofNat 5)) rfl (by rw [hkept]; rfl) passes_five
  obtain ⟨u, hu, wide, hwide, hpath⟩ : ∃ u : Capability Nat,
      Capability.Union.capability 3 [Capability.Scalar.bool.capability 4, Capability.integers 1 2] = .ok u ∧
      ∃ wide, Returns (compile .fixed (.counting u) .lenient "") wide ∧ wide.strategy = .inline :=
    ⟨_, rfl, _, ⟨0, rfl⟩, rfl⟩
  -- the one parameter with nothing before and nothing after it
  have hbare : Returns (compile .fixed ⟨[] ++ counted (Capability.integers 1 2) :: []⟩ .lenient "") _ := hnarrow
  have hbareOptional : Returns (compile .fixed
    ⟨[] ++ counted (Capability.maybe 3 (Capability.integers 1 2)) :: []⟩ .lenient "") _ := hoptional
  have hbareWide : Returns (compile .fixed ⟨[] ++ counted u :: []⟩ .lenient "") wide := hwide
  refine ⟨u, _, wide, hu, hoptional, hwide, ?_, ?_⟩
  · exact (combinators_widen ho hbare hafter Slurpy.repeatable_off rfl htext hbareOptional rfl rfl).1 3 rfl
  · exact (combinators_widen ho hbare hafter Slurpy.repeatable_off rfl hnumber hbareWide rfl rfl).2 3
      [Capability.Scalar.bool.capability 4] [] hu htype ⟨0, congrArg (fun c => (start c 0).1) (hkept _)⟩
        hbool (.inl hpath)

/-- Five is accepted as text, and not by a union with what accepted it. -/
theorem union_not_coerced : ∃ (u : Capability Nat) (narrow wide : Validator Nat),
    Capability.Union.capability 3 [Capability.integers 1 2] = .ok u ∧
    Returns (compile .fixed (.counting (Capability.integers 1 2)) .lenient "") narrow ∧
    Returns (compile .fixed (.counting u) .lenient "") wide ∧ narrow.strategy = wide.strategy ∧
    (start (narrow.accepts (.record [("count", .text "5")])) 0).1 = .ok true ∧
    (start (wide.accepts (.record [("count", .text "5")])) 0).1 = .ok false := by
  have hnarrow : Returns (compile .fixed (.counting (Capability.integers 1 2)) .lenient "") _ := ⟨0, rfl⟩
  refine ⟨_, _, _, rfl, hnarrow, ⟨0, rfl⟩, rfl, ?_, rfl⟩
  exact accepts_counting hnarrow rfl coerced_five passes_five

end Validator

end ArgGuard
