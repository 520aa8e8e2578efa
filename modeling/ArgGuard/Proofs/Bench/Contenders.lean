/-
  ArgGuard.Proofs.Bench.Contenders — the contenders of a measurement do the same.

  The baseline interprets the parameters on every call. It is worth comparing with as long as
  it comes to what the compiled validators come to: the same result, or an error with the same
  cause (`ParameterSet.SameCause`), which it words in its own way.

  It does so but for factories. A compiled validator coerces what a factory makes before it is
  checked; the baseline coerces arguments only. So the contenders agree on every call that
  leaves out no parameter whose factory makes a value that the type would change
  (`Contenders.same_outcome`), and on others they may not (`Contenders.factory_not_coerced`).
-/

import ArgGuard.Bench.Contenders
import ArgGuard.Proofs.Capability.Stock
import ArgGuard.Proofs.Descriptor
import ArgGuard.Proofs.Routine.Containers
import ArgGuard.Proofs.Routine.Extras

namespace ArgGuard

open Call

variable {σ : Type} {env : Surroundings σ}

/-! ## Reading definitions again -/

theorem ParameterSpec.repeatable_settleDefault {type : Capability σ} (h : type.Repeatable) (name : String) (i : Nat)
    (given : Value) : Call.Repeatable (settleDefault env name i type given) := by
  unfold settleDefault
  split
  · exact (Always.pure _).repeatable
  refine (h.coerced _).bind fun v => ?_
  split
  · exact (Always.fail _).repeatable
  refine (h.checked v).bind fun r => ?_
  cases r with
  | passed => exact (Always.pure _).repeatable
  | rejected reason => exact (Always.fail _).repeatable

/-- A definition that was read is read alike again. -/
theorem ParameterSpec.always_ofDefinition {definition : Value} {i : Nat} {p : ParameterSpec σ}
    (h : Returns (ofDefinition env definition i) p) (hp : p.type.Repeatable) :
    Always (ofDefinition env definition i) (.ok p) := by
  have htype : env.capability? (definition.get "type") = some p.type := by
    obtain ⟨s, hs⟩ := h
    exact ofDefinition_type (show start (ofDefinition env definition i) s = (.ok p, _) from Prod.ext hs rfl)
  refine Repeatable.always_of_returns ?_ h
  rcases ofDefinition_cases env definition i with ⟨_, hread⟩ | ⟨f, hread⟩ |
    ⟨_, type, htype', _, _, _, ⟨_, hread⟩ | ⟨_, hread⟩⟩ <;> rw [hread]
  · exact (Always.fail _).repeatable
  · exact (Always.fail _).repeatable
  · exact (Always.pure _).repeatable
  · cases htype.symm.trans htype'
    exact (repeatable_settleDefault hp _ _ _).bind fun _ => (Always.pure _).repeatable

namespace ParameterSet

theorem always_readList {i : Nat} {items : List (Option Value)} {slots : List (Option (ParameterSpec σ))}
    (h : Returns (readList env i items) slots) (hslots : ∀ p, some p ∈ slots → p.type.Repeatable) :
    Always (readList env i items) (.ok slots) := by
  induction items generalizing i slots with
  | nil =>
    cases returns_pure h
    exact .pure []
  | cons item items ih =>
    cases item with
    | none =>
      obtain ⟨rest, hrest, h⟩ := returns_bind h
      cases returns_pure h
      exact (ih hrest fun p hp => hslots p (List.mem_cons_of_mem _ hp)).bind_ok (.pure _)
    | some d =>
      obtain ⟨p, hp, h⟩ := returns_bind h
      obtain ⟨rest, hrest, h⟩ := returns_bind h
      cases returns_pure h
      have hfirst := ParameterSpec.always_ofDefinition hp (hslots p List.mem_cons_self)
      exact hfirst.bind_ok ((ih hrest fun p hp => hslots p (List.mem_cons_of_mem _ hp)).bind_ok (.pure _))

/-- Parameters that were read are read alike again. -/
theorem always_read {params : Parameters σ} {set : ParameterSet σ} (h : Returns (read env params) set)
    (hset : set.Repeatable) : Always (read env params) (.ok set) := by
  cases params with
  | set s =>
    cases returns_pure h
    exact .pure _
  | value v =>
    rcases read_cases env v with ⟨f, hf⟩ | hread
    · rw [hf] at h
      cases not_returns_fail h
    rw [hread] at h ⊢
    obtain ⟨slots, hslots, hcollect⟩ := returns_bind h
    have hspecs : slots = set.specs.map some := by
      obtain ⟨s, hs⟩ := hcollect
      exact (collect_eq (show start (collect slots) s = (.ok set, _) from Prod.ext hs rfl)).1
    have hrepeatable : Call.Repeatable (collect slots : Call σ (ParameterSet σ)) := by
      unfold collect
      simp only
      split
      · exact (Always.fail _).repeatable
      · split
        · exact (Always.pure _).repeatable
        · exact (Always.fail _).repeatable
    refine (always_readList hslots fun p hp => hset.types p ?_).bind_ok (hrepeatable.always_of_returns hcollect)
    simpa [hspecs] using hp

end ParameterSet

/-! ## Causes -/

/-- An error of the baseline, and the error of a validator with the same cause: the same key is
unknown, the same parameter is missing, or its value was rejected for the same reason. What
the code of a parameter raises is passed on by both. -/
inductive ParameterSet.SameCause (set : ParameterSet σ) (validator : String) : Thrown → Thrown → Prop
  | unknown {k : String} (hk : k ∉ set.names) :
    SameCause set validator (Bench.BaselineFault.unknown k).thrown (.call (.unknown k validator))
  | missing {p : ParameterSpec σ} (hp : p ∈ set.specs) :
    SameCause set validator (Bench.BaselineFault.missing p.name).thrown (.call (.missing p.name p.position validator))
  | rejected {p : ParameterSpec σ} (hp : p ∈ set.specs) (reason : Reason) (v : Value) :
    SameCause set validator (Bench.BaselineFault.rejected p.name reason.text).thrown
      (.call (p.mismatch validator v reason))
  | raised {p : ParameterSpec σ} (hp : p ∈ set.specs) {t : Thrown} (h : p.Raises t) : SameCause set validator t t

/-- What a factory of a parameter makes is kept by the type's coercion, and is a value where the
parameter counts as required. -/
structure ParameterSpec.KeepsMade (p : ParameterSpec σ) : Prop where
  coerced : ∀ i make v, p.default = .factory i make → Returns make v → Returns (p.type.coerced v) v
  value : p.MakesValue

namespace Bench

variable {set : ParameterSet σ} {p : ParameterSpec σ} {args : Value}

/-! ## One parameter -/

/-- A candidate that the baseline has checked. -/
def accepted (p : ParameterSpec σ) (v : Value) : Call σ Value := do
  match ← p.type.check v with
  | .passed => pure v
  | .rejected reason => Call.fail (BaselineFault.rejected p.name reason.text).thrown

/-- What the baseline settles on for a parameter, undefined when it is absent and may be. -/
def judged (p : ParameterSpec σ) (args : Value) : Call σ Value := do
  match ← candidate p args with
  | none => pure .undefined
  | some v => accepted p v

theorem interpretFrom_cons (args : Value) (p : ParameterSpec σ) (ps : List (ParameterSpec σ)) (out : Entries Value) :
    interpretFrom args (p :: ps) out = (do
      let v ← judged p args
      interpretFrom args ps (if v.isUndefined then out else Entries.put p.name v out)) := by
  rw [interpretFrom, judged, bind_assoc]
  congr 1
  funext candidate
  cases candidate with
  | none => rfl
  | some v =>
    simp only [accepted, bind_assoc]
    congr 1
    funext r
    cases r <;> rfl

theorem supplied?_named {o : Options σ} (hnamed : o.sourceMode = .named) :
    p.supplied? o args =
      let given := (args.own? p.name).getD .undefined; if given.isUndefined then none else some given := by
  rw [ParameterSpec.supplied?, hnamed]
  cases args.own? p.name with
  | none => rfl
  | some v => cases v <;> rfl

theorem judged_supplied {o : Options σ} (hnamed : o.sourceMode = .named) {v : Value} (hv : p.supplied? o args = some v) :
    judged p args = (do accepted p (← p.type.coerced v)) := by
  rw [supplied?_named hnamed] at hv
  simp only at hv
  split at hv
  · cases hv
  · rename_i hgiven
    cases hv
    rw [judged, candidate, if_neg hgiven, bind_assoc]
    rfl

theorem judged_absent {o : Options σ} (hnamed : o.sourceMode = .named) (hv : p.supplied? o args = none) :
    judged p args = match p.default with
      | .value d => accepted p d
      | .factory _ make => do accepted p (← make)
      | .none => if p.isRequired then Call.fail (BaselineFault.missing p.name).thrown else pure .undefined := by
  rw [supplied?_named hnamed] at hv
  simp only at hv
  split at hv
  · rename_i hgiven
    rw [judged, candidate, if_pos hgiven]
    cases p.default with
    | value d => rfl
    | factory i make => exact bind_assoc ..
    | none => cases p.isRequired <;> rfl
  · cases hv

/-- A candidate is accepted by the baseline as it is by a routine. -/
theorem agree_accepted (hp : p ∈ set.specs) (hcode : p.type.Repeatable) (hform : p.type.FormDecides) (path : Strategy)
    (s : σ) (validator : String) (v : Value) :
    Agree (fun _ _ => True) (set.SameCause validator) (accepted p v) (Call.ofExcept (do
      match ← (Answers.on path s).verdict p.type v with
      | .passed => .ok v
      | .rejected reason => .error (.call (p.mismatch validator v reason))) : Call Unit Value) := by
  intro t u _
  refine ⟨?_, trivial⟩
  have hverdict := Answers.verdict_eq hcode hform path s t v
  rcases hc : start (p.type.check v) t with ⟨e | r, t'⟩ <;> rw [hc] at hverdict <;> rw [hverdict]
  · rw [accepted, start_bind_error hc]
    exact .raised hp (.type ⟨v, .inr (stops_of_start hc)⟩)
  · rw [accepted, start_bind_ok hc]
    cases r with
    | passed => rfl
    | rejected reason => exact .rejected hp reason v

/-- A value that is coerced first. -/
theorem agree_screened (hp : p ∈ set.specs) (hcode : p.type.Repeatable) (hform : p.type.FormDecides) (path : Strategy)
    (s : σ) (validator : String) (v : Value) :
    Agree (fun _ _ => True) (set.SameCause validator) (do accepted p (← p.type.coerced v))
      (Call.ofExcept ((Answers.on path s).screened p.type (p.mismatch validator) v) : Call Unit Value) := by
  intro t u _
  refine ⟨?_, trivial⟩
  have hcoerced : (start (p.type.coerced v) t).1 = (Answers.on path s).coerced p.type v := hcode.coerced v t s
  unfold Answers.screened
  rcases hc : start (p.type.coerced v) t with ⟨e | w, t'⟩ <;> rw [hc] at hcoerced <;> rw [← hcoerced]
  · rw [start_bind_error hc]
    exact .raised hp (.type ⟨v, .inl (stops_of_start hc)⟩)
  · rw [start_bind_ok hc]
    exact (agree_accepted hp hcode hform path s validator w t' u trivial).1

/-- A value that a factory makes; the baseline does not coerce it, and the coercion keeps it. -/
theorem agree_made (hp : p ∈ set.specs) (hcode : p.type.Repeatable) (hform : p.type.FormDecides) {i : Nat}
    {make : Call σ Value} (hd : p.default = .factory i make) (hmake : Call.Repeatable make) (hkeeps : p.KeepsMade)
    (path : Strategy) (s : σ) (validator : String) :
    Agree (fun _ _ => True) (set.SameCause validator) (do accepted p (← make))
      (Call.ofExcept (do (Answers.on path s).screened p.type (p.mismatch validator) (← (Answers.on path s).made make)) :
        Call Unit Value) := by
  intro t u _
  refine ⟨?_, trivial⟩
  have hmade : (start make t).1 = (Answers.on path s).made make := hmake t s
  rcases hc : start make t with ⟨e | v, t'⟩ <;> rw [hc] at hmade <;> rw [← hmade]
  · rw [start_bind_error hc]
    exact .raised hp (.factory hd (stops_of_start hc))
  · rw [start_bind_ok hc]
    have hkept : (Answers.on path s).coerced p.type v = .ok v :=
      (hcode.coerced v).always_of_returns (hkeeps.coerced i make v hd (returns_of_start hc)) s
    have haccepted := (agree_accepted hp hcode hform path s validator v t' u trivial).1
    simp only [Answers.screened, bind, Except.bind, hkept] at haccepted ⊢
    exact haccepted

/-- What the baseline settles on for a parameter is what a routine settles on. -/
theorem agree_judged {o : Options σ} (hnamed : o.sourceMode = .named) (hset : set.Declared env) (hcode : set.Repeatable)
    (hform : p.type.FormDecides) (hp : p ∈ set.specs) (hkeeps : p.supplied? o args = none → p.KeepsMade)
    (path : Strategy) (s : σ) :
    Agree (fun _ _ => True) (set.SameCause o.name) (judged p args)
      (Call.ofExcept (p.settled (Answers.on path s) o.name (p.supplied? o args)) : Call Unit Value) := by
  have htype := hcode.types p hp
  cases hs : p.supplied? o args with
  | some v =>
    rw [judged_supplied hnamed hs, ParameterSpec.settled_supplied]
    exact agree_screened hp htype hform path s o.name v
  | none =>
    rw [judged_absent hnamed hs]
    cases hd : p.default with
    | value d =>
      -- a static default was accepted when it was read, and the check has not changed its mind
      have haccepted := agree_accepted hp htype hform path s o.name d
      have hpassed : (Answers.on path s).verdict p.type d = .ok .passed := by
        rw [Answers.verdict_eq htype hform path s s]
        exact (htype.checked d).always_of_returns ((ParameterSet.sound_of_mem hset hp).static d hd).2.2.1 s
      rw [ParameterSpec.settled_static _ _ hd]
      rwa [hpassed] at haccepted
    | factory i make =>
      rw [ParameterSpec.settled_factory _ _ hd]
      exact agree_made hp htype hform hd (hcode.factories p hp i make hd) (hkeeps hs) path s o.name
    | none =>
      rw [ParameterSpec.settled_nothing _ _ hd]
      cases p.isRequired with
      | true => exact .fail (.missing hp)
      | false => exact .pure Value.undefined

/-! ## All parameters -/

theorem has_eq (set : ParameterSet σ) (k : String) : set.has k = set.names.contains k := by
  rw [Bool.eq_iff_iff]
  simp [ParameterSet.has, ParameterSet.get?, ParameterSet.names]

theorem putAll_filled (p : ParameterSpec σ) (specs : List (ParameterSpec σ)) (v : Value) (values : List Value)
    (out : Entries Value) : Entries.putAll (ParameterSet.filled ⟨p :: specs⟩ (v :: values)) out =
      Entries.putAll (ParameterSet.filled ⟨specs⟩ values) (if v.isUndefined then out else Entries.put p.name v out) := by
  simp only [ParameterSet.filled, ParameterSet.names, List.map_cons, List.zip_cons_cons, List.filter_cons]
  cases v.isUndefined <;> rfl

/-- What is written of parameters once they are settled, after what is there already. -/
def assembled (A : Answers σ) (o : Options σ) (args : Value) (specs : List (ParameterSpec σ)) (out : Entries Value) :
    Except Thrown (Entries Value) := do
  let values ← specs.mapM fun p => p.settled A o.name (p.supplied? o args)
  .ok (Entries.putAll (ParameterSet.filled ⟨specs⟩ values) out)

theorem assembled_cons (A : Answers σ) (o : Options σ) (args : Value) (p : ParameterSpec σ)
    (specs : List (ParameterSpec σ)) (out : Entries Value) : assembled A o args (p :: specs) out = (do
      let v ← p.settled A o.name (p.supplied? o args)
      assembled A o args specs (if v.isUndefined then out else Entries.put p.name v out)) := by
  simp only [assembled, List.mapM_cons, bind_assoc]
  congr 1
  funext v
  congr 1
  funext values
  exact congrArg Except.ok (putAll_filled p specs v values out)

/-- The baseline fills its output as it goes, and comes to what is written of all parameters. -/
theorem agree_interpretFrom {o : Options σ} (hnamed : o.sourceMode = .named) (hset : set.Declared env)
    (hcode : set.Repeatable) (hforms : ∀ p ∈ set.specs, p.type.FormDecides)
    (hkeeps : ∀ p ∈ set.specs, p.supplied? o args = none → p.KeepsMade) (path : Strategy) (s : σ)
    {specs : List (ParameterSpec σ)} (hspecs : ∀ p ∈ specs, p ∈ set.specs) (out : Entries Value) :
    Agree (fun _ _ => True) (set.SameCause o.name) (interpretFrom args specs out)
      (Call.ofExcept (assembled (Answers.on path s) o args specs out) : Call Unit (Entries Value)) := by
  induction specs generalizing out with
  | nil => exact .pure out
  | cons p specs ih =>
    have hp := hspecs p List.mem_cons_self
    have hrest := fun q hq => hspecs q (List.mem_cons_of_mem p hq)
    rw [interpretFrom_cons, assembled_cons, ofExcept_bind]
    exact (agree_judged hnamed hset hcode (hforms p hp) hp (hkeeps p hp) path s).bind fun v => ih hrest _

/-- Where extra arguments are rejected and the output is a record, interpreting the parameters
comes to the outcome of a routine. -/
theorem agree_interpret {o : Options σ} (hnamed : o.sourceMode = .named) (hmapped : o.outputMode = .mapped)
    (hset : set.Declared env) (hcode : set.Repeatable) (hforms : ∀ p ∈ set.specs, p.type.FormDecides)
    (hargs : args.isObject = true) (hkeeps : ∀ p ∈ set.specs, p.supplied? o args = none → p.KeepsMade)
    (path : Strategy) (s : σ) :
    Agree (fun _ _ => True) (set.SameCause o.name) (interpret set args)
      (Call.ofExcept (set.outcome (Answers.on path s) { o with strict := true, slurpy := .off } args) :
        Call Unit Value) := by
  have hpresent : args.isAbsent = false := by cases args <;> first | rfl | cases hargs
  have hunknown : List.find? (fun e => !set.has e.1) args.entries = (set.undeclared args).head? := by
    rw [ParameterSet.undeclared, List.head?_filter]
    congr 1
    funext e
    rw [has_eq]
  unfold interpret
  rw [hpresent, hunknown, ParameterSet.outcome_strict _ hnamed hargs]
  cases hextra : set.undeclared args with
  | cons e es =>
    have hk : e.1 ∉ set.names := by
      have he : e ∈ set.undeclared args := hextra ▸ List.mem_cons_self
      simpa using (List.mem_filter.mp he).2
    exact .fail (.unknown hk)
  | nil =>
    have hadmitted : set.admitted { o with strict := false, slurpy := .off } args = .ok () :=
      ParameterSet.admitted_lenient hnamed hargs
    have houtcome : set.outcome (Answers.on path s) { o with strict := false, slurpy := .off } args = (do
        let es ← assembled (Answers.on path s) o args set.specs []
        .ok (.record es)) := by
      have hsettled : set.settledAll (Answers.on path s) { o with strict := false, slurpy := .off } args =
          set.specs.mapM fun p => p.settled (Answers.on path s) o.name (p.supplied? o args) := rfl
      rw [ParameterSet.outcome_of_off _ hadmitted rfl, assembled, ← hsettled]
      cases hvalues : set.settledAll (Answers.on path s) { o with strict := false, slurpy := .off } args with
      | error t => rfl
      | ok values =>
        have hwritten := ParameterSet.written_settled hset (fun p hp ha => (hkeeps p hp ha).value) hvalues
        simp only [bind, Except.bind, ParameterSet.container, hmapped, hwritten, List.append_nil]
        rfl
    simp only [List.head?_nil]
    rw [houtcome, ofExcept_bind]
    exact (agree_interpretFrom hnamed hset hcode hforms hkeeps path s (fun _ hp => hp) []).bind fun es => .pure _

end Bench

/-! ## The contenders -/

/-- Compiling parameters compiles the set that reading them gives. -/
theorem Validator.compile_of_ofParameters {params : Parameters σ} {set : ParameterSet σ} {given : Value} {o : Options σ}
    {v : Validator σ} (hread : Always (ParameterSet.read env params) (.ok set)) (ho : Options.resolve env given = .ok o)
    (h : Returns (ofParameters env params given) v) : ∃ descriptor, Returns (compile env set o descriptor) v := by
  obtain ⟨r, hprepare, hcompile⟩ := returns_bind h
  obtain ⟨set', ⟨s, hs⟩, hprepare⟩ := returns_bind hprepare
  cases (hread s).symm.trans hs
  rw [Options.read_of_resolve ho] at hprepare
  obtain ⟨_, ho', hprepare⟩ := returns_bind hprepare
  cases returns_pure ho'
  obtain ⟨descriptor, _, hprepare⟩ := returns_bind hprepare
  cases returns_pure hprepare
  exact ⟨_, hcompile⟩

namespace Bench

/-- The options of the compiled contenders. -/
def contenderOptions (env : Surroundings σ) (name : String) (codegen : Bool) : Options σ :=
  { Options.standard with name, codegen, debug? := Options.sink? env .undefined }

/-- A compiled contender comes to an error of the same cause as the baseline, or to the same value. -/
theorem agree_compiled {set : ParameterSet σ} {name : String} {codegen : Bool} {descriptor : String} {v : Validator σ}
    {args : Value} (hset : set.Declared env) (hcode : set.Repeatable) (hforms : ∀ p ∈ set.specs, p.type.FormDecides)
    (hv : Returns (Validator.compile env set (contenderOptions env name codegen) descriptor) v)
    (hargs : args.isObject = true)
    (hkeeps : ∀ p ∈ set.specs, p.supplied? .standard args = none → p.KeepsMade) (s t : σ) :
    Matches (set.SameCause name) (start (interpret set args) s).1 (start (v.validate args) t).1 := by
  have hkeep : (Plan.make set (contenderOptions env name codegen)).KeepsOrder := by
    intro hpositional
    cases hpositional
  have run := Validator.always_validate hkeep hcode Slurpy.repeatable_off hv t args t
  have hagree := agree_interpret (o := contenderOptions env name codegen) rfl rfl hset hcode hforms hargs
    hkeeps v.strategy t
  rw [run]
  exact (hagree s () trivial).1

namespace Contenders

variable {params : Parameters σ} {set : ParameterSet σ} {k : Contenders σ}

/-- For pure types whose inline forms compute the verdict, and factories that make the same
value each time: the baseline returns a value exactly when the compiled validators do, and the
same one, and stops with the same cause as they do, on all calls that leave out no parameter
whose factory makes a value that the type coerces to another. -/
theorem same_outcome (hread : Returns (ParameterSet.read env params) set) (hset : set.Declared env)
    (hcode : set.Repeatable) (hforms : ∀ p ∈ set.specs, p.type.FormDecides)
    (hk : Returns (Contenders.make env params) k) {args : Value} (hargs : args.isObject = true)
    (hkeeps : ∀ p ∈ set.specs, p.supplied? .standard args = none → p.KeepsMade) (s t : σ) :
    Matches (set.SameCause "bench_inline") (start (k.naive args) s).1 (start (k.inline args) t).1 ∧
      Matches (set.SameCause "bench_generic") (start (k.naive args) s).1 (start (k.generic args) t).1 := by
  have hagain := ParameterSet.always_read hread hcode
  obtain ⟨inline, hinline, hk⟩ := returns_bind hk
  obtain ⟨generic, hgeneric, hk⟩ := returns_bind hk
  obtain ⟨set', ⟨u, hu⟩, hk⟩ := returns_bind hk
  cases (hagain u).symm.trans hu
  cases returns_pure hk
  have specialized : Options.resolve env (.record [("name", .text "bench_inline")]) =
      .ok (contenderOptions env "bench_inline" true) := rfl
  have interpreted : Options.resolve env (.record [("name", .text "bench_generic"), ("codegen", .bool false)]) =
      .ok (contenderOptions env "bench_generic" false) := rfl
  obtain ⟨_, hinline⟩ := Validator.compile_of_ofParameters hagain specialized hinline
  obtain ⟨_, hgeneric⟩ := Validator.compile_of_ofParameters hagain interpreted hgeneric
  exact ⟨agree_compiled hset hcode hforms hinline hargs hkeeps s t,
    agree_compiled hset hcode hforms hgeneric hargs hkeeps s t⟩

/-- Where a set has a descriptor and the surroundings keep no numbers, there are contenders. -/
theorem returns_make {s : σ} {inline generic : String → Validator σ}
    (hread : start (ParameterSet.read env params) s = (.ok set, s)) (hstate : ∀ t, env.withIdentities t s = s)
    (hasked : start (Descriptor.askDefaults env set.specs) s = (.ok [], s))
    (hdescribe : ∀ name codegen, ∃ d,
      (Descriptor.describe (env.identities s) set (contenderOptions env name codegen)).1 = .ok d)
    (hinline : ∀ descriptor, start (Validator.compile env set (contenderOptions env "bench_inline" true) descriptor) s
      = (.ok (inline descriptor), s))
    (hgeneric : ∀ descriptor, start (Validator.compile env set (contenderOptions env "bench_generic" false) descriptor) s
      = (.ok (generic descriptor), s)) :
    ∃ d d', Returns (Contenders.make env params) ⟨(inline d).validate, (generic d').validate, interpret set⟩ := by
  have compiled : ∀ {given : Value} {o : Options σ} {d : Descriptor}, Options.resolve env given = .ok o →
      (Descriptor.describe (env.identities s) set o).1 = .ok d →
      start (Validator.ofParameters env params given) s = start (Validator.compile env set o d.digest) s := by
    intro given o d ho hd
    have hnumbered : start (env.onIdentities fun t => Descriptor.describe t set o) s = (.ok d, s) :=
      Prod.ext hd (hstate _)
    have hprepared : start (Validator.prepare env params given) s = (.ok ⟨set, o, d⟩, s) := by
      have hdescribed : start (Descriptor.ofRequest env set o) s = (.ok d, s) := (start_bind_ok hasked).trans hnumbered
      rw [Validator.prepare, start_bind_ok hread, Options.read_of_resolve ho, start_bind_ok (start_pure _ _),
        start_bind_ok hdescribed]
      rfl
    exact start_bind_ok hprepared
  obtain ⟨d, hd⟩ := hdescribe "bench_inline" true
  obtain ⟨d', hd'⟩ := hdescribe "bench_generic" false
  refine ⟨d.digest, d'.digest, s, ?_⟩
  rw [Contenders.make, start_bind_ok ((compiled rfl hd).trans (hinline _)),
    start_bind_ok ((compiled rfl hd').trans (hgeneric _)),
    start_bind_ok hread]
  rfl

/-- A booking whose aisle is left to a factory that makes a boolean. -/
theorem same_outcome_booking : ∃ k : Contenders Nat,
    Returns (Contenders.make .fixed (.value ParameterSet.bookingDefinitions)) k ∧
    ∀ n, (start (k.inline (.record [("seat", .text "3A")])) n).1 =
      .ok (.record [("seat", .text "3A"), ("aisle", .bool true)]) ∧
      (start (k.generic (.record [("seat", .text "3A")])) n).1 =
      .ok (.record [("seat", .text "3A"), ("aisle", .bool true)]) := by
  have hread : start (ParameterSet.read .fixed (.value ParameterSet.bookingDefinitions)) 0 =
      (.ok ParameterSet.fixedBooking, 0) := rfl
  have hdescribe : ∀ name codegen, ∃ d, (Descriptor.describe .initial ParameterSet.fixedBooking
      (contenderOptions .fixed name codegen)).1 = .ok d := by
    intro name codegen
    refine Descriptor.describe_ok
      (Descriptor.covers_of_askDefaults ParameterSet.declared_fixedBooking ⟨0, rfl⟩)
        ParameterSet.flagsBoolean_fixedBooking (by decide) Identities.sound_initial ?_
    show 4 ≤ 2 ^ 53
    decide
  obtain ⟨d, d', hk⟩ := returns_make hread (fun _ => rfl) rfl hdescribe (fun _ => rfl) (fun _ => rfl)
  have hforms : ∀ p ∈ ParameterSet.fixedBooking.specs, p.type.FormDecides := by
    apply ParameterSet.forall_pair <;> exact (Capability.reliable_scalar _ _).formDecides
  have hkeeps : ∀ p ∈ ParameterSet.fixedBooking.specs, p.supplied? .standard (.record [("seat", .text "3A")]) = none →
      p.KeepsMade := by
    apply ParameterSet.forall_pair <;> intro _ <;> constructor
    · intro i make v hd
      cases hd
    · intro i make v hd
      cases hd
    · exact fun i make v _ _ => ⟨0, rfl⟩
    · intro i make v _ hrequired
      cases hrequired
  have hnaive : ∀ n, (start (interpret ParameterSet.fixedBooking (.record [("seat", .text "3A")])) n).1 =
      .ok (.record [("seat", .text "3A"), ("aisle", .bool true)]) := by
    intro n
    have hentries : (Value.record [("seat", .text "3A")]).entries = [("seat", .text "3A")] :=
      Entries.ordered_of_pairwise (List.pairwise_singleton _ _)
    unfold interpret
    rw [hentries]
    rfl
  refine ⟨_, hk, fun n => ?_⟩
  obtain ⟨hinline, hgeneric⟩ := same_outcome (returns_of_start hread) ParameterSet.declared_fixedBooking
    ParameterSet.repeatable_fixedBooking hforms hk rfl hkeeps n n
  rw [hnaive] at hinline hgeneric
  exact ⟨eq_ok_of_matches hinline, eq_ok_of_matches hgeneric⟩

end Contenders

/-! ## A factory that makes a text -/

/-- Function `1` makes the text of a number, and type `3` takes numbers as text. -/
def textual : Surroundings Nat :=
  { Surroundings.fixed with
    run := fun _ _ => pure (.text "5")
    known := fun
      | 3 => some (Capability.Numeric.wrap 3 (Capability.Scalar.int.capability 4))
      | _ => none }

def rowDefinitions : Value :=
  .ofItems [.record [("name", .text "row"),
    ("type", (Capability.Numeric.wrap 3 (Capability.Scalar.int.capability 4) : Capability Nat).toValue),
    ("default", .function 1 [])]]

def row : ParameterSpec Nat :=
  ⟨"row", 0, Capability.Numeric.wrap 3 (Capability.Scalar.int.capability 4), .bool false, .factory 1 (pure (.text "5"))⟩

def rows : ParameterSet Nat := ⟨[row]⟩

theorem declared_rows : rows.Declared textual := ⟨rowDefinitions, 0, 0, rfl⟩

theorem repeatable_rows : rows.Repeatable where
  types p hp := by
    cases List.mem_singleton.mp hp
    exact ⟨fun v => (Always.pure _).repeatable, fun v => (Always.pure _).repeatable⟩
  factories p hp i make hd := by
    cases List.mem_singleton.mp hp
    cases hd
    exact (Always.pure _).repeatable

theorem formDecides_rows : ∀ p ∈ rows.specs, p.type.FormDecides := by
  intro p hp
  cases List.mem_singleton.mp hp
  exact Capability.formDecides_of_decides rfl (Capability.decides_numeric (Capability.decides_scalar _ _) _)

/-- Either routine coerces the text that the factory makes. -/
theorem settled_row (path : Strategy) (n : Nat) (validator : String) :
    row.settled (Answers.on path n) validator none = .ok (.nat 5) := by
  have hnumber : Capability.Numeric.exactly? "5" = some (.ofNat 5) := by decide +kernel
  have hinteger : (Number.ofNat 5).isInteger = true := by decide +kernel
  have hconvert : Capability.Numeric.convert (.text "5") = .nat 5 := by
    rw [Capability.Numeric.convert, hnumber]
    rfl
  have hpassed : ∀ x : Number, x.isInteger = true → Returns (row.type.check (.number x)) .passed := by
    intro x hx
    refine ⟨n, ?_⟩
    show (start (pure (if x.isInteger then Verdict.passed else _)) n).1 = _
    rw [hx]
    rfl
  have hrow : row ∈ rows.specs := List.mem_cons_self
  have hcoerced : (Answers.on path n).coerced row.type (.text "5") = .ok (Capability.Numeric.convert (.text "5")) := rfl
  have hchecked := (repeatable_rows.types row hrow).checked (.nat 5)
  have hmade : (Answers.on path n).made (pure (.text "5")) = .ok (.text "5") := rfl
  rw [ParameterSpec.settled_factory _ _ rfl, hmade]
  simp only [bind, Except.bind]
  refine Answers.screened_eq_ok.mpr ⟨hconvert ▸ hcoerced, ?_⟩
  rw [Answers.verdict_eq (repeatable_rows.types row hrow) (formDecides_rows row hrow) path n n]
  exact hchecked.always_of_returns (hpassed _ hinteger) n

/-- The compiled validators coerce the text that the factory makes, and the baseline rejects it. -/
theorem Contenders.factory_not_coerced : rows.Declared textual ∧ rows.Repeatable ∧
    (∀ p ∈ rows.specs, p.type.FormDecides) ∧
    ∃ k, Returns (Contenders.make textual (.value rowDefinitions)) k ∧ ∀ n,
      (start (k.naive (.record [])) n).1 = .error (BaselineFault.rejected "row" "expected an integer, got \"5\"").thrown ∧
      (start (k.inline (.record [])) n).1 = .ok (.record [("row", .nat 5)]) ∧
      (start (k.generic (.record [])) n).1 = .ok (.record [("row", .nat 5)]) := by
  have hflags : rows.FlagsBoolean := by
    intro p hp
    cases List.mem_singleton.mp hp
    exact ⟨_, rfl⟩
  have hdescribe : ∀ name codegen, ∃ d,
      (Descriptor.describe .initial rows (contenderOptions textual name codegen)).1 = .ok d := by
    intro name codegen
    refine Descriptor.describe_ok (Descriptor.covers_of_askDefaults declared_rows ⟨0, rfl⟩) hflags (by decide)
      Identities.sound_initial ?_
    show 3 ≤ 2 ^ 53
    decide
  have hread : start (ParameterSet.read textual (.value rowDefinitions)) 0 = (.ok rows, 0) := rfl
  obtain ⟨d, d', hk⟩ := returns_make hread (fun _ => rfl) rfl hdescribe (fun _ => rfl) (fun _ => rfl)
  have hentries : (Value.record []).entries = [] := Entries.ordered_of_pairwise List.Pairwise.nil
  have hundeclared : rows.undeclared (.record []) = [] := by rw [ParameterSet.undeclared, hentries]; rfl
  have compiled : ∀ (name : String) (codegen : Bool) (descriptor : String) (v : Validator Nat),
      start (Validator.compile textual rows (contenderOptions textual name codegen) descriptor) 0 = (.ok v, 0) →
      ∀ n, (start (v.validate (.record [])) n).1 = .ok (.record [("row", .nat 5)]) := by
    intro name codegen descriptor v hv n
    have hkeep : (Plan.make rows (contenderOptions textual name codegen)).KeepsOrder := fun h => by cases h
    have hadmitted : rows.admitted (contenderOptions textual name codegen) (.record []) = .ok () := by
      refine (ParameterSet.admitted_strict (o := contenderOptions textual name codegen) rfl rfl).trans ?_
      rw [hundeclared]
    have hsettled : rows.settledAll (Answers.on v.strategy n) (contenderOptions textual name codegen) (.record []) =
        .ok [.nat 5] := mapM_eq_ok.mpr (.cons (settled_row v.strategy n name) .nil)
    rw [Validator.always_validate hkeep repeatable_rows Slurpy.repeatable_off (returns_of_start hv) n (.record []) n,
      ParameterSet.outcome_of_off _ hadmitted rfl, hsettled]
    cases v.strategy <;> rfl
  refine ⟨declared_rows, repeatable_rows, formDecides_rows, _, hk, fun n =>
    ⟨?_, compiled "bench_inline" true d _ rfl n, compiled "bench_generic" false d' _ rfl n⟩⟩
  show (start (interpret rows (.record [])) n).1 = _
  unfold interpret
  rw [hentries]
  rfl

end Bench

end ArgGuard
