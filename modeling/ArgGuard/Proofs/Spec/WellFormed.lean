/-
  ArgGuard.Proofs.Spec.WellFormed — which lists of definitions are read.

  What a definition has to be is said without running anything (`WellFormed`), and so is
  what may be wrong with it: five flaws, looked for in a fixed order (`Flaw`). A definition
  is well formed exactly when it has no flaw (`wellFormed_iff`), and reading it gives a
  parameter that has what it asks for (`ofDefinition_wellFormed`) or stops with the fault
  of its first flaw (`ofDefinition_flawed`).

  A list is read definition by definition, and names are compared only when all of them are
  well formed (`read_list_iff`): so a flaw behind two equal names is reported before them.
-/

import ArgGuard.Proofs.Routine.Conformance
import Mathlib.Data.List.TakeWhile
import Mathlib.Order.WellFounded

namespace ArgGuard

open Call

variable {σ : Type} {env : Surroundings σ}

/-! ## What a definition has to be -/

/-- The types that definitions name are pure, never stop with an error and compute these
functions. -/
structure Reading.OfDefinitions (R : Reading σ) (env : Surroundings σ) (ds : List Value) : Prop where
  coerced : ∀ d ∈ ds, ∀ c, env.capability? (d.get "type") = some c → ∀ v, c.coerced v = pure (R.coerce c v)
  checked : ∀ d ∈ ds, ∀ c, env.capability? (d.get "type") = some c → ∀ v, c.check v = pure (R.verdict c v)

/-- A static default that a type takes: coerced, it is neither an object nor a list, and passes. -/
def Capability.Takes (R : Reading σ) (c : Capability σ) (v : Value) : Prop :=
  (R.coerce c v).isObject = false ∧ (R.coerce c v).isList = false ∧ R.verdict c (R.coerce c v) = .passed

namespace ParameterSpec

variable (env : Surroundings σ) (R : Reading σ)

structure WellFormed (d : Value) : Prop where
  named : ∃ n, d.get "name" = .text n ∧ n ≠ "" ∧ n ≠ reservedName
  typed : ∃ c, env.capability? (d.get "type") = some c
  flags : ¬ (d.get "required" = .bool true ∧ d.get "optional" = .bool true)
  required : d.get "required" = .bool true → (d.get "default").isUndefined = true
  default : (d.get "default").isUndefined = false → (d.get "default").isFunction = false →
    ∀ c, env.capability? (d.get "type") = some c → c.Takes R (d.get "default")

/-- What a parameter has of the definition that it was read from, in its place. -/
structure Describes (d : Value) (i : Nat) (p : ParameterSpec σ) : Prop where
  name : d.get "name" = .text p.name
  position : p.position = i
  type : env.capability? (d.get "type") = some p.type
  flag : ∀ b, d.get "required" = .bool b → p.required = .bool b
  /-- Without a flag a parameter is required unless it is optional or has a default. -/
  unflagged : (d.get "required").isUndefined = true →
    (p.isRequired = true ↔ d.get "optional" ≠ .bool true ∧ (d.get "default").isUndefined = true)
  undefaulted : (d.get "default").isUndefined = true → p.default = .none
  factory : ∀ f own, d.get "default" = .function f own → p.default = .factory f (env.run f [])
  static : (d.get "default").isUndefined = false → (d.get "default").isFunction = false →
    p.default = .value (R.coerce p.type (d.get "default"))

end ParameterSpec

/-! ## What may be wrong with it -/

/-- What may be wrong with a definition, the first thing that is looked for first. -/
inductive Flaw where
  | name
  | type
  | flags
  | defaultOnRequired
  | badDefault
  deriving DecidableEq, Repr

namespace Flaw

def code : Flaw → ErrorCode
  | .name => .invalidDefinition
  | .type => .invalidDefinition
  | .flags => .invalidDefinition
  | .defaultOnRequired => .defaultOnRequired
  | .badDefault => .invalidDefault

/-- The place of a flaw in the order in which flaws are looked for. -/
def rank : Flaw → Nat
  | .name => 0
  | .type => 1
  | .flags => 2
  | .defaultOnRequired => 3
  | .badDefault => 4

end Flaw

/-- The fault of a definition: an error of its class, with a code and the position that it names. -/
def DefinitionFault.Reports (f : DefinitionFault) (code : ErrorCode) (i : Nat) : Prop :=
  f.failure.cls = .definition ∧ f.failure.code = .listed code ∧ f.failure.context.get "position" = .nat i

namespace ParameterSpec

section flaws

variable (env : Surroundings σ) (R : Reading σ) (d : Value)

def HasFlaw : Flaw → Prop
  | .name => ∀ n, d.get "name" = .text n → n = "" ∨ n = reservedName
  | .type => env.capability? (d.get "type") = none
  | .flags => d.get "required" = .bool true ∧ d.get "optional" = .bool true
  | .defaultOnRequired => d.get "required" = .bool true ∧ (d.get "default").isUndefined = false
  | .badDefault => (d.get "default").isUndefined = false ∧ (d.get "default").isFunction = false ∧
      ∃ c, env.capability? (d.get "type") = some c ∧ ¬ c.Takes R (d.get "default")

/-- A flaw before which there is none. -/
def FirstFlaw (k : Flaw) : Prop := HasFlaw env R d k ∧ ∀ j : Flaw, j.rank < k.rank → ¬ HasFlaw env R d j

end flaws

variable {R : Reading σ} {d : Value}

theorem named_of_not_hasFlaw (h : ¬ HasFlaw env R d .name) : ∃ n, d.get "name" = .text n ∧ n ≠ "" ∧ n ≠ reservedName := by
  simp only [HasFlaw] at h
  push Not at h
  exact h

theorem wellFormed_iff : WellFormed env R d ↔ ∀ k, ¬ HasFlaw env R d k := by
  constructor
  · intro h k hk
    cases k with
    | name =>
      obtain ⟨n, hn, hempty, hreserved⟩ := h.named
      exact (hk n hn).elim hempty hreserved
    | type =>
      obtain ⟨c, hc⟩ := h.typed
      cases hc.symm.trans hk
    | flags => exact h.flags hk
    | defaultOnRequired => cases (h.required hk.1).symm.trans hk.2
    | badDefault =>
      obtain ⟨hgiven, hstatic, c, hc, hbad⟩ := hk
      exact hbad (h.default hgiven hstatic c hc)
  · intro h
    refine ⟨named_of_not_hasFlaw (h .name), ?_, h .flags, fun hr => ?_, fun hgiven hstatic c hc => ?_⟩
    · exact Option.ne_none_iff_exists'.mp (h .type)
    · by_contra hgiven
      exact h .defaultOnRequired ⟨hr, by simpa using hgiven⟩
    · by_contra hbad
      exact h .badDefault ⟨hgiven, hstatic, c, hc, hbad⟩

/-- A definition that is not well formed has a first flaw. -/
theorem exists_firstFlaw (h : ¬ WellFormed env R d) : ∃ k, FirstFlaw env R d k := by
  rw [wellFormed_iff] at h
  push Not at h
  obtain ⟨k, hk, hfirst⟩ := WellFounded.has_min (measure Flaw.rank).wf {k | HasFlaw env R d k} h
  exact ⟨k, hk, fun j hj hflaw => hfirst j hflaw hj⟩

/-! ## Reading a definition -/

theorem isAbsent_of_isObject {v : Value} (h : v.isObject = true) : v.isAbsent = false := by
  cases v <;> first | rfl | cases h

theorem settleDefault_taken {c : Capability σ} {v : Value} (hcoerced : c.coerced v = pure (R.coerce c v))
    (hchecked : c.check (R.coerce c v) = pure (R.verdict c (R.coerce c v))) (hstatic : v.isFunction = false)
    (h : c.Takes R v) (name : String) (i : Nat) :
    settleDefault env name i c v = pure (.value (R.coerce c v)) := by
  obtain ⟨hobject, hlist, hpassed⟩ := h
  unfold settleDefault
  split
  · cases hstatic
  rw [hcoerced, pure_bind, hobject, hlist, Bool.or_self, if_neg Bool.false_ne_true, hchecked, hpassed, pure_bind]

theorem settleDefault_refused {c : Capability σ} {v : Value} (hcoerced : c.coerced v = pure (R.coerce c v))
    (hchecked : c.check (R.coerce c v) = pure (R.verdict c (R.coerce c v))) (hstatic : v.isFunction = false)
    (h : ¬ c.Takes R v) (name : String) (i : Nat) :
    ∃ f : DefinitionFault, settleDefault env name i c v = Call.fail (.definition f) ∧ f.Reports .invalidDefault i := by
  unfold settleDefault
  split
  · cases hstatic
  rw [hcoerced, pure_bind]
  by_cases hobject : ((R.coerce c v).isObject || (R.coerce c v).isList) = true
  · rw [if_pos hobject]
    exact ⟨_, rfl, rfl, rfl, rfl⟩
  rw [if_neg hobject, hchecked, pure_bind]
  cases hverdict : R.verdict c (R.coerce c v) with
  | rejected reason => exact ⟨_, rfl, rfl, rfl, rfl⟩
  | passed =>
    simp only [Bool.or_eq_true, not_or, Bool.not_eq_true] at hobject
    exact absurd ⟨hobject.1, hobject.2, hverdict⟩ h

theorem requiredFlag_given {b : Bool} (h : d.get "required" = .bool b) : requiredFlag d = .bool b := by
  rw [requiredFlag, h]
  rfl

theorem requiredFlag_missing (h : (d.get "required").isUndefined = true) : (requiredFlag d).truthy = true ↔
    d.get "optional" ≠ .bool true ∧ (d.get "default").isUndefined = true := by
  have habsent : (d.get "required").isAbsent = true := by
    rw [Value.eq_undefined h]
    rfl
  rw [requiredFlag, if_pos habsent, Ne, ← identical_true]
  simp [Value.truthy]

theorem bothFlags : ((d.get "required").identical (.bool true) && (d.get "optional").identical (.bool true)) = true ↔
    d.get "required" = .bool true ∧ d.get "optional" = .bool true := by
  rw [Bool.and_eq_true, identical_true, identical_true]

theorem requiredDefault : ((d.get "required").identical (.bool true) && !(d.get "default").isUndefined) = true ↔
    d.get "required" = .bool true ∧ (d.get "default").isUndefined = false := by
  rw [Bool.and_eq_true, identical_true, Bool.not_eq_true']

/-- Past the tests of name, type and flags only the default is left to settle. -/
theorem ofDefinition_flagged {n : String} {c : Capability σ} (hobject : d.isObject = true)
    (hname : d.get "name" = .text n) (hempty : n ≠ "") (hreserved : n ≠ reservedName)
    (htype : env.capability? (d.get "type") = some c)
    (hflags : ¬ HasFlaw env R d .flags) (hrequired : ¬ HasFlaw env R d .defaultOnRequired) (i : Nat) :
    ofDefinition env d i = (do
      let default ← if (d.get "default").isUndefined then pure .none else settleDefault env n i c (d.get "default")
      pure ⟨n, i, c, requiredFlag d, default⟩) := by
  have hboth := bothFlags.not.mpr hflags
  have hboth' := requiredDefault.not.mpr hrequired
  unfold ofDefinition
  simp only [isAbsent_of_isObject hobject, Bool.false_eq_true, if_false, hname, hempty, hreserved, htype, hboth, hboth']
  rfl

/-- A definition that is well formed is read. -/
theorem ofDefinition_wellFormed {ds : List Value} (hR : R.OfDefinitions env ds) (hd : d ∈ ds)
    (hobject : d.isObject = true) (h : WellFormed env R d) (i : Nat) :
    ∃ p, ofDefinition env d i = pure p ∧ Describes env R d i p := by
  obtain ⟨n, hname, hempty, hreserved⟩ := h.named
  obtain ⟨c, htype⟩ := h.typed
  rw [ofDefinition_flagged hobject hname hempty hreserved htype (wellFormed_iff.mp h .flags)
    (wellFormed_iff.mp h .defaultOnRequired)]
  have hflag : ∀ b, d.get "required" = .bool b → requiredFlag d = .bool b := fun _ => requiredFlag_given
  by_cases hgiven : (d.get "default").isUndefined = true
  · rw [if_pos hgiven, pure_bind]
    refine ⟨_, rfl, hname, rfl, htype, hflag, requiredFlag_missing, fun _ => rfl, fun f own hf => ?_, fun hn => ?_⟩
    · rw [hf] at hgiven
      cases hgiven
    · cases hgiven.symm.trans hn
  rw [if_neg hgiven]
  have hdefined : (d.get "default").isUndefined = false := by simpa using hgiven
  cases hdefault : d.get "default" with
  | function f own =>
    rw [settleDefault, pure_bind]
    refine ⟨_, rfl, hname, rfl, htype, hflag, requiredFlag_missing, fun hu => absurd hu hgiven, fun g own' hg => ?_,
      fun _ hstatic => ?_⟩
    · cases hdefault.symm.trans hg
      rfl
    · rw [hdefault] at hstatic
      cases hstatic
  | _ =>
    have hstatic : (d.get "default").isFunction = false := by rw [hdefault]; rfl
    rw [← hdefault, settleDefault_taken (hR.coerced d hd c htype _) (hR.checked d hd c htype _) hstatic
      (h.default hdefined hstatic c htype), pure_bind]
    refine ⟨_, rfl, hname, rfl, htype, hflag, requiredFlag_missing, fun hu => absurd hu hgiven, fun f own hf => ?_,
      fun _ _ => rfl⟩
    rw [hf] at hstatic
    cases hstatic

/-- A definition with a flaw stops the reading with the fault of its first one. -/
theorem ofDefinition_flawed {ds : List Value} (hR : R.OfDefinitions env ds) (hd : d ∈ ds) (hobject : d.isObject = true)
    {k : Flaw} (h : FirstFlaw env R d k) (i : Nat) :
    ∃ f : DefinitionFault, ofDefinition env d i = Call.fail (.definition f) ∧ f.Reports k.code i := by
  obtain ⟨hk, hfirst⟩ := h
  have habsent := isAbsent_of_isObject hobject
  by_cases hname : HasFlaw env R d .name
  · -- the first flaw is the first one looked for
    have hcode : k.code = .invalidDefinition := by
      cases k with
      | name => rfl
      | _ => exact absurd hname (hfirst .name (by decide))
    rw [hcode]
    unfold ofDefinition
    simp only [habsent, Bool.false_eq_true, if_false]
    split
    · rename_i n hn
      split
      · exact ⟨_, rfl, rfl, rfl, rfl⟩
      · rename_i hempty
        rw [if_pos ((hname n hn).resolve_left hempty)]
        exact ⟨_, rfl, rfl, rfl, rfl⟩
    · exact ⟨_, rfl, rfl, rfl, rfl⟩
  obtain ⟨n, hn, hempty, hreserved⟩ := named_of_not_hasFlaw hname
  cases k with
  | name => exact absurd hk hname
  | type =>
    have htype : env.capability? (d.get "type") = none := hk
    unfold ofDefinition
    simp only [habsent, Bool.false_eq_true, if_false, hn, hempty, hreserved, htype]
    exact ⟨_, rfl, rfl, rfl, rfl⟩
  | flags =>
    obtain ⟨c, htype⟩ := Option.ne_none_iff_exists'.mp (hfirst .type (by decide))
    unfold ofDefinition
    simp only [habsent, Bool.false_eq_true, if_false, hn, hempty, hreserved, htype, bothFlags.mpr hk, if_true]
    exact ⟨_, rfl, rfl, rfl, rfl⟩
  | defaultOnRequired =>
    obtain ⟨c, htype⟩ := Option.ne_none_iff_exists'.mp (hfirst .type (by decide))
    have hflags := bothFlags.not.mpr (hfirst .flags (by decide))
    unfold ofDefinition
    simp only [habsent, Bool.false_eq_true, if_false, hn, hempty, hreserved, htype, hflags,
      requiredDefault.mpr hk, if_true]
    exact ⟨_, rfl, rfl, rfl, rfl⟩
  | badDefault =>
    obtain ⟨hgiven, hstatic, c, htype, hbad⟩ := hk
    obtain ⟨f, hf, hreports⟩ := settleDefault_refused (hR.coerced d hd c htype _)
      (hR.checked d hd c htype _) hstatic hbad n i
    rw [ofDefinition_flagged hobject hn hempty hreserved htype (hfirst .flags (by decide))
      (hfirst .defaultOnRequired (by decide)), hgiven, if_neg Bool.false_ne_true, hf]
    exact ⟨f, rfl, hreports⟩

end ParameterSpec

/-! ## Reading a list -/

namespace ParameterSet

open ParameterSpec (WellFormed Describes FirstFlaw)

section specification

variable (env : Surroundings σ) (R : Reading σ) (ds : List Value)

/-- What a set has of the list of definitions that it was read from. -/
structure Represents (set : ParameterSet σ) : Prop where
  size : set.size = ds.length
  names : set.names.map Value.text = ds.map (·.get "name")
  distinct : set.names.Nodup
  each : ∀ i d, ds[i]? = some d → ∃ p, set.at? i = some p ∧ Describes env R d i p ∧ set.get? p.name = some p
  has : ∀ n, set.has n = true ↔ n ∈ set.names

/-- What is wrong with a list of definitions: the code of the fault and the position it lies at. -/
inductive Faulty : ErrorCode → Nat → Prop
  /-- The first definition that is not well formed, for its first flaw. -/
  | malformed {before after : List Value} {d : Value} {k : Flaw} (split : ds = before ++ d :: after)
      (wellFormed : ∀ e ∈ before, WellFormed env R e) (flaw : FirstFlaw env R d k) : Faulty k.code before.length
  /-- The first name that occurred before, where all definitions are well formed. -/
  | repeated {before after : List Value} {d : Value} (wellFormed : ∀ e ∈ ds, WellFormed env R e)
      (split : ds = before ++ d :: after) (distinct : (before.map (·.get "name")).Nodup)
      (again : d.get "name" ∈ before.map (·.get "name")) : Faulty .duplicateParameter before.length

end specification

variable {R : Reading σ} {ds : List Value}

/-- Definitions that are all well formed are read one by one. -/
theorem readList_wellFormed (hR : R.OfDefinitions env ds) (hobjects : ∀ d ∈ ds, d.isObject = true) {es : List Value}
    (hes : ∀ d ∈ es, d ∈ ds ∧ WellFormed env R d) (i : Nat) :
    ∃ ps : List (ParameterSpec σ), readList env i (es.map some) = pure (ps.map some) ∧ ps.length = es.length ∧
      ∀ j d p, es[j]? = some d → ps[j]? = some p → Describes env R d (i + j) p := by
  induction es generalizing i with
  | nil => exact ⟨[], rfl, rfl, fun j d p hd => by simp at hd⟩
  | cons d es ih =>
    obtain ⟨hd, hwell⟩ := hes d List.mem_cons_self
    obtain ⟨p, hp, hdescribes⟩ := ParameterSpec.ofDefinition_wellFormed hR hd (hobjects d hd) hwell i
    obtain ⟨ps, hps, hlength, heach⟩ := ih (fun e he => hes e (List.mem_cons_of_mem _ he)) (i + 1)
    refine ⟨p :: ps, ?_, by simp [hlength], fun j e q he hq => ?_⟩
    · simp only [List.map_cons, readList, hp, hps, pure_bind]
    · cases j with
      | zero =>
        cases he
        cases hq
        exact hdescribes
      | succ j =>
        have hj := heach j e q (by simpa using he) (by simpa using hq)
        rwa [show i + (j + 1) = i + 1 + j by omega]

/-- The first definition that is not well formed stops the reading. -/
theorem readList_flawed (hR : R.OfDefinitions env ds) (hobjects : ∀ d ∈ ds, d.isObject = true) (after : List Value)
    {before : List Value} {d : Value} (hbefore : ∀ e ∈ before, e ∈ ds ∧ WellFormed env R e) (hd : d ∈ ds) {k : Flaw}
    (hk : FirstFlaw env R d k) (i : Nat) : ∃ f : DefinitionFault,
      readList env i ((before ++ d :: after).map some) = Call.fail (.definition f) ∧
        f.Reports k.code (i + before.length) := by
  induction before generalizing i with
  | nil =>
    obtain ⟨f, hf, hreports⟩ := ParameterSpec.ofDefinition_flawed hR hd (hobjects d hd) hk i
    refine ⟨f, ?_, hreports⟩
    rw [List.nil_append, List.map_cons, readList, hf]
    rfl
  | cons e before ih =>
    obtain ⟨he, hwell⟩ := hbefore e List.mem_cons_self
    obtain ⟨p, hp, _⟩ := ParameterSpec.ofDefinition_wellFormed hR he (hobjects e he) hwell i
    obtain ⟨f, hf, hreports⟩ := ih (fun e he => hbefore e (List.mem_cons_of_mem _ he)) (i + 1)
    refine ⟨f, ?_, ?_⟩
    · rw [List.cons_append, List.map_cons, readList, hp, pure_bind, hf]
      rfl
    · rwa [List.length_cons, show i + (before.length + 1) = i + 1 + before.length by omega]

/-! ### Names -/

/-- The first parameter whose name occurred before it, or among those already seen. -/
theorem firstDuplicate?_eq_some {seen : List String} {ps : List (ParameterSpec σ)} {p : ParameterSpec σ}
    (h : firstDuplicate? seen ps = some p) : ∃ before after, ps = before ++ p :: after ∧ (before.map (·.name)).Nodup ∧
      (∀ q ∈ before, q.name ∉ seen) ∧ (p.name ∈ seen ∨ p.name ∈ before.map (·.name)) := by
  induction ps generalizing seen with
  | nil => cases h
  | cons q ps ih =>
    rw [firstDuplicate?] at h
    split at h
    · rename_i hseen
      cases h
      exact ⟨[], ps, rfl, List.nodup_nil, fun _ hq => absurd hq List.not_mem_nil, .inl (by simpa using hseen)⟩
    · rename_i hseen
      obtain ⟨before, after, rfl, hnodup, hbefore, hp⟩ := ih h
      refine ⟨q :: before, after, rfl, ?_, ?_, ?_⟩
      · rw [List.map_cons, List.nodup_cons]
        refine ⟨fun hm => ?_, hnodup⟩
        obtain ⟨r, hr, hname⟩ := List.mem_map.mp hm
        exact hbefore r hr (hname ▸ List.mem_cons_self)
      · intro r hr
        rcases List.mem_cons.mp hr with rfl | hr
        · simpa using hseen
        · exact fun hm => hbefore r hr (List.mem_cons_of_mem _ hm)
      · rcases hp with hp | hp
        · rcases List.mem_cons.mp hp with hp | hp
          · exact .inr (by rw [List.map_cons, hp]; exact List.mem_cons_self)
          · exact .inl hp
        · exact .inr (List.mem_cons_of_mem _ hp)

/-- Parameters without a hole among them are a set where no name occurs again. -/
theorem collect_some (ps : List (ParameterSpec σ)) : (collect (ps.map some) : Call σ (ParameterSet σ)) =
    match firstDuplicate? [] ps with
    | some p => Call.fail (.definition (.duplicateName p.name p.position))
    | none => pure ⟨ps⟩ := by
  have htake : (ps.map some).takeWhile (·.isSome) = ps.map some := List.takeWhile_eq_self_iff.mpr (by simp)
  have hfilter : (ps.map some).filterMap id = ps := by simp
  unfold collect
  cases h : firstDuplicate? [] ps <;> simp only [htake, hfilter, List.length_map, if_true, h]

theorem get?_of_nodup {set : ParameterSet σ} (h : set.names.Nodup) {p : ParameterSpec σ} (hp : p ∈ set.specs) :
    set.get? p.name = some p := by
  obtain ⟨q, hq⟩ : ∃ q, set.get? p.name = some q :=
    Option.isSome_iff_exists.mp (List.find?_isSome.mpr ⟨p, hp, beq_self_eq_true _⟩)
  have hname : q.name = p.name := by simpa using List.find?_some hq
  rw [hq, List.inj_on_of_nodup_map h (List.mem_of_find?_eq_some hq) hp hname]

theorem has_iff (set : ParameterSet σ) (n : String) : set.has n = true ↔ n ∈ set.names := by
  simp [has, get?, names]

/-! ### The whole list -/

theorem exists_names {ps : List (ParameterSpec σ)} (hlength : ps.length = ds.length)
    (heach : ∀ j d p, ds[j]? = some d → ps[j]? = some p → Describes env R d (0 + j) p) :
    (ps.map (·.name)).map Value.text = ds.map (·.get "name") := by
  refine List.ext_getElem (by simp [hlength]) fun j hj hj' => ?_
  have hp : j < ps.length := by simpa using hj
  have hd : j < ds.length := by simpa using hj'
  have := (heach j ds[j] ps[j] (List.getElem?_eq_getElem hd) (List.getElem?_eq_getElem hp)).name
  simpa using this.symm

/-- A list as long as one with a place in it has an item at that place. -/
theorem exists_split {α β : Type} {before after : List α} {p : α} {ds : List β}
    (h : (before ++ p :: after).length = ds.length) : ∃ first d rest, ds = first ++ d :: rest ∧
    first.length = before.length := by
  have hlt : before.length < ds.length := by
    simp only [List.length_append, List.length_cons] at h
    omega
  refine ⟨ds.take before.length, ds[before.length], ds.drop (before.length + 1), ?_, ?_⟩
  · rw [List.getElem_cons_drop, List.take_append_drop]
  · rw [List.length_take]
    omega

theorem text_injective : Function.Injective Value.text := fun _ _ h => by
  cases h
  rfl

/-- Well-formed definitions under distinct names become a set that represents them. -/
theorem read_represents (hobjects : ∀ d ∈ ds, d.isObject = true) (hR : R.OfDefinitions env ds)
    (hwell : ∀ d ∈ ds, WellFormed env R d) (hnodup : (ds.map (·.get "name")).Nodup) :
    ∃ set, read env (.value (.ofItems ds)) = pure set ∧ Represents env R ds set := by
  obtain ⟨ps, hps, hlength, heach⟩ := readList_wellFormed hR hobjects (fun d hd => ⟨hd, hwell d hd⟩) 0
  have hnames := exists_names hlength heach
  have hdistinct : (ps.map (·.name)).Nodup := .of_map Value.text (hnames ▸ hnodup)
  have hnone : firstDuplicate? [] ps = none := by
    cases hdup : firstDuplicate? [] ps with
    | none => rfl
    | some p =>
      obtain ⟨before, after, rfl, _, _, hp⟩ := firstDuplicate?_eq_some hdup
      rw [List.map_append, List.nodup_append] at hdistinct
      exact absurd rfl (hdistinct.2.2 _ (hp.resolve_left List.not_mem_nil) _ List.mem_cons_self)
  refine ⟨⟨ps⟩, ?_, ⟨hlength, hnames, hdistinct, fun i d hd => ?_, has_iff _⟩⟩
  · rw [Value.ofItems, read, hps, pure_bind, collect_some, hnone]
  · have hi : i < ps.length := hlength ▸ (List.getElem?_eq_some_iff.mp hd).1
    refine ⟨ps[i], List.getElem?_eq_getElem hi, ?_, get?_of_nodup hdistinct (List.getElem_mem hi)⟩
    simpa using heach i d ps[i] hd (List.getElem?_eq_getElem hi)

/-- Any other list stops the reading with the fault that it is said to have. -/
theorem read_faulty (hobjects : ∀ d ∈ ds, d.isObject = true) (hR : R.OfDefinitions env ds)
    (h : ¬ ((∀ d ∈ ds, WellFormed env R d) ∧ (ds.map (·.get "name")).Nodup)) :
    ∃ (f : DefinitionFault) (code : ErrorCode) (i : Nat), read env (.value (.ofItems ds)) = Call.fail (.definition f) ∧
      Faulty env R ds code i ∧ f.Reports code i := by
  by_cases hwell : ∀ d ∈ ds, WellFormed env R d
  · have hrepeated : ¬ (ds.map (·.get "name")).Nodup := fun hn => h ⟨hwell, hn⟩
    obtain ⟨ps, hps, hlength, heach⟩ := readList_wellFormed hR hobjects (fun d hd => ⟨hd, hwell d hd⟩) 0
    have hnames := exists_names hlength heach
    cases hdup : firstDuplicate? [] ps with
    | none =>
      rw [← hnames] at hrepeated
      exact absurd ((nodup_of_firstDuplicate? hdup).1.map text_injective) hrepeated
    | some p =>
      obtain ⟨before, after, rfl, hdistinct, _, hp⟩ := firstDuplicate?_eq_some hdup
      obtain ⟨first, d, rest, rfl, hsize⟩ := exists_split hlength
      have hd : Describes env R d before.length p := by
        have := heach before.length d p (by simp [hsize]) (by simp)
        rwa [Nat.zero_add] at this
      have hcut : (before.map (·.name)).map Value.text = first.map (·.get "name") := by
        have hcut := congrArg (List.take before.length) hnames
        simpa [List.take_left', hsize] using hcut
      refine ⟨.duplicateName p.name p.position, .duplicateParameter, before.length, ?_, ?_, rfl, rfl, ?_⟩
      · rw [Value.ofItems, read, hps, pure_bind, collect_some, hdup]
      · rw [← hsize]
        refine .repeated hwell rfl ?_ ?_
        · rw [← hcut]
          exact hdistinct.map text_injective
        · rw [← hcut, hd.name]
          exact List.mem_map_of_mem (hp.resolve_left List.not_mem_nil)
      · rw [← hd.position]
        rfl
  · push Not at hwell
    obtain ⟨before, d, after, rfl, hbefore, hd⟩ := exists_first (P := WellFormed env R) hwell
    obtain ⟨k, hk⟩ := ParameterSpec.exists_firstFlaw hd
    obtain ⟨f, hf, hreports⟩ := readList_flawed hR hobjects after
      (fun e he => ⟨List.mem_append_left _ he, hbefore e he⟩) (List.mem_append_right _ List.mem_cons_self) hk 0
    refine ⟨f, _, _, ?_, .malformed rfl hbefore hk, by simpa using hreports⟩
    rw [Value.ofItems, read, hf]
    rfl

/-- A list of definitions is read exactly if each is well formed and their names are distinct;
the set then represents them, and else the fault is the one that the list has. -/
theorem read_list_iff (hobjects : ∀ d ∈ ds, d.isObject = true) (hR : R.OfDefinitions env ds) (s : σ) :
    ((∃ set s', start (read env (.value (.ofItems ds))) s = (.ok set, s')) ↔
      (∀ d ∈ ds, WellFormed env R d) ∧ (ds.map (·.get "name")).Nodup) ∧
    (∀ set s', start (read env (.value (.ofItems ds))) s = (.ok set, s') → s' = s ∧ Represents env R ds set) ∧
    ∀ t s', start (read env (.value (.ofItems ds))) s = (.error t, s') →
      s' = s ∧ ∃ f code i, t = .definition f ∧ Faulty env R ds code i ∧ f.Reports code i := by
  by_cases h : (∀ d ∈ ds, WellFormed env R d) ∧ (ds.map (·.get "name")).Nodup
  · obtain ⟨set, hread, hset⟩ := read_represents hobjects hR h.1 h.2
    rw [hread, start_pure]
    refine ⟨⟨fun _ => h, fun _ => ⟨set, s, rfl⟩⟩, fun set' s' hs => ?_, fun t s' hs => ?_⟩
    · cases hs
      exact ⟨rfl, hset⟩
    · cases hs
  · obtain ⟨f, code, i, hread, hfaulty, hreports⟩ := read_faulty hobjects hR h
    rw [hread, start_fail]
    refine ⟨⟨fun ⟨set, s', hs⟩ => ?_, fun hw => absurd hw h⟩, fun set s' hs => ?_, fun t s' hs => ?_⟩
    · cases hs
    · cases hs
    · cases hs
      exact ⟨rfl, f, code, i, rfl, hfaulty, hreports⟩

/-- A seat, and a position in the aisle that a factory makes unless it is given. -/
theorem read_list_iff_booking : ∃ ds set, bookingDefinitions = .ofItems ds ∧
    start (read .alternating (.value (.ofItems ds))) 0 = (.ok set, 0) ∧
    Represents .alternating Reading.booking ds set := by
  obtain ⟨seat, aisle, hds, hseat, haisle⟩ : ∃ seat aisle : Value, bookingDefinitions = .ofItems [seat, aisle] ∧
      (seat.isObject = true ∧ seat.get "name" = .text "seat" ∧ seat.get "default" = .undefined ∧
        Surroundings.alternating.capability? (seat.get "type") = some (Capability.Scalar.nonEmptyStr.capability 1) ∧
        seat.get "required" = .undefined) ∧
      (aisle.isObject = true ∧ aisle.get "name" = .text "aisle" ∧ aisle.get "default" = .function 1 [] ∧
        Surroundings.alternating.capability? (aisle.get "type") = some (Capability.Scalar.bool.capability 2) ∧
        aisle.get "required" = .undefined) :=
    ⟨_, _, rfl, ⟨rfl, rfl, rfl, rfl, rfl⟩, rfl, rfl, rfl, rfl, rfl⟩
  have hobjects : ∀ d ∈ [seat, aisle], d.isObject = true := by
    simp [hseat.1, haisle.1]
  have hR : Reading.booking.OfDefinitions .alternating [seat, aisle] := by
    refine ⟨fun d hd c hc v => ?_, fun d hd c hc v => ?_⟩ <;>
      rcases List.mem_pair.mp hd with rfl | rfl
    · cases hseat.2.2.2.1.symm.trans hc
      rfl
    · cases haisle.2.2.2.1.symm.trans hc
      rfl
    · cases hseat.2.2.2.1.symm.trans hc
      rfl
    · cases haisle.2.2.2.1.symm.trans hc
      rfl
  have hwell : ∀ d ∈ [seat, aisle], WellFormed .alternating Reading.booking d := by
    intro d hd
    rcases List.mem_pair.mp hd with rfl | rfl
    · obtain ⟨-, hname, hdefault, htype, hrequired⟩ := hseat
      refine ⟨⟨_, hname, by decide, by decide⟩, ⟨_, htype⟩, ?_, ?_, ?_⟩ <;> simp [hrequired, hdefault, Value.isUndefined]
    · obtain ⟨-, hname, hdefault, htype, hrequired⟩ := haisle
      refine ⟨⟨_, hname, by decide, by decide⟩, ⟨_, htype⟩, ?_, ?_, ?_⟩ <;>
        simp [hrequired, hdefault, Value.isFunction]
  have hnames : ([seat, aisle].map (·.get "name")).Nodup := by
    simp [hseat.2.1, haisle.2.1]
  obtain ⟨hiff, hset, _⟩ := read_list_iff hobjects hR 0
  obtain ⟨set, s', hread⟩ := hiff.mpr ⟨hwell, hnames⟩
  obtain ⟨rfl, hrepresents⟩ := hset set s' hread
  exact ⟨_, set, hds, hread, hrepresents⟩

end ParameterSet

end ArgGuard
