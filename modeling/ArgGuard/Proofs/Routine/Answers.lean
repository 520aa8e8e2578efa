/-
  ArgGuard.Proofs.Routine.Answers — the outcome of a call, given what the code around answers.

  Where capabilities and factories give the same result for the same call, the outcome of a
  call is a function of what they answer (`ParameterSet.outcome`): arguments are admitted,
  parameters settled, extra arguments screened and all of it put in a container. The code
  around may stop with an error and the flags of the parameters may be any value, so this
  covers the sets that a specification over pure code leaves out.

  The two routines differ in what they ask and in what they test: a specialized one lets the
  inline form decide (`Capability.byForm`) and writes some values without a test whether they
  are there. Both differences are part of the answers (`Answers.on`).
-/

import ArgGuard.Proofs.Routine.Specification

namespace ArgGuard

open Call

variable {σ : Type} {env : Surroundings σ}

/-! ## Code that can be called again -/

/-- Coercion and check give the same result for the same value. -/
structure Capability.Repeatable (c : Capability σ) : Prop where
  coerced : ∀ v, Call.Repeatable (c.coerced v)
  checked : ∀ v, Call.Repeatable (c.check v)

/-- The inline form, if there is one, holds of exactly the values that pass. -/
def Capability.FormAgrees (c : Capability σ) : Prop :=
  ∀ f, c.inline? = some f → ∀ v s, f.holds v = .ok true ↔ (start (c.check v) s).1 = .ok .passed

/-- The inline form, if there is one, computes whether the check passes. -/
def Capability.FormDecides (c : Capability σ) : Prop :=
  ∀ f, c.inline? = some f → ∀ v s, f.holds v = (start (c.check v) s).1.map Verdict.isPassed

theorem Capability.FormDecides.formAgrees {c : Capability σ} (h : c.FormDecides) : c.FormAgrees := by
  intro f hf v s
  rw [h f hf v s]
  rcases (start (c.check v) s).1 with t | _ | reason <;> simp [Except.map, Verdict.isPassed]

/-- An error that a capability stops with. -/
def Capability.Raises (c : Capability σ) (t : Thrown) : Prop := ∃ v, Stops (c.coerced v) t ∨ Stops (c.check v) t

/-- An error that the code of a parameter stops with, its type or its factory. -/
inductive ParameterSpec.Raises (p : ParameterSpec σ) (t : Thrown) : Prop
  | type (h : p.type.Raises t)
  | factory {i : Nat} {make : Call σ Value} (hd : p.default = .factory i make) (h : Stops make t)

theorem Capability.repeatable_ofTest (id : Nat) (name : String) (test : Value → Bool) (reason : Value → String)
    (inline? : Option Fragment) (coerce? : Option (Value → Value)) :
    (ofTest id name test reason inline? coerce? : Capability σ).Repeatable where
  coerced v := by cases coerce? <;> exact (Always.pure _).repeatable
  checked v := (Always.pure _).repeatable

structure ParameterSet.Repeatable (set : ParameterSet σ) : Prop where
  types : ∀ p ∈ set.specs, p.type.Repeatable
  factories : ∀ p ∈ set.specs, ∀ i make, p.default = .factory i make → Call.Repeatable make

def Slurpy.Repeatable (x : Slurpy σ) : Prop := ∀ t, x = .checked t → t.Repeatable

theorem Slurpy.repeatable_off : (off : Slurpy σ).Repeatable := fun _ h => nomatch h

theorem Slurpy.repeatable_on : (on : Slurpy σ).Repeatable := fun _ h => nomatch h

theorem Slurpy.repeatable_checked {t : Capability σ} (h : t.Repeatable) : (checked t).Repeatable := fun _ ht => by
  cases ht
  exact h

namespace Capability

/-! ## Capabilities as a routine sees them -/

/-- A capability as a specialized routine uses it: the inline form decides, and the check is
asked only why a value was rejected. -/
def byForm (c : Capability σ) : Capability σ where
  id := c.id
  name := c.name
  check v :=
    match c.inline? with
    | some f => do
      if ← Call.ofExcept (f.holds v) then return .passed
      else return .rejected (← Plan.reasonFor c v)
    | none => c.check v
  inline? := c.inline?
  coerce? := c.coerce?

theorem Repeatable.reasonFor {c : Capability σ} (h : c.Repeatable) (v : Value) : Call.Repeatable (Plan.reasonFor c v) :=
  (h.checked v).bind fun r => by cases r <;> exact (Always.pure _).repeatable

theorem Repeatable.byForm {c : Capability σ} (h : c.Repeatable) : c.byForm.Repeatable where
  coerced := h.coerced
  checked v := by
    unfold Capability.byForm
    simp only
    split
    · refine (Always.ofExcept _).repeatable.bind fun b => ?_
      cases b
      · exact (h.reasonFor v).bind fun _ => (Always.pure _).repeatable
      · exact (Always.pure _).repeatable
    · exact h.checked v

end Capability

/-- A capability as the routine of a strategy sees it. -/
def Strategy.seen (path : Strategy) (c : Capability σ) : Capability σ :=
  match path with
  | .inline => c.byForm
  | .generic => c

def Translation.along (path : Strategy) : Translation σ σ := ⟨path.seen, fun _ make => make⟩

theorem Strategy.name_seen (path : Strategy) (c : Capability σ) : (path.seen c).name = c.name := by cases path <;> rfl

theorem Strategy.coerced_seen (path : Strategy) (c : Capability σ) (v : Value) :
    (path.seen c).coerced v = c.coerced v := by
  cases path <;> rfl

theorem Strategy.repeatable_seen (path : Strategy) {c : Capability σ} (h : c.Repeatable) : (path.seen c).Repeatable := by
  cases path with
  | inline => exact h.byForm
  | generic => exact h

/-! ## Answers -/

/-- What the code around answers to a routine, and of which parameters the routine takes for
granted that they have a value once they are settled. -/
structure Answers (σ : Type) where
  coerced : Capability σ → Value → Except Thrown Value
  verdict : Capability σ → Value → Except Thrown Verdict
  made : Call σ Value → Except Thrown Value
  trusts : ParameterSpec σ → Bool

/-- What is answered to the routine of a strategy from a state. -/
def Answers.on (path : Strategy) (s : σ) : Answers σ where
  coerced c v := (start (c.coerced v) s).1
  verdict c v := (start ((path.seen c).check v) s).1
  made make := (start make s).1
  trusts p :=
    match path with
    | .inline => Plan.alwaysGiven (Plan.step .named p)
    | .generic => false

/-- Where forms agree with checks, a value that passes passes on either path. -/
theorem Answers.verdict_passed {c : Capability σ} (h : c.Repeatable) (hform : c.FormAgrees) {v : Value}
    (hv : Returns (c.check v) .passed) (path : Strategy) (s : σ) : (on path s).verdict c v = .ok .passed := by
  cases path with
  | generic => exact (h.checked v).always_of_returns hv s
  | inline =>
    show (start (c.byForm.check v) s).1 = _
    unfold Capability.byForm
    cases hf : c.inline? with
    | none => exact (h.checked v).always_of_returns hv s
    | some f =>
      obtain ⟨t, ht⟩ := hv
      simp only [(hform f hf v t).mpr ht]
      rfl

section outcome

variable (A : Answers σ)

/-- A value, coerced and accepted, or the fault of one that is rejected. -/
def Answers.screened (c : Capability σ) (fault : Value → Reason → CallFault) (v : Value) : Except Thrown Value := do
  let v ← A.coerced c v
  match ← A.verdict c v with
  | .passed => .ok v
  | .rejected reason => .error (.call (fault v reason))

theorem Answers.screened_eq_ok {A : Answers σ} {c : Capability σ} {fault : Value → Reason → CallFault} {v w : Value} :
    A.screened c fault v = .ok w ↔ A.coerced c v = .ok w ∧ A.verdict c w = .ok .passed := by
  unfold screened
  cases hu : A.coerced c v with
  | error t => exact ⟨fun h => (nomatch h), fun h => (nomatch h.1)⟩
  | ok u =>
    simp only [bind, Except.bind, Except.ok.injEq]
    constructor
    · intro h
      cases hr : A.verdict c u with
      | error t =>
        rw [hr] at h
        cases h
      | ok r =>
        rw [hr] at h
        cases r <;> cases h
        exact ⟨rfl, hr⟩
    · rintro ⟨rfl, hr⟩
      rw [hr]

theorem Answers.screened_of_returns {c : Capability σ} (h : c.Repeatable) (hform : c.FormAgrees) {v w : Value}
    (hcoerced : Returns (c.coerced v) w) (hpassed : Returns (c.check w) .passed) (path : Strategy) (s : σ)
    (fault : Value → Reason → CallFault) : (on path s).screened c fault v = .ok w :=
  screened_eq_ok.mpr ⟨(h.coerced v).always_of_returns hcoerced s, verdict_passed h hform hpassed path s⟩

namespace ParameterSpec

variable (validator : String) (p : ParameterSpec σ)

def mismatch (v : Value) (reason : Reason) : CallFault :=
  .mismatch p.name (some p.position) validator p.type.name reason v

/-- What a parameter settles on for an argument or the lack of one. -/
def settled (arg? : Option Value) : Except Thrown Value :=
  match arg?, p.default with
  | some v, _ => A.screened p.type (p.mismatch validator) v
  | none, .value d => .ok d
  | none, .factory _ make => do A.screened p.type (p.mismatch validator) (← A.made make)
  | none, .none =>
    if p.isRequired then .error (.call (.missing p.name p.position validator)) else .ok .undefined

theorem settled_supplied (v : Value) :
    p.settled A validator (some v) = A.screened p.type (p.mismatch validator) v := rfl

variable {p}

theorem settled_static {d : Value} (hd : p.default = .value d) : p.settled A validator none = .ok d := by
  simp only [settled, hd]

theorem settled_factory {i : Nat} {make : Call σ Value} (hd : p.default = .factory i make) :
    p.settled A validator none = (do A.screened p.type (p.mismatch validator) (← A.made make)) := by
  simp only [settled, hd]

theorem settled_nothing (hd : p.default = .none) : p.settled A validator none =
    if p.isRequired then .error (.call (.missing p.name p.position validator)) else .ok .undefined := by
  simp only [settled, hd]

variable (p) in
/-- The ways in which a parameter comes to what it settles on. -/
inductive Settles (arg? : Option Value) (r : Except Thrown Value) : Prop
  | given {v : Value} (harg : arg? = some v) (hr : A.screened p.type (p.mismatch validator) v = r)
  | static {d : Value} (harg : arg? = none) (hd : p.default = .value d) (hr : .ok d = r)
  | made {i : Nat} {make : Call σ Value} {v : Value} (harg : arg? = none) (hd : p.default = .factory i make)
      (hmade : A.made make = .ok v) (hr : A.screened p.type (p.mismatch validator) v = r)
  | unmade {i : Nat} {make : Call σ Value} {t : Thrown} (harg : arg? = none) (hd : p.default = .factory i make)
      (hmade : A.made make = .error t) (hr : .error t = r)
  | missing (harg : arg? = none) (hd : p.default = .none) (hrequired : p.isRequired = true)
      (hr : .error (.call (.missing p.name p.position validator)) = r)
  | nothing (harg : arg? = none) (hd : p.default = .none) (hrequired : p.isRequired = false) (hr : .ok .undefined = r)

variable {A validator} in
theorem settles {arg? : Option Value} {r : Except Thrown Value} (h : p.settled A validator arg? = r) :
    p.Settles A validator arg? r := by
  cases arg? with
  | some v => exact .given rfl h
  | none =>
    cases hd : p.default with
    | value d => exact .static rfl hd ((settled_static A validator hd).symm.trans h)
    | factory i make =>
      rw [settled_factory A validator hd] at h
      cases hmade : A.made make with
      | error t => exact .unmade rfl hd hmade (by rw [← h, hmade]; rfl)
      | ok v => exact .made rfl hd hmade (by rw [← h, hmade]; rfl)
    | none =>
      rw [settled_nothing A validator hd] at h
      cases hrequired : p.isRequired with
      | true => exact .missing rfl hd hrequired (by rw [← h, hrequired]; rfl)
      | false => exact .nothing rfl hd hrequired (by rw [← h, hrequired]; rfl)

end ParameterSpec

namespace ParameterSet

variable (set : ParameterSet σ) (o : Options σ) (args : Value)

/-- Whether arguments have the right shape and no extra ones that are rejected. -/
def admitted : Except Thrown Unit :=
  match o.sourceMode with
  | .named =>
    if args.isObject then
      if (Plan.extrasOf o).isReject then
        match List.find? (fun e => !set.names.contains e.1) args.entries with
        | some e => .error (.call (.unknown e.1 o.name))
        | none => .ok ()
      else .ok ()
    else .error (.call (.shape o.name (Plan.make set o).expectation args.describe))
  | .positional =>
    if args.isList then
      if (Plan.extrasOf o).isReject = true ∧ set.size < args.items.length then
        .error (.call (.extra set.size set.size o.name))
      else .ok ()
    else .error (.call (.shape o.name (Plan.make set o).expectation args.describe))

def settledAll : Except Thrown (List Value) := set.specs.mapM fun p => p.settled A o.name (p.supplied? o args)

/-- Extra arguments that are kept pass the capability that is given for them. -/
def screenedExtras : Except Thrown (List (String × Value)) :=
  match o.slurpy with
  | .off => .ok []
  | .on => .ok (set.extras o args)
  | .checked t => (set.extras o args).mapM fun e => do
    .ok (e.1, ← A.screened t (fun v reason => .mismatch e.1 none o.name t.name reason v) e.2)

/-- The values under the names of their parameters; one that is undefined is left out, unless
it is taken for granted. -/
def written (values : List Value) : Entries Value :=
  (set.specs.zip values).filterMap fun e => if e.2.isUndefined && !A.trusts e.1 then none else some (e.1.name, e.2)

def container (values : List Value) (kept : List (String × Value)) : Value :=
  match o.outputMode, o.sourceMode with
  | .mapped, _ => .record (Entries.ofList (set.written A values ++ kept))
  | .orderedList, .named => .ofItems (values ++
      match o.slurpy with
      | .off => []
      | _ => [.record (Entries.ofList kept)])
  | .orderedList, .positional => .ofItems (values ++ kept.map (·.2))

/-- The outcome of a call: arguments are admitted, the parameters settled in order, then the
extra arguments that are kept screened in order; the first error stops. -/
def outcome : Except Thrown Value := do
  set.admitted o args
  let values ← set.settledAll A o args
  let kept ← set.screenedExtras A o args
  .ok (set.container A o values kept)

/-- What is put in a container: a slot for each parameter, and what is kept of extra arguments. -/
def contents : Except Thrown (List Value × List (String × Value)) := do
  set.admitted o args
  let values ← set.settledAll A o args
  let kept ← set.screenedExtras A o args
  .ok (values, kept)

end ParameterSet

end outcome

/-! ## Doing the same to each -/

theorem mapM_congr {α β : Type} {f g : α → Except Thrown β} {l : List α} (h : ∀ a ∈ l, f a = g a) :
    l.mapM f = l.mapM g := by
  induction l with
  | nil => rfl
  | cons a l ih =>
    rw [List.mapM_cons, List.mapM_cons, h a List.mem_cons_self, ih fun b hb => h b (List.mem_cons_of_mem _ hb)]

/-- What is done to the elements of a list is done when it is done to each. -/
theorem mapM_eq_ok {α β : Type} {f : α → Except Thrown β} {l : List α} {bs : List β} :
    l.mapM f = .ok bs ↔ List.Forall₂ (fun a b => f a = .ok b) l bs := by
  induction l generalizing bs with
  | nil =>
    rw [List.mapM_nil, List.forall₂_nil_left_iff]
    exact ⟨fun h => by cases h; rfl, fun h => h ▸ rfl⟩
  | cons a l ih =>
    rw [List.mapM_cons, List.forall₂_cons_left_iff]
    constructor
    · intro h
      cases ha : f a with
      | error t =>
        rw [ha] at h
        cases h
      | ok b =>
        cases hl : l.mapM f with
        | error t =>
          rw [ha, hl] at h
          cases h
        | ok rest =>
          rw [ha, hl] at h
          cases h
          exact ⟨b, rest, rfl, ih.mp hl, rfl⟩
    · rintro ⟨b, rest, hb, hrest, rfl⟩
      rw [hb, ih.mpr hrest]
      rfl

theorem mem_of_mapM {α β : Type} {f : α → Except Thrown β} {l : List α} {bs : List β} (h : l.mapM f = .ok bs) {b : β}
    (hb : b ∈ bs) : ∃ a ∈ l, f a = .ok b := by
  have hall := mapM_eq_ok.mp h
  clear h
  induction hall with
  | nil => cases hb
  | cons hhead _ ih =>
    rcases List.mem_cons.mp hb with rfl | hb
    · exact ⟨_, List.mem_cons_self, hhead⟩
    · obtain ⟨a, ha, hf⟩ := ih hb
      exact ⟨a, List.mem_cons_of_mem _ ha, hf⟩

/-- A label stays with what it was given to. -/
theorem labelled_eq_ok {α : Type} {k : String} {r : Except Thrown α} {e : String × α} :
    (do .ok (k, ← r)) = Except.ok e ↔ e.1 = k ∧ r = .ok e.2 := by
  obtain ⟨k', a⟩ := e
  cases r with
  | error t => exact ⟨fun h => (nomatch h), fun h => (nomatch h.2)⟩
  | ok b =>
    simp only [bind, Except.bind, Except.ok.injEq, Prod.mk.injEq]
    exact and_congr_left' eq_comm

theorem keys_mapM {α : Type} {f : String × α → Except Thrown α} {es kept : Entries α}
    (h : (es.mapM fun e => do .ok (e.1, ← f e)) = Except.ok kept) : kept.map (·.1) = es.map (·.1) := by
  have hall := mapM_eq_ok.mp h
  clear h
  induction hall with
  | nil => rfl
  | cons he _ ih => rw [List.map_cons, List.map_cons, ih, (labelled_eq_ok.mp he).1]

/-! ## What each phase comes to -/

theorem Plan.labelled_eq_nil {i : Nat} {items : List (Option Value)} : labelled i items = [] ↔ items = [] := by
  rw [labelled, List.map_eq_nil_iff, List.zipIdx_eq_nil_iff]

theorem Plan.values_labelled (i : Nat) (vs : List Value) : (labelled i (vs.map some)).map (·.2) = vs := by
  rw [labelled, List.map_map, List.zipIdx_map, List.map_map]
  exact List.zipIdx_map_fst i vs

namespace ParameterSet

variable {A : Answers σ} {set : ParameterSet σ} {o : Options σ} {args : Value}

theorem fits_of_admitted (h : set.admitted o args = .ok ()) : (Plan.make set o).ShapeFits args := by
  unfold admitted at h
  cases hm : o.sourceMode with
  | named =>
    rw [hm] at h
    refine (Plan.shapeFits_named hm args).mpr ?_
    by_contra hn
    rw [if_neg hn] at h
    cases h
  | positional =>
    rw [hm] at h
    refine (Plan.shapeFits_positional hm args).mpr ?_
    by_contra hn
    rw [if_neg hn] at h
    cases h

/-- The fault of the first extra argument where these are rejected. -/
def surplus (set : ParameterSet σ) (o : Options σ) (label : String) : CallFault :=
  match o.sourceMode with
  | .named => .unknown label o.name
  | .positional => .extra set.size set.size o.name

/-- Of arguments that have the right shape, the extra ones decide. -/
theorem admitted_of_fits (hfits : (Plan.make set o).ShapeFits args) :
    set.admitted o args = if (Plan.extrasOf o).isReject then
      match set.extras o args with
      | [] => .ok ()
      | e :: _ => .error (.call (set.surplus o e.1))
    else .ok () := by
  unfold admitted extras surplus
  cases hm : o.sourceMode with
  | named =>
    simp only [(Plan.shapeFits_named hm args).mp hfits, if_true, ← List.head?_filter]
    cases args.entries.filter fun e => !set.names.contains e.1 <;> rfl
  | positional =>
    simp only [(Plan.shapeFits_positional hm args).mp hfits, if_true]
    have hnil : Plan.labelled set.size (args.items.drop set.size) = [] ↔ ¬ set.size < args.items.length := by
      rw [Plan.labelled_eq_nil, List.drop_eq_nil_iff, Nat.not_lt]
    cases hextra : Plan.labelled set.size (args.items.drop set.size) with
    | nil =>
      rw [if_neg fun h => hnil.mp hextra h.2, ite_self]
    | cons e es =>
      have hlong : set.size < args.items.length := by
        by_contra hn
        cases hextra.symm.trans (hnil.mpr hn)
      simp only [hlong, and_true]

/-- Parameters that are supplied with the same arguments settle alike. -/
theorem settledAll_congr {o' : Options σ} {args' : Value} (hname : o'.name = o.name)
    (h : ∀ p ∈ set.specs, p.supplied? o' args' = p.supplied? o args) :
    set.settledAll A o' args' = set.settledAll A o args := by
  unfold settledAll
  exact mapM_congr fun p hp => by rw [h p hp, hname]

theorem length_settledAll {values : List Value} (h : set.settledAll A o args = .ok values) : values.length = set.size :=
  (mapM_eq_ok.mp h).length_eq.symm

theorem written_eq_named (A : Answers σ) (set : ParameterSet σ) (values : List Value) : set.written A values =
    Entries.named ParameterSpec.name (fun p v => v.isUndefined && !A.trusts p) set.specs values := rfl

/-- Names are written in the order of the declarations. -/
theorem written_sublist (A : Answers σ) (set : ParameterSet σ) (values : List Value) :
    ((set.written A values).map (·.1)).Sublist set.names := by
  rw [written_eq_named]
  exact Entries.named_sublist

theorem screenedExtras_off (A : Answers σ) (set : ParameterSet σ) (h : o.slurpy = .off) (args : Value) :
    set.screenedExtras A o args = .ok [] := by
  rw [screenedExtras, h]

theorem outcome_eq_contents (A : Answers σ) (set : ParameterSet σ) (o : Options σ) (args : Value) :
    set.outcome A o args = (set.contents A o args).map fun c => set.container A o c.1 c.2 := by
  unfold outcome contents
  cases set.admitted o args with
  | error t => rfl
  | ok u =>
    cases set.settledAll A o args with
    | error t => rfl
    | ok values => cases set.screenedExtras A o args <;> rfl

/-- There is something to put in a container when each phase is passed. -/
theorem contents_eq_ok {values : List Value} {kept : List (String × Value)} :
    set.contents A o args = .ok (values, kept) ↔ set.admitted o args = .ok () ∧
      set.settledAll A o args = .ok values ∧ set.screenedExtras A o args = .ok kept := by
  constructor
  · intro h
    unfold contents at h
    cases hadmitted : set.admitted o args with
    | error t =>
      rw [hadmitted] at h
      cases h
    | ok _ =>
      cases hvalues : set.settledAll A o args with
      | error t =>
        rw [hadmitted, hvalues] at h
        cases h
      | ok values =>
        cases hkept : set.screenedExtras A o args with
        | error t =>
          rw [hadmitted, hvalues, hkept] at h
          cases h
        | ok kept =>
          rw [hadmitted, hvalues, hkept] at h
          cases h
          exact ⟨rfl, rfl, rfl⟩
  · rintro ⟨hadmitted, hvalues, hkept⟩
    rw [contents, hadmitted, hvalues, hkept]
    rfl

/-- A call that comes to a value has passed each phase. -/
theorem outcome_eq_ok {out : Value} :
    set.outcome A o args = .ok out ↔ set.admitted o args = .ok () ∧ ∃ values kept, set.settledAll A o args = .ok values ∧
      set.screenedExtras A o args = .ok kept ∧ set.container A o values kept = out := by
  rw [outcome_eq_contents]
  constructor
  · intro h
    cases hc : set.contents A o args with
    | error t =>
      rw [hc] at h
      cases h
    | ok c =>
      rw [hc] at h
      obtain ⟨hadmitted, hvalues, hkept⟩ := contents_eq_ok.mp hc
      exact ⟨hadmitted, c.1, c.2, hvalues, hkept, Except.ok.inj h⟩
  · rintro ⟨hadmitted, values, kept, hvalues, hkept, rfl⟩
    rw [contents_eq_ok.mpr ⟨hadmitted, hvalues, hkept⟩]
    rfl

/-! ### What is kept of extra arguments -/

section kept

variable {kept : List (String × Value)} (hkept : set.screenedExtras A o args = .ok kept)
include hkept

/-- What is kept of extra arguments are some of their names, in order. -/
theorem keys_screenedExtras : (kept.map (·.1)).Sublist ((set.extras o args).map (·.1)) := by
  unfold screenedExtras at hkept
  cases hs : o.slurpy with
  | off =>
    rw [hs] at hkept
    cases hkept
    exact List.nil_sublist _
  | on =>
    rw [hs] at hkept
    cases hkept
    exact .refl _
  | checked t =>
    rw [hs] at hkept
    rw [keys_mapM hkept]

variable (hnamed : o.sourceMode = .named)
include hnamed

theorem undeclared_kept {k : String} (hk : k ∈ kept.map (·.1)) : k ∉ set.names := by
  obtain ⟨e, he, rfl⟩ := List.mem_map.mp ((keys_screenedExtras hkept).subset hk)
  rw [extras, hnamed] at he
  simpa using (List.mem_filter.mp he).2

theorem undeclared_ofList {k : String} (hk : k ∈ (Entries.ofList kept).map (·.1)) : k ∉ set.names :=
  undeclared_kept hkept hnamed ((Entries.keys_ofList kept).2.subset hk)

/-- The names of a result stand behind those of the parameters. -/
theorem ofList_written (hset : set.Declared env) (values : List Value) :
    Entries.ofList (set.written A values ++ kept) = set.written A values ++ Entries.ofList kept := by
  have hsublist := set.written_sublist A values
  exact Entries.ofList_append (hsublist.nodup (declared_sound hset).1)
    fun k hk hw => undeclared_kept hkept hnamed hk (hsublist.subset hw)

end kept

end ParameterSet

end ArgGuard
