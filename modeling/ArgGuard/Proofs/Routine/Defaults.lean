/-
  ArgGuard.Proofs.Routine.Defaults — a default is the same as supplying it.

  A static default is coerced and checked once, when its definition is read, and later
  written as it is; a supplied value is coerced and checked in the call. Both come to the
  same: the value that stands in the definition, given as an argument, is coerced into the
  stored default and accepted again (`ParameterSpec.Fallback.settled`). Supplying it touches
  no other parameter and no extra argument (`ParameterSet.outcome_supply`), so the whole
  outcome is the same, errors included (`Validator.default_eq_supplied`).

  That compares two outcomes, for code that can be called again. Where only the default is
  got without touching the state (`ParameterSpec.DefaultsPurely`), the two calls are one and
  the same, whatever the other parameters do (`ParameterSet.direct_supply`).
-/

import ArgGuard.Proofs.Capability.Stock
import ArgGuard.Proofs.Routine.Passing
import ArgGuard.Proofs.Routine.Validity

namespace ArgGuard

open Call

variable {σ : Type} {env : Surroundings σ}

/-! ## Supplying an argument -/

/-- Arguments with a value for a parameter: an own member under its name, or the item at its
position, behind holes where the list is too short. -/
def ParameterSpec.supply (o : Options σ) (args : Value) (p : ParameterSpec σ) (v : Value) : Value :=
  match o.sourceMode, args with
  | .positional, .list items =>
    .list ((items ++ List.replicate (p.position + 1 - items.length) none).set p.position (some v))
  | _, args => args.define p.name v

theorem join_padded (items : List (Option Value)) (n i : Nat) :
    (items ++ List.replicate n none)[i]?.join = items[i]?.join := by
  rw [List.getElem?_append]
  split
  · rfl
  · rename_i hi
    rw [List.getElem?_eq_none (Nat.le_of_not_lt hi), List.getElem?_replicate]
    split <;> rfl

theorem join_padded_set (items : List (Option Value)) (i j : Nat) (v : Value) :
    ((items ++ List.replicate (i + 1 - items.length) none).set i (some v))[j]?.join
      = if j = i then some v else items[j]?.join := by
  have hlength : i < (items ++ List.replicate (i + 1 - items.length) none).length := by
    rw [List.length_append, List.length_replicate]
    omega
  by_cases hj : j = i
  · subst hj
    rw [List.getElem?_set_self hlength, if_pos rfl]
    rfl
  · rw [List.getElem?_set_ne (Ne.symm hj), if_neg hj, join_padded]

theorem drop_padded_set {items : List (Option Value)} {i n : Nat} (hi : i < n) (v : Value) :
    ((items ++ List.replicate (i + 1 - items.length) none).set i (some v)).drop n = items.drop n := by
  rw [List.drop_set_of_lt hi, List.drop_append]
  have hnone : (List.replicate (i + 1 - items.length) (none : Option Value)).drop (n - items.length) = [] := by
    rw [List.drop_replicate]
    have hlength : i + 1 - items.length - (n - items.length) = 0 := by omega
    rw [hlength]
    rfl
  rw [hnone, List.append_nil]

theorem Entries.filter_put {α : Type} {p : String × α → Bool} {k : String} (hk : ∀ a, p (k, a) = false) (a : α)
    (es : Entries α) : (Entries.put k a es).filter p = es.filter p := by
  induction es with
  | nil => rw [put, List.filter_cons_of_neg (by simp [hk])]
  | cons e es ih =>
    obtain ⟨j, b⟩ := e
    rw [put]
    split
    · rename_i hj
      subst hj
      rw [List.filter_cons_of_neg (by simp [hk]), List.filter_cons_of_neg (by simp [hk])]
    · rw [List.filter_cons, List.filter_cons, ih]

namespace ParameterSet

variable {set : ParameterSet σ} {o : Options σ} {args : Value} {p : ParameterSpec σ} {v : Value}

/-- Parameters are told apart by name and by position. -/
theorem distinct_of_ne (hset : set.Declared env) (hp : p ∈ set.specs) {q : ParameterSpec σ} (hq : q ∈ set.specs)
    (hne : q ≠ p) : q.name ≠ p.name ∧ q.position ≠ p.position := by
  obtain ⟨hnames, hpositions⟩ := declared_sound hset
  refine ⟨fun hname => hne (List.inj_on_of_nodup_map hnames hq hp hname), fun hposition => hne ?_⟩
  obtain ⟨i, hi⟩ := List.mem_iff_getElem?.mp hp
  obtain ⟨j, hj⟩ := List.mem_iff_getElem?.mp hq
  rw [(hpositions i p hi).1, (hpositions j q hj).1] at hposition
  subst hposition
  exact Option.some.inj (hj.symm.trans hi)

theorem supplied?_supply_self (hfits : (Plan.make set o).ShapeFits args) (hv : v.isUndefined = false) :
    p.supplied? o (p.supply o args v) = some v := by
  unfold ParameterSpec.supplied? ParameterSpec.supply
  cases hm : o.sourceMode with
  | named =>
    have hobject := (Plan.shapeFits_named hm args).mp hfits
    cases args with
    | object id kind own hidden inherited => simp [Value.define, Value.own?, Entries.find?_put, hv]
    | _ => cases hobject
  | positional =>
    have hlist := (Plan.shapeFits_positional hm args).mp hfits
    cases args with
    | list items =>
      simp only [Value.items, join_padded_set, if_true]
      simp [hv]
    | _ => cases hlist

/-- Other parameters find what they found before. -/
theorem supplied?_supply_ne (hfits : (Plan.make set o).ShapeFits args) {q : ParameterSpec σ}
    (hne : q.name ≠ p.name ∧ q.position ≠ p.position) : q.supplied? o (p.supply o args v) = q.supplied? o args := by
  unfold ParameterSpec.supplied? ParameterSpec.supply
  cases hm : o.sourceMode with
  | named =>
    have hobject := (Plan.shapeFits_named hm args).mp hfits
    cases args with
    | object id kind own hidden inherited =>
      simp only [Value.define, Value.own?, Entries.find?_put, if_neg (Ne.symm hne.1)]
      rw [Entries.erase, Entries.find?_filter (by simpa using hne.1)]
    | _ => cases hobject
  | positional =>
    have hlist := (Plan.shapeFits_positional hm args).mp hfits
    cases args with
    | list items => simp only [Value.items, join_padded_set, if_neg hne.2]
    | _ => cases hlist

/-- Extra arguments stay what they are. -/
theorem extras_supply (hset : set.Declared env) (hfits : (Plan.make set o).ShapeFits args) (hp : p ∈ set.specs) :
    set.extras o (p.supply o args v) = set.extras o args := by
  unfold extras ParameterSpec.supply
  cases hm : o.sourceMode with
  | named =>
    have hobject := (Plan.shapeFits_named hm args).mp hfits
    have hdeclared : p.name ∈ set.names := List.mem_map.mpr ⟨p, hp, rfl⟩
    cases args with
    | object id kind own hidden inherited =>
      simp only [Value.define, Value.entries, Entries.filter_ordered]
      rw [Entries.filter_put (by simpa using hdeclared)]
    | _ => cases hobject
  | positional =>
    have hlist := (Plan.shapeFits_positional hm args).mp hfits
    obtain ⟨i, hi⟩ := List.mem_iff_getElem?.mp hp
    obtain ⟨hlt, _⟩ := List.getElem?_eq_some_iff.mp hi
    have hposition : p.position < set.size := ((declared_sound hset).2 i p hi).1 ▸ hlt
    cases args with
    | list items => simp only [Value.items, drop_padded_set hposition]
    | _ => cases hlist

theorem fits_supply (hfits : (Plan.make set o).ShapeFits args) : (Plan.make set o).ShapeFits (p.supply o args v) := by
  unfold ParameterSpec.supply
  cases hm : o.sourceMode with
  | named =>
    rw [Plan.shapeFits_named hm] at hfits ⊢
    cases args <;> first | rfl | cases hfits
  | positional =>
    rw [Plan.shapeFits_positional hm] at hfits ⊢
    cases args <;> first | rfl | cases hfits

theorem admitted_supply (hset : set.Declared env) (hfits : (Plan.make set o).ShapeFits args) (hp : p ∈ set.specs) :
    set.admitted o (p.supply o args v) = set.admitted o args := by
  rw [admitted_of_fits (fits_supply hfits), admitted_of_fits hfits, extras_supply hset hfits hp]

/-- Where a parameter that is absent settles as it does on the value, so does the whole call. -/
theorem outcome_supply {A : Answers σ} (hset : set.Declared env) (hfits : (Plan.make set o).ShapeFits args)
    (hp : p ∈ set.specs) (habsent : p.supplied? o args = none) (hv : v.isUndefined = false)
    (hsettled : p.settled A o.name (some v) = p.settled A o.name none) :
    set.outcome A o (p.supply o args v) = set.outcome A o args := by
  have hall : set.settledAll A o (p.supply o args v) = set.settledAll A o args := by
    refine mapM_congr fun q hq => ?_
    by_cases hqp : q = p
    · rw [hqp, supplied?_supply_self hfits hv, habsent, hsettled]
    · rw [supplied?_supply_ne hfits (distinct_of_ne hset hp hq hqp)]
  rw [outcome, outcome, admitted_supply hset hfits hp, hall, screenedExtras, screenedExtras, extras_supply hset hfits hp]

/-- Where the step of a parameter that is absent is the same call on the value, so is validation. -/
theorem direct_supply {judge : Judge σ} {trusts : Step σ → Bool} (hset : set.Declared env)
    (hfits : (Plan.make set o).ShapeFits args) (hp : p ∈ set.specs)
    (hstep : (Plan.make set o).settleStep judge (p.supply o args v) (Plan.step o.sourceMode p)
      = (Plan.make set o).settleStep judge args (Plan.step o.sourceMode p)) :
    (Plan.make set o).direct judge trusts (p.supply o args v) = (Plan.make set o).direct judge trusts args := by
  have hsteps : (Plan.make set o).settleSteps judge (p.supply o args v) (Plan.make set o).steps
      = (Plan.make set o).settleSteps judge args (Plan.make set o).steps := by
    refine Plan.settleSteps_congr fun s hs => ?_
    obtain ⟨q, hq, rfl⟩ := Plan.steps_make hs
    by_cases hqp : q = p
    · rw [hqp, hstep]
    · have hfetch : ∀ {args : Value}, (Plan.make set o).ShapeFits args →
          Plan.fetch (Plan.step o.sourceMode q) args = (q.supplied? o args).getD .undefined :=
        fun ha => fetch_eq (T := .along .generic) ha
      apply Plan.settleStep_congr rfl
      rw [hfetch (fits_supply hfits), hfetch hfits, supplied?_supply_ne hfits (distinct_of_ne hset hp hq hqp)]
  have hkept : (Plan.make set o).judgeKept judge (p.supply o args v) = (Plan.make set o).judgeKept judge args := by
    rw [Plan.judgeKept, Plan.judgeKept, Plan.extraArguments_make_eq, Plan.extraArguments_make_eq,
      extras_supply hset hfits hp]
  rw [Plan.direct, Plan.direct, Plan.receive_make_eq, Plan.receive_make_eq, admitted_supply hset hfits hp, hsteps, hkept]

end ParameterSet

/-! ## What stands in for an argument -/

/-- The value that a parameter with a definition falls back on: the default that the definition
gives, or what its factory always makes. -/
inductive ParameterSpec.Fallback (definition : Value) (p : ParameterSpec σ) : Value → Prop
  | static {w : Value} (default : p.default = .value w) : Fallback definition p (definition.get "default")
  | factory {i : Nat} {make : Call σ Value} {v : Value} (default : p.default = .factory i make)
      (made : Always make (.ok v)) (defined : v.isUndefined = false) : Fallback definition p v

/-- A value that passes is handed on, and the state is left alone. -/
theorem Strategy.judge_of_passes {c : Capability σ} {w : Value} (path : Strategy) (hform : c.FormAgrees)
    (hpasses : c.Passes w) (fault : String → Reason → CallFault) : path.judge c w fault = pure w := by
  rcases path.check_or_form c with h | ⟨rfl, f, hf⟩
  · rw [judge_check h, Plan.checked, show c.check w = pure .passed from hpasses, pure_bind]
  · funext s
    have hholds : f.holds w = .ok true := (hform f hf w s).mpr (by rw [hpasses]; rfl)
    rw [show inline.judge c w fault = Plan.demanded c f w fault from Plan.conditioned_eq hf w fault,
      Plan.demanded, hholds]
    rfl

/-- What a parameter falls back on is got without touching the state: where the default is
static, the type coerces and checks purely, and a factory only makes a value. -/
structure ParameterSpec.DefaultsPurely (p : ParameterSpec σ) : Prop where
  coerced : ∀ w, p.default = .value w → ∀ v, ∃ r, p.type.coerced v = ofExcept r
  checked : ∀ w, p.default = .value w → p.type.IsPure
  made : ∀ i make, p.default = .factory i make → ∃ r, make = ofExcept r

namespace ParameterSpec.Fallback

variable {definition v : Value} {i : Nat} {s₀ s₁ : σ} {p : ParameterSpec σ}

theorem defined (h : p.Fallback definition v) (hread : start (ofDefinition env definition i) s₀ = (.ok p, s₁)) :
    v.isUndefined = false := by
  cases h with
  | static default =>
    by_contra hu
    have hnone := ofDefinition_undefined hread (by simpa using hu)
    cases default.symm.trans hnone
  | factory default made defined => exact defined

/-- On what it falls back on, a parameter settles as it does when it is absent. -/
theorem settled (h : p.Fallback definition v) (hread : start (ofDefinition env definition i) s₀ = (.ok p, s₁))
    (htype : p.type.Repeatable) (hform : p.type.FormAgrees) (path : Strategy) (s : σ) (validator : String) :
    p.settled (Answers.on path s) validator (some v) = p.settled (Answers.on path s) validator none := by
  cases h with
  | static default =>
    obtain ⟨hcoerced, hpassed⟩ := ofDefinition_static hread default
    rw [settled_supplied, settled_static _ _ default, Answers.screened_of_returns htype hform hcoerced hpassed]
  | factory default made defined =>
    have hmade : (Answers.on path s).made _ = .ok v := made s
    rw [settled_supplied, settled_factory _ _ default, hmade]
    rfl

/-- Without touching the state, the two are the same call. -/
theorem settleStep (h : p.Fallback definition v) (hread : start (ofDefinition env definition i) s₀ = (.ok p, s₁))
    (hpure : p.DefaultsPurely) (hform : p.type.FormAgrees) (path : Strategy) (plan : Plan σ) {q : Step σ}
    (htype : q.type = p.type) (hdefault : q.default = p.default) {args : Value}
    (habsent : (Plan.fetch q args).isUndefined = true) :
    plan.settleStep path.judge args q = plan.judgeStep path.judge q v := by
  cases h with
  | @static w default =>
    obtain ⟨hcoerced, hpassed⟩ := ofDefinition_static hread default
    obtain ⟨r, hr⟩ := hpure.coerced w default (definition.get "default")
    have hpasses : p.type.Passes w := Capability.passes_of_returns (hpure.checked w default) hpassed
    rw [Plan.settleStep_static (hdefault.trans default) habsent, Plan.judgeStep, htype, eq_pure_of_returns hr hcoerced,
      pure_bind, path.judge_of_passes hform hpasses]
  | @factory i make v default made defined =>
    obtain ⟨r, hr⟩ := hpure.made i make default
    rw [Plan.settleStep_factory (hdefault.trans default) habsent, eq_pure_of_returns hr ⟨s₀, made s₀⟩, pure_bind]

end ParameterSpec.Fallback

/-! ## The theorem -/

/-- Leaving a parameter with a default out comes to the same as supplying the default: from any
two states, where all code can be called again, and from the same state, where only the default
of the parameter keeps out of it. -/
theorem Validator.default_eq_supplied {definitions given args d v : Value} {s₀ s₁ : σ} {set : ParameterSet σ}
    {o : Options σ} {descriptor : String} {validator : Validator σ} {i : Nat} {p : ParameterSpec σ}
    (hread : start (ParameterSet.read env (.value definitions)) s₀ = (.ok set, s₁))
    (ho : Options.resolve env given = .ok o) (hv : Returns (compile env set o descriptor) validator)
    (hform : p.type.FormAgrees) (hfits : (Plan.make set o).ShapeFits args) (hp : set.specs[i]? = some p)
    (hd : (ParameterSet.definitions definitions)[i]? = some (some d)) (habsent : p.supplied? o args = none)
    (hdefault : p.Fallback d v) :
    (set.Repeatable → o.slurpy.Repeatable → ∀ s t,
      (start (validator.validate args) s).1 = (start (validator.validate (p.supply o args v)) t).1) ∧
    (p.DefaultsPurely → validator.validate args = validator.validate (p.supply o args v)) := by
  have hset : set.Declared env := ⟨definitions, s₀, s₁, hread⟩
  have hmem := List.mem_of_getElem? hp
  have hkeep : (Plan.make set o).KeepsOrder := Plan.keepsOrder_make ho set
  obtain ⟨d', t₀, t₁, hd', hdefinition⟩ := (ParameterSet.read_eq_ok hread).2.2 i p hp
  cases hd.symm.trans hd'
  have hdefined := hdefault.defined hdefinition
  constructor
  · intro hcode hslurpy s t
    have hsettled := hdefault.settled hdefinition (hcode.types p hmem) hform validator.strategy s o.name
    have run := always_validate hkeep hcode hslurpy hv s
    rw [run args s, run (p.supply o args v) t, ParameterSet.outcome_supply hset hfits hmem habsent hdefined hsettled]
  · intro hpure
    have hgiven : Plan.fetch (Plan.step o.sourceMode p) (p.supply o args v) = v :=
      (fetch_supplied (T := .along .generic) (ParameterSet.fits_supply hfits)
        (ParameterSet.supplied?_supply_self hfits hdefined)).1
    have hnone : Plan.fetch (Plan.step o.sourceMode p) args = .undefined :=
      fetch_absent (T := .along .generic) hfits habsent
    rw [validate_eq_direct hkeep hv, validate_eq_direct hkeep hv]
    refine (ParameterSet.direct_supply hset hfits hmem ?_).symm
    rw [Plan.settleStep_given (by rw [hgiven, hdefined]), hgiven]
    exact (hdefault.settleStep hdefinition hpure hform _ _ rfl rfl (by rw [hnone]; rfl)).symm

/-! ## A booking that is not at the aisle unless it says so -/

def ParameterSet.staticDefinitions : Value :=
  .ofItems [
    .record [("name", .text "seat"), ("type", (Capability.Scalar.nonEmptyStr.capability 1 : Capability Nat).toValue)],
    .record [("name", .text "aisle"), ("type", (Capability.Scalar.bool.capability 2 : Capability Nat).toValue),
      ("default", .bool false)]]

def ParameterSet.staticBooking : ParameterSet Nat where
  specs := [⟨"seat", 0, Capability.Scalar.nonEmptyStr.capability 1, .bool true, .none⟩,
    ⟨"aisle", 1, Capability.Scalar.bool.capability 2, .bool false, .value (.bool false)⟩]

theorem ParameterSet.repeatable_staticBooking : staticBooking.Repeatable where
  types := forall_pair (Capability.repeatable_ofTest ..) (Capability.repeatable_ofTest ..)
  factories := by apply forall_pair <;> intro i make hd <;> cases hd

/-- The same booking by position. -/
def Options.byPosition : Options Nat := { standard with sourceMode := .positional }

/-- The same aisle beside a window, which a factory takes in every other call. -/
def ParameterSet.restlessDefinitions : Value :=
  .ofItems [
    .record [("name", .text "window"), ("type", (Capability.Scalar.bool.capability 2 : Capability Nat).toValue),
      ("default", .function 1 [])],
    .record [("name", .text "aisle"), ("type", (Capability.Scalar.bool.capability 2 : Capability Nat).toValue),
      ("default", .bool false)]]

def ParameterSet.restlessBooking : ParameterSet Nat where
  specs := [⟨"window", 0, Capability.Scalar.bool.capability 2, .bool false,
    .factory 1 (Surroundings.alternating.run 1 [])⟩,
    ⟨"aisle", 1, Capability.Scalar.bool.capability 2, .bool false, .value (.bool false)⟩]

/-- An empty list is the same as one with the default in its place, behind a hole. -/
theorem Validator.default_eq_supplied_booking :
    (∃ validator : Validator Nat, Returns (compile .fixed .staticBooking .byPosition "") validator ∧
      ∀ s t, (start (validator.validate (.list [])) s).1
        = (start (validator.validate (.list [none, some (.bool false)])) t).1) ∧
    ∃ validator : Validator Nat, Returns (compile .alternating .restlessBooking .byPosition "") validator ∧
      validator.validate (.list []) = validator.validate (.list [none, some (.bool false)]) := by
  have hform : (Capability.Scalar.bool.capability 2 : Capability Nat).FormAgrees :=
    Capability.formAgrees_of_decides rfl (Capability.decides_scalar .bool 2)
  constructor
  · have hread : start (ParameterSet.read .fixed (.value ParameterSet.staticDefinitions)) 0 = (.ok .staticBooking, 0) :=
      rfl
    have ho : Options.resolve Surroundings.fixed (.record [("sourceMode", .text "positional")]) = .ok .byPosition := rfl
    have hv : Returns (compile .fixed .staticBooking .byPosition "") _ := ⟨0, rfl⟩
    have hfits : (Plan.make .staticBooking .byPosition).ShapeFits (.list []) := rfl
    have hp : ParameterSet.staticBooking.specs[1]?
        = some ⟨"aisle", 1, Capability.Scalar.bool.capability 2, .bool false, .value (.bool false)⟩ := rfl
    have hd : (ParameterSet.definitions ParameterSet.staticDefinitions)[1]? = some (some _) := rfl
    have h := default_eq_supplied hread ho hv hform hfits hp hd rfl (.static rfl)
    exact ⟨_, hv, h.1 ParameterSet.repeatable_staticBooking Slurpy.repeatable_off⟩
  · have hread : start (ParameterSet.read .alternating (.value ParameterSet.restlessDefinitions)) 0
        = (.ok .restlessBooking, 0) := rfl
    have ho : Options.resolve Surroundings.alternating (.record [("sourceMode", .text "positional")]) =
        .ok .byPosition := rfl
    have hv : Returns (compile .alternating .restlessBooking .byPosition "") _ := ⟨0, rfl⟩
    have hfits : (Plan.make .restlessBooking .byPosition).ShapeFits (.list []) := rfl
    have hp : ParameterSet.restlessBooking.specs[1]?
        = some ⟨"aisle", 1, Capability.Scalar.bool.capability 2, .bool false, .value (.bool false)⟩ := rfl
    have hd : (ParameterSet.definitions ParameterSet.restlessDefinitions)[1]? = some (some _) := rfl
    have h := default_eq_supplied hread ho hv hform hfits hp hd rfl (.static rfl)
    exact ⟨_, hv, h.2 ⟨fun _ _ v => ⟨.ok v, rfl⟩, fun _ _ => ⟨_, fun _ => rfl⟩, fun _ _ hmade => nomatch hmade⟩⟩

end ArgGuard
