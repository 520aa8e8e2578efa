/-
  ArgGuard.Proofs.Routine.Extras — the policies for extra arguments beside each other.

  Four validators of the same parameters take named arguments: one rejects undeclared
  entries, one ignores them, one keeps them and one keeps them after a check. Whatever the
  entries are called, the four differ in the undeclared ones only (`Validator.extras_policies`):
  the parameters come to the same values, and what is kept stands behind them.
-/

import ArgGuard.Proofs.Routine.Outcome

namespace ArgGuard

open Call

variable {σ : Type} {env : Surroundings σ}

/-- The undeclared entries of arguments, in the order of enumeration. -/
def ParameterSet.undeclared (set : ParameterSet σ) (args : Value) : Entries Value :=
  args.entries.filter fun e => !set.names.contains e.1

namespace Value

/-- An object without the enumerated entries under other names. -/
def restrict (names : List String) : Value → Value
  | .object id kind own hidden inherited =>
    .object id kind (own.filter fun e => names.contains e.1) hidden inherited
  | v => v

/-- A result with entries added: behind those of an object, in a record of their own at the
end of a list. -/
def extendedBy (extras : Entries Value) : Value → Value
  | .list items => .list (items ++ [some (.record extras)])
  | .object id kind own hidden inherited => .object id kind (own ++ extras) hidden inherited
  | v => v

theorem entries_restrict (names : List String) (v : Value) (hv : v.isObject = true) :
    (v.restrict names).entries = v.entries.filter fun e => names.contains e.1 := by
  cases v with
  | object id kind own hidden inherited => exact (Entries.filter_ordered _ own).symm
  | _ => cases hv

theorem own?_restrict {names : List String} {k : String} (hk : k ∈ names) (v : Value) :
    (v.restrict names).own? k = v.own? k := by
  cases v with
  | object id kind own hidden inherited =>
    show (Entries.find? k (own.filter _)).or _ = _
    rw [Entries.find?_filter (by simpa using hk)]
    rfl
  | _ => rfl

end Value

/-! ## The outcomes -/

namespace ParameterSet

variable {set : ParameterSet σ} {o : Options σ} {args : Value} (A : Answers σ)

theorem extras_of_named (hnamed : o.sourceMode = .named) : set.extras o args = set.undeclared args := by
  rw [extras, hnamed]
  rfl

/-- Without extra arguments the outcome is that of the parameters. -/
theorem outcome_of_off (hadmitted : set.admitted o args = .ok ()) (hoff : o.slurpy = .off) :
    set.outcome A o args = (do .ok (set.container A o (← set.settledAll A o args) [])) := by
  rw [outcome, hadmitted, screenedExtras_off A set hoff]
  rfl

/-- Declared names that are written and undeclared ones differ. -/
theorem nodup_written (hset : set.Declared env) (hkeys : (args.entries.map (·.1)).Nodup) {values : List Value}
    {kept : Entries Value} (hkept : kept.map (·.1) = (set.undeclared args).map (·.1)) :
    ((set.written A values ++ kept).map (·.1)).Nodup := by
  have hsublist := set.written_sublist A values
  rw [List.map_append, hkept, List.nodup_append]
  refine ⟨hsublist.nodup (declared_sound hset).1, (List.filter_sublist.map _).nodup hkeys, ?_⟩
  rintro k hk k' hk' rfl
  obtain ⟨e, he, rfl⟩ := List.mem_map.mp hk'
  exact absurd (hsublist.subset hk) (by simpa using (List.mem_filter.mp he).2)

section named

variable (hnamed : o.sourceMode = .named) (hargs : args.isObject = true)
include hnamed hargs

theorem admitted_named : set.admitted o args = if (Plan.extrasOf o).isReject then
      match set.undeclared args with
      | [] => .ok ()
      | e :: _ => .error (.call (.unknown e.1 o.name))
    else .ok () := by
  have hsurplus : ∀ k, set.surplus o k = .unknown k o.name := fun k => by simp only [surplus, hnamed]
  rw [admitted_of_fits ((Plan.shapeFits_named hnamed args).mpr hargs), extras_of_named hnamed]
  simp only [hsurplus]
  rfl

theorem admitted_lenient : set.admitted { o with strict := false, slurpy := .off } args = .ok () := by
  rw [admitted_named (o := { o with strict := false, slurpy := .off }) hnamed hargs, Plan.extrasOf]
  simp [hnamed, Extras.isReject]

theorem admitted_strict : set.admitted { o with strict := true, slurpy := .off } args =
    match set.undeclared args with
      | [] => .ok ()
      | e :: _ => .error (.call (.unknown e.1 o.name)) := by
  rw [admitted_named (o := { o with strict := true, slurpy := .off }) hnamed hargs, Plan.extrasOf]
  simp [Extras.isReject]

theorem admitted_keeping {x : Slurpy σ} (hx : x ≠ .off) : set.admitted { o with slurpy := x } args = .ok () := by
  rw [admitted_named (o := { o with slurpy := x }) hnamed hargs, Plan.extrasOf]
  cases x with
  | off => exact absurd rfl hx
  | on => rfl
  | checked t => rfl

/-- A strict validator rejects the first undeclared entry, and else does what a lenient one does. -/
theorem outcome_strict : set.outcome A { o with strict := true, slurpy := .off } args =
    match set.undeclared args with
      | [] => set.outcome A { o with strict := false, slurpy := .off } args
      | e :: _ => .error (.call (.unknown e.1 o.name)) := by
  have hadmitted : set.admitted _ args = _ := admitted_strict hnamed hargs
  cases hextra : set.undeclared args with
  | nil =>
    rw [hextra] at hadmitted
    rw [outcome_of_off A hadmitted rfl, outcome_of_off A (admitted_lenient hnamed hargs) rfl]
    rfl
  | cons e es =>
    rw [hextra] at hadmitted
    rw [outcome, hadmitted]
    rfl

/-- Without the undeclared entries, a strict validator does what a lenient one does with them. -/
theorem outcome_restrict : set.outcome A { o with strict := true, slurpy := .off } (args.restrict set.names)
    = set.outcome A { o with strict := false, slurpy := .off } args := by
  have hobject : (args.restrict set.names).isObject = true := by cases args <;> first | rfl | cases hargs
  have hnone : set.undeclared (args.restrict set.names) = [] := by
    rw [undeclared, Value.entries_restrict _ _ hargs, List.filter_eq_nil_iff]
    intro e he
    simpa using (List.mem_filter.mp he).2
  have hadmitted : set.admitted _ _ = _ := admitted_strict hnamed hobject
  rw [hnone] at hadmitted
  have hsettled : set.settledAll A { o with strict := true, slurpy := .off } (args.restrict set.names)
      = set.settledAll A { o with strict := false, slurpy := .off } args := by
    refine settledAll_congr rfl fun p hp => ?_
    have hname : p.name ∈ set.names := List.mem_map.mpr ⟨p, hp, rfl⟩
    simp only [ParameterSpec.supplied?, hnamed, Value.own?_restrict hname]
  rw [outcome_of_off A hadmitted rfl, hsettled, outcome_of_off A (admitted_lenient hnamed hargs) rfl]
  rfl

section keeping

variable (hset : set.Declared env) (hkeys : (args.entries.map (·.1)).Nodup)
include hset hkeys

omit hargs in
/-- The result with what is kept is the result without, extended by it. -/
theorem container_extended {x : Slurpy σ} (hx : x ≠ .off) (values : List Value) {kept : Entries Value}
    (hkept : kept.map (·.1) = (set.undeclared args).map (·.1)) :
    set.container A { o with slurpy := x } values kept
      = (set.container A { o with strict := false, slurpy := .off } values []).extendedBy kept := by
  have hall : ((set.written A values ++ kept).map (·.1)).Nodup := nodup_written A hset hkeys hkept
  have hboth := hall
  rw [List.map_append, List.nodup_append] at hboth
  unfold container
  simp only [hnamed]
  cases o.outputMode with
  | mapped =>
    rw [List.append_nil, Entries.ofList_of_nodup hall, Entries.ofList_of_nodup hboth.1]
    rfl
  | orderedList =>
    have hlist : Value.ofItems (values ++ [.record (Entries.ofList kept)])
        = (Value.ofItems (values ++ [])).extendedBy kept := by
      rw [Entries.ofList_of_nodup hboth.2.1]
      simp only [Value.ofItems, List.map_append, List.append_nil]
      rfl
    cases x with
    | off => exact absurd rfl hx
    | on => exact hlist
    | checked t => exact hlist

/-- A validator that keeps extra arguments has the outcome of the lenient one, extended by what
is kept of them. -/
theorem outcome_keeping {x : Slurpy σ} (hx : x ≠ .off) {kept : Except Thrown (Entries Value)}
    (hscreened : set.screenedExtras A { o with slurpy := x } args = kept)
    (hkept : ∀ es, kept = .ok es → es.map (·.1) = (set.undeclared args).map (·.1)) :
    set.outcome A { o with slurpy := x } args = (do
      let out ← set.outcome A { o with strict := false, slurpy := .off } args
      let es ← kept
      .ok (out.extendedBy es)) := by
  have hsettled : set.settledAll A { o with slurpy := x } args
      = set.settledAll A { o with strict := false, slurpy := .off } args := settledAll_congr rfl fun _ _ => rfl
  rw [outcome_of_off A (admitted_lenient hnamed hargs) rfl, outcome, admitted_keeping hnamed hargs hx,
    hsettled, hscreened]
  cases set.settledAll A { o with strict := false, slurpy := .off } args with
  | error t => rfl
  | ok values =>
    cases hk : kept with
    | error t => rfl
    | ok es => exact congrArg Except.ok (container_extended A hnamed hset hkeys hx values (hkept es hk))

theorem outcome_on : set.outcome A { o with slurpy := .on } args
    = (set.outcome A { o with strict := false, slurpy := .off } args).map (·.extendedBy (set.undeclared args)) := by
  have hscreened : set.screenedExtras A { o with slurpy := .on } args = .ok (set.undeclared args) :=
    congrArg Except.ok (extras_of_named hnamed)
  rw [outcome_keeping A hnamed hargs hset hkeys (by simp) hscreened fun es h => by cases h; rfl]
  cases set.outcome A { o with strict := false, slurpy := .off } args <;> rfl

theorem outcome_checked (t : Capability σ) : set.outcome A { o with slurpy := .checked t } args = (do
    let out ← set.outcome A { o with strict := false, slurpy := .off } args
    let kept ← (set.undeclared args).mapM fun e => do
      .ok (e.1, ← A.screened t (fun v reason => .mismatch e.1 none o.name t.name reason v) e.2)
    .ok (out.extendedBy kept)) := by
  refine outcome_keeping A hnamed hargs hset hkeys (by simp) ?_ fun es h => keys_mapM h
  rw [← extras_of_named hnamed]
  rfl

omit hargs in
/-- What the parameters come to is written under their names, or into the list in order. -/
theorem shape_lenient {out : Value} (h : set.outcome A { o with strict := false, slurpy := .off } args = .ok out) :
    match o.outputMode with
    | .mapped => ∃ es, out = .record es ∧ (∀ e ∈ es, e.1 ∈ set.names) ∧ ((es ++ set.undeclared args).map (·.1)).Nodup
    | .orderedList => ∃ vs, out = .ofItems vs ∧ vs.length = set.size := by
  obtain ⟨_, values, kept, hsettled, hkept, rfl⟩ := outcome_eq_ok.mp h
  cases hkept.symm.trans (screenedExtras_off A set rfl args)
  have hsublist := set.written_sublist A values
  have hall : ((set.written A values ++ set.undeclared args).map (·.1)).Nodup := nodup_written A hset hkeys rfl
  simp only [container, hnamed]
  cases o.outputMode with
  | orderedList => exact ⟨values, by simp only [List.append_nil], length_settledAll hsettled⟩
  | mapped =>
    refine ⟨set.written A values, ?_, fun e he => hsublist.subset (List.mem_map_of_mem he), hall⟩
    rw [List.append_nil, Entries.ofList_of_nodup (hsublist.nodup (declared_sound hset).1)]

end keeping

end named

end ParameterSet

/-! ## The theorem -/

namespace Validator

variable {set : ParameterSet σ} {o : Options σ} {t : Capability σ} {d₁ d₂ d₃ d₄ : String}
  {strict lenient keeping checking : Validator σ} {args : Value}

/-- A strict validator rejects the first undeclared entry, and else has the outcome of the
lenient one, which has the outcome of the strict one on the arguments without these entries.
One that keeps extra arguments stops where the lenient one does and extends its results by the
undeclared entries, coerced and accepted if a capability is given, and then stopped by the
first that is not. -/
theorem extras_policies (hset : set.Declared env) (hnamed : o.sourceMode = .named)
    (hstrict : Returns (compile env set { o with strict := true, slurpy := .off } d₁) strict)
    (hlenient : Returns (compile env set { o with strict := false, slurpy := .off } d₂) lenient)
    (hkeeping : Returns (compile env set { o with slurpy := .on } d₃) keeping)
    (hchecking : Returns (compile env set { o with slurpy := .checked t } d₄) checking)
    (hpath : checking.strategy = lenient.strategy) (hcode : set.Repeatable) (ht : t.Repeatable)
    (hargs : args.isObject = true) (hkeys : (args.entries.map (·.1)).Nodup) (s s' : σ) :
    (start (strict.validate args) s').1 = (match set.undeclared args with
      | [] => (start (lenient.validate args) s).1
      | e :: _ => .error (.call (.unknown e.1 o.name))) ∧
    (start (lenient.validate args) s').1 = (start (strict.validate (args.restrict set.names)) s).1 ∧
    (start (keeping.validate args) s').1
      = (start (lenient.validate args) s).1.map (·.extendedBy (set.undeclared args)) ∧
    (start (checking.validate args) s').1 = (do
      let out ← (start (lenient.validate args) s).1
      let kept ← (set.undeclared args).mapM fun e => do
        .ok (e.1, ← (Answers.on lenient.strategy s).screened t
          (fun v reason => .mismatch e.1 none o.name t.name reason v) e.2)
      .ok (out.extendedBy kept)) ∧
    ∀ out, (start (lenient.validate args) s).1 = .ok out →
      match o.outputMode with
      | .mapped => ∃ es, out = .record es ∧ (∀ e ∈ es, e.1 ∈ set.names) ∧
        ((es ++ set.undeclared args).map (·.1)).Nodup
      | .orderedList => ∃ vs, out = .ofItems vs ∧ vs.length = set.size := by
  have htype {o' : Options σ} (h : o'.slurpy = .off ∨ o'.slurpy = .on) : (Plan.extrasOf o').type? = none :=
    h.elim Plan.type?_extrasOf fun h => (Plan.type?_make_on h : (Plan.make set o').extras.type? = none)
  have hsame {o' : Options σ} {d : String} {v : Validator σ} (hv : Returns (compile env set o' d) v)
      (hcodegen : o'.codegen = o.codegen) (h : o'.slurpy = .off ∨ o'.slurpy = .on) : v.strategy = lenient.strategy := by
    rw [strategy_of_compile hv, strategy_of_compile hlenient]
    congr 1
    exact Plan.strategy_congr hcodegen ((htype h).trans (Plan.type?_extrasOf rfl).symm)
  have run {o' : Options σ} {d : String} {v : Validator σ} (hv : Returns (compile env set o' d) v)
      (hmode : o'.sourceMode = .named) (hslurpy : o'.slurpy.Repeatable) (args : Value) (s' : σ) :
      (start (v.validate args) s').1 = set.outcome (Answers.on v.strategy s) o' args :=
    always_validate (fun hs => nomatch hmode.symm.trans hs) hcode hslurpy hv s args s'
  have run_strict := run hstrict hnamed Slurpy.repeatable_off
  have run_lenient := run hlenient hnamed Slurpy.repeatable_off
  have run_keeping := run hkeeping hnamed Slurpy.repeatable_on
  have run_checking := run hchecking hnamed (Slurpy.repeatable_checked ht)
  rw [hsame hstrict rfl (.inl rfl)] at run_strict
  rw [hsame hkeeping rfl (.inr rfl)] at run_keeping
  rw [hpath] at run_checking
  simp only [run_strict, run_lenient, run_keeping, run_checking]
  exact ⟨ParameterSet.outcome_strict _ hnamed hargs, (ParameterSet.outcome_restrict _ hnamed hargs).symm,
    ParameterSet.outcome_on _ hnamed hargs hset hkeys, ParameterSet.outcome_checked _ hnamed hargs hset hkeys t,
    fun out h => ParameterSet.shape_lenient _ hnamed hset hkeys h⟩

/-! ## A booking with a member that is named like the prototype -/

def remarked : Value := .record [("seat", .text "3A"), ("__proto__", .text "window")]

theorem entries_remarked : remarked.entries = [("seat", .text "3A"), ("__proto__", .text "window")] := by
  have hseat : Text.arrayIndex? "seat" = none := by decide
  have hproto : Text.arrayIndex? "__proto__" = none := by decide
  simp [remarked, Value.record, Value.entries, Entries.ordered, hseat, hproto]

/-- It is refused, or kept as an own member behind the declared ones. -/
theorem extras_policies_remarked : ∃ strict lenient keeping : Validator Nat,
    Returns (compile .fixed .fixedBooking .standard "") strict ∧
    Returns (compile .fixed .fixedBooking .lenient "") lenient ∧
    Returns (compile .fixed .fixedBooking { Options.standard with slurpy := .on } "") keeping ∧
    ∀ n, (start (strict.validate remarked) n).1 = .error (.call (.unknown "__proto__" "validator")) ∧
      (start (keeping.validate remarked) n).1
        = (start (lenient.validate remarked) n).1.map (·.extendedBy [("__proto__", .text "window")]) := by
  have hstrict : Returns (compile .fixed .fixedBooking .standard "") _ := ⟨0, rfl⟩
  have hlenient : Returns (compile .fixed .fixedBooking .lenient "") _ := ⟨0, rfl⟩
  have hkeeping : Returns (compile .fixed .fixedBooking { Options.standard with slurpy := .on } "") _ := ⟨0, rfl⟩
  have hchecking : Returns (compile .fixed .fixedBooking
    { Options.standard with slurpy := .checked (Capability.Scalar.str.capability 3) } "") _ := ⟨0, rfl⟩
  have hkeys : (remarked.entries.map (·.1)).Nodup := by
    rw [entries_remarked]
    decide
  have hundeclared : ParameterSet.fixedBooking.undeclared remarked = [("__proto__", .text "window")] := by
    rw [ParameterSet.undeclared, entries_remarked]
    rfl
  refine ⟨_, _, _, hstrict, hlenient, hkeeping, fun n => ?_⟩
  have h := extras_policies ParameterSet.declared_fixedBooking rfl hstrict hlenient hkeeping hchecking rfl
    ParameterSet.repeatable_fixedBooking (Capability.repeatable_ofTest ..) rfl hkeys n n
  rw [hundeclared] at h
  exact ⟨h.1, h.2.2.1⟩

end Validator

end ArgGuard
