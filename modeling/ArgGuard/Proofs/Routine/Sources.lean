/-
  ArgGuard.Proofs.Routine.Sources — positional and named arguments.

  A list of arguments and an object that holds its items under the names of the parameters
  (`ParameterSet.Names`) are the same request: a parameter finds the same argument in both,
  and finds none in both, be it behind the end of the list, a hole or undefined
  (`Names.supplied?`). Neither holds an extra argument as long as the list is not longer than
  the set, so a positional validator and the strict named one have the same outcome
  (`Validator.positional_eq_named`).
-/

import ArgGuard.Proofs.Routine.Outcome

namespace ArgGuard

open Call

variable {σ : Type} {env : Surroundings σ}

/-- An object that holds the items of a list under the names of their parameters: what it
reads under a name is what the list reads at the position, and nothing else is enumerated. -/
structure ParameterSet.Names (set : ParameterSet σ) (items : List (Option Value)) (obj : Value) : Prop where
  object : obj.isObject = true
  reads : ∀ (i : Nat) (p : ParameterSpec σ), set.specs[i]? = some p →
    (obj.own? p.name).getD .undefined = (items[i]?).join.getD .undefined
  declared : ∀ e ∈ obj.entries, e.1 ∈ set.names

theorem filter_defined {x y : Option Value} (h : x.getD .undefined = y.getD .undefined) :
    (x.filter fun v => !v.isUndefined) = y.filter fun v => !v.isUndefined := by
  have hread : ∀ x : Option Value, (x.filter fun v => !v.isUndefined) =
      if (x.getD .undefined).isUndefined then none else some (x.getD .undefined) := by
    intro x
    cases x with
    | none => rfl
    | some v => cases v <;> rfl
  rw [hread, hread, h]

namespace ParameterSet

variable {set : ParameterSet σ} {o : Options σ} {items : List (Option Value)} {obj : Value}

/-- The items under the names of their parameters, a hole as undefined. -/
def byName (set : ParameterSet σ) (items : List (Option Value)) : Value :=
  .record (set.names.zip (Value.itemValues items))

theorem names_byName (hset : set.Declared env) (items : List (Option Value)) : set.Names items (set.byName items) where
  object := rfl
  reads i p hi := by
    have hname : set.names[i]? = some p.name := by rw [names, List.getElem?_map, hi]; rfl
    have hown : (set.byName items).own? p.name = (Value.itemValues items)[i]? := by
      simp [byName, Value.record, Value.own?, Entries.find?_zip (declared_sound hset).1 _ hname]
    rw [hown, Value.itemValues, List.getElem?_map]
    cases items[i]? <;> rfl
  declared e he := by
    have hmem : e ∈ set.names.zip (Value.itemValues items) := Entries.mem_ordered.mp he
    exact (List.of_mem_zip hmem).1

/-- A parameter finds the same argument in the object as in the list. -/
theorem Names.supplied? (h : set.Names items obj) (hset : set.Declared env) {p : ParameterSpec σ} (hp : p ∈ set.specs) :
    p.supplied? { o with sourceMode := .named, strict := true } obj
      = p.supplied? { o with sourceMode := .positional } (.list items) := by
  obtain ⟨i, hi⟩ := List.mem_iff_getElem?.mp hp
  obtain ⟨rfl, _⟩ := (declared_sound hset).2 i p hi
  exact filter_defined (h.reads _ p hi)

theorem admitted_positional (hlength : items.length ≤ set.size) :
    set.admitted { o with sourceMode := .positional } (.list items) = .ok () := by
  have hlong : ¬((Plan.extrasOf { o with sourceMode := .positional }).isReject = true ∧
      set.size < (Value.list items).items.length) := fun h => Nat.not_lt_of_le hlength h.2
  exact if_neg hlong

theorem Names.admitted (h : set.Names items obj) :
    set.admitted { o with sourceMode := .named, strict := true } obj = .ok () := by
  have hfind : List.find? (fun e => !set.names.contains e.1) obj.entries = none := by
    rw [List.find?_eq_none]
    intro e he
    simpa using h.declared e he
  simp only [ParameterSet.admitted, hfind]
  rw [if_pos h.object, ite_self]

/-- Both validators have the same outcome. -/
theorem Names.outcome (h : set.Names items obj) (hset : set.Declared env) (hoff : o.slurpy = .off)
    (hlength : items.length ≤ set.size) (A : Answers σ) :
    set.outcome A { o with sourceMode := .named, strict := true } obj
      = set.outcome A { o with sourceMode := .positional } (.list items) := by
  have hsettled : set.settledAll A { o with sourceMode := .named, strict := true } obj
      = set.settledAll A { o with sourceMode := .positional } (.list items) :=
    settledAll_congr rfl fun p hp => h.supplied? hset hp
  have hcontainer : ∀ values, set.container A { o with sourceMode := .named, strict := true } values []
      = set.container A { o with sourceMode := .positional } values [] := by
    intro values
    simp only [container, hoff]
    cases o.outputMode <;> rfl
  unfold ParameterSet.outcome
  rw [h.admitted, admitted_positional hlength, hsettled,
    screenedExtras_off A set (o := { o with sourceMode := .named, strict := true }) hoff,
    screenedExtras_off A set (o := { o with sourceMode := .positional }) hoff]
  exact bind_congr fun _ => bind_congr fun values => congrArg Except.ok (hcontainer values)

end ParameterSet

/-! ## The theorem -/

/-- A positional validator has the outcome of the strict named one on the same arguments under
the names of their parameters. -/
theorem Validator.positional_eq_named {set : ParameterSet σ} {o : Options σ} {descriptor descriptor' : String}
    {positional named : Validator σ} {items : List (Option Value)} {obj : Value} (hset : set.Declared env)
    (hoff : o.slurpy = .off)
    (hpositional : Returns (compile env set { o with sourceMode := .positional } descriptor) positional)
    (hnamed : Returns (compile env set { o with sourceMode := .named, strict := true } descriptor') named)
    (hcode : set.Repeatable) (hlength : items.length ≤ set.size) (hobj : set.Names items obj) (s t : σ) :
    (start (positional.validate (.list items)) s).1 = (start (named.validate obj) t).1 := by
  have hrefused : ∀ mode strict, ∀ t, ({ o with sourceMode := mode, strict } : Options σ).slurpy = .checked t →
      t.Repeatable := fun _ _ t ht => nomatch hoff.symm.trans ht
  have hkeep : ∀ mode strict, (Plan.make set { o with sourceMode := mode, strict }).KeepsOrder := by
    intro mode strict _ hk
    rw [Plan.isKeep_make, hoff] at hk
    cases hk
  have htype : ∀ mode strict, (Plan.extrasOf { o with sourceMode := mode, strict }).type? = none :=
    fun _ _ => Plan.type?_extrasOf hoff
  have hpath : named.strategy = positional.strategy := by
    rw [strategy_of_compile hpositional, strategy_of_compile hnamed]
    congr 1
    exact Plan.strategy_congr rfl ((htype _ _).trans (htype _ _).symm)
  have hlist := always_validate (hkeep _ _) hcode (hrefused _ _) hpositional s (.list items) s
  have hobject := always_validate (hkeep _ _) hcode (hrefused _ _) hnamed s obj t
  rw [hlist, hobject, hpath, hobj.outcome hset hoff hlength]

/-! ## A booking by position -/

/-- The seat is a hole in the list and undefined in the object. -/
theorem Validator.positional_eq_named_booking : ∃ positional named : Validator Nat,
    Returns (compile .fixed .fixedBooking { Options.standard with sourceMode := .positional } "") positional ∧
    Returns (compile .fixed .fixedBooking .standard "") named ∧
    ∀ s t, (start (positional.validate (.list [none, some (.bool true)])) s).1
      = (start (named.validate (ParameterSet.fixedBooking.byName [none, some (.bool true)])) t).1 := by
  have hpositional : Returns (compile .fixed .fixedBooking { Options.standard with sourceMode := .positional } "") _ :=
    ⟨0, rfl⟩
  have hnamed : Returns (compile .fixed .fixedBooking .standard "") _ := ⟨0, rfl⟩
  exact ⟨_, _, hpositional, hnamed, positional_eq_named ParameterSet.declared_fixedBooking rfl hpositional hnamed
    ParameterSet.repeatable_fixedBooking (Nat.le_refl 2) (ParameterSet.names_byName ParameterSet.declared_fixedBooking _)⟩

end ArgGuard
