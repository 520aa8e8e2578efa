/-
  ArgGuard.Proofs.Routine.Enumeration — the order in which a mapped result lists its names.

  Both routines write a mapped result in one order: the declared names that have a value, as
  declared, then the extra arguments that are kept (`Plan.Assembled`). Enumeration lists
  what was written with the array indices moved to the front, ascending
  (`Text.enumerated`), so it is the order of writing where no name is an index
  (`mapped_enumeration`).

  A record of definitions may not use index names, but a list of definitions may, and so may
  extra arguments: then the order of the result is not that of the declarations
  (`index_name_comes_first`).
-/

import ArgGuard.Proofs.Plan

namespace ArgGuard

open Call

variable {σ : Type} {env : Surroundings σ}

/-! ## Enumeration -/

/-- Keys written in some order, as enumeration lists them. -/
def Text.enumerated (keys : List String) : List String :=
  ((keys.filterMap fun k => (Text.arrayIndex? k).map fun i => (i, k)).mergeSort fun a b => a.1 ≤ b.1).map (·.2)
    ++ keys.filter fun k => (Text.arrayIndex? k).isNone

theorem Text.enumerated_of_none {keys : List String} (h : ∀ k ∈ keys, Text.arrayIndex? k = none) :
    enumerated keys = keys := by
  have hindexed : (keys.filterMap fun k => (Text.arrayIndex? k).map fun i => (i, k)) = [] := by
    rw [List.filterMap_eq_nil_iff]
    intro k hk
    rw [h k hk]
    rfl
  have hrest : (keys.filter fun k => (Text.arrayIndex? k).isNone) = keys := by
    rw [List.filter_eq_self]
    intro k hk
    rw [h k hk]
    rfl
  rw [enumerated, hindexed, hrest, List.mergeSort_nil, List.map_nil, List.nil_append]

/-- Entries are enumerated as their keys are. -/
theorem Entries.map_ordered {α : Type} (es : Entries α) :
    (Entries.ordered es).map (·.1) = Text.enumerated (es.map (·.1)) := by
  have hindexed : (es.filterMap fun e => (Text.arrayIndex? e.1).map fun i => (i, e)).map (fun x => (x.1, x.2.1))
      = (es.map (·.1)).filterMap fun k => (Text.arrayIndex? k).map fun i => (i, k) := by
    rw [List.map_filterMap, List.filterMap_map]
    congr 1
    funext e
    cases h : Text.arrayIndex? e.1 <;> simp [h]
  have hrest : (es.filter fun e => (Text.arrayIndex? e.1).isNone).map (·.1)
      = (es.map (·.1)).filter fun k => (Text.arrayIndex? k).isNone := by
    rw [List.filter_map]
    rfl
  unfold Entries.ordered Text.enumerated
  rw [List.map_append, hrest, ← hindexed, List.map_map,
    ← List.map_mergeSort (r := fun a b => decide (a.1 ≤ b.1)) (fun _ _ _ _ => rfl), List.map_map]
  rfl

/-- The members of a distinct list that are in a sublist of it make up the sublist. -/
theorem filter_eq_of_sublist {α : Type} {l k : List α} (h : l.Sublist k) (hk : k.Nodup) {p : α → Bool}
    (hp : ∀ a ∈ k, p a = true ↔ a ∈ l) : k.filter p = l := by
  induction h with
  | slnil => rfl
  | @cons l k a hlk ih =>
    obtain ⟨ha, hk⟩ := List.nodup_cons.mp hk
    have hpa : ¬ p a = true := fun h => ha (hlk.subset ((hp a List.mem_cons_self).mp h))
    rw [List.filter_cons_of_neg hpa]
    exact ih hk fun b hb => hp b (List.mem_cons_of_mem _ hb)
  | @cons_cons l k a hlk ih =>
    obtain ⟨ha, hk⟩ := List.nodup_cons.mp hk
    rw [List.filter_cons_of_pos ((hp a List.mem_cons_self).mpr List.mem_cons_self)]
    refine congrArg _ (ih hk fun b hb => ?_)
    have hne : b ≠ a := fun h => ha (h ▸ hb)
    rw [hp b (List.mem_cons_of_mem _ hb), List.mem_cons, or_iff_right hne]

theorem Entries.isSome_find? {α : Type} {es : Entries α} {k : String} :
    (Entries.find? k es).isSome = true ↔ k ∈ es.map (·.1) := by
  induction es with
  | nil => simp
  | cons e es ih =>
    obtain ⟨j, a⟩ := e
    by_cases hj : j = k
    · simp [Entries.find?, hj]
    · simp [Entries.find?, hj, ih, Ne.symm hj]

namespace Plan

variable {p : Plan σ}

/-! ## Assembly -/

/-- The names of the extra arguments that a mapped result keeps. -/
def keptNames (p : Plan σ) (args : Value) : List String :=
  if p.extras.isKeep then (p.undeclared args.entries).map (·.1) else []

/-- A record in which declared names were written in order, and then the extra arguments that
are kept. -/
def Assembled (p : Plan σ) (args out : Value) : Prop :=
  ∃ es kept : Entries Value, out = .record (Entries.ofList (es ++ kept)) ∧ (es.map (·.1)).Sublist p.declared ∧
    kept.map (·.1) = p.keptNames args

theorem mem_keptNames {args : Value} {k : String} (h : k ∈ p.keptNames args) : k ∉ p.declared := by
  unfold keptNames at h
  split at h
  · obtain ⟨e, he, rfl⟩ := List.mem_map.mp h
    simpa using (List.mem_filter.mp he).2
  · cases h

theorem nodup_keptNames {args : Value} (h : (args.entries.map (·.1)).Nodup) : (p.keptNames args).Nodup := by
  unfold keptNames
  split
  · exact (List.filter_sublist.map _).nodup h
  · exact List.nodup_nil

/-- What was assembled is enumerated as it was written, but for the array indices. -/
theorem Assembled.enumeration {args out : Value} (h : p.Assembled args out) (hn : p.declared.Nodup)
    (hargs : (args.entries.map (·.1)).Nodup) :
    out.entries.map (·.1)
      = Text.enumerated (p.declared.filter (fun k => (out.own? k).isSome) ++ p.keptNames args) := by
  obtain ⟨es, kept, rfl, hsub, hkept⟩ := h
  have hdistinct : ((es ++ kept).map (·.1)).Nodup := by
    rw [List.map_append, hkept, List.nodup_append]
    exact ⟨hsub.nodup hn, nodup_keptNames hargs, fun a ha b hb hab => mem_keptNames hb (hab ▸ hsub.subset ha)⟩
  rw [Entries.ofList_of_nodup hdistinct]
  have hvalued : p.declared.filter (fun k => ((Value.record (es ++ kept)).own? k).isSome) = es.map (·.1) := by
    refine filter_eq_of_sublist hsub hn fun k hk => ?_
    have hown : (Value.record (es ++ kept)).own? k = Entries.find? k (es ++ kept) := by simp [Value.record, Value.own?]
    have hother : k ∉ kept.map (·.1) := fun hm => mem_keptNames (hkept ▸ hm) hk
    rw [hown, Entries.isSome_find?, List.map_append, List.mem_append, or_iff_left hother]
  rw [hvalued, ← hkept, ← List.map_append]
  exact Entries.map_ordered _

/-! ## The loop -/

theorem given_sublist (steps : List (Step σ)) (values : List Value) :
    ((given steps values).map (·.1)).Sublist (steps.map (·.name)) := by
  induction steps generalizing values with
  | nil => exact .slnil
  | cons s steps ih =>
    cases values with
    | nil => exact List.nil_sublist _
    | cons v values =>
      have hrest := ih values
      cases hv : v.isUndefined with
      | true =>
        have : given (s :: steps) (v :: values) = given steps values := by simp [given, hv]
        rw [this]
        exact hrest.cons _
      | false =>
        have : given (s :: steps) (v :: values) = (s.name, v) :: given steps values := by simp [given, hv]
        rw [this]
        exact hrest.cons_cons _

theorem assembled_of_generic (hm : p.outputMode = .mapped) (hkeep : p.KeepsOrder) {args out : Value}
    (h : Returns (p.generic args) out) : p.Assembled args out := by
  rw [generic_eq] at h
  obtain ⟨_, _, h⟩ := returns_bind h
  obtain ⟨values, _, h⟩ := returns_bind h
  rw [finish_eq hkeep] at h
  obtain ⟨kept, hkept, h⟩ := returns_bind h
  cases returns_pure h
  refine ⟨given p.steps values, kept, ?_, given_sublist _ _, ?_⟩
  · rw [container, hm]
  · unfold keepExtras at hkept
    unfold keptNames
    split at hkept
    · rename_i hk
      rw [if_pos hk, judgeExtras_names (screenAll_eq_judgeExtras p _ ▸ hkept), extraArguments, hkeep.named hm hk]
    · rename_i hk
      cases returns_pure hkept
      rw [if_neg hk]
      rfl

/-! ## The program

  Only the statements behind the steps write to the result, and what they write under which
  name does not depend on what the steps came to. -/

theorem runAction_out {f f' : Frame} {a : Action} (h : Returns (p.runAction f a) f') : f'.out = f.out := by
  cases a with
  | coerce x =>
    simp only [runAction] at h
    split at h
    · obtain ⟨v, _, h⟩ := returns_bind h
      rw [returns_pure h, Frame.out_write]
    · exact absurd h not_returns_fail
  | demand x condition blame =>
    obtain ⟨passed, _, h⟩ := returns_bind h
    split at h
    · rw [returns_pure h]
    · cases blame with
      | step i => exact absurd h not_returns_complainMismatch
      | key => exact absurd h not_returns_complainExtraMismatch
      | position => exact absurd h not_returns_complainExtraMismatch
  | takeDefault i =>
    simp only [runAction] at h
    split at h
    · rw [returns_pure h, Frame.out_write]
    · exact absurd h not_returns_fail
  | makeDefault i =>
    simp only [runAction] at h
    split at h
    · obtain ⟨v, _, h⟩ := returns_bind h
      rw [returns_pure h, Frame.out_write]
    · exact absurd h not_returns_fail
  | demandGiven i =>
    simp only [runAction] at h
    split at h
    · exact absurd h not_returns_complainMissing
    · rw [returns_pure h]

theorem runActions_out {f f' : Frame} {as : List Action} (h : Returns (p.runActions f as) f') : f'.out = f.out := by
  induction as generalizing f with
  | nil => rw [returns_pure h]
  | cons a as ih =>
    obtain ⟨f₁, h₁, h⟩ := returns_bind h
    rw [ih h, runAction_out h₁]

/-- The statements of the container write some of the names, in order. -/
theorem runStmts_put (args : Value) (i : Nat) (ss : List (Step σ)) {f : Frame} {out : Entries Value}
    (hf : f.out = .record out) : ∃ f' es, p.runStmts args f (putStmts i ss) = pure f' ∧
      f'.out = .record (Entries.putAll es out) ∧ (es.map (·.1)).Sublist (ss.map (·.name)) := by
  induction ss generalizing i f out with
  | nil => exact ⟨f, [], rfl, hf, .slnil⟩
  | cons s ss ih =>
    have hput : (putStep f i s.name).out = .record (Entries.put s.name (f.step i) out) := by rw [putStep, hf]
    -- either the step's value is written, or the frame is left as it is
    have hstmt : p.runStmt args f (if alwaysGiven s then .put i s.name else .putGiven i s.name) =
          pure (putStep f i s.name) ∨
        p.runStmt args f (if alwaysGiven s then .put i s.name else .putGiven i s.name) = pure f := by
      cases alwaysGiven s with
      | true => exact .inl rfl
      | false =>
        cases hu : (f.step i).isUndefined with
        | true => exact .inr (by simp [runStmt, hu])
        | false => exact .inl (by simp [runStmt, hu])
    rw [putStmts, runStmts]
    rcases hstmt with hstmt | hstmt <;> rw [hstmt, pure_bind]
    · obtain ⟨f', es, hrun, hout, hsub⟩ := ih (i + 1) hput
      exact ⟨f', (s.name, f.step i) :: es, hrun, hout, hsub.cons_cons _⟩
    · obtain ⟨f', es, hrun, hout, hsub⟩ := ih (i + 1) hf
      exact ⟨f', es, hrun, hout, hsub.cons _⟩

/-- Keeping entries writes every undeclared one, in order. -/
theorem keepEntries_out {cs : List Action} {f f' : Frame} {es out : Entries Value} (hf : f.out = .record out)
    (h : Returns (p.keepEntries p.declared cs .out f es) f') :
    ∃ kept : Entries Value, kept.map (·.1) = (p.undeclared es).map (·.1) ∧
      f'.out = .record (Entries.putAll kept out) := by
  induction es generalizing f out with
  | nil =>
    cases returns_pure h
    exact ⟨[], rfl, hf⟩
  | cons e es ih =>
    obtain ⟨k, v⟩ := e
    rw [keepEntries] at h
    by_cases hk : p.declared.contains k = true
    · rw [if_pos hk] at h
      rw [undeclared, List.filter_cons_of_neg (by simpa using hk)]
      exact ih hf h
    · rw [if_neg hk] at h
      obtain ⟨f₁, h₁, h⟩ := returns_bind h
      have hf₁ : f₁.out = .record out := (runActions_out h₁).trans hf
      obtain ⟨f₂, h₂, h⟩ := returns_bind h
      simp only [defineExtra, hf₁] at h₂
      cases returns_pure h₂
      obtain ⟨kept, hkept, hout⟩ := ih rfl h
      rw [undeclared, List.filter_cons_of_pos (by simpa using hk)]
      exact ⟨(k, f₁.extra) :: kept, congrArg (k :: ·) hkept, hout⟩

theorem assembled_of_run (hm : p.outputMode = .mapped) (hkeep : p.KeepsOrder) {g : Program} (hg : p.program = .ok g)
    {args out : Value} (h : Returns (p.run g args) out) : p.Assembled args out := by
  obtain ⟨steps, extras, hsteps, hextras, rfl⟩ := program_ok hg
  obtain ⟨f, hrun, h⟩ := returns_bind h
  cases returns_pure h
  simp only [runStmts_append, bind_assoc] at hrun
  obtain ⟨_, _, hrun⟩ := returns_bind hrun
  obtain ⟨f₁, _, hrun⟩ := returns_bind hrun
  obtain ⟨f₂, es, hput, hout, hsub⟩ := runStmts_put (p := p) args 0 p.steps (f := { f₁ with out := .record [] }) rfl
  have houtput : p.runStmts args f₁ p.outStmts = pure f₂ := by
    rw [outStmts, hm]
    exact hput
  rw [houtput, pure_bind] at hrun
  rcases extraStmts_ok hextras with ⟨hk, rfl⟩ | ⟨hk, ⟨hs, _⟩ | ⟨_, cs, _, ⟨_, rfl⟩ | ⟨ho, _⟩⟩⟩
  · cases returns_pure hrun
    refine ⟨es, [], ?_, hsub, ?_⟩
    · rw [hout, List.append_nil]
      rfl
    · rw [keptNames, hk]
      rfl
  · cases hs.symm.trans (hkeep.named hm hk)
  · rw [runStmts_single] at hrun
    obtain ⟨kept, hkept, hf⟩ := keepEntries_out hout hrun
    refine ⟨es, kept, ?_, hsub, ?_⟩
    · rw [hf, Output.value, Entries.ofList, List.foldl_append]
      rfl
    · rw [hkept, keptNames, if_pos hk]
  · cases ho.symm.trans hm

end Plan

/-! ## The theorem -/

/-- The names in a mapped result, on either path: those of the declared parameters that have a
value, then those of the extra arguments that are kept, with array indices moved to the front. -/
theorem mapped_enumeration {set : ParameterSet σ} {given : Value} {o : Options σ} (hset : set.Declared env)
    (ho : Options.resolve env given = .ok o) (hm : o.outputMode = .mapped) {descriptor : String} {validator : Validator σ}
    (hv : Returns (Validator.compile env set o descriptor) validator) {args out : Value}
    (hargs : (args.entries.map (·.1)).Nodup) (h : Returns (validator.validate args) out) :
    let keys := set.names.filter (fun k => (out.own? k).isSome) ++ match o.slurpy with
      | .off => []
      | _ => (args.entries.map (·.1)).filter fun k => !set.names.contains k
    out.entries.map (·.1) = Text.enumerated keys ∧
      ((∀ k ∈ keys, Text.arrayIndex? k = none) → out.entries.map (·.1) = keys) := by
  have hkeep := Plan.keepsOrder_make ho set
  obtain ⟨b, hb, hroutine, _⟩ := Validator.routine_of_compile hv
  rw [Validator.validate, hroutine] at h
  have hassembled : (Plan.make set o).Assembled args out := by
    rcases Plan.build_cases hb with ⟨_, rfl⟩ | ⟨_, _, g, hg, _, rfl⟩
    · exact Plan.assembled_of_generic hm hkeep h
    · exact Plan.assembled_of_run hm hkeep hg h
  have hkept : (Plan.make set o).keptNames args = match o.slurpy with
      | .off => []
      | _ => (args.entries.map (·.1)).filter fun k => !set.names.contains k := by
    rw [Plan.keptNames, Plan.isKeep_make, Plan.undeclared, Plan.declared_make, List.filter_map]
    cases o.slurpy <;> rfl
  have hnames : (Plan.make set o).declared.Nodup := by
    rw [Plan.declared_make]
    exact (ParameterSet.declared_sound hset).1
  have henumeration := hassembled.enumeration hnames hargs
  rw [hkept, Plan.declared_make] at henumeration
  exact ⟨henumeration, fun hkeys => henumeration.trans (Text.enumerated_of_none hkeys)⟩

/-! ## A name that is an index

  A list may declare one after other names. -/

def ParameterSet.numbered : ParameterSet Nat where
  specs := [⟨"b", 0, Capability.Scalar.nonEmptyStr.capability 1, .bool true, .none⟩,
    ⟨"1", 1, Capability.Scalar.bool.capability 2, .bool true, .none⟩]

def ParameterSet.numberedDefinitions : Value :=
  .ofItems [
    .record [("name", .text "b"), ("type", (Capability.Scalar.nonEmptyStr.capability 1 : Capability Nat).toValue)],
    .record [("name", .text "1"), ("type", (Capability.Scalar.bool.capability 2 : Capability Nat).toValue)]]

theorem ParameterSet.declared_numbered : numbered.Declared .alternating := ⟨numberedDefinitions, 0, 0, rfl⟩

def numberedArguments : Value := .record [("b", .text "x"), ("1", .bool true)]

/-- A validator of these parameters returns such arguments as they are. -/
theorem returns_numbered : ∃ validator,
    Returns (Validator.compile .alternating ParameterSet.numbered .lenient "") validator ∧
    Returns (validator.validate numberedArguments) numberedArguments := by
  have hv : Returns (Validator.compile .alternating ParameterSet.numbered .lenient "") _ := ⟨0, rfl⟩
  exact ⟨_, hv, 0, rfl⟩

theorem entries_numbered : numberedArguments.entries.map (·.1) = ["1", "b"] := by
  have hb : Text.arrayIndex? "b" = none := by decide
  have h1 : Text.arrayIndex? "1" = some 1 := by decide
  rw [numberedArguments, Value.record, Value.entries, Entries.map_ordered]
  simp [Text.enumerated, hb, h1]

theorem mapped_enumeration_numbered : ∃ validator,
    Returns (Validator.compile .alternating ParameterSet.numbered .lenient "") validator ∧
    Returns (validator.validate numberedArguments) numberedArguments ∧
    numberedArguments.entries.map (·.1) = Text.enumerated
      (ParameterSet.numbered.names.filter (fun k => (numberedArguments.own? k).isSome) ++ []) := by
  have ho : Options.resolve Surroundings.alternating (.record [("strict", .bool false)]) = .ok .lenient := rfl
  have hargs : (numberedArguments.entries.map (·.1)).Nodup := by
    rw [entries_numbered]
    decide
  obtain ⟨validator, hv, h⟩ := returns_numbered
  exact ⟨validator, hv, h, (mapped_enumeration ParameterSet.declared_numbered ho rfl hv hargs h).1⟩

/-- The order of a result need not be that of the declarations: both parameters have a value,
and the index is listed before the name that was declared first. -/
theorem index_name_comes_first : ∃ validator out,
    ParameterSet.numbered.Declared .alternating ∧
    Options.resolve Surroundings.alternating (.record [("strict", .bool false)]) = .ok .lenient ∧
    Returns (Validator.compile .alternating ParameterSet.numbered .lenient "") validator ∧
    Returns (validator.validate numberedArguments) out ∧
    ParameterSet.numbered.names.filter (fun k => (out.own? k).isSome) = ["b", "1"] ∧
    out.entries.map (·.1) = ["1", "b"] := by
  obtain ⟨validator, hv, h⟩ := returns_numbered
  exact ⟨validator, numberedArguments, ParameterSet.declared_numbered, rfl, hv, h, by decide, entries_numbered⟩

end ArgGuard
