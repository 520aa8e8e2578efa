/-
  ArgGuard.Proofs.Routine.Order — the order in which named arguments were written.

  Two objects may hold the same own entries and differ in the order of writing
  (`Value.Reordered`). Every lookup finds the same in both, and enumeration lists the same
  entries, in another order at most. So the parameters settle alike, and only what is done
  with several undeclared entries can show the order: which of them is refused, and in what
  order they are kept (`Validator.order_of_names`).
-/

import ArgGuard.Proofs.Routine.Extras

namespace ArgGuard

open Call

variable {σ : Type} {env : Surroundings σ}

/-! ## Entries in another order -/

/-- Under distinct keys the order of entries does not matter to a lookup. -/
theorem Entries.find?_perm {α : Type} {es es' : Entries α} (h : es.Perm es') (hn : (es.map (·.1)).Nodup) (k : String) :
    find? k es = find? k es' := by
  induction h with
  | nil => rfl
  | cons e _ ih =>
    rw [find?, find?, ih (List.nodup_cons.mp hn).2]
  | swap e e' es =>
    have hne : e'.1 ≠ e.1 := by
      intro he
      apply (List.nodup_cons.mp hn).1
      show e'.1 ∈ e.1 :: es.map (·.1)
      rw [he]
      exact List.mem_cons_self
    rw [find?, find?, find?, find?]
    by_cases he : e.1 = k
    · rw [if_pos he, if_neg (fun he' => hne (he'.trans he.symm)), if_pos he]
    · rw [if_neg he, if_neg he]
  | trans h _ ih ih' =>
    rw [ih hn, ih' ((h.map _).nodup hn)]

/-- Enumeration lists the same entries. -/
theorem Entries.ordered_perm {α : Type} {es es' : Entries α} (h : es.Perm es') : (ordered es).Perm (ordered es') := by
  rw [ordered_eq_mergeSort, ordered_eq_mergeSort]
  exact (List.mergeSort_perm _ _).trans (h.trans (List.mergeSort_perm _ _).symm)

namespace Value

/-- Objects with the same own entries, enumerated and hidden, written in any order; of what
else they are, nothing has to be the same. -/
inductive Reordered : Value → Value → Prop
  | object {id id' : Nat} {kind kind' : Kind} {own own' hidden hidden' inherited inherited' : List (String × Value)}
      (enumerated : own.Perm own') (rest : hidden.Perm hidden') (distinct : ((own ++ hidden).map (·.1)).Nodup) :
    Reordered (object id kind own hidden inherited) (object id' kind' own' hidden' inherited')

namespace Reordered

variable {v w : Value} (h : v.Reordered w)
include h

theorem isObject : v.isObject = true ∧ w.isObject = true := by
  cases h
  exact ⟨rfl, rfl⟩

theorem own? (k : String) : v.own? k = w.own? k := by
  cases h with
  | object enumerated rest distinct =>
    rw [List.map_append, List.nodup_append] at distinct
    show (Entries.find? k _).or (Entries.find? k _) = (Entries.find? k _).or (Entries.find? k _)
    rw [Entries.find?_perm enumerated distinct.1, Entries.find?_perm rest distinct.2.1]

theorem entries : v.entries.Perm w.entries := by
  cases h with
  | object enumerated _ _ => exact Entries.ordered_perm enumerated

theorem nodup_entries : (v.entries.map (·.1)).Nodup ∧ (w.entries.map (·.1)).Nodup := by
  have hperm := h.entries.map (·.1)
  have hleft : (v.entries.map (·.1)).Nodup := by
    cases h with
    | @object _ _ _ _ own _ _ _ _ _ _ _ distinct =>
      have hsame : (Entries.ordered own).Perm own := by
        rw [Entries.ordered_eq_mergeSort]
        exact List.mergeSort_perm _ _
      rw [List.map_append, List.nodup_append] at distinct
      exact (hsame.map _).nodup_iff.mpr distinct.1
  exact ⟨hleft, hperm.nodup hleft⟩

end Reordered

end Value

/-! ## The phases of a call -/

namespace ParameterSet

variable {set : ParameterSet σ} {o : Options σ} {args args' : Value} {A : Answers σ}

theorem undeclared_perm (h : args.Reordered args') : (set.undeclared args).Perm (set.undeclared args') :=
  h.entries.filter _

/-- One undeclared entry, or none, is in order. -/
theorem undeclared_eq (h : args.Reordered args') (hfew : (set.undeclared args).length ≤ 1) :
    set.undeclared args' = set.undeclared args := by
  have hperm : (set.undeclared args).Perm (set.undeclared args') := undeclared_perm h
  cases he : set.undeclared args with
  | nil =>
    rw [he] at hperm
    exact hperm.symm.eq_nil
  | cons e es =>
    rw [he] at hperm hfew
    have hnil : es = [] := List.eq_nil_of_length_eq_zero (by simpa using hfew)
    rw [hnil] at hperm ⊢
    exact List.perm_singleton.mp hperm.symm

section named

variable (A) (hnamed : o.sourceMode = .named) (h : args.Reordered args')
include hnamed h

/-- A lenient validator does not see the order. -/
theorem outcome_lenient_reordered : set.outcome A { o with strict := false, slurpy := .off } args'
    = set.outcome A { o with strict := false, slurpy := .off } args := by
  have hsettled : set.settledAll A { o with strict := false, slurpy := .off } args'
      = set.settledAll A { o with strict := false, slurpy := .off } args := by
    refine settledAll_congr rfl fun p hp => ?_
    simp only [ParameterSpec.supplied?, hnamed, h.own?]
  rw [outcome_of_off A (admitted_lenient hnamed h.isObject.2) rfl, hsettled,
    outcome_of_off A (admitted_lenient hnamed h.isObject.1) rfl]

/-- Nor does a strict one, unless there is a choice of what to refuse. -/
theorem outcome_strict_reordered (hfew : (set.undeclared args).length ≤ 1) :
    set.outcome A { o with strict := true, slurpy := .off } args'
      = set.outcome A { o with strict := true, slurpy := .off } args := by
  rw [outcome_strict A hnamed h.isObject.2, outcome_strict A hnamed h.isObject.1, undeclared_eq h hfew,
    outcome_lenient_reordered A hnamed h]

omit h in
/-- Of undeclared entries, one is refused. -/
theorem outcome_strict_refused (hargs : args.isObject = true) (hsome : 0 < (set.undeclared args).length) :
    ∃ k ∈ (set.undeclared args).map (·.1),
      set.outcome A { o with strict := true, slurpy := .off } args = .error (.call (.unknown k o.name)) := by
  rw [outcome_strict A hnamed hargs]
  cases he : set.undeclared args with
  | nil =>
    rw [he] at hsome
    cases hsome
  | cons e es => exact ⟨e.1, List.mem_cons_self, rfl⟩

/-- What is kept stands in the order of writing, behind declared entries that do not depend on it. -/
theorem outcome_on_reordered (hset : set.Declared env) :
    (∃ e, set.outcome A { o with slurpy := .on } args = .error e ∧
      set.outcome A { o with slurpy := .on } args' = .error e) ∨
    match o.outputMode with
    | .mapped => ∃ es, (∀ e ∈ es, e.1 ∈ set.names) ∧
      set.outcome A { o with slurpy := .on } args = .ok (.record (es ++ set.undeclared args)) ∧
      set.outcome A { o with slurpy := .on } args' = .ok (.record (es ++ set.undeclared args'))
    | .orderedList => ∃ slots, slots.length = set.size ∧
      set.outcome A { o with slurpy := .on } args = .ok (.ofItems (slots ++ [.record (set.undeclared args)])) ∧
      set.outcome A { o with slurpy := .on } args' = .ok (.ofItems (slots ++ [.record (set.undeclared args')])) := by
  have hlist : ∀ slots rest, (Value.ofItems slots).extendedBy rest = .ofItems (slots ++ [.record rest]) := by
    intro slots rest
    simp [Value.ofItems, Value.extendedBy]
  rw [outcome_on A hnamed h.isObject.1 hset h.nodup_entries.1, outcome_on A hnamed h.isObject.2 hset h.nodup_entries.2,
    outcome_lenient_reordered A hnamed h]
  cases hout : set.outcome A { o with strict := false, slurpy := .off } args with
  | error e => exact .inl ⟨e, rfl, rfl⟩
  | ok out =>
    have hshape := shape_lenient A hnamed hset h.nodup_entries.1 hout
    right
    cases hm : o.outputMode with
    | mapped =>
      rw [hm] at hshape
      obtain ⟨es, rfl, hnames, _⟩ := hshape
      exact ⟨es, hnames, rfl, rfl⟩
    | orderedList =>
      rw [hm] at hshape
      obtain ⟨slots, rfl, hlength⟩ := hshape
      exact ⟨slots, hlength, congrArg Except.ok (hlist _ _), congrArg Except.ok (hlist _ _)⟩

end named

end ParameterSet

/-! ## The theorem -/

namespace Validator

variable {set : ParameterSet σ} {o : Options σ} {descriptor : String} {validator : Validator σ} {args args' : Value}

/-- Arguments with the same own entries have the same outcome in whatever order these were
written, with two exceptions. Of several undeclared entries that are rejected, another one may
be named. Those that are kept stand in their order, behind the same declared entries or slots. -/
theorem order_of_names (hset : set.Declared env) (hnamed : o.sourceMode = .named)
    (hv : Returns (compile env set o descriptor) validator) (hcode : set.Repeatable) (h : args.Reordered args')
    (s t : σ) :
    (o.slurpy = .off → o.strict = false ∨ (set.undeclared args).length ≤ 1 →
      (start (validator.validate args) s).1 = (start (validator.validate args') t).1) ∧
    (o.slurpy = .off → o.strict = true → 2 ≤ (set.undeclared args).length →
      ∃ k ∈ (set.undeclared args).map (·.1), ∃ k' ∈ (set.undeclared args).map (·.1),
        (start (validator.validate args) s).1 = .error (.call (.unknown k o.name)) ∧
        (start (validator.validate args') t).1 = .error (.call (.unknown k' o.name))) ∧
    (o.slurpy = .on →
      (set.undeclared args).Perm (set.undeclared args') ∧
      ((∃ e, (start (validator.validate args) s).1 = .error e ∧ (start (validator.validate args') t).1 = .error e) ∨
      match o.outputMode with
      | .mapped => ∃ es, (∀ e ∈ es, e.1 ∈ set.names) ∧
        (start (validator.validate args) s).1 = .ok (.record (es ++ set.undeclared args)) ∧
        (start (validator.validate args') t).1 = .ok (.record (es ++ set.undeclared args'))
      | .orderedList => ∃ slots, slots.length = set.size ∧
        (start (validator.validate args) s).1 = .ok (.ofItems (slots ++ [.record (set.undeclared args)])) ∧
        (start (validator.validate args') t).1 = .ok (.ofItems (slots ++ [.record (set.undeclared args')])))) := by
  have run : o.slurpy.Repeatable → ∀ args t, (start (validator.validate args) t).1
      = set.outcome (Answers.on validator.strategy s) o args := by
    intro hslurpy args t
    exact always_validate (fun hs => nomatch hnamed.symm.trans hs) hcode hslurpy hv s args t
  refine ⟨fun hoff hfew => ?_, fun hoff hstrict hseveral => ?_, fun hon => ⟨ParameterSet.undeclared_perm h, ?_⟩⟩
  · have hrun := run (hoff ▸ Slurpy.repeatable_off)
    rw [hrun args s, hrun args' t]
    obtain ⟨_, _, strict, _, _, _, _⟩ := o
    cases hoff
    cases strict with
    | false => exact (ParameterSet.outcome_lenient_reordered _ hnamed h).symm
    | true =>
      have hfew : (set.undeclared args).length ≤ 1 := hfew.resolve_left (by simp)
      exact (ParameterSet.outcome_strict_reordered _ hnamed h hfew).symm
  · have hrun := run (hoff ▸ Slurpy.repeatable_off)
    rw [hrun args s, hrun args' t]
    obtain ⟨_, _, _, _, _, _, _⟩ := o
    cases hoff
    cases hstrict
    have hperm : (set.undeclared args).Perm (set.undeclared args') := ParameterSet.undeclared_perm h
    obtain ⟨k, hk, hout⟩ := ParameterSet.outcome_strict_refused (Answers.on validator.strategy s) hnamed h.isObject.1
      (by omega : 0 < (set.undeclared args).length)
    obtain ⟨k', hk', hout'⟩ := ParameterSet.outcome_strict_refused (Answers.on validator.strategy s) hnamed h.isObject.2
      (by rw [← hperm.length_eq]; omega : 0 < (set.undeclared args').length)
    exact ⟨k, hk, k', (hperm.map _).mem_iff.mpr hk', hout, hout'⟩
  · have hrun := run (hon ▸ Slurpy.repeatable_on)
    rw [hrun args s, hrun args' t]
    obtain ⟨_, _, _, _, _, _, _⟩ := o
    cases hon
    exact ParameterSet.outcome_on_reordered _ hnamed h hset

/-! ## A booking written from the end -/

/-- Two entries that no parameter has, and a hidden one. -/
def crowded : Value :=
  .object 0 .plain [("seat", .text "3A"), ("coach", .nat 2), ("row", .nat 3), ("aisle", .bool false)] [("meal", .null)] []

/-- The same from the end. -/
def crowdedReversed : Value :=
  .object 0 .bare [("aisle", .bool false), ("row", .nat 3), ("coach", .nat 2), ("seat", .text "3A")] [("meal", .null)] []

theorem undeclared_crowded : ParameterSet.fixedBooking.undeclared crowded = [("coach", .nat 2), ("row", .nat 3)] ∧
    ParameterSet.fixedBooking.undeclared crowdedReversed = [("row", .nat 3), ("coach", .nat 2)] := by
  have hseat : Text.arrayIndex? "seat" = none := by decide
  have haisle : Text.arrayIndex? "aisle" = none := by decide
  have hcoach : Text.arrayIndex? "coach" = none := by decide
  have hrow : Text.arrayIndex? "row" = none := by decide
  constructor <;> simp [ParameterSet.undeclared, crowded, crowdedReversed, Value.entries, Entries.ordered, hseat, haisle,
    hcoach, hrow, ParameterSet.names, ParameterSet.fixedBooking]

/-- An undeclared index, which enumeration moves to the front, does not show the order; of two
undeclared names the first is refused, or both are kept as they were written. -/
theorem order_of_names_booking :
    (∃ validator : Validator Nat, Returns (compile .fixed .fixedBooking .lenient "") validator ∧
      ∀ s t, (start (validator.validate
          (.object 0 .plain [("seat", .text "3A"), ("7", .null), ("aisle", .bool false)] [("row", .nat 3)] [])) s).1
        = (start (validator.validate
          (.object 0 .bare [("aisle", .bool false), ("7", .null), ("seat", .text "3A")] [("row", .nat 3)] [])) t).1) ∧
    (∃ validator : Validator Nat, Returns (compile .fixed .fixedBooking .standard "") validator ∧
      ∀ s t, ∃ k ∈ ["coach", "row"], ∃ k' ∈ ["coach", "row"],
        (start (validator.validate crowded) s).1 = .error (.call (.unknown k "validator")) ∧
        (start (validator.validate crowdedReversed) t).1 = .error (.call (.unknown k' "validator"))) ∧
    ∃ validator : Validator Nat,
      Returns (compile .fixed .fixedBooking { Options.standard with slurpy := .on } "") validator ∧
      ∃ es, (start (validator.validate crowded) 0).1 = .ok (.record (es ++ [("coach", .nat 2), ("row", .nat 3)])) ∧
        (start (validator.validate crowdedReversed) 0).1 =
          .ok (.record (es ++ [("row", .nat 3), ("coach", .nat 2)])) := by
  have hcrowded : Value.Reordered crowded crowdedReversed := .object (List.reverse_perm _).symm (.refl _) (by decide)
  obtain ⟨hundeclared, hundeclared'⟩ := undeclared_crowded
  refine ⟨?_, ?_, ?_⟩
  · have hv : Returns (compile .fixed .fixedBooking .lenient "") _ := ⟨0, rfl⟩
    have hargs : Value.Reordered
        (.object 0 .plain [("seat", .text "3A"), ("7", .null), ("aisle", .bool false)] [("row", .nat 3)] [])
        (.object 0 .bare [("aisle", .bool false), ("7", .null), ("seat", .text "3A")] [("row", .nat 3)] []) :=
      .object (List.reverse_perm _).symm (.refl _) (by decide)
    exact ⟨_, hv, fun s t => (order_of_names ParameterSet.declared_fixedBooking rfl hv
      ParameterSet.repeatable_fixedBooking hargs s t).1 rfl (.inl rfl)⟩
  · have hv : Returns (compile .fixed .fixedBooking .standard "") _ := ⟨0, rfl⟩
    refine ⟨_, hv, fun s t => ?_⟩
    have h := (order_of_names ParameterSet.declared_fixedBooking rfl hv ParameterSet.repeatable_fixedBooking hcrowded
      s t).2.1 rfl rfl
    rw [hundeclared] at h
    exact h (Nat.le_refl 2)
  · have hv : Returns (compile .fixed .fixedBooking { Options.standard with slurpy := .on } "") _ := ⟨0, rfl⟩
    refine ⟨_, hv, ?_⟩
    obtain ⟨_, ⟨e, herror, _⟩ | ⟨es, _, hout, hout'⟩⟩ := (order_of_names ParameterSet.declared_fixedBooking rfl hv
      ParameterSet.repeatable_fixedBooking hcrowded 0 0).2.2 rfl
    · have hstopped : Except.toBool _ = false := congrArg Except.toBool herror
      exact absurd hstopped (by decide +kernel)
    · rw [hundeclared] at hout
      rw [hundeclared'] at hout'
      exact ⟨es, hout, hout'⟩

end Validator

end ArgGuard
