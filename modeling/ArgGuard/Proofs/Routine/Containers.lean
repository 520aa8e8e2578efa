/-
  ArgGuard.Proofs.Routine.Containers — the two containers of a result.

  A result is a record or a list, as the options ask for. Both are filled from the same
  contents (`ParameterSet.contents`): one slot per parameter, and what is kept of extra
  arguments. A record leaves out the slots that are undefined, and that is all that it
  leaves out, although a specialized routine writes some slots without a test whether they
  are: those never are (`ParameterSpec.settled_trusted`). So validators that differ in the
  container only stop alike, and each result can be read off the other
  (`Validator.containers_agree`).
-/

import ArgGuard.Proofs.Routine.Outcome

namespace ArgGuard

open Call

variable {σ : Type} {env : Surroundings σ}

/-! ## Parameters that are taken for granted -/

/-- Without a coercion a value that is accepted is the value that was given. -/
theorem Answers.screened_uncoerced {c : Capability σ} (hc : c.coerce? = none) {path : Strategy} {s : σ}
    {fault : Value → Reason → CallFault} {v w : Value} (h : (on path s).screened c fault v = .ok w) : w = v := by
  obtain ⟨hcoerced, _⟩ := screened_eq_ok.mp h
  have hsame : (on path s).coerced c v = .ok v := by
    show (start (c.coerced v) s).1 = _
    rw [Capability.coerced, hc]
    rfl
  exact (Except.ok.inj (hsame.symm.trans hcoerced)).symm

/-- Where a parameter counts as required, a factory of it makes a value. -/
def ParameterSpec.MakesValue (p : ParameterSpec σ) : Prop :=
  ∀ i make v, p.default = .factory i make → p.isRequired = true → Returns make v → v.isUndefined = false

theorem ParameterSet.makesValue {set : ParameterSet σ} (hset : set.Declared env) (hflags : set.FlagsBoolean)
    {p : ParameterSpec σ} (hp : p ∈ set.specs) : p.MakesValue := by
  intro i make v hd hrequired
  cases hd.symm.trans (required_default hset hflags hp hrequired)

/-- A parameter that a routine takes for granted has a value once it is settled. -/
theorem ParameterSpec.settled_trusted {p : ParameterSpec σ} (hp : p.Sound env) {path : Strategy} {s : σ}
    {validator : String} {arg? : Option Value} {w : Value} (harg : ∀ v, arg? = some v → v.isUndefined = false)
    (hmakes : arg? = none → p.MakesValue) (htrusted : (Answers.on path s).trusts p = true)
    (h : p.settled (Answers.on path s) validator arg? = .ok w) : w.isUndefined = false := by
  cases path with
  | generic => cases htrusted
  | inline =>
    obtain ⟨huncoerced, hgiven⟩ := Bool.and_eq_true_iff.mp htrusted
    have hc : p.type.coerce? = none := Option.isNone_iff_eq_none.mp huncoerced
    have hrequired : (∀ d, p.default ≠ .value d) → p.isRequired = true := by
      intro hstatic
      cases hd : p.default with
      | value d => exact absurd hd (hstatic d)
      | _ => simpa [Plan.step, Step.isRequired, ParameterSpec.isRequired, hd] using hgiven
    cases settles h with
    | @given v hv hr =>
      rw [Answers.screened_uncoerced hc hr]
      exact harg v hv
    | static _ hd hr =>
      cases hr
      exact (hp.static _ hd).2.2.2 hc
    | @made i make v hnone hd hmade hr =>
      rw [Answers.screened_uncoerced hc hr]
      exact hmakes hnone i make v hd (hrequired fun d hd' => by cases hd.symm.trans hd') ⟨s, hmade⟩
    | unmade _ _ _ hr => cases hr
    | missing _ _ _ hr => cases hr
    | nothing _ hd hoptional _ => cases hoptional.symm.trans (hrequired fun d hd' => by cases hd.symm.trans hd')

namespace ParameterSet

variable {set : ParameterSet σ} {o : Options σ} {args : Value} {A : Answers σ} {values : List Value}

/-! ## What a container holds -/

/-- The slots that are defined, under the names of their parameters. -/
def filled (set : ParameterSet σ) (slots : List Value) : Entries Value :=
  (set.names.zip slots).filter fun e => !e.2.isUndefined

/-- Where no slot is undefined that is taken for granted, the slots that are defined are written. -/
theorem written_eq_filled (h : ∀ p v, (p, v) ∈ set.specs.zip values → A.trusts p = true → v.isUndefined = false) :
    set.written A values = set.filled values := by
  have hnamed : set.names.zip values = (set.specs.zip values).map fun e => (e.1.name, e.2) := List.zip_map_left ..
  rw [filled, hnamed, List.filter_map, written, ← List.filterMap_eq_map, ← List.filterMap_eq_filter,
    List.filterMap_filterMap]
  refine List.filterMap_congr fun e he => ?_
  cases hu : e.2.isUndefined with
  | false => simp [hu]
  | true =>
    have htrusts : A.trusts e.1 = false := by
      by_contra ht
      rw [h e.1 e.2 he (by simpa using ht)] at hu
      cases hu
    simp [hu, htrusts, Option.guard]

/-- A record leaves out the slots that are undefined, on either path. -/
theorem written_settled {path : Strategy} {s : σ} (hset : set.Declared env)
    (hmakes : ∀ p ∈ set.specs, p.supplied? o args = none → p.MakesValue)
    (h : set.settledAll (Answers.on path s) o args = .ok values) :
    set.written (Answers.on path s) values = set.filled values := by
  apply written_eq_filled
  intro p v hv htrusted
  have hp : p ∈ set.specs := (List.of_mem_zip hv).1
  have hsettled := (List.forall₂_iff_zip.mp (mapM_eq_ok.mp h)).2 hv
  refine p.settled_trusted (sound_of_mem hset hp) ?_ (hmakes p hp) htrusted hsettled
  intro w hw
  simpa using (Option.filter_eq_some_iff.mp hw).2

/-- What is kept of extra arguments stands behind the slots, under names of its own. -/
theorem record_eq (values : List Value) {kept : List (String × Value)} (hset : set.Declared env)
    (hmode : o.sourceMode = .named ∨ o.slurpy = .off) (hkept : set.screenedExtras A o args = .ok kept) :
    Entries.ofList (set.written A values ++ kept) = set.written A values ++ Entries.ofList kept ∧
      ∀ k ∈ (Entries.ofList kept).map (·.1), k ∉ set.names := by
  rcases hmode with hnamed | hoff
  · exact ⟨ofList_written hkept hnamed hset values, fun k => undeclared_ofList hkept hnamed⟩
  · cases hkept.symm.trans (screenedExtras_off A set hoff args)
    have hnodup : ((set.written A values).map (·.1)).Nodup :=
      (set.written_sublist A values).nodup (declared_sound hset).1
    rw [List.append_nil, Entries.ofList_of_nodup hnodup]
    exact ⟨(List.append_nil _).symm, fun k hk => nomatch hk⟩

/-- A list holds the slots, and behind them a record of what is kept if anything may be. -/
theorem list_eq (values : List Value) {kept : List (String × Value)} (hlist : o.outputMode = .orderedList)
    (hmode : o.sourceMode = .named ∨ o.slurpy = .off) (hkept : set.screenedExtras A o args = .ok kept) :
    set.container A o values kept = .ofItems (values ++
      match o.slurpy with
      | .off => []
      | _ => [.record (Entries.ofList kept)]) := by
  unfold container
  rw [hlist]
  cases hm : o.sourceMode with
  | named => rfl
  | positional =>
    have hoff : o.slurpy = .off := hmode.resolve_left (by simp [hm])
    cases hkept.symm.trans (screenedExtras_off A set hoff args)
    rw [hoff]
    rfl

end ParameterSet

/-! ## The theorem -/

namespace Validator

variable {set : ParameterSet σ} {o : Options σ} {given : Value} {descriptor descriptor' : String}
  {mapped ordered : Validator σ}

/-- Two validators that differ in the container only stop with the same error, or the list has
a slot for each parameter, then a record of what is kept if anything may be, and the record
holds the slots that are defined under the names of their parameters, then what is kept. -/
theorem containers_agree (hset : set.Declared env) (hflags : set.FlagsBoolean)
    (ho : Options.resolve env given = .ok { o with outputMode := .mapped })
    (hmapped : Returns (compile env set { o with outputMode := .mapped } descriptor) mapped)
    (hordered : Returns (compile env set { o with outputMode := .orderedList } descriptor') ordered)
    (hcode : set.Repeatable) (hslurpy : o.slurpy.Repeatable) (args : Value) (s t : σ) :
    (∃ e, (start (mapped.validate args) s).1 = .error e ∧ (start (ordered.validate args) t).1 = .error e) ∨
    ∃ slots rest, slots.length = set.size ∧
      (start (ordered.validate args) t).1 = .ok (.ofItems (slots ++
        match o.slurpy with
        | .off => []
        | _ => [.record rest])) ∧
      (start (mapped.validate args) s).1 = .ok (.record (set.filled slots ++ rest)) ∧
      (o.slurpy = .off → rest = []) ∧ (rest.map (·.1)).Nodup ∧ ∀ k ∈ rest.map (·.1), k ∉ set.names := by
  have hmode : o.sourceMode = .named ∨ o.slurpy = .off := by
    cases hm : o.sourceMode with
    | named => exact .inl rfl
    | positional => exact .inr ((Options.outputMode_of_positional ho hm).resolve_right (by simp))
  have horder : (Plan.make set { o with outputMode := .orderedList }).KeepsOrder := fun _ _ => rfl
  have hpath : ordered.strategy = mapped.strategy := by
    rw [strategy_of_compile hmapped, strategy_of_compile hordered]
    rfl
  have run_mapped := always_validate (Plan.keepsOrder_make ho set) hcode hslurpy hmapped s args s
  have run_ordered := always_validate horder hcode hslurpy hordered s args t
  have hcontents : ∀ A mode, set.contents A { o with outputMode := mode } args = set.contents A o args :=
    fun _ _ => rfl
  rw [ParameterSet.outcome_eq_contents, hcontents] at run_mapped run_ordered
  rw [hpath] at run_ordered
  rw [run_mapped, run_ordered]
  cases hc : set.contents (Answers.on mapped.strategy s) o args with
  | error e => exact .inl ⟨e, rfl, rfl⟩
  | ok c =>
    obtain ⟨values, kept⟩ := c
    obtain ⟨_, hvalues, hkept⟩ := ParameterSet.contents_eq_ok.mp hc
    obtain ⟨hrecord, hnames⟩ := ParameterSet.record_eq values hset hmode hkept
    have hwritten := ParameterSet.written_settled hset (fun p hp _ => ParameterSet.makesValue hset hflags hp) hvalues
    rw [hwritten] at hrecord
    have hlist := ParameterSet.list_eq (o := { o with outputMode := .orderedList }) values rfl hmode hkept
    refine .inr ⟨values, Entries.ofList kept, ParameterSet.length_settledAll hvalues, congrArg Except.ok hlist, ?_, ?_,
      (Entries.keys_ofList kept).1, hnames⟩
    · rw [← hrecord, ← hwritten]
      rfl
    · intro hoff
      cases hkept.symm.trans (ParameterSet.screenedExtras_off _ set hoff args)
      rfl

end Validator

/-! ## A booking that leaves the aisle open -/

namespace ParameterSet

def openDefinitions : Value :=
  .ofItems [
    .record [("name", .text "seat"), ("type", (Capability.Scalar.nonEmptyStr.capability 1 : Capability Nat).toValue)],
    .record [("name", .text "aisle"), ("type", (Capability.Scalar.bool.capability 2 : Capability Nat).toValue),
      ("optional", .bool true)]]

def openBooking : ParameterSet Nat where
  specs := [⟨"seat", 0, Capability.Scalar.nonEmptyStr.capability 1, .bool true, .none⟩,
    ⟨"aisle", 1, Capability.Scalar.bool.capability 2, .bool false, .none⟩]

theorem declared_openBooking : openBooking.Declared .fixed := ⟨openDefinitions, 0, 0, rfl⟩

theorem flagsBoolean_openBooking : openBooking.FlagsBoolean := forall_pair ⟨_, rfl⟩ ⟨_, rfl⟩

theorem repeatable_openBooking : openBooking.Repeatable where
  types := forall_pair (Capability.repeatable_ofTest ..) (Capability.repeatable_ofTest ..)
  factories := by apply forall_pair <;> intro i make hd <;> cases hd

end ParameterSet

/-- The list has a slot for what is open, and the record has no entry. -/
theorem Validator.containers_agree_open : ∃ mapped ordered : Validator Nat,
    Returns (compile .fixed .openBooking .lenient "") mapped ∧
    Returns (compile .fixed .openBooking { Options.lenient with outputMode := .orderedList } "") ordered ∧
    (start (ordered.validate (.record [("seat", .text "3A")])) 0).1 = .ok (.ofItems [.text "3A", .undefined]) ∧
    ∀ n, (start (mapped.validate (.record [("seat", .text "3A")])) n).1 = .ok (.record [("seat", .text "3A")]) := by
  have ho : Options.resolve Surroundings.fixed (.record [("strict", .bool false)]) = .ok .lenient := rfl
  have hmapped : Returns (compile .fixed .openBooking .lenient "") _ := ⟨0, rfl⟩
  have hordered : Returns (compile .fixed .openBooking { Options.lenient with outputMode := .orderedList } "") _ :=
    ⟨0, rfl⟩
  refine ⟨_, _, hmapped, hordered, rfl, fun n => ?_⟩
  rcases containers_agree (o := .lenient) ParameterSet.declared_openBooking ParameterSet.flagsBoolean_openBooking
    ho hmapped hordered ParameterSet.repeatable_openBooking Slurpy.repeatable_off
    (.record [("seat", .text "3A")]) n 0 with
    ⟨e, _, herror⟩ | ⟨slots, rest, _, hlist, hrecord, hrest, _, _⟩
  · cases herror
  · cases hrest rfl
    have hslots : [Value.text "3A", .undefined] = slots := by
      have hitems : Value.ofItems [.text "3A", .undefined] = .ofItems (slots ++ []) := Except.ok.inj hlist
      rw [List.append_nil] at hitems
      exact List.map_injective_iff.mpr (Option.some_injective _) (Value.list.inj hitems)
    rw [hrecord, ← hslots]
    rfl

end ArgGuard
