/-
  ArgGuard.Proofs.Routine.Idempotence — a result is a request that is answered with itself.

  Where results are containers of the kind that a validator takes, they can be given back
  to it. A parameter finds its own value in the result, or nothing where that is undefined
  (`supplied?_container`), and settles on it again (`ParameterSpec.settled_again`): a value
  that was coerced is coerced to itself, and a static default, which no call has coerced, was
  accepted when it was defined. Extra arguments are found in the order that they were
  written in, because they were enumerated once (`extras_container`). So a result comes back
  as it is (`Validator.validate_again`).
-/

import ArgGuard.Proofs.Capability.Stock
import ArgGuard.Proofs.Routine.Slots

namespace ArgGuard

open Call

variable {σ : Type} {env : Surroundings σ}

/-- Results are containers of the kind that is taken. -/
def Options.KeepsContainer (o : Options σ) : Prop :=
  o.sourceMode = .named ∧ o.outputMode = .mapped ∨ o.sourceMode = .positional ∧ o.outputMode = .orderedList

/-- The names of an object are enumerated in order. -/
theorem Value.pairwise_entries {v : Value} (hv : v.isObject = true) :
    (v.entries.map (·.1)).Pairwise fun k k' => Text.precedes k k' = true := by
  cases v with
  | object id kind own hidden inherited => exact Entries.pairwise_ordered own
  | _ => cases hv

/-! ## Screening and settling again -/

/-- A value that was coerced and accepted is accepted again as it is. -/
theorem Answers.screened_again {c : Capability σ} (hc : c.Stock) {path : Strategy} {s : σ}
    {fault : Value → Reason → CallFault} {v w : Value} (h : (on path s).screened c fault v = .ok w)
    (fault' : Value → Reason → CallFault) :
    (on path s).screened c fault' w = .ok w ∧ w.isUndefined = v.isUndefined := by
  obtain ⟨hcoerced, hpassed⟩ := screened_eq_ok.mp h
  obtain ⟨hagain, hundefined⟩ := hc.coerced_again ⟨s, hcoerced⟩
  exact ⟨screened_eq_ok.mpr ⟨(hc.repeatable.coerced w).always_of_returns hagain s, hpassed⟩, hundefined⟩

namespace ParameterSpec

variable {p : ParameterSpec σ} {path : Strategy} {s : σ} {validator : String}

/-- The static default of a definition that was read is accepted as an argument. -/
theorem screened_static {definition d : Value} {i : Nat} {s₀ s₁ : σ} (hp : p.type.Stock) (hform : p.type.FormAgrees)
    (hread : start (ofDefinition env definition i) s₀ = (.ok p, s₁)) (hd : p.default = .value d)
    (fault : Value → Reason → CallFault) : (Answers.on path s).screened p.type fault d = .ok d := by
  obtain ⟨hcoerced, hpassed⟩ := ofDefinition_static hread hd
  exact Answers.screened_of_returns hp.repeatable hform (hp.coerced_again hcoerced).1 hpassed path s fault

/-- On what it settled on, a parameter settles again, be it given or, where it is undefined, left out. -/
theorem settled_again (hp : p.type.Stock) {arg? : Option Value} {w : Value}
    (hstatic : ∀ d, p.default = .value d →
      (Answers.on path s).screened p.type (p.mismatch validator) d = .ok d)
    (hdefined : ∀ v, arg? = some v → v.isUndefined = false)
    (h : p.settled (Answers.on path s) validator arg? = .ok w) :
    p.settled (Answers.on path s) validator ((some w).filter fun v => !v.isUndefined) = .ok w := by
  have absent : arg? = none → w.isUndefined = true →
      p.settled (Answers.on path s) validator ((some w).filter fun v => !v.isUndefined) = .ok w := by
    intro hnone hw
    rw [Option.filter_some, hw]
    exact hnone ▸ h
  have again : (w.isUndefined = true → arg? = none) →
      (Answers.on path s).screened p.type (p.mismatch validator) w = .ok w →
      p.settled (Answers.on path s) validator ((some w).filter fun v => !v.isUndefined) = .ok w := by
    intro hnone hscreened
    cases hw : w.isUndefined with
    | true => exact absent (hnone hw) hw
    | false =>
      rw [Option.filter_some, hw]
      exact hscreened
  cases settles h with
  | given harg hr =>
    obtain ⟨hagain, hw⟩ := Answers.screened_again hp hr (p.mismatch validator)
    rw [hdefined _ harg] at hw
    exact again (fun hw' => nomatch hw.symm.trans hw') hagain
  | static hnone hd hr =>
    cases hr
    exact again (fun _ => hnone) (hstatic _ hd)
  | made hnone hd hmade hr => exact again (fun _ => hnone) (Answers.screened_again hp hr (p.mismatch validator)).1
  | unmade _ _ _ hr => cases hr
  | missing _ _ _ hr => cases hr
  | nothing hnone _ _ hr =>
    cases hr
    exact absent hnone rfl

end ParameterSpec

namespace ParameterSet

variable {set : ParameterSet σ} {o : Options σ} {args : Value} {A : Answers σ} {values : List Value}
  {kept : List (String × Value)}

/-! ## What is found in a result -/

/-- Under the name of a parameter stands its value, or nothing where that is undefined. -/
theorem find?_written (hnames : set.names.Nodup) {p : ParameterSpec σ} {v : Value} (hv : (p, v) ∈ set.specs.zip values) :
    ((set.written A values).find? p.name).filter (fun v => !v.isUndefined)
      = (some v).filter fun v => !v.isUndefined := by
  rw [written_eq_named, Entries.find?_named hnames hv]
  split
  · rename_i hleft
    rw [Option.filter_some, (Bool.and_eq_true_iff.mp hleft).1]
    rfl
  · rfl

section named

variable (hnamed : o.sourceMode = .named) (hkept : set.screenedExtras A o args = .ok kept)
include hnamed hkept

/-- What was enumerated once is found in the same order behind the parameters. -/
theorem undeclared_written (hargs : args.isObject = true) (values : List Value) :
    (Entries.ordered (set.written A values ++ Entries.ofList kept)).filter (fun e => !set.names.contains e.1)
      = Entries.ofList kept := by
  have hdeclared : (set.written A values).filter (fun e => !set.names.contains e.1) = [] := by
    rw [List.filter_eq_nil_iff]
    intro e he
    simpa using (set.written_sublist A values).subset (List.mem_map_of_mem he)
  have hextra : (Entries.ofList kept).filter (fun e => !set.names.contains e.1) = Entries.ofList kept := by
    rw [List.filter_eq_self]
    intro e he
    simpa using undeclared_ofList hkept hnamed (List.mem_map_of_mem he)
  have hordered : ((Entries.ofList kept).map (·.1)).Pairwise fun k k' => Text.precedes k k' = true := by
    have hextras : ((set.extras o args).map (·.1)).Sublist (args.entries.map (·.1)) := by
      rw [extras, hnamed]
      exact List.filter_sublist.map _
    have hkeys := ((Entries.keys_ofList kept).2.trans (keys_screenedExtras hkept)).trans hextras
    exact (Value.pairwise_entries hargs).sublist hkeys
  rw [Entries.filter_ordered, List.filter_append, hdeclared, hextra, List.nil_append]
  exact Entries.ordered_of_pairwise hordered

end named

theorem fits_container (hkeeps : o.KeepsContainer) (values : List Value) (kept : List (String × Value)) :
    (Plan.make set o).ShapeFits (set.container A o values kept) := by
  rcases hkeeps with ⟨hs, ho⟩ | ⟨hs, ho⟩
  · rw [Plan.shapeFits_named hs, container, ho]
    rfl
  · rw [Plan.shapeFits_positional hs, container, ho, hs]
    rfl

section container

variable (hset : set.Declared env) (hkeeps : o.KeepsContainer) (hkept : set.screenedExtras A o args = .ok kept)
include hset hkeeps hkept

/-- In a result a parameter finds its value, unless that is undefined. -/
theorem supplied?_container {p : ParameterSpec σ} {v : Value} (hv : (p, v) ∈ set.specs.zip values) :
    p.supplied? o (set.container A o values kept) = (some v).filter fun v => !v.isUndefined := by
  rcases hkeeps with ⟨hs, ho⟩ | ⟨hs, ho⟩
  · have hname : p.name ∈ set.names := List.mem_map_of_mem (List.of_mem_zip hv).1
    have hnone : Entries.find? p.name (Entries.ofList kept) = none :=
      Entries.find?_eq_none fun hk => undeclared_ofList hkept hs hk hname
    have hown : (set.container A o values kept).own? p.name = (set.written A values).find? p.name := by
      simp only [container, ho, ofList_written hkept hs hset]
      simp only [Value.record, Value.own?, Entries.find?_append, hnone, Entries.find?_nil, Option.or_none]
    rw [ParameterSpec.supplied?, hs, hown]
    exact find?_written (declared_sound hset).1 hv
  · obtain ⟨i, hi⟩ := List.mem_iff_getElem?.mp hv
    obtain ⟨hp, hvalue⟩ := List.getElem?_zip_eq_some.mp hi
    obtain ⟨hlt, _⟩ := List.getElem?_eq_some_iff.mp hvalue
    have hposition : p.position = i := ((declared_sound hset).2 i p hp).1
    have hitem : ((set.container A o values kept).items[p.position]?).join = some v := by
      simp only [container, ho, hs, Value.ofItems, Value.items, hposition]
      rw [List.getElem?_map, List.getElem?_append_left hlt, hvalue]
      rfl
    rw [ParameterSpec.supplied?, hs, hitem]

/-- The extra arguments of a result are those that were kept, and kept again they give the same result. -/
theorem extras_container (hargs : (Plan.make set o).ShapeFits args) (hlength : values.length = set.size) :
    (∀ e ∈ set.extras o (set.container A o values kept), e.2 ∈ kept.map (·.2)) ∧
      set.container A o values (set.extras o (set.container A o values kept)) = set.container A o values kept := by
  rcases hkeeps with ⟨hs, ho⟩ | ⟨hs, ho⟩
  · have hextras : set.extras o (set.container A o values kept) = Entries.ofList kept := by
      simp only [extras, hs, container, ho, ofList_written hkept hs hset]
      exact undeclared_written hs hkept ((Plan.shapeFits_named hs args).mp hargs) values
    rw [hextras]
    refine ⟨fun e he => List.mem_map_of_mem (Entries.mem_ofList he), ?_⟩
    simp only [container, ho]
    rw [← ofList_written hkept hs hset, Entries.ofList_of_nodup (Entries.keys_ofList _).1]
  · have hextras : (set.extras o (set.container A o values kept)).map (·.2) = kept.map (·.2) := by
      simp only [extras, hs, container, ho, Value.ofItems, Value.items]
      rw [← List.map_drop, List.drop_left' hlength, Plan.values_labelled]
    refine ⟨fun e he => hextras ▸ List.mem_map_of_mem he, ?_⟩
    simp only [container, ho, hs] at hextras ⊢
    rw [hextras]

end container

/-- Extra arguments whose values were kept are kept as they are. -/
theorem screenedExtras_again {path : Strategy} {s : σ} {args' : Value} (hstock : ∀ t, o.slurpy = .checked t → t.Stock)
    (hkept : set.screenedExtras (Answers.on path s) o args = .ok kept)
    (hmem : ∀ e ∈ set.extras o args', e.2 ∈ kept.map (·.2)) :
    set.screenedExtras (Answers.on path s) o args' = .ok (set.extras o args') := by
  unfold screenedExtras at hkept ⊢
  cases hs : o.slurpy with
  | off =>
    rw [hs] at hkept
    cases hkept
    exact congrArg Except.ok (List.eq_nil_iff_forall_not_mem.mpr fun e he => List.not_mem_nil (hmem e he)).symm
  | on => rfl
  | checked t =>
    rw [hs] at hkept
    refine mapM_eq_ok.mpr (List.forall₂_same.mpr fun e he => labelled_eq_ok.mpr ⟨rfl, ?_⟩)
    obtain ⟨e', he', hvalue⟩ := List.mem_map.mp (hmem e he)
    obtain ⟨given, _, hgiven⟩ := mem_of_mapM hkept he'
    have hscreened := (labelled_eq_ok.mp hgiven).2
    rw [hvalue] at hscreened
    exact (Answers.screened_again (hstock t hs) hscreened _).1

/-- A result is admitted, as it has no extra arguments where these are rejected. -/
theorem admitted_container (hkeeps : o.KeepsContainer) (hkept : set.screenedExtras A o args = .ok kept)
    (hmem : ∀ e ∈ set.extras o (set.container A o values kept), e.2 ∈ kept.map (·.2)) :
    set.admitted o (set.container A o values kept) = .ok () := by
  rw [admitted_of_fits (fits_container hkeeps values kept)]
  split
  · rename_i hreject
    have hoff : o.slurpy = .off := by
      unfold Plan.extrasOf at hreject
      cases hs : o.slurpy with
      | off => rfl
      | _ =>
        rw [hs] at hreject
        cases hreject
    cases hkept.symm.trans (screenedExtras_off A set hoff args)
    have hnone := List.eq_nil_iff_forall_not_mem.mpr fun e he => List.not_mem_nil (hmem e he)
    rw [hnone]
  · rfl

/-- Where every parameter is supplied with what it settled on, all settle on it again. -/
theorem settledAll_again {path : Strategy} {s : σ} {args' : Value} (hset : set.Declared env)
    (hstock : ∀ p ∈ set.specs, p.type.Stock ∧ p.type.FormAgrees)
    (hvalues : set.settledAll (Answers.on path s) o args = .ok values)
    (hsupplied : ∀ {p v}, (p, v) ∈ set.specs.zip values → p.supplied? o args' = (some v).filter fun v => !v.isUndefined) :
    set.settledAll (Answers.on path s) o args' = .ok values := by
  obtain ⟨hlength, hfirst⟩ := List.forall₂_iff_zip.mp (mapM_eq_ok.mp hvalues)
  refine mapM_eq_ok.mpr (List.forall₂_iff_zip.mpr ⟨hlength, fun {p v} hv => ?_⟩)
  have hp := (List.of_mem_zip hv).1
  obtain ⟨htype, hform⟩ := hstock p hp
  obtain ⟨definitions, s₀, s₁, hread⟩ := hset
  obtain ⟨i, hi⟩ := List.mem_iff_getElem?.mp hp
  obtain ⟨definition, t, t', _, hdefinition⟩ := (read_eq_ok hread).2.2 i p hi
  have hdefined : ∀ w, p.supplied? o args = some w → w.isUndefined = false := fun w hw => by
    simpa using (Option.filter_eq_some_iff.mp hw).2
  rw [hsupplied hv]
  exact p.settled_again htype (fun d hd => p.screened_static htype hform hdefinition hd _) hdefined (hfirst hv)

/-- A result comes back as it is. -/
theorem outcome_again {path : Strategy} {s : σ} {out : Value} (hset : set.Declared env) (hkeeps : o.KeepsContainer)
    (hstock : ∀ p ∈ set.specs, p.type.Stock ∧ p.type.FormAgrees) (hslurpy : ∀ t, o.slurpy = .checked t → t.Stock)
    (h : set.outcome (Answers.on path s) o args = .ok out) : set.outcome (Answers.on path s) o out = .ok out := by
  obtain ⟨hadmits, values, kept, hvalues, hkept, rfl⟩ := outcome_eq_ok.mp h
  obtain ⟨hmem, hcontainer⟩ :=
    extras_container hset hkeeps hkept (fits_of_admitted hadmits) (length_settledAll hvalues)
  have hadmitted := admitted_container hkeeps hkept hmem
  have hsettled := settledAll_again hset hstock hvalues fun hv => supplied?_container hset hkeeps hkept hv
  exact outcome_eq_ok.mpr ⟨hadmitted, values, _, hsettled, screenedExtras_again hslurpy hkept hmem, hcontainer⟩

end ParameterSet

/-! ## The theorem -/

namespace Validator

/-- A result that is given back to its validator comes back as it is. -/
theorem validate_again {set : ParameterSet σ} {o : Options σ} {descriptor : String} {validator : Validator σ}
    {args out : Value} (hset : set.Declared env) (hkeeps : o.KeepsContainer)
    (hv : Returns (compile env set o descriptor) validator) (htypes : ∀ p ∈ set.specs, p.type.FromLibrary)
    (hslurpy : ∀ t, o.slurpy = .checked t → t.FromLibrary)
    (hfactories : ∀ p ∈ set.specs, ∀ i make, p.default = .factory i make → Call.Repeatable make)
    (h : Returns (validator.validate args) out) (s : σ) : (start (validator.validate out) s).1 = .ok out := by
  have hcode : set.Repeatable := ⟨fun p hp => (htypes p hp).stock.1.repeatable, hfactories⟩
  have hkept : o.slurpy.Repeatable := fun t ht => (hslurpy t ht).stock.1.repeatable
  have horder : (Plan.make set o).KeepsOrder := by
    intro hs _
    rcases hkeeps with ⟨hnamed, _⟩ | ⟨_, ho⟩
    · cases hnamed.symm.trans hs
    · exact ho
  have run := always_validate horder hcode hkept hv s
  obtain ⟨t, ht⟩ := h
  rw [run args t] at ht
  rw [run out s]
  exact ParameterSet.outcome_again hset hkeeps (fun p hp => (htypes p hp).stock) (fun t ht => (hslurpy t ht).stock.1) ht

/-! ## A booking that was completed -/

/-- A count that a schema says is a text. -/
def spelledCount : TypeExpr Nat := .schema 5 (Schema.compiler false) (.record [("type", .text "string")]) none

/-- What a factory made for the first call is an argument of the second, and a text that a schema
took once is taken again. -/
theorem validate_again_booking :
    (∃ validator : Validator Nat, Returns (compile .fixed .fixedBooking .lenient "") validator ∧
      Returns (validator.validate (.record [("seat", .text "3A")]))
        (.record [("seat", .text "3A"), ("aisle", .bool true)]) ∧
      ∀ n, (start (validator.validate (.record [("seat", .text "3A"), ("aisle", .bool true)])) n).1
        = .ok (.record [("seat", .text "3A"), ("aisle", .bool true)])) ∧
    ∃ c, spelledCount.build = .ok c ∧ ∃ validator : Validator Nat,
      Returns (compile (.knowing c) (.counting c) .lenient "") validator ∧
      Returns (validator.validate (.record [("count", .text "few")])) (.record [("count", .text "few")]) ∧
      ∀ n, (start (validator.validate (.record [("count", .text "few")])) n).1 =
        .ok (.record [("count", .text "few")]) := by
  have hslurpy : ∀ t, (Options.lenient : Options Nat).slurpy = .checked t → t.FromLibrary := by
    intro t ht
    cases ht
  constructor
  · have hv : Returns (compile .fixed .fixedBooking .lenient "") _ := ⟨0, rfl⟩
    have htypes : ∀ p ∈ ParameterSet.fixedBooking.specs, p.type.FromLibrary := by
      intro p hp
      simp only [ParameterSet.fixedBooking, List.mem_cons, List.not_mem_nil, or_false] at hp
      rcases hp with rfl | rfl <;> exact Capability.fromLibrary_scalar ..
    have again {out : Value} (h : Returns (Validator.validate _ (.record [("seat", .text "3A")])) out) :=
      validate_again ParameterSet.declared_fixedBooking (.inl ⟨rfl, rfl⟩) hv htypes hslurpy
        ParameterSet.repeatable_fixedBooking.factories h
    exact ⟨_, hv, ⟨0, rfl⟩, again ⟨0, rfl⟩⟩
  · obtain ⟨c, hc, validator, hv, hvalid⟩ : ∃ c, spelledCount.build = .ok c ∧ ∃ validator : Validator Nat,
        Returns (compile (.knowing c) (.counting c) .lenient "") validator ∧
        Returns (validator.validate (.record [("count", .text "few")])) (.record [("count", .text "few")]) :=
      ⟨_, rfl, _, ⟨0, rfl⟩, 0, rfl⟩
    have htypes : ∀ p ∈ (ParameterSet.counting c).specs, p.type.FromLibrary := by
      intro p hp
      cases List.mem_singleton.mp hp
      exact ⟨spelledCount, Schema.pure_compiler false _, hc⟩
    have hfactories : ∀ p ∈ (ParameterSet.counting c).specs, ∀ i make, p.default = .factory i make →
        Call.Repeatable make := by
      intro p hp i make hd
      cases List.mem_singleton.mp hp
      cases hd
    exact ⟨c, hc, validator, hv, hvalid, validate_again (ParameterSet.declared_counting c) (.inl ⟨rfl, rfl⟩) hv htypes
      hslurpy hfactories hvalid⟩

end Validator

end ArgGuard
