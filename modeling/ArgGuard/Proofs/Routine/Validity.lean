/-
  ArgGuard.Proofs.Routine.Validity — what a call returns is valid.

  A result holds one slot for each parameter, under its name or at its place, and behind
  them the extra arguments that were kept. It is valid when every slot is accepted by the
  type of its parameter, or is empty because an argument with no default was left out that
  need not be given, and when every kept argument is accepted (`Valid`).

  The loop returns valid results only (`valid_of_generic`): a value was either accepted in
  the call or is a static default, which was accepted when its definition was read. The
  specialized program does too when what meets an inline condition passes the check
  (`returns_valid`): it is compared with a loop that checks by these conditions.
-/

import ArgGuard.Proofs.Capability.Inline
import ArgGuard.Proofs.Plan

namespace ArgGuard

open Call

variable {σ τ : Type}

theorem own?_record (es : Entries Value) (k : String) : (Value.record es).own? k = Entries.find? k es := by
  simp [Value.record, Value.own?]

namespace Plan

/-! ## Results -/

/-- What a result holds for the step at a place; undefined when it holds nothing. -/
def slot (p : Plan σ) (out : Value) (i : Nat) (s : Step σ) : Value :=
  match p.outputMode with
  | .mapped => (out.own? s.name).getD .undefined
  | .orderedList => (out.items.getD i none).getD .undefined

/-- The extra arguments that a result keeps: entries under other names, the entries of the
record behind the parameters, or the items behind them. -/
def keptValues (p : Plan σ) (out : Value) : List Value :=
  match p.outputMode, p.sourceMode with
  | .mapped, _ => (out.entries.filter fun e => !p.declared.contains e.1).map (·.2)
  | .orderedList, .named => (out.items.drop p.steps.length).flatMap fun o =>
      ((o.getD .undefined).entries).map (·.2)
  | .orderedList, .positional => (out.items.drop p.steps.length).map (·.getD .undefined)

/-- A result whose values `ok` accepts. -/
structure Valid (p : Plan σ) (ok : Capability σ → Value → Prop) (args out : Value) : Prop where
  slots : ∀ i s, p.steps[i]? = some s → ok s.type (p.slot out i s) ∨
    p.slot out i s = .undefined ∧ s.isRequired = false ∧ s.default = .none ∧ fetch s args = .undefined
  supplied : ∀ s ∈ p.steps, s.isRequired = true → fetch s args ≠ .undefined
  kept : ∀ t, p.extras.type? = some t → ∀ v ∈ p.keptValues out, ok t v

/-! ## Slots of a record -/

theorem toMapped_eq_trusting {steps : List (Step σ)} (hn : (steps.map (·.name)).Nodup) (values : List Value) :
    toMapped steps values [] = trusting (fun _ => false) steps values := by
  rw [toMapped_eq, ← trusting_untrusted, putAll_trusting hn]

/-- A step's value stands under its name, unless it is undefined. -/
theorem find?_toMapped {steps : List (Step σ)} {values : List Value} (hn : (steps.map (·.name)).Nodup) {i : Nat}
    {s : Step σ} {v : Value} (hs : steps[i]? = some s) (hv : values[i]? = some v) :
    (Entries.find? s.name (toMapped steps values [])).getD .undefined = v := by
  rw [toMapped_eq_trusting hn, find?_trusting hn hs hv]
  cases hu : v.isUndefined with
  | true => exact (Value.eq_undefined hu).symm
  | false => rfl

theorem name_of_mem_toMapped {steps : List (Step σ)} {values : List Value} {e : String × Value}
    (hn : (steps.map (·.name)).Nodup) (h : e ∈ toMapped steps values []) : e.1 ∈ steps.map (·.name) := by
  rw [toMapped_eq_trusting hn] at h
  exact trusting_sublist.subset (List.mem_map_of_mem h)

/-! ## Kept arguments -/

/-- A kept argument passed the check of the capability for extra arguments. -/
def Kept (p : Plan σ) (v : Value) : Prop := ∀ t, p.extras.type? = some t → Returns (t.check v) .passed

theorem kept_of_screenExtra {p : Plan σ} {label : String} {v w : Value} (h : Returns (p.screenExtra label v) w) :
    p.Kept w := by
  intro t ht
  simp only [screenExtra, ht] at h
  exact (screen_returns (fun _ => not_returns_complainExtraMismatch) h).2

/-- Collecting leaves the declared entries alone and adds accepted ones under other names. -/
theorem collectNamed_returns {p : Plan σ} {es out kept : Entries Value} (h : Returns (p.collectNamed es out) kept) :
    (∀ k ∈ p.declared, Entries.find? k kept = Entries.find? k out) ∧ ∀ e ∈ kept, e ∈ out ∨ p.Kept e.2 := by
  induction es generalizing out with
  | nil =>
    cases returns_pure h
    exact ⟨fun _ _ => rfl, fun _ => .inl⟩
  | cons e es ih =>
    obtain ⟨k, v⟩ := e
    simp only [collectNamed] at h
    split at h
    · exact ih h
    · rename_i hk
      obtain ⟨w, hw, h⟩ := returns_bind h
      obtain ⟨hfind, hmem⟩ := ih h
      refine ⟨fun j hj => ?_, fun e he => ?_⟩
      · have hne : k ≠ j := by
          rintro rfl
          simp [hj] at hk
        rw [hfind j hj, Entries.find?_put, if_neg hne]
      · rcases hmem e he with he | he
        · rcases Entries.mem_put he with rfl | he
          · exact .inr (kept_of_screenExtra hw)
          · exact .inl he
        · exact .inr he

theorem collectItems_returns {p : Plan σ} {i : Nat} {items : List (Option Value)} {kept : List Value}
    (h : Returns (p.collectItems i items) kept) : ∀ v ∈ kept, p.Kept v := by
  induction items generalizing i kept with
  | nil =>
    cases returns_pure h
    simp
  | cons o items ih =>
    obtain ⟨v, hv, h⟩ := returns_bind h
    obtain ⟨vs, hvs, h⟩ := returns_bind h
    cases returns_pure h
    exact List.forall_mem_cons.mpr ⟨kept_of_screenExtra hv, ih hvs⟩

/-! ## The container -/

theorem slot_record {p : Plan σ} (hm : p.outputMode = .mapped) (es : Entries Value) (i : Nat) (s : Step σ) :
    p.slot (.record es) i s = (Entries.find? s.name es).getD .undefined := by
  simp only [slot, hm, own?_record]

theorem slot_ofItems {p : Plan σ} (hm : p.outputMode = .orderedList) {values : List Value} {i : Nat} {v : Value}
    (hv : values[i]? = some v) (more : List Value) (s : Step σ) : p.slot (.ofItems (values ++ more)) i s = v := by
  obtain ⟨hi, rfl⟩ := List.getElem?_eq_some_iff.mp hv
  simp [slot, hm, Value.ofItems, Value.items, List.getElem?_append, hi]

theorem drop_ofItems {values : List Value} {n : Nat} (hn : values.length = n) (more : List Value) :
    (Value.ofItems (values ++ more)).items.drop n = more.map some := by
  subst hn
  simp [Value.ofItems, Value.items]

/-- A record with the entries of the steps, as far as the declared names go, beside accepted values. -/
theorem slots_record {p : Plan σ} (hn : p.declared.Nodup) (hm : p.outputMode = .mapped) {values : List Value}
    {es : Entries Value} (hfind : ∀ k ∈ p.declared, Entries.find? k es = Entries.find? k (toMapped p.steps values []))
    (hmem : ∀ e ∈ es, e ∈ toMapped p.steps values [] ∨ p.Kept e.2) :
    (∀ i s v, p.steps[i]? = some s → values[i]? = some v → p.slot (.record es) i s = v) ∧
    ∀ v ∈ p.keptValues (.record es), p.Kept v := by
  refine ⟨fun i s v hs hv => ?_, fun v hv => ?_⟩
  · rw [slot_record hm, hfind s.name (List.mem_map.mpr ⟨s, List.mem_of_getElem? hs, rfl⟩)]
    exact find?_toMapped hn hs hv
  · simp only [keptValues, hm] at hv
    obtain ⟨e, he, rfl⟩ := List.mem_map.mp hv
    obtain ⟨he, hd⟩ := List.mem_filter.mp he
    rcases hmem e (Entries.mem_ordered.mp he) with he | he
    · have hname : e.1 ∈ p.declared := name_of_mem_toMapped hn he
      simp [hname] at hd
    · exact he

/-- A list of the settled values alone keeps nothing. -/
theorem slots_ofItems {p : Plan σ} (hm : p.outputMode = .orderedList) {values : List Value}
    (hl : values.length = p.steps.length) :
    (∀ i s v, p.steps[i]? = some s → values[i]? = some v → p.slot (.ofItems values) i s = v) ∧
    ∀ v ∈ p.keptValues (.ofItems values), p.Kept v := by
  have hout := drop_ofItems hl []
  rw [List.append_nil] at hout
  refine ⟨fun i s v _ hv => by simpa using slot_ofItems hm hv [] s, fun v hv => ?_⟩
  cases hs : p.sourceMode <;> simp [keptValues, hm, hs, hout] at hv

/-- What finishing makes of settled values: each in its slot, and accepted values behind them. -/
theorem finish_returns {p : Plan σ} (hn : p.declared.Nodup) {args out : Value} {values : List Value}
    (hl : values.length = p.steps.length) (h : Returns (p.finish args values) out) :
    (∀ i s v, p.steps[i]? = some s → values[i]? = some v → p.slot out i s = v) ∧
    ∀ v ∈ p.keptValues out, p.Kept v := by
  unfold finish at h
  cases hs : p.sourceMode <;> cases ho : p.outputMode <;> simp only [hs, ho] at h
  · -- named arguments in a record
    split at h
    · obtain ⟨es, hes, h⟩ := returns_bind h
      cases returns_pure h
      obtain ⟨hfind, hmem⟩ := collectNamed_returns hes
      exact slots_record hn ho hfind hmem
    · cases returns_pure h
      exact slots_record hn ho (fun _ _ => rfl) fun _ => .inl
  · -- named arguments in a list, with a record of the kept ones behind them
    split at h
    · obtain ⟨es, hes, h⟩ := returns_bind h
      cases returns_pure h
      obtain ⟨_, hmem⟩ := collectNamed_returns hes
      refine ⟨fun i s v _ hv => slot_ofItems ho hv _ s, fun v hv => ?_⟩
      simp only [keptValues, ho, hs, drop_ofItems hl] at hv
      obtain ⟨k, hk⟩ : ∃ k, (k, v) ∈ (Value.record es).entries := by simpa using hv
      exact (hmem (k, v) (Entries.mem_ordered.mp hk)).resolve_left List.not_mem_nil
    · cases returns_pure h
      exact slots_ofItems ho hl
  · -- positional arguments in a record keep nothing
    cases returns_pure h
    exact slots_record hn ho (fun _ _ => rfl) fun _ => .inl
  · -- positional arguments in a list, with the kept ones behind them
    split at h
    · obtain ⟨vs, hvs, h⟩ := returns_bind h
      cases returns_pure h
      refine ⟨fun i s v _ hv => slot_ofItems ho hv _ s, fun v hv => ?_⟩
      simp only [keptValues, ho, hs, drop_ofItems hl, List.map_map] at hv
      exact collectItems_returns hvs v (by simpa using hv)
    · cases returns_pure h
      exact slots_ofItems ho hl

/-! ## The loop -/

theorem keptValues_map (T : Translation σ τ) (p : Plan σ) (out : Value) :
    (p.map T).keptValues out = p.keptValues out := by
  have hlength : (p.map T).steps.length = p.steps.length := by simp [map]
  unfold keptValues
  rw [declared_map, hlength]
  rfl

/-- What the loop of a replacement returns is valid by any measure that its checks and the
static defaults meet. -/
theorem valid_of_generic {p : Plan σ} {T : Translation σ τ} {ok : Capability σ → Value → Prop} (hp : p.WellMade)
    (hn : p.declared.Nodup) (hchecked : ∀ c ∈ p.capabilities, ∀ v, Returns ((T.capability c).check v) .passed → ok c v)
    (hstatic : ∀ s ∈ p.steps, ∀ v, s.default = .value v → ok s.type v) {args out : Value}
    (h : Returns ((p.map T).generic args) out) : p.Valid ok args out := by
  rw [generic_eq] at h
  obtain ⟨_, _, h⟩ := returns_bind h
  obtain ⟨values, hvalues, h⟩ := returns_bind h
  have hsettled := settled_of_returns hvalues
  have hl : values.length = p.steps.length := by simpa [map] using hsettled.length_eq.symm
  obtain ⟨hslots, hkept⟩ := finish_returns (p := p.map T) (by rwa [declared_map]) (by simpa [map] using hl) h
  have settled : ∀ (i : Nat) (s : Step σ), p.steps[i]? = some s → ∃ (v : Value) (j : Nat), values[i]? = some v ∧
      Returns ((p.map T).settle j (s.map T) args) v := by
    intro i s hs
    obtain ⟨hi, rfl⟩ := List.getElem?_eq_some_iff.mp hs
    have hi' : i < (p.map T).steps.length := by simpa [map] using hi
    obtain ⟨j, hj⟩ := hsettled.get hi' (by omega)
    exact ⟨values[i], j, List.getElem?_eq_getElem (by omega), by simpa [map] using hj⟩
  refine ⟨fun i s hs => ?_, fun s hs hr hu => ?_, fun t ht v hv => ?_⟩
  · obtain ⟨v, j, hv, hsettle⟩ := settled i s hs
    have hmem := List.mem_of_getElem? hs
    have hslot : p.slot out i s = v := hslots i (s.map T) v (by rw [steps_map, hs]; rfl) hv
    rw [hslot]
    rcases settle_cases hsettle with ⟨_, hd⟩ | ⟨hu, hd, hr, rfl⟩ | ⟨hc, _⟩
    · refine .inl (hstatic s hmem v ?_)
      cases hk : s.default <;> simp only [Step.map, hk, Default.map] at hd <;> cases hd
      rfl
    · refine .inr ⟨rfl, hr, ?_, Value.eq_undefined hu⟩
      cases hk : s.default <;> simp only [Step.map, hk, Default.map] at hd <;> cases hd
      rfl
    · exact .inl (hchecked s.type (mem_capabilities_step hmem) v hc)
  · obtain ⟨i, hi⟩ := List.mem_iff_getElem?.mp hs
    obtain ⟨v, j, _, hsettle⟩ := settled i s hi
    have hd := hp.required s hs hr
    rcases settle_cases hsettle with ⟨_, hd'⟩ | ⟨_, _, hr', _⟩ | ⟨_, ⟨_, _, _, _, hd', _⟩ | ⟨hgiven, _⟩⟩
    · simp [Step.map, hd, Default.map] at hd'
    · rw [show (s.map T).isRequired = s.isRequired from rfl, hr] at hr'
      cases hr'
    · simp [Step.map, hd, Default.map] at hd'
    · rw [show fetch (s.map T) args = fetch s args from rfl, hu] at hgiven
      cases hgiven
  · rw [← keptValues_map T] at hv
    exact hchecked t (mem_capabilities_extras ht) v (hkept v hv (T.capability t) (by rw [type?_map, ht]; rfl))

end Plan

/-! ## Pure checks -/

namespace Capability

/-- The value passes the check, whatever the state. -/
def Passes (c : Capability σ) (v : Value) : Prop := c.check v = pure .passed

/-- A check that is a function of the value, or stops with an error that is. -/
def IsPure (c : Capability σ) : Prop := ∃ r : Value → Except Thrown Verdict, ∀ v, c.check v = ofExcept (r v)

theorem passes_of_returns {c : Capability σ} (h : c.IsPure) {v : Value} (hv : Returns (c.check v) .passed) :
    c.Passes v := by
  obtain ⟨r, hr⟩ := h
  exact eq_pure_of_returns (hr v) hv

/-- What meets an inline form passes the check. -/
def InlineSound (c : Capability σ) : Prop := ∀ f, c.inline? = some f → ∀ v, f.holds v = .ok true → c.Passes v

theorem inlineSound_of_decides {c : Capability σ} {f : Fragment} (hf : c.inline? = some f) (h : Decides f c) :
    c.InlineSound := by
  intro g hg v hv
  rw [hf] at hg
  cases hg
  obtain ⟨r, hcheck, hholds⟩ := h.2 v
  rw [hholds] at hv
  cases r with
  | passed => exact hcheck
  | rejected reason => cases hv

/-- The capability whose check is its inline form. -/
def byInline (c : Capability σ) : Capability σ :=
  { c with check := fun v => match c.inline? with
      | some f => do if ← Call.ofExcept (f.holds v) then pure .passed else pure (.rejected "")
      | none => c.check v }

theorem byInline_check {c : Capability σ} {f : Fragment} (hf : c.inline? = some f) (v : Value) :
    c.byInline.check v
      = Call.ofExcept ((f.holds v).map fun b => if b then .passed else .rejected "") := by
  simp only [byInline, hf]
  rcases f.holds v with t | _ | _ <;> rfl

/-- Passing the inline form is passing the check. -/
theorem passes_of_byInline {c : Capability σ} (hp : c.IsPure) (hi : c.InlineSound) {v : Value}
    (h : Returns (c.byInline.check v) .passed) : c.Passes v := by
  cases hf : c.inline? with
  | none =>
    simp only [byInline, hf] at h
    exact passes_of_returns hp h
  | some f =>
    refine hi f hf v ?_
    rw [byInline_check hf] at h
    obtain ⟨s, h⟩ := h
    rcases hv : f.holds v with t | _ | _ <;> rw [hv] at h <;> cases h

end Capability

/-- Every check gives way to the inline form. -/
def Translation.byInline : Translation σ σ := ⟨Capability.byInline, fun _ make => make⟩

namespace Plan

theorem blame_eq_fail {c : Capability σ} {v : Value} {r : Except Thrown Verdict} (hc : c.check v = Call.ofExcept r)
    (fault : String → Reason → CallFault) : ∃ t, (blame c v fault : Call σ Value) = Call.fail t := by
  simp only [blame, reasonFor, hc]
  rcases r with t | _ | reason <;> exact ⟨_, rfl⟩

/-- A program cannot be told from a loop that checks by the inline forms, but for errors. -/
theorem faithful_byInline {p : Plan σ} (hp : ∀ c ∈ p.capabilities, c.IsPure) :
    Translation.byInline.Faithful (· = ·) (fun _ _ => True) p where
  refl _ := trivial
  coerces _ _ := rfl
  coerced c hc v s t hst := by
    cases hst
    exact ⟨Matches.refl (fun _ => trivial) _, rfl⟩
  made s hs i make hd a b hab := by
    cases hab
    exact ⟨Matches.refl (fun _ => trivial) _, rfl⟩
  demanded c hc f hf v fault := by
    obtain ⟨r, hr⟩ := hp c hc
    obtain ⟨t, ht⟩ := blame_eq_fail (hr v) fault
    obtain ⟨u, hu⟩ := blame_eq_fail (Capability.byInline_check hf v) fault
    simp only [demanded, checked, Translation.byInline, Capability.byInline_check hf, ht, hu]
    rcases f.holds v with t | _ | _
    · exact .fail trivial
    · exact .fail trivial
    · exact .pure v

/-! ## The theorem -/

/-- What validation returns is valid, whichever routine it runs. -/
theorem validated_is_valid {env : Surroundings σ} {set : ParameterSet σ} {given : Value} {o : Options σ}
    (hset : set.Declared env) (hflags : set.FlagsBoolean) (ho : Options.resolve env given = .ok o)
    (hpure : ∀ c ∈ (make set o).capabilities, c.IsPure) {descriptor : String} {validator : Validator σ}
    (hv : Returns (Validator.compile env set o descriptor) validator)
    (hinline : validator.strategy = .inline → ∀ c ∈ (make set o).capabilities, c.InlineSound) {args out : Value}
    (h : Returns (validator.validate args) out) : (make set o).Valid Capability.Passes args out := by
  have hmade := make_wellMade hset hflags ho
  have hnames : (make set o).declared.Nodup := by
    have : (make set o).declared = set.names := by simp [declared, make, ParameterSet.names, step]
    rw [this]
    exact (ParameterSet.declared_sound hset).1
  have hstatic : ∀ s ∈ (make set o).steps, ∀ v, s.default = .value v → s.type.Passes v := by
    intro s hs v hd
    have hp := hpure s.type (mem_capabilities_step hs)
    obtain ⟨spec, hspec, rfl⟩ := steps_make hs
    exact Capability.passes_of_returns hp ((ParameterSet.sound_of_mem hset hspec).static v hd).2.2.1
  obtain ⟨b, hb, hroutine, hstrategy⟩ := Validator.routine_of_compile hv
  rw [Validator.validate, hroutine] at h
  rcases build_cases hb with ⟨_, rfl⟩ | ⟨_, _, g, hg, _, rfl⟩
  · refine valid_of_generic (T := .id) hmade hnames
      (fun c hc v h => Capability.passes_of_returns (hpure c hc) h) hstatic ?_
    rwa [map_id]
  · have hsound := hinline hstrategy
    refine valid_of_generic (T := .byInline) hmade hnames
      (fun c hc v h => Capability.passes_of_byInline (hpure c hc) (hsound c hc) h) hstatic ?_
    obtain ⟨s, hs⟩ := h
    have hagree := (agree_run_generic (faithful_byInline hpure) hmade hg args s s rfl).1
    rw [show start ((make set o).run g args) s = (.ok out, _) from Prod.ext hs rfl] at hagree
    exact ⟨s, eq_ok_of_matches hagree⟩

/-- A booking that leaves the aisle to the factory, beside an argument that is ignored. -/
theorem validated_is_valid_booking : ∃ validator out,
    Returns (Validator.compile .alternating ParameterSet.booking .lenient "") validator ∧
    Returns (validator.validate (.record [("seat", .text "7A"), ("coach", .nat 3)])) out ∧
    (make ParameterSet.booking .lenient).Valid Capability.Passes (.record [("seat", .text "7A"), ("coach", .nat 3)])
      out := by
  have hresolve : Options.resolve Surroundings.alternating (.record [("strict", .bool false)]) = .ok .lenient := rfl
  have hpure : ∀ c ∈ (make ParameterSet.booking .lenient).capabilities, c.IsPure := by
    intro c hc
    obtain ⟨s, id, rfl⟩ := capabilities_booking rfl hc
    exact ⟨_, fun v => rfl⟩
  have hsound : ∀ c ∈ (make ParameterSet.booking .lenient).capabilities, c.InlineSound := by
    intro c hc
    obtain ⟨s, id, rfl⟩ := capabilities_booking rfl hc
    exact Capability.inlineSound_of_decides rfl (Capability.decides_scalar s id)
  have hv : Returns (Validator.compile .alternating ParameterSet.booking .lenient "") _ := ⟨0, rfl⟩
  exact ⟨_, _, hv, ⟨0, rfl⟩, validated_is_valid ParameterSet.declared_booking ParameterSet.flagsBoolean_booking
    hresolve hpure hv (fun _ => hsound) ⟨0, rfl⟩⟩

end Plan

end ArgGuard
