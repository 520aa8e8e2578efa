/-
  ArgGuard.Proofs.Spec.Declared — what reading a set of parameters establishes.

  A set that was read from a value (`ParameterSet.Declared`) has parameters that are sound:
  none is required by a flag and has a default as well, and a static default is a value that
  its own type accepted when the definition was read (`ParameterSpec.Sound`). Positions
  count the parameters and names are distinct (`declared_sound`). Calls never look at
  definitions again, so these are all that later arguments about a routine may use.
-/

import ArgGuard.Proofs.Call
import ArgGuard.Capability.Scalar
import ArgGuard.Spec.Set

namespace ArgGuard

open Call

variable {σ : Type} {env : Surroundings σ}

/-- What one definition that was read guarantees. -/
structure ParameterSpec.Sound (env : Surroundings σ) (p : ParameterSpec σ) : Prop where
  name_ne : p.name ≠ "" ∧ p.name ≠ ParameterSpec.reservedName
  /-- A parameter that is required by its flag has no default. -/
  required : p.required = .bool true → p.default = .none
  /-- A static default is no object, was accepted by the type and is what was given unless
  the type coerces. -/
  static : ∀ v, p.default = .value v → v.isObject = false ∧ v.isList = false ∧
    Returns (p.type.check v) .passed ∧ (p.type.coerce? = none → v.isUndefined = false)
  factory : ∀ f m, p.default = .factory f m → m = env.run f []

namespace ParameterSet

/-- Sets that were read from a value. -/
def Declared (env : Surroundings σ) (set : ParameterSet σ) : Prop :=
  ∃ v s s', start (read env (.value v)) s = (.ok set, s')

/-- The definitions that a value gives: its items, or its entries under their keys. -/
def definitions : Value → List (Option Value)
  | .list items => items
  | v => v.entries.map fun e => some (named e.1 e.2)

/-- Sets whose flags are booleans: each was left out or given as one. -/
def FlagsBoolean (set : ParameterSet σ) : Prop := ∀ p ∈ set.specs, ∃ b, p.required = .bool b

end ParameterSet

/-! ## One definition -/

/-- A default that is a function becomes a factory, any other a static default: what coercion
made of it, which is no container and was accepted. -/
theorem settleDefault_eq_ok {name : String} {position : Nat} {type : Capability σ} {given : Value}
    {s s' : σ} {d : Default σ}
    (h : start (ParameterSpec.settleDefault env name position type given) s = (.ok d, s')) :
    (given.isFunction = true ∧ ∃ f, d = .factory f (env.run f [])) ∨
    (given.isFunction = false ∧ ∃ w, d = .value w ∧ w.isObject = false ∧ w.isList = false ∧
      Returns (type.coerced given) w ∧ Returns (type.check w) .passed) := by
  unfold ParameterSpec.settleDefault at h
  split at h
  · cases h
    exact .inl ⟨rfl, _, rfl⟩
  rename_i hgiven
  obtain ⟨w, s₁, hw, h⟩ := start_bind_eq_ok h
  split at h
  · cases h
  rename_i hcontainer
  obtain ⟨r, s₂, hr, h⟩ := start_bind_eq_ok h
  cases r with
  | rejected reason => cases h
  | passed =>
    cases h
    obtain ⟨hobject, hlist⟩ : w.isObject = false ∧ w.isList = false := by simpa using hcontainer
    refine .inr ⟨?_, w, rfl, hobject, hlist, returns_of_start hw, returns_of_start hr⟩
    cases given with
    | function f own => exact absurd rfl (hgiven f own)
    | _ => rfl

/-- A static default is what is left after coercion, and was accepted. -/
theorem settleDefault_sound {name : String} {position : Nat} {type : Capability σ} {given : Value} {s s' : σ}
    {d : Default σ} (hg : given.isUndefined = false)
    (h : start (ParameterSpec.settleDefault env name position type given) s = (.ok d, s')) :
    (∀ v, d = .value v → v.isObject = false ∧ v.isList = false ∧ Returns (type.check v) .passed ∧
      (type.coerce? = none → v.isUndefined = false)) ∧ ∀ f m, d = .factory f m → m = env.run f [] := by
  rcases settleDefault_eq_ok h with ⟨_, f, rfl⟩ | ⟨_, w, rfl, hobject, hlist, hcoerced, hpassed⟩
  · refine ⟨fun _ h => (nomatch h), fun f m h => ?_⟩
    cases h
    rfl
  · refine ⟨fun v hv => ?_, fun _ _ h => (nomatch h)⟩
    cases hv
    refine ⟨hobject, hlist, hpassed, fun hc => ?_⟩
    rw [Capability.coerced, hc] at hcoerced
    cases returns_pure hcoerced
    exact hg

theorem identical_true {v : Value} : v.identical (.bool true) = true ↔ v = .bool true := by
  cases v <;> simp [Value.identical]

/-- The flag of a definition: the one given, or the one that follows from the rest. -/
def requiredFlag (definition : Value) : Value :=
  if (definition.get "required").isAbsent
    then .bool !((definition.get "optional").identical (.bool true) || !(definition.get "default").isUndefined)
    else definition.get "required"

/-- What is read of a definition: nothing of one that is absent, a fault where it fails a test, and
else a parameter whose default is still to be settled if there is one. -/
theorem ofDefinition_cases (env : Surroundings σ) (definition : Value) (i : Nat) :
    (definition.isAbsent = true ∧ ParameterSpec.ofDefinition env definition i = Call.fail .misuse) ∨
    (∃ f, ParameterSpec.ofDefinition env definition i = Call.fail (.definition f)) ∨
    ∃ name type, env.capability? (definition.get "type") = some type ∧ name ≠ "" ∧ name ≠ ParameterSpec.reservedName ∧
      ¬((definition.get "required").identical (.bool true) && !(definition.get "default").isUndefined) = true ∧
      ((definition.get "default").isUndefined = true ∧
          ParameterSpec.ofDefinition env definition i = pure ⟨name, i, type, requiredFlag definition, .none⟩ ∨
        (definition.get "default").isUndefined = false ∧ ParameterSpec.ofDefinition env definition i = (do
          let default ← ParameterSpec.settleDefault env name i type (definition.get "default")
          pure ⟨name, i, type, requiredFlag definition, default⟩)) := by
  unfold ParameterSpec.ofDefinition
  split
  · rename_i habsent
    exact .inl ⟨habsent, rfl⟩
  refine .inr ?_
  split
  case h_2 => exact .inl ⟨_, rfl⟩
  rename_i name _
  simp only
  split
  · exact .inl ⟨_, rfl⟩
  rename_i hname
  split
  · exact .inl ⟨_, rfl⟩
  rename_i hreserved
  split
  · exact .inl ⟨_, rfl⟩
  rename_i type htype
  split
  · exact .inl ⟨_, rfl⟩
  split
  · exact .inl ⟨_, rfl⟩
  rename_i hflag
  refine .inr ⟨name, type, htype, hname, hreserved, hflag, ?_⟩
  split
  · rename_i hu
    exact .inl ⟨hu, rfl⟩
  · rename_i hu
    exact .inr ⟨Bool.eq_false_iff.mpr hu, rfl⟩

/-- A definition that is read has passed every test, and its default was settled if it has one. -/
theorem ofDefinition_eq_ok {definition : Value} {i : Nat} {s s' : σ} {p : ParameterSpec σ}
    (h : start (ParameterSpec.ofDefinition env definition i) s = (.ok p, s')) :
    ∃ name type d, p = ⟨name, i, type, requiredFlag definition, d⟩ ∧ env.capability? (definition.get "type") = some type ∧
      name ≠ "" ∧ name ≠ ParameterSpec.reservedName ∧
      ¬((definition.get "required").identical (.bool true) && !(definition.get "default").isUndefined) = true ∧
      ((definition.get "default").isUndefined = true ∧ d = .none ∨ (definition.get "default").isUndefined = false ∧
        ∃ t, start (ParameterSpec.settleDefault env name i type (definition.get "default")) s = (.ok d, t)) := by
  rcases ofDefinition_cases env definition i with ⟨_, hread⟩ | ⟨f, hread⟩ |
    ⟨name, type, htype, hname, hreserved, hflag, ⟨hu, hread⟩ | ⟨hu, hread⟩⟩ <;> rw [hread] at h
  · cases h
  · cases h
  · cases h
    exact ⟨name, type, .none, rfl, htype, hname, hreserved, hflag, .inl ⟨hu, rfl⟩⟩
  · obtain ⟨d, t, hd, h⟩ := start_bind_eq_ok h
    cases h
    exact ⟨name, type, d, rfl, htype, hname, hreserved, hflag, .inr ⟨hu, _, hd⟩⟩

theorem ofDefinition_type {definition : Value} {i : Nat} {s s' : σ} {p : ParameterSpec σ}
    (h : start (ParameterSpec.ofDefinition env definition i) s = (.ok p, s')) :
    env.capability? (definition.get "type") = some p.type := by
  obtain ⟨name, type, d, rfl, htype, _⟩ := ofDefinition_eq_ok h
  exact htype

theorem ofDefinition_sound {definition : Value} {i : Nat} {s s' : σ} {p : ParameterSpec σ}
    (h : start (ParameterSpec.ofDefinition env definition i) s = (.ok p, s')) : p.position = i ∧ p.Sound env := by
  obtain ⟨name, type, d, rfl, _, hname, hreserved, hdefault, none_or⟩ := ofDefinition_eq_ok h
  refine ⟨rfl, ⟨hname, hreserved⟩, fun hreq => ?_, ?_, ?_⟩
  · rcases none_or with ⟨_, hn⟩ | ⟨hu, _, _⟩
    · exact hn
    · -- the flag is either missing, and then there is no default, or it is the boolean itself
      exfalso
      simp only [requiredFlag] at hreq
      split at hreq
      · simp [hu] at hreq
      · simp [identical_true, hreq, hu] at hdefault
  · rcases none_or with ⟨_, rfl⟩ | ⟨hu, _, hs⟩
    · exact fun _ h => (nomatch h)
    · exact (settleDefault_sound hu hs).1
  · rcases none_or with ⟨_, rfl⟩ | ⟨hu, _, hs⟩
    · exact fun _ _ h => (nomatch h)
    · exact (settleDefault_sound hu hs).2

/-- A static default is what coercion made of the value in the definition, and was accepted. -/
theorem ofDefinition_static {definition : Value} {i : Nat} {s s' : σ} {p : ParameterSpec σ} {w : Value}
    (h : start (ParameterSpec.ofDefinition env definition i) s = (.ok p, s')) (hw : p.default = .value w) :
    Returns (p.type.coerced (definition.get "default")) w ∧ Returns (p.type.check w) .passed := by
  obtain ⟨name, type, d, rfl, _, _, _, _, ⟨_, rfl⟩ | ⟨_, t, hd⟩⟩ := ofDefinition_eq_ok h
  · cases hw
  cases hw
  rcases settleDefault_eq_ok hd with ⟨_, f, hfactory⟩ | ⟨_, u, hu, _, _, hcoerced, hpassed⟩
  · cases hfactory
  · cases hu
    exact ⟨hcoerced, hpassed⟩

/-- A definition that leaves its default undefined has none. -/
theorem ofDefinition_undefined {definition : Value} {i : Nat} {s s' : σ} {p : ParameterSpec σ}
    (h : start (ParameterSpec.ofDefinition env definition i) s = (.ok p, s'))
    (hu : (definition.get "default").isUndefined = true) : p.default = .none := by
  obtain ⟨name, type, d, rfl, _, _, _, _, ⟨_, rfl⟩ | ⟨hd, _⟩⟩ := ofDefinition_eq_ok h
  · rfl
  · cases hu.symm.trans hd

/-! ## All definitions -/

namespace ParameterSet

/-- A slot that is filled was read from the item in its place. -/
theorem readList_eq_ok {i : Nat} {items : List (Option Value)} {s s' : σ} {slots : List (Option (ParameterSpec σ))}
    (h : start (readList env i items) s = (.ok slots, s')) :
    ∀ k p, slots[k]? = some (some p) → ∃ d t t', items[k]? = some (some d) ∧
      start (ParameterSpec.ofDefinition env d (i + k)) t = (.ok p, t') := by
  induction items generalizing i s s' slots with
  | nil =>
    cases h
    intro k p hk
    simp at hk
  | cons o items ih =>
    cases o with
    | none =>
      obtain ⟨rest, s₁, hrest, h⟩ := start_bind_eq_ok h
      cases h
      intro k p hk
      cases k with
      | zero => simp at hk
      | succ k =>
        obtain ⟨d, t, t', hd, hp⟩ := ih hrest k p (by simpa using hk)
        exact ⟨d, t, t', hd, by rwa [show i + (k + 1) = i + 1 + k by omega]⟩
    | some d =>
      obtain ⟨q, s₁, hq, h⟩ := start_bind_eq_ok h
      obtain ⟨rest, s₂, hrest, h⟩ := start_bind_eq_ok h
      cases h
      intro k p hk
      cases k with
      | zero =>
        cases hk
        exact ⟨d, s, s₁, rfl, hq⟩
      | succ k =>
        obtain ⟨d, t, t', hd, hp⟩ := ih hrest k p (by simpa using hk)
        exact ⟨d, t, t', hd, by rwa [show i + (k + 1) = i + 1 + k by omega]⟩

theorem nodup_of_firstDuplicate? {seen : List String} {ps : List (ParameterSpec σ)}
    (h : firstDuplicate? seen ps = none) : (ps.map (·.name)).Nodup ∧ ∀ p ∈ ps, p.name ∉ seen := by
  induction ps generalizing seen with
  | nil => simp
  | cons p ps ih =>
    rw [firstDuplicate?] at h
    split at h
    · cases h
    rename_i hp
    obtain ⟨hnodup, hseen⟩ := ih h
    refine ⟨?_, ?_⟩
    · rw [List.map_cons, List.nodup_cons]
      refine ⟨fun hm => ?_, hnodup⟩
      obtain ⟨q, hq, he⟩ := List.mem_map.mp hm
      exact hseen q hq (he ▸ List.mem_cons_self)
    · intro q hq
      rcases List.mem_cons.mp hq with rfl | hq
      · simpa using hp
      · exact fun hm => hseen q hq (List.mem_cons_of_mem _ hm)

/-- What is collected is every slot, in order. -/
theorem collect_eq {slots : List (Option (ParameterSpec σ))} {set : ParameterSet σ} {s s' : σ}
    (h : start (collect slots) s = (.ok set, s')) : slots = set.specs.map some ∧ set.names.Nodup := by
  unfold collect at h
  simp only at h
  split at h
  · cases h
  rename_i hdup
  split at h
  · rename_i hlen
    cases h
    refine ⟨?_, (nodup_of_firstDuplicate? hdup).1⟩
    have hsome : ∀ l : List (Option (ParameterSpec σ)), (∀ o ∈ l, o.isSome = true) → l = (l.filterMap id).map some := by
      intro l
      induction l with
      | nil => simp
      | cons o l ih =>
        intro hl
        obtain ⟨p, rfl⟩ := Option.isSome_iff_exists.mp (hl o List.mem_cons_self)
        simpa using ih fun o ho => hl o (List.mem_cons_of_mem _ ho)
    have htake := hsome (slots.takeWhile (·.isSome)) fun o ho => List.all_eq_true.mp List.all_takeWhile o ho
    have : slots.takeWhile (·.isSome) = slots := by
      refine (List.takeWhile_prefix _).eq_of_length ?_
      rw [htake, List.length_map, hlen]
    rwa [this] at htake ⊢
  · cases h

/-- A value is refused as a whole, or its definitions are read. -/
theorem read_cases (env : Surroundings σ) (v : Value) :
    (∃ f, read env (.value v) = Call.fail (.definition f)) ∨
      read env (.value v) = (do collect (← readList env 0 (definitions v))) := by
  cases v with
  | list items => exact .inr rfl
  | object id kind own hidden inherited =>
    simp only [read, Value.isObject, if_true]
    split
    · exact .inl ⟨_, rfl⟩
    · exact .inr rfl
  | _ => exact .inl ⟨_, rfl⟩

/-- What was read from a value are its definitions, one by one. -/
theorem read_eq_ok {v : Value} {set : ParameterSet σ} {s s' : σ} (h : start (read env (.value v)) s = (.ok set, s')) :
    set.names.Nodup ∧ set.specs.length ≤ (definitions v).length ∧
      ∀ i (p : ParameterSpec σ), set.specs[i]? = some p → ∃ d t t', (definitions v)[i]? = some (some d) ∧
        start (ParameterSpec.ofDefinition env d i) t = (.ok p, t') := by
  rcases read_cases env v with ⟨f, hf⟩ | hread
  · rw [hf] at h
    cases h
  rw [hread] at h
  obtain ⟨slots, s₁, hslots, h⟩ := start_bind_eq_ok h
  obtain ⟨rfl, hnodup⟩ := collect_eq h
  have heach : ∀ i (p : ParameterSpec σ), set.specs[i]? = some p → ∃ d t t', (definitions v)[i]? = some (some d) ∧
      start (ParameterSpec.ofDefinition env d i) t = (.ok p, t') := by
    intro i p hi
    simpa using readList_eq_ok hslots i p (by simp [hi])
  refine ⟨hnodup, Nat.le_of_not_lt fun hlt => ?_, heach⟩
  obtain ⟨d, _, _, hd, _⟩ := heach _ _ (List.getElem?_eq_getElem hlt)
  rw [List.getElem?_eq_none (Nat.le_refl _)] at hd
  cases hd

/-- A set that was read has distinct names and sound parameters, and positions count them. -/
theorem declared_sound {set : ParameterSet σ} (h : Declared env set) :
    set.names.Nodup ∧ ∀ i (p : ParameterSpec σ), set.specs[i]? = some p → p.position = i ∧ p.Sound env := by
  obtain ⟨v, s, s', h⟩ := h
  obtain ⟨hnodup, _, heach⟩ := read_eq_ok h
  refine ⟨hnodup, fun i p hi => ?_⟩
  obtain ⟨d, t, t', _, hp⟩ := heach i p hi
  exact ofDefinition_sound hp

theorem sound_of_mem {set : ParameterSet σ} (h : Declared env set) {p : ParameterSpec σ} (hp : p ∈ set.specs) :
    p.Sound env := by
  obtain ⟨i, hi⟩ := List.mem_iff_getElem?.mp hp
  exact ((declared_sound h).2 i p hi).2

/-- Under boolean flags a required parameter has no default. -/
theorem required_default {set : ParameterSet σ} (h : Declared env set) (hf : set.FlagsBoolean)
    {p : ParameterSpec σ} (hp : p ∈ set.specs) (hr : p.isRequired = true) : p.default = .none := by
  obtain ⟨b, hb⟩ := hf p hp
  cases b with
  | true => exact (sound_of_mem h hp).required hb
  | false => simp [ParameterSpec.isRequired, hb, Value.truthy] at hr

end ParameterSet

/-! ## A small set

  A seat that has to be given, and whether it is at the aisle, which alternates from booking
  to booking unless it is given. -/

/-- Function `1` says of every other run that it is so. -/
def Surroundings.alternating : Surroundings Nat where
  run f _ := fun n => if f = 1 then (.ok (.bool (n % 2 = 0)), n + 1) else (.error .misuse, n)
  known
    | 1 => some (Capability.Scalar.nonEmptyStr.capability 1)
    | 2 => some (Capability.Scalar.bool.capability 2)
    | _ => none
  warn _ := pure ()
  debugByDefault := false
  refusal? := none
  identities _ := .initial
  withIdentities _ n := n

namespace ParameterSet

/-- Of two parameters each has what both have. -/
theorem forall_pair {p q : ParameterSpec σ} {P : ParameterSpec σ → Prop} (hp : P p) (hq : P q) :
    ∀ r ∈ (⟨[p, q]⟩ : ParameterSet σ).specs, P r := by
  intro r hr
  rcases List.mem_cons.mp hr with rfl | hr
  · exact hp
  · cases List.mem_singleton.mp hr
    exact hq

def booking : ParameterSet Nat where
  specs := [⟨"seat", 0, Capability.Scalar.nonEmptyStr.capability 1, .bool true, .none⟩,
    ⟨"aisle", 1, Capability.Scalar.bool.capability 2, .bool false, .factory 1 (Surroundings.alternating.run 1 [])⟩]

def bookingDefinitions : Value :=
  .ofItems [
    .record [("name", .text "seat"),
      ("type", (Capability.Scalar.nonEmptyStr.capability 1 : Capability Nat).toValue)],
    .record [("name", .text "aisle"), ("type", (Capability.Scalar.bool.capability 2 : Capability Nat).toValue),
      ("default", .function 1 [])]]

theorem declared_booking : booking.Declared .alternating := ⟨bookingDefinitions, 0, 0, rfl⟩

theorem flagsBoolean_booking : booking.FlagsBoolean := forall_pair ⟨_, rfl⟩ ⟨_, rfl⟩

end ParameterSet

end ArgGuard
