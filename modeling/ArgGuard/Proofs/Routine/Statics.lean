/-
  ArgGuard.Proofs.Routine.Statics — what a static default may be.

  A default that is given as a function is a factory. Any other is coerced, and refused if it
  is an object or a list then (`settleDefault_eq_ok`). So a static default is a
  primitive value, or a function that the coercion made (`ParameterSet.static_default`), and
  all results of calls that leave the parameter out hold that one value
  (`Validator.static_shared`). The test lets functions through, so such a default can be
  shared (`Validator.function_shared`).
-/

import ArgGuard.Proofs.Descriptor
import ArgGuard.Proofs.Routine.Slots

namespace ArgGuard

open Call

variable {σ : Type} {env : Surroundings σ}

/-! ## Sets that were read -/

theorem Value.isPrimitive_iff {v : Value} :
    v.isPrimitive = true ↔ v.isObject = false ∧ v.isList = false ∧ v.isFunction = false := by
  cases v <;> simp [isPrimitive, isObject, isList, isFunction]

namespace ParameterSet

/-- The default of a parameter is a factory exactly if it was given as a function. A static
default is no object and no list; if it is a function, it was not given but made by coercion. -/
theorem static_default {v : Value} {set : ParameterSet σ} {s s' : σ}
    (h : start (read env (.value v)) s = (.ok set, s')) {i : Nat} {p : ParameterSpec σ} (hi : set.specs[i]? = some p) :
    ∃ d, (definitions v)[i]? = some (some d) ∧
      ((∃ f make, p.default = .factory f make) ↔ (d.get "default").isFunction = true) ∧
      ∀ w, p.default = .value w → w.isPrimitive = true ∨
        (w.isFunction = true ∧ (d.get "default").isFunction = false ∧ Returns (p.type.coerced (d.get "default")) w) := by
  obtain ⟨_, _, heach⟩ := read_eq_ok h
  obtain ⟨d, t, t', hd, hp⟩ := heach i p hi
  refine ⟨d, hd, ?_⟩
  obtain ⟨name, type, default, rfl, _, _, _, _, ⟨hu, rfl⟩ | ⟨_, t, hsettled⟩⟩ := ofDefinition_eq_ok hp
  · have hgiven : (d.get "default").isFunction = false := by rw [Value.eq_undefined hu]; rfl
    simp [hgiven]
  rcases settleDefault_eq_ok hsettled with ⟨hgiven, f, rfl⟩ | ⟨hgiven, w, rfl, hobject, hlist, hcoerced, _⟩
  · simp [hgiven]
  · refine ⟨by simp [hgiven], fun w' hw' => ?_⟩
    cases hw'
    cases hfunction : w.isFunction with
    | true => exact .inr ⟨rfl, hgiven, hcoerced⟩
    | false => exact .inl (Value.isPrimitive_iff.mpr ⟨hobject, hlist, hfunction⟩)

end ParameterSet

/-! ## Calls that leave the parameter out -/

namespace Validator

/-- A static default is a primitive value, or a function that the coercion made of a default
that was none, and a default that is given as a function is a factory. Every result of a
call without the argument holds the static default itself. -/
theorem static_shared {v : Value} {set : ParameterSet σ} {s s' : σ}
    (hread : start (ParameterSet.read env (.value v)) s = (.ok set, s')) {i : Nat} {p : ParameterSpec σ}
    (hi : set.specs[i]? = some p) :
    ∃ d, (ParameterSet.definitions v)[i]? = some (some d) ∧
      ((∃ f make, p.default = .factory f make) ↔ (d.get "default").isFunction = true) ∧
      ∀ w, p.default = .value w →
        (w.isPrimitive = true ∨ w.isFunction = true ∧ (d.get "default").isFunction = false ∧
          Returns (p.type.coerced (d.get "default")) w) ∧
        ∀ {given : Value} {o : Options σ} {descriptor : String} {validator : Validator σ},
          Options.resolve env given = .ok o → Returns (compile env set o descriptor) validator →
          ∀ {args out : Value}, p.supplied? o args = none → Returns (validator.validate args) out →
            p.held? o out = o.outputMode.holds? false w := by
  have hset : set.Declared env := ⟨v, s, s', hread⟩
  have hp : p ∈ set.specs := List.mem_of_getElem? hi
  obtain ⟨d, hd, hfactory, hstatic⟩ := ParameterSet.static_default hread hi
  refine ⟨d, hd, hfactory, fun w hw => ⟨hstatic w hw, ?_⟩⟩
  intro given o descriptor validator ho hv args out habsent hout
  obtain ⟨u, hgets, hheld⟩ := held_unless_made hset ho hv hout hp (.inr (by simp [hw]))
  cases hgets with
  | static _ hdefault =>
    cases hdefault.symm.trans hw
    exact hheld
  | supplied hsupplied => cases habsent.symm.trans hsupplied
  | made _ hdefault => cases hw.symm.trans hdefault
  | nothing _ hdefault => cases hw.symm.trans hdefault

end Validator

/-! ## A count that may be left out -/

/-- A count that is `few` unless it is given. -/
def countOrFew (type : Capability Nat) : Value :=
  .ofItems [.record [("name", .text "count"), ("type", type.toValue), ("default", .text "few")]]

/-- What it is read as where the coercion makes `w` of the default. -/
def ParameterSet.countOr (type : Capability Nat) (w : Value) : ParameterSet Nat :=
  ⟨[⟨"count", 0, type, .bool false, .value w⟩]⟩

def Capability.words : Capability Nat := Scalar.str.capability 1

theorem Validator.static_shared_few : ∃ (p : ParameterSpec Nat) (validator : Validator Nat) (out : Value),
    start (ParameterSet.read (.knowing Capability.words) (.value (countOrFew Capability.words))) 0
      = (.ok (.countOr Capability.words (.text "few")), 0) ∧
    p.default = .value (.text "few") ∧ p.supplied? .lenient (.record []) = none ∧
    Returns (compile (.knowing Capability.words) (.countOr Capability.words (.text "few")) .lenient "") validator ∧
    Returns (validator.validate (.record [])) out ∧ p.held? .lenient out = some (.text "few") := by
  have hread : start (ParameterSet.read (.knowing Capability.words) (.value (countOrFew Capability.words))) 0
      = (.ok (.countOr Capability.words (.text "few")), 0) := rfl
  have ho : Options.resolve (.knowing Capability.words) (.record [("strict", .bool false)]) = .ok .lenient := rfl
  obtain ⟨validator, out, hv, hout⟩ : ∃ validator out,
      Returns (compile (.knowing Capability.words) (.countOr Capability.words (.text "few")) .lenient "") validator ∧
      Returns (validator.validate (.record [])) out := ⟨_, _, ⟨0, rfl⟩, ⟨0, rfl⟩⟩
  obtain ⟨_, _, _, hstatic⟩ := static_shared hread (i := 0) rfl
  exact ⟨_, validator, out, hread, rfl, rfl, hv, hout, (hstatic _ rfl).2 ho hv rfl hout⟩

/-- Anything, and a coercion that makes a function of it. -/
def Capability.callbacks : Capability Nat :=
  { Scalar.any.capability 1 with coerce? := some fun _ => pure (.function 3 []) }

/-- The text becomes a function that is stored as it is, and all calls share it. -/
theorem Validator.function_shared : ∃ validator : Validator Nat,
    start (ParameterSet.read (.knowing Capability.callbacks) (.value (countOrFew Capability.callbacks))) 0
      = (.ok (.countOr Capability.callbacks (.function 3 [])), 0) ∧
    ¬ (ParameterSet.countOr Capability.callbacks (.function 3 [])).StaticsPrimitive ∧
    Returns (compile (.knowing Capability.callbacks)
      (.countOr Capability.callbacks (.function 3 [])) .lenient "") validator ∧
    ∀ n, (start (validator.validate (.record [])) n).1 = .ok (.record [("count", .function 3 [])]) := by
  refine ⟨_, rfl, fun hprimitive => ?_, ⟨0, rfl⟩, fun _ => rfl⟩
  cases hprimitive _ List.mem_cons_self _ rfl

end ArgGuard
