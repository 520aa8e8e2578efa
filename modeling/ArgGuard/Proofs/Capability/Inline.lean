/-
  ArgGuard.Proofs.Capability.Inline — an inline form against the check it stands for.

  A fragment decides a capability when the check is a function of the value and the fragment
  computes whether it passes (`Decides`). Every scalar is decided by its fragment
  (`decides_scalar`), an enumeration without a NaN by its comparisons (`decides_enumeration`);
  lists, `maybe`, unions and numerals are decided by what they make of the fragments of their
  members (`decides_arrayOf`, `decides_maybe`, `decides_union`, `decides_numeric`).
-/

import ArgGuard.Capability.Combine
import ArgGuard.Capability.Numeric
import ArgGuard.Capability.Scalar
import Mathlib.Data.List.Forall2

namespace ArgGuard

open Call

variable {σ : Type}

namespace Capability

/-- The check gives every value a verdict, in any state, and the fragment holds of what passes. -/
def Decides (f : Fragment) (c : Capability σ) : Prop :=
  f.wellFormed = true ∧ ∀ v, ∃ r, c.check v = pure r ∧ f.holds v = .ok r.isPassed

theorem decides_ofTest {f : Fragment} (id : Nat) (name : String) (test : Value → Bool) (reason : Value → String)
    (inline? : Option Fragment) (coerce? : Option (Value → Value)) (hw : f.wellFormed = true)
    (h : ∀ v, f.holds v = .ok (test v)) : Decides f (ofTest id name test reason inline? coerce? : Capability σ) := by
  refine ⟨hw, fun v => ⟨if test v then .passed else .rejected (reason v), rfl, ?_⟩⟩
  rw [h v]
  cases test v <;> rfl

end Capability

/-! ## Scalars -/

theorem Text.unitLength_pos {s : String} : 0 < Text.unitLength s ↔ s ≠ "" := by
  have hchar : ∀ c, Text.charUnits c ≠ [] := by
    intro c
    unfold Text.charUnits
    simp only
    split <;> simp
  constructor
  · rintro h rfl
    simp [Text.unitLength, Text.units] at h
  · intro h
    rcases hs : s.toList with _ | ⟨c, cs⟩
    · exact absurd (String.toList_eq_nil_iff.mp hs) h
    · have := List.length_pos_iff.mpr (hchar c)
      simp only [Text.unitLength, Text.units, hs, List.flatMap_cons, List.length_append]
      omega

namespace Capability

open Fragment in
/-- Number tests and comparisons with zero are false of what is no number. -/
theorem holds_scalar (s : Scalar) (v : Value) : s.fragment.holds v = .ok (s.accepts v) := by
  cases s with
  | nonEmptyStr =>
    cases v with
    | text s =>
      have : decide (0 < Text.unitLength s) = (s != "") := by
        by_cases hs : s = "" <;> simp [Text.unitLength_pos, hs]
      simp only [Scalar.accepts, this]
      rfl
    | _ => rfl
  | positiveInt =>
    cases v with
    | number x =>
      cases hx : x.isInteger <;> simp [Scalar.fragment, Scalar.accepts, holds, Scalar.ofNumber, compareZero, hx,
        bind, Except.bind]
    | _ => rfl
  | positiveOrZeroInt =>
    cases v with
    | number x =>
      cases hx : x.isInteger <;> simp [Scalar.fragment, Scalar.accepts, holds, Scalar.ofNumber, compareZero, hx,
        bind, Except.bind]
    | _ => rfl
  | _ => cases v <;> rfl

theorem wellFormed_scalar (s : Scalar) : s.fragment.wellFormed = true := by cases s <;> rfl

theorem decides_scalar (s : Scalar) (id : Nat) : Decides s.fragment (s.capability id : Capability σ) :=
  decides_ofTest id _ _ _ _ _ (wellFormed_scalar s) (holds_scalar s)

/-! ## Connectives -/

theorem holds_either {f g : Fragment} {v : Value} {a b : Bool} (hf : f.holds v = .ok a) (hg : g.holds v = .ok b) :
    (Fragment.either f g).holds v = .ok (a || b) := by
  simp only [Fragment.holds, hf, bind, Except.bind]
  cases a
  · exact hg
  · rfl

/-! ## Enumerations -/

/-- What may be listed: texts, numbers, booleans and null. -/
inductive Constant where
  | text (s : String)
  | number (x : Number)
  | bool (b : Bool)
  | null

namespace Constant

def value : Constant → Value
  | .text s => .text s
  | .number x => .number x
  | .bool b => .bool b
  | .null => .null

def isNaN : Constant → Bool
  | .number x => x.isNaN
  | _ => false

end Constant

theorem number_eq_comm (x y : Number) : x.eq y = y.eq x := by
  cases x <;> cases y <;> first | rfl | exact Bool.beq_comm

/-- A listed value other than a NaN is the same as a value when that is identical to it. -/
theorem sameValueZero_constant {k : Constant} (hk : k.isNaN = false) (v : Value) :
    k.value.sameValueZero v = v.identical k.value := by
  cases k with
  | number x =>
    have hx : x.isNaN = false := hk
    cases v with
    | number y => simp [Constant.value, Value.sameValueZero, Value.identical, hx, number_eq_comm x y]
    | _ => rfl
  | text s =>
    cases v with
    | text t => simp [Constant.value, Value.sameValueZero, Value.identical, Bool.beq_comm]
    | _ => rfl
  | bool b =>
    cases v with
    | bool t => simp [Constant.value, Value.sameValueZero, Value.identical, Bool.beq_comm]
    | _ => rfl
  | null => cases v <;> rfl

theorem holdsNaN_values (ks : List Constant) : Enumeration.holdsNaN (ks.map (·.value)) = ks.any (·.isNaN) := by
  simp only [Enumeration.holdsNaN, List.any_map]
  congr 1
  funext k
  cases k <;> rfl

/-- Each comparison denotes the listed value itself. -/
theorem holds_comparison (k : Constant) (v : Value) :
    (Fragment.equals (Enumeration.piece k.value) (Enumeration.meaning k.value)).holds v
      = .ok (v.identical k.value) := by
  cases k <;> rfl

theorem wellFormed_comparison (k : Constant) :
    (Fragment.equals (Enumeration.piece k.value) (Enumeration.meaning k.value)).wellFormed = true := by
  cases k <;> rfl

theorem holds_comparisons (k : Constant) (ks : List Constant) (v : Value) :
    (Enumeration.comparisons k.value (ks.map (·.value))).holds v
      = .ok ((k :: ks).any fun k => v.identical k.value) := by
  induction ks generalizing k with
  | nil => simpa [Enumeration.comparisons] using holds_comparison k v
  | cons l ls ih => exact holds_either (holds_comparison k v) (ih l)

theorem wellFormed_comparisons (k : Constant) (ks : List Constant) :
    (Enumeration.comparisons k.value (ks.map (·.value))).wellFormed = true := by
  induction ks generalizing k with
  | nil => exact wellFormed_comparison k
  | cons l ls ih => simpa [Enumeration.comparisons, Fragment.wellFormed] using ⟨wellFormed_comparison k, ih l⟩

/-- Values without a NaN are listed in an inline form by their comparisons. -/
theorem holds_enumeration {ks : List Constant} (h : ks.any (·.isNaN) = false) (v : Value) :
    (Enumeration.fragment (ks.map (·.value))).holds v
      = .ok ((ks.map (·.value)).any fun candidate => candidate.sameValueZero v) := by
  have hany : ((ks.map (·.value)).any fun candidate => candidate.sameValueZero v)
      = ks.any fun k => v.identical k.value := by
    rw [List.any_map, Bool.eq_iff_iff, List.any_eq_true, List.any_eq_true]
    refine exists_congr fun k => and_congr_right fun hk => ?_
    rw [Function.comp_apply, sameValueZero_constant (by simpa using List.any_eq_false.mp h k hk)]
  rw [hany]
  cases ks with
  | nil => rfl
  | cons k ks => exact holds_comparisons k ks v

theorem wellFormed_enumeration (ks : List Constant) :
    (Enumeration.fragment (ks.map (·.value))).wellFormed = true := by
  cases ks with
  | nil => rfl
  | cons k ks => exact wellFormed_comparisons k ks

theorem literal?_values (ks : List Constant) :
    ∃ texts, (ks.map (·.value)).mapM Enumeration.literal? = some texts := by
  induction ks with
  | nil => exact ⟨[], rfl⟩
  | cons k ks ih =>
    obtain ⟨texts, ht⟩ := ih
    have hk : ∃ text, Enumeration.literal? k.value = some text := by cases k <;> exact ⟨_, rfl⟩
    obtain ⟨text, hk⟩ := hk
    exact ⟨text :: texts, by simp [hk, ht]⟩

/-- Listing constants never fails, and all but a NaN have a comparison. -/
theorem enumeration_eq (id : Nat) (ks : List Constant) (name? : Option String) :
    ∃ c : Capability σ, Enumeration.capability id (ks.map (·.value)) name? = .ok c ∧
      c.inline? = if ks.any (·.isNaN) then none else some (Enumeration.fragment (ks.map (·.value))) := by
  obtain ⟨texts, ht⟩ := literal?_values ks
  simp only [Enumeration.capability, ht, holdsNaN_values]
  exact ⟨_, rfl, rfl⟩

theorem decides_enumeration {id : Nat} {ks : List Constant} {name? : Option String} {c : Capability σ}
    (h : ks.any (·.isNaN) = false) (hc : Enumeration.capability id (ks.map (·.value)) name? = .ok c) :
    Decides (Enumeration.fragment (ks.map (·.value))) c := by
  obtain ⟨texts, ht⟩ := literal?_values ks
  simp only [Enumeration.capability, ht] at hc
  cases hc
  exact decides_ofTest id _ _ _ _ _ (wellFormed_enumeration ks) (holds_enumeration h)

/-! ## Lists -/

/-- Both readings of a list skip its holes and stop at the first item that fails. -/
theorem checkItems_everyItem {f : Fragment} {item : Capability σ} (h : Decides f item) (i : Nat)
    (items : List (Option Value)) : ∃ r, checkItems item.check i items = pure r ∧
      Fragment.everyItem (fun v => f.holds v) items = .ok r.isPassed := by
  induction items generalizing i with
  | nil => exact ⟨.passed, rfl, rfl⟩
  | cons o items ih =>
    obtain ⟨r, hcheck, hholds⟩ := ih (i + 1)
    cases o with
    | none => exact ⟨r, hcheck, hholds⟩
    | some v =>
      obtain ⟨here, hv, hf⟩ := h.2 v
      simp only [checkItems, Fragment.everyItem, hv, hf, bind, Except.bind]
      cases here with
      | passed => exact ⟨r, hcheck, hholds⟩
      | rejected reason => exact ⟨_, rfl, rfl⟩

theorem decides_arrayOf {f : Fragment} {item : Capability σ} (h : Decides f item) (id : Nat) :
    Decides (.group (.both .isList (.every f))) (arrayOf id item) := by
  refine ⟨by simpa [Fragment.wellFormed] using h.1, fun v => ?_⟩
  cases v with
  | list items =>
    obtain ⟨r, hcheck, hholds⟩ := checkItems_everyItem h 0 items
    exact ⟨r, hcheck, hholds⟩
  | _ => exact ⟨_, rfl, rfl⟩

/-! ## Choices -/

theorem decides_maybe {f : Fragment} {inner : Capability σ} (h : Decides f inner) (id : Nat) :
    Decides (.group (.either .isNull (.either .isUndefined (.group f)))) (maybe id inner) := by
  refine ⟨by simpa [Fragment.wellFormed] using h.1, fun v => ?_⟩
  obtain ⟨r, hcheck, hholds⟩ := h.2 v
  cases v with
  | undefined => exact ⟨.passed, rfl, rfl⟩
  | null => exact ⟨.passed, rfl, rfl⟩
  | _ => exact ⟨r, hcheck, hholds⟩

/-- Members are tried in the order of their fragments. -/
theorem tryEach_alternatives {f : Fragment} {fs : List Fragment} {c : Capability σ} {cs : List (Capability σ)}
    (h : Decides f c) (hs : List.Forall₂ Decides fs cs) (v : Value) (reasons : List String) :
    ∃ r, Union.tryEach v (c :: cs) reasons = pure r ∧ (Union.alternatives f fs).holds v = .ok r.isNone := by
  obtain ⟨here, hv, hf⟩ := h.2 v
  induction hs generalizing f c here reasons with
  | nil =>
    simp only [Union.tryEach, Union.alternatives, Fragment.holds, hv, hf, pure_bind]
    cases here <;> exact ⟨_, rfl, rfl⟩
  | cons hg hrest ih =>
    simp only [Union.tryEach, Union.alternatives, Fragment.holds, hv, hf, bind, Except.bind]
    cases here with
    | passed => exact ⟨_, rfl, rfl⟩
    | rejected reason =>
      obtain ⟨next, hv', hf'⟩ := hg.2 v
      exact ih hg _ next hv' hf'

theorem wellFormed_alternatives {f : Fragment} {fs : List Fragment} (h : f.wellFormed = true)
    (hs : ∀ g ∈ fs, g.wellFormed = true) : (Union.alternatives f fs).wellFormed = true := by
  induction fs generalizing f with
  | nil => exact h
  | cons g gs ih =>
    have := ih (hs g List.mem_cons_self) fun g hg => hs g (List.mem_cons_of_mem _ hg)
    simpa [Union.alternatives, Fragment.wellFormed] using ⟨h, this⟩

theorem wellFormed_of_forall₂ {fs : List Fragment} {cs : List (Capability σ)} (h : List.Forall₂ Decides fs cs) :
    ∀ g ∈ fs, g.wellFormed = true := by
  induction h with
  | nil => simp
  | cons hg _ ih => exact List.forall_mem_cons.mpr ⟨hg.1, ih⟩

theorem Union.capability_eq {members : List (Capability σ)} {id : Nat} {u : Capability σ}
    (hu : capability id members = .ok u) : u.coerce? = none ∧ u.inline? = fragment? members ∧ ∀ v, u.check v = (do
      match ← tryEach v members [] with
      | none => pure .passed
      | some reasons => pure (.rejected ("matched none of " ++ names members ++ " ("
          ++ String.intercalate "; " reasons ++ ")"))) := by
  unfold capability at hu
  split at hu
  · cases hu
  · cases hu
    exact ⟨rfl, rfl, fun _ => rfl⟩

theorem decides_union {f : Fragment} {fs : List Fragment} {cs : List (Capability σ)} {u : Capability σ} {id : Nat}
    (h : List.Forall₂ Decides (f :: fs) cs) (hu : Union.capability id cs = .ok u) :
    Decides (.group (Union.alternatives f fs)) u := by
  cases h with
  | cons hc hs =>
  cases hu
  refine ⟨wellFormed_alternatives hc.1 (wellFormed_of_forall₂ hs), fun v => ?_⟩
  obtain ⟨r, htry, hholds⟩ := tryEach_alternatives hc hs v []
  simp only [htry, pure_bind]
  cases r <;> exact ⟨_, rfl, hholds⟩

theorem decides_numeric {f : Fragment} {inner : Capability σ} (h : Decides f inner) (id : Nat) :
    Decides f (Numeric.wrap id inner) := h

end Capability

end ArgGuard
