/-
  ArgGuard.Proofs.Capability.Stock — what every stock capability guarantees to a call.

  Whatever the stock library makes of pure predicates, and of schemas that a compiler from
  outside validates purely (`SchemaCompiler.Pure`), gives the same result for the same value
  and coerces nothing but numbers as text, however it is composed
  (`TypeExpr.stock_build`); so a value that was coerced is coerced to itself
  (`Stock.coerced_again`). An inline form computes what the check it stands for says
  (`TypeExpr.formDecides_build`), and nothing but a predicate or what a schema was compiled to
  stops a check with an error (`TypeExpr.raises_build`).
-/

import ArgGuard.Proofs.Capability.Expression
import ArgGuard.Proofs.Routine.Answers

namespace ArgGuard

open Call

variable {σ : Type}

namespace SchemaCompiler

/-- Validating by a schema is pure: it comes to the same for the same value, and leaves the
value as it was. Of validating that changes the value in place, a verdict tells only half. -/
structure Pure (compiler : SchemaCompiler σ) (schema : Value) : Prop where
  repeatable : ∀ validate, compiler.compile schema = .ok validate → ∀ v, Call.Repeatable (validate v)
  untouched : ∀ validate, compiler.compile schema = .ok validate → ∀ v r, Returns (validate v) r → r.left = v
  errorsText : ∀ errors, Call.Repeatable (compiler.errorsText errors)

/-- An error that validating by a schema stops with. -/
inductive Raises (compiler : SchemaCompiler σ) (schema : Value) (t : Thrown) : Prop
  | validate {validate : CompiledSchema σ} {v : Value} (hc : compiler.compile schema = .ok validate)
      (h : Stops (validate v) t)
  | errorsText {errors : Value} (h : Stops (compiler.errorsText errors) t)

end SchemaCompiler

/-- The compiler of the schemas that can be read here is pure. -/
theorem Schema.pure_compiler (all : Bool) (schema : Value) : (compiler all : SchemaCompiler σ).Pure schema := by
  have hvalidate : ∀ validate, (compiler all : SchemaCompiler σ).compile schema = .ok validate → ∀ v,
      ∃ valid errors, validate v = pure ⟨valid, errors, v⟩ := by
    intro validate h v
    simp only [compiler] at h
    split at h
    · cases h
    · cases h
      exact ⟨_, _, rfl⟩
  refine ⟨fun validate h v => ?_, fun validate h v r hr => ?_, fun errors => (Always.pure _).repeatable⟩
  · obtain ⟨_, _, hv⟩ := hvalidate validate h v
    rw [hv]
    exact (Always.pure _).repeatable
  · obtain ⟨_, _, hv⟩ := hvalidate validate h v
    rw [hv] at hr
    rw [returns_pure hr]

namespace Capability

/-- What the library makes gives the same result for the same value and coerces nothing but
numbers as text. -/
structure Stock (c : Capability σ) : Prop where
  repeatable : c.Repeatable
  coerced : (∀ v, c.coerced v = pure v) ∨ ∀ v, c.coerced v = pure (Numeric.convert v)

theorem formDecides_of_decides {c : Capability σ} {f : Fragment} (hf : c.inline? = some f) (h : Decides f c) :
    c.FormDecides := by
  intro g hg v s
  cases hf.symm.trans hg
  obtain ⟨r, hcheck, hholds⟩ := h.2 v
  rw [hcheck, hholds]
  rfl

theorem formAgrees_of_decides {c : Capability σ} {f : Fragment} (hf : c.inline? = some f) (h : Decides f c) :
    c.FormAgrees := (formDecides_of_decides hf h).formAgrees

/-! ## Coercing twice -/

theorem Numeric.convert_convert (v : Value) : convert (convert v) = convert v := by
  cases v with
  | text s =>
    cases h : exactly? s with
    | some x => simp only [convert, h]
    | none => simp only [convert, h]
  | _ => rfl

theorem Numeric.isUndefined_convert (v : Value) : (convert v).isUndefined = v.isUndefined := by
  cases v with
  | text s => cases h : exactly? s <;> simp [convert, h, Value.isUndefined]
  | _ => rfl

/-- A coerced value is there where the value was, and is coerced to itself. -/
theorem Stock.coerced_again {c : Capability σ} (h : c.Stock) {v w : Value} (hw : Returns (c.coerced v) w) :
    Returns (c.coerced w) w ∧ w.isUndefined = v.isUndefined := by
  obtain ⟨s, hs⟩ := hw
  rcases h.coerced with hc | hc <;> rw [hc] at hs <;> cases hs
  · exact ⟨⟨s, by rw [hc]; rfl⟩, rfl⟩
  · exact ⟨⟨s, by rw [hc, Numeric.convert_convert]; rfl⟩, Numeric.isUndefined_convert v⟩

/-! ## What is made without a coercion, and with one -/

theorem stock_ofTest (id : Nat) (name : String) (test : Value → Bool) (reason : Value → String)
    (inline? : Option Fragment) : (ofTest id name test reason inline? none : Capability σ).Stock where
  repeatable := repeatable_ofTest ..
  coerced := .inl fun _ => rfl

theorem stock_predicate {test : Value → Call σ Bool} (h : ∀ v, Call.Repeatable (test v)) (id : Nat) (name : String)
    (reason? : Option String) : (predicate id name test reason?).Stock where
  repeatable := ⟨fun v => (Always.pure v).repeatable,
    fun v => (h v).bind fun b => by cases b <;> exact (Always.pure _).repeatable⟩
  coerced := .inl fun _ => rfl

theorem stock_ofSchema {id : Nat} {compiler : SchemaCompiler σ} {schema : Value} {name? : Option String}
    {c : Capability σ} (hp : compiler.Pure schema) (h : ofSchema id compiler schema name? = .ok c) : c.Stock := by
  obtain ⟨name, validate, hcompile, rfl⟩ := ofSchema_eq_ok h
  refine ⟨⟨fun v => (Always.pure v).repeatable, fun v => (hp.repeatable validate hcompile v).bind fun r => ?_⟩,
    .inl fun _ => rfl⟩
  cases r.valid with
  | true => exact (Always.pure _).repeatable
  | false => exact (hp.errorsText r.errors).bind fun _ => (Always.pure _).repeatable

theorem repeatable_checkItems {check : Value → Call σ Verdict} (h : ∀ v, Call.Repeatable (check v)) (i : Nat)
    (items : List (Option Value)) : Call.Repeatable (checkItems check i items) := by
  induction items generalizing i with
  | nil => exact (Always.pure _).repeatable
  | cons o items ih =>
    cases o with
    | none => exact ih (i + 1)
    | some v =>
      refine (h v).bind fun r => ?_
      cases r with
      | passed => exact ih (i + 1)
      | rejected reason => exact (Always.pure _).repeatable

theorem stock_arrayOf {item : Capability σ} (h : item.Stock) (id : Nat) : (arrayOf id item).Stock where
  repeatable := by
    refine ⟨fun v => (Always.pure v).repeatable, fun v => ?_⟩
    cases v with
    | list items => exact repeatable_checkItems h.repeatable.checked 0 items
    | _ => exact (Always.pure _).repeatable
  coerced := .inl fun _ => rfl

theorem repeatable_tryEach {members : List (Capability σ)} (h : ∀ c ∈ members, c.Stock) (v : Value)
    (reasons : List String) : Call.Repeatable (Union.tryEach v members reasons) := by
  induction members generalizing reasons with
  | nil => exact (Always.pure _).repeatable
  | cons c members ih =>
    refine ((h c List.mem_cons_self).repeatable.checked v).bind fun r => ?_
    cases r with
    | passed => exact (Always.pure _).repeatable
    | rejected reason => exact ih (fun d hd => h d (List.mem_cons_of_mem _ hd)) _

theorem stock_union {members : List (Capability σ)} (h : ∀ c ∈ members, c.Stock) {id : Nat} {u : Capability σ}
    (hu : Union.capability id members = .ok u) : u.Stock := by
  unfold Union.capability at hu
  split at hu <;> cases hu
  refine ⟨⟨fun v => (Always.pure v).repeatable, fun v => (repeatable_tryEach h v []).bind fun r => ?_⟩, .inl fun _ => rfl⟩
  cases r <;> exact (Always.pure _).repeatable

/-- Null and undefined aside, the inner capability is asked. -/
theorem stock_maybe {inner : Capability σ} (h : inner.Stock) (id : Nat) : (maybe id inner).Stock where
  repeatable := by
    refine ⟨h.repeatable.coerced, fun v => ?_⟩
    show Call.Repeatable (if v.isAbsent then pure .passed else inner.check v)
    split
    · exact (Always.pure _).repeatable
    · exact h.repeatable.checked v
  coerced := h.coerced

theorem stock_numeric {inner : Capability σ} (h : inner.Stock) (id : Nat) : (Numeric.wrap id inner).Stock where
  repeatable := ⟨fun v => h.repeatable.coerced (Numeric.convert v), h.repeatable.checked⟩
  coerced := by
    refine .inr fun v => ?_
    show inner.coerced (Numeric.convert v) = _
    rcases h.coerced with hc | hc
    · rw [hc]
    · rw [hc, Numeric.convert_convert]

/-! ## Errors -/

section raises

variable {t : Thrown}

theorem not_raises_ofTest {id : Nat} {name : String} {test : Value → Bool} {reason : Value → String}
    {inline? : Option Fragment} : ¬ (ofTest id name test reason inline? none : Capability σ).Raises t := by
  rintro ⟨v, h | h⟩ <;> exact not_stops_pure h

theorem raises_predicate {id : Nat} {name : String} {test : Value → Call σ Bool} {reason? : Option String}
    (h : (predicate id name test reason?).Raises t) : ∃ v, Stops (test v) t := by
  obtain ⟨v, h | h⟩ := h
  · exact absurd h not_stops_pure
  · rcases stops_bind h with h | ⟨b, _, h⟩
    · exact ⟨v, h⟩
    · cases b <;> exact absurd h not_stops_pure

theorem raises_ofSchema {id : Nat} {compiler : SchemaCompiler σ} {schema : Value} {name? : Option String}
    {c : Capability σ} (hc : ofSchema id compiler schema name? = .ok c) (h : c.Raises t) :
    compiler.Raises schema t := by
  obtain ⟨name, validate, hcompile, rfl⟩ := ofSchema_eq_ok hc
  obtain ⟨v, h | h⟩ := h
  · exact absurd h not_stops_pure
  · rcases stops_bind h with h | ⟨r, _, h⟩
    · exact .validate hcompile h
    · split at h
      · exact absurd h not_stops_pure
      · rcases stops_bind h with h | ⟨_, _, h⟩
        · exact .errorsText h
        · exact absurd h not_stops_pure

theorem stops_checkItems {check : Value → Call σ Verdict} {i : Nat} {items : List (Option Value)}
    (h : Stops (checkItems check i items) t) : ∃ v, Stops (check v) t := by
  induction items generalizing i with
  | nil => exact absurd h not_stops_pure
  | cons item items ih =>
    cases item with
    | none => exact ih h
    | some v =>
      rcases stops_bind h with h | ⟨r, _, h⟩
      · exact ⟨v, h⟩
      · cases r with
        | passed => exact ih h
        | rejected reason => exact absurd h not_stops_pure

theorem raises_arrayOf {id : Nat} {item : Capability σ} (h : (arrayOf id item).Raises t) : item.Raises t := by
  obtain ⟨v, h | h⟩ := h
  · exact absurd h not_stops_pure
  · cases v with
    | list items =>
      obtain ⟨w, hw⟩ := stops_checkItems h
      exact ⟨w, .inr hw⟩
    | _ => exact absurd h not_stops_pure

theorem stops_tryEach {v : Value} {members : List (Capability σ)} {reasons : List String}
    (h : Stops (Union.tryEach v members reasons) t) : ∃ c ∈ members, c.Raises t := by
  induction members generalizing reasons with
  | nil => exact absurd h not_stops_pure
  | cons c members ih =>
    rcases stops_bind h with h | ⟨r, _, h⟩
    · exact ⟨c, List.mem_cons_self, v, .inr h⟩
    · cases r with
      | passed => exact absurd h not_stops_pure
      | rejected reason =>
        obtain ⟨d, hd, hr⟩ := ih h
        exact ⟨d, List.mem_cons_of_mem _ hd, hr⟩

theorem raises_union {members : List (Capability σ)} {id : Nat} {u : Capability σ}
    (hu : Union.capability id members = .ok u) (h : u.Raises t) : ∃ c ∈ members, c.Raises t := by
  unfold Union.capability at hu
  split at hu <;> cases hu
  obtain ⟨v, h | h⟩ := h
  · exact absurd h not_stops_pure
  · rcases stops_bind h with h | ⟨r, _, h⟩
    · exact stops_tryEach h
    · cases r <;> exact absurd h not_stops_pure

theorem raises_maybe {id : Nat} {inner : Capability σ} (h : (maybe id inner).Raises t) : inner.Raises t := by
  obtain ⟨v, h | h⟩ := h
  · exact ⟨v, .inl h⟩
  · have h : Stops (if v.isAbsent then pure .passed else inner.check v) t := h
    split at h
    · exact absurd h not_stops_pure
    · exact ⟨v, .inr h⟩

theorem raises_numeric {id : Nat} {inner : Capability σ} (h : (Numeric.wrap id inner).Raises t) : inner.Raises t := by
  obtain ⟨v, h | h⟩ := h
  · exact ⟨Numeric.convert v, .inl h⟩
  · exact ⟨v, .inr h⟩

end raises

end Capability

/-! ## Expressions -/

namespace TypeExpr

mutual

/-- Every predicate gives the same result for the same value, and validating by a schema is pure. -/
def PurePredicates : TypeExpr σ → Prop
  | .predicate _ _ test _ => ∀ v, Call.Repeatable (test v)
  | .schema _ compiler given _ => compiler.Pure given
  | .arrayOf _ item => item.PurePredicates
  | .maybe _ inner => inner.PurePredicates
  | .union _ members => AllPure members
  | .numeric _ inner => inner.PurePredicates
  | _ => True

def AllPure : List (TypeExpr σ) → Prop
  | [] => True
  | e :: es => e.PurePredicates ∧ AllPure es

end

mutual

theorem stock_build : ∀ (e : TypeExpr σ) (c : Capability σ), e.PurePredicates → e.build = .ok c → c.Stock
  | .scalar id s, c, _, h => by
    cases h
    exact Capability.stock_ofTest ..
  | .enumOf id values name?, c, _, h => by
    simp only [build, Capability.Enumeration.capability] at h
    split at h <;> cases h
    exact Capability.stock_ofTest ..
  | .instanceOf id cls name, c, _, h => by
    cases h
    exact Capability.stock_ofTest ..
  | .predicate id name test reason?, c, hp, h => by
    cases h
    exact Capability.stock_predicate hp id name reason?
  | .schema id compiler given name?, c, hp, h => Capability.stock_ofSchema hp h
  | .arrayOf id item, c, hp, h => by
    obtain ⟨d, hd, rfl⟩ := arrayOf_eq_ok h
    exact Capability.stock_arrayOf (stock_build item d hp hd) id
  | .maybe id inner, c, hp, h => by
    obtain ⟨d, hd, rfl⟩ := maybe_eq_ok h
    exact Capability.stock_maybe (stock_build inner d hp hd) id
  | .union id members, c, hp, h => by
    obtain ⟨ds, hds, h⟩ := union_eq_ok h
    exact Capability.stock_union (stock_buildAll members ds hp hds) h
  | .numeric id inner, c, hp, h => by
    obtain ⟨d, hd, rfl⟩ := numeric_eq_ok h
    exact Capability.stock_numeric (stock_build inner d hp hd) id

theorem stock_buildAll : ∀ (es : List (TypeExpr σ)) (cs : List (Capability σ)), AllPure es → buildAll es = .ok cs →
    ∀ c ∈ cs, c.Stock
  | [], cs, _, h => by
    cases h
    exact fun _ hc => nomatch hc
  | e :: es, cs, hp, h => by
    obtain ⟨c, ds, hc, hds, rfl⟩ := cons_eq_ok h
    exact List.forall_mem_cons.mpr ⟨stock_build e c hp.1 hc, stock_buildAll es ds hp.2 hds⟩

end

theorem formDecides_build {e : TypeExpr σ} {c : Capability σ} (h : e.build = .ok c) : c.FormDecides := by
  have hagrees := agrees_build e c h
  cases hg : e.hasGenericLeaf with
  | true =>
    rw [hg] at hagrees
    have hnone : c.inline? = none := hagrees
    exact fun f hf => nomatch hnone.symm.trans hf
  | false =>
    rw [hg] at hagrees
    obtain ⟨f, hf, hdecides⟩ := hagrees
    exact Capability.formDecides_of_decides hf hdecides

/-! ### Errors -/

mutual

/-- An error that some predicate of the expression stops with, or validating by a schema does. -/
def Raises (t : Thrown) : TypeExpr σ → Prop
  | .predicate _ _ test _ => ∃ v, Stops (test v) t
  | .schema _ compiler given _ => compiler.Raises given t
  | .arrayOf _ item => item.Raises t
  | .maybe _ inner => inner.Raises t
  | .union _ members => AnyRaises t members
  | .numeric _ inner => inner.Raises t
  | _ => False

def AnyRaises (t : Thrown) : List (TypeExpr σ) → Prop
  | [] => False
  | e :: es => e.Raises t ∨ AnyRaises t es

end

mutual

/-- What the library makes stops with an error only where a predicate or validating does. -/
theorem raises_build {t : Thrown} : ∀ (e : TypeExpr σ) (c : Capability σ), e.build = .ok c → c.Raises t → e.Raises t
  | .scalar id s, c, h, hr => by
    cases h
    exact absurd hr Capability.not_raises_ofTest
  | .enumOf id values name?, c, h, hr => by
    simp only [build, Capability.Enumeration.capability] at h
    split at h <;> cases h
    exact absurd hr Capability.not_raises_ofTest
  | .instanceOf id cls name, c, h, hr => by
    cases h
    exact absurd hr Capability.not_raises_ofTest
  | .predicate id name test reason?, c, h, hr => by
    cases h
    exact Capability.raises_predicate hr
  | .schema id compiler given name?, c, h, hr => Capability.raises_ofSchema h hr
  | .arrayOf id item, c, h, hr => by
    obtain ⟨d, hd, rfl⟩ := arrayOf_eq_ok h
    exact raises_build item d hd (Capability.raises_arrayOf hr)
  | .maybe id inner, c, h, hr => by
    obtain ⟨d, hd, rfl⟩ := maybe_eq_ok h
    exact raises_build inner d hd (Capability.raises_maybe hr)
  | .union id members, c, h, hr => by
    obtain ⟨ds, hds, h⟩ := union_eq_ok h
    exact raises_buildAll members ds hds (Capability.raises_union h hr)
  | .numeric id inner, c, h, hr => by
    obtain ⟨d, hd, rfl⟩ := numeric_eq_ok h
    exact raises_build inner d hd (Capability.raises_numeric hr)

theorem raises_buildAll {t : Thrown} : ∀ (es : List (TypeExpr σ)) (cs : List (Capability σ)), buildAll es = .ok cs →
    (∃ c ∈ cs, c.Raises t) → AnyRaises t es
  | [], cs, h, hr => by
    cases h
    obtain ⟨c, hc, _⟩ := hr
    cases hc
  | e :: es, cs, h, hr => by
    obtain ⟨d, ds, hd, hds, rfl⟩ := cons_eq_ok h
    obtain ⟨c, hc, hr⟩ := hr
    rcases List.mem_cons.mp hc with rfl | hc
    · exact .inl (raises_build e c hd hr)
    · exact .inr (raises_buildAll es ds hds ⟨c, hc, hr⟩)

end

end TypeExpr

/-- A capability that gives the same answer for the same value, on either path, and reports a
rejected value by its verdict only. -/
structure Capability.Reliable (c : Capability σ) : Prop where
  repeatable : c.Repeatable
  formDecides : c.FormDecides
  quiet : ∀ f, ¬ c.Raises (.call f)

/-- What the library makes is reliable where the predicates are. -/
theorem TypeExpr.reliable_build {e : TypeExpr σ} {c : Capability σ} (hp : e.PurePredicates)
    (hquiet : ∀ f, ¬ e.Raises (.call f)) (h : e.build = .ok c) : c.Reliable where
  repeatable := (e.stock_build c hp h).repeatable
  formDecides := formDecides_build h
  quiet f hf := hquiet f (e.raises_build c h hf)

theorem Capability.reliable_scalar (id : Nat) (s : Capability.Scalar) : (s.capability id : Capability σ).Reliable :=
  TypeExpr.reliable_build (show (TypeExpr.scalar id s).PurePredicates from trivial) (fun _ h => h) rfl

/-- A capability that the library makes of pure predicates and schemas. -/
def Capability.FromLibrary (c : Capability σ) : Prop := ∃ e : TypeExpr σ, e.PurePredicates ∧ e.build = .ok c

theorem Capability.FromLibrary.stock {c : Capability σ} (h : c.FromLibrary) : c.Stock ∧ c.FormAgrees := by
  obtain ⟨e, hp, he⟩ := h
  exact ⟨e.stock_build c hp he, (TypeExpr.formDecides_build he).formAgrees⟩

theorem Capability.fromLibrary_scalar (id : Nat) (s : Capability.Scalar) : (s.capability id : Capability σ).FromLibrary :=
  ⟨.scalar id s, trivial, rfl⟩

end ArgGuard
