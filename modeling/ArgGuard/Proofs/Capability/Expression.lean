/-
  ArgGuard.Proofs.Capability.Expression — everything the stock library can express.

  An expression is a stock capability or is made of other expressions; `build` makes the
  capability with the constructors of the library, and what a schema means is left to any
  compiler. A leaf is generic only when generated text cannot say what it tests: an instance,
  a predicate, a schema or an enumeration that lists a NaN. An expression has an inline form
  exactly when no leaf is generic only, and the form holds of exactly the values that pass
  (`inline_form_agrees`), by one law for each constructor.
-/

import ArgGuard.Proofs.Call
import ArgGuard.Proofs.Capability.Inline
import ArgGuard.Schema.Compiler

namespace ArgGuard

open Call

variable {σ : Type}

/-! ## Schemas -/

namespace Capability

/-- The capability of a schema asks what the compiler made of it. -/
theorem ofSchema_eq_ok {id : Nat} {compiler : SchemaCompiler σ} {schema : Value} {name? : Option String}
    {c : Capability σ} (h : ofSchema id compiler schema name? = .ok c) :
    ∃ name validate, compiler.compile schema = .ok validate ∧
      c = ⟨id, name, checkSchema compiler validate, none, none⟩ := by
  obtain ⟨name, _, h⟩ := except_bind_ok h
  obtain ⟨async, _, h⟩ := except_bind_ok h
  split at h
  · cases h
  split at h
  · cases h
  · rename_i validate hcompile
    cases h
    exact ⟨name, validate, hcompile, rfl⟩

/-- A schema that is there, is not asynchronous and compiles has a capability. -/
theorem exists_ofSchema {compiler : SchemaCompiler σ} {schema : Value} (id : Nat) (name? : Option String)
    (hthere : schema.isAbsent = false) (hasync : (schema.get "$async").identical (.bool true) = false)
    (hcompile : (compiler.compile schema).isOk = true) : ∃ c, ofSchema id compiler schema name? = .ok c := by
  obtain ⟨name, hname⟩ : ∃ name, schemaName name? schema = .ok name := by
    cases name? with
    | some name => exact ⟨name, rfl⟩
    | none =>
      simp only [schemaName, hthere, Bool.false_eq_true, if_false]
      split <;> exact ⟨_, rfl⟩
  have hsync : isAsyncSchema schema = .ok false := by
    unfold isAsyncSchema
    split
    · cases hthere
    · simp [hasync]
  cases hvalidate : compiler.compile schema with
  | error detail =>
    rw [hvalidate] at hcompile
    cases hcompile
  | ok validate =>
    exact ⟨_, by simp only [ofSchema, hname, hsync, hvalidate, bind, Except.bind]; rfl⟩

end Capability

/-! ## Expressions -/

/-- Capabilities as the library lets one write them; each carries its identity. -/
inductive TypeExpr (σ : Type) where
  | scalar (id : Nat) (s : Capability.Scalar)
  | enumOf (id : Nat) (values : List Capability.Constant) (name? : Option String)
  | instanceOf (id : Nat) (cls name : String)
  | predicate (id : Nat) (name : String) (test : Value → Call σ Bool) (reason? : Option String)
  | schema (id : Nat) (compiler : SchemaCompiler σ) (given : Value) (name? : Option String)
  | arrayOf (id : Nat) (item : TypeExpr σ)
  | maybe (id : Nat) (inner : TypeExpr σ)
  | union (id : Nat) (members : List (TypeExpr σ))
  | numeric (id : Nat) (inner : TypeExpr σ)

namespace TypeExpr

mutual

/-- Makes the capability of an expression. A union without members makes none, nor does a schema
that its compiler refuses. -/
def build : TypeExpr σ → Except Thrown (Capability σ)
  | .scalar id s => .ok (s.capability id)
  | .enumOf id values name? => Capability.Enumeration.capability id (values.map (·.value)) name?
  | .instanceOf id cls name => .ok (Capability.instanceOf id cls name)
  | .predicate id name test reason? => .ok (Capability.predicate id name test reason?)
  | .schema id compiler given name? => Capability.ofSchema id compiler given name?
  | .arrayOf id item => do .ok (Capability.arrayOf id (← item.build))
  | .maybe id inner => do .ok (Capability.maybe id (← inner.build))
  | .union id members => do Capability.Union.capability id (← buildAll members)
  | .numeric id inner => do .ok (Capability.Numeric.wrap id (← inner.build))

def buildAll : List (TypeExpr σ) → Except Thrown (List (Capability σ))
  | [] => .ok []
  | e :: es => do .ok ((← e.build) :: (← buildAll es))

end

mutual

/-- Whether some leaf is generic only. -/
def hasGenericLeaf : TypeExpr σ → Bool
  | .scalar .. => false
  | .enumOf _ values _ => values.any (·.isNaN)
  | .instanceOf .. => true
  | .predicate .. => true
  | .schema .. => true
  | .arrayOf _ item => item.hasGenericLeaf
  | .maybe _ inner => inner.hasGenericLeaf
  | .union _ members => anyGenericLeaf members
  | .numeric _ inner => inner.hasGenericLeaf

def anyGenericLeaf : List (TypeExpr σ) → Bool
  | [] => false
  | e :: es => e.hasGenericLeaf || anyGenericLeaf es

end

mutual

/-- Every union has members, and every schema is there, is not asynchronous and compiles. -/
def buildable : TypeExpr σ → Bool
  | .schema _ compiler given _ =>
    !given.isAbsent && !(given.get "$async").identical (.bool true) && (compiler.compile given).isOk
  | .arrayOf _ item => item.buildable
  | .maybe _ inner => inner.buildable
  | .union _ members => !members.isEmpty && allBuildable members
  | .numeric _ inner => inner.buildable
  | _ => true

def allBuildable : List (TypeExpr σ) → Bool
  | [] => true
  | e :: es => e.buildable && allBuildable es

end

mutual

/-- A capability is made of every expression but those. -/
theorem exists_build : ∀ e : TypeExpr σ, e.buildable = true → ∃ c, e.build = .ok c
  | .scalar id s, _ => ⟨_, rfl⟩
  | .enumOf id values name?, _ => by
    obtain ⟨c, hc, _⟩ := Capability.enumeration_eq (σ := σ) id values name?
    exact ⟨c, hc⟩
  | .instanceOf id cls name, _ => ⟨_, rfl⟩
  | .predicate id name test reason?, _ => ⟨_, rfl⟩
  | .schema id compiler given name?, h => by
    simp only [buildable, Bool.and_eq_true, Bool.not_eq_true'] at h
    exact Capability.exists_ofSchema id name? h.1.1 h.1.2 h.2
  | .arrayOf id item, h => by
    obtain ⟨c, hc⟩ := exists_build item h
    exact ⟨_, by rw [build, hc]; rfl⟩
  | .maybe id inner, h => by
    obtain ⟨c, hc⟩ := exists_build inner h
    exact ⟨_, by rw [build, hc]; rfl⟩
  | .union id members, h => by
    simp only [buildable, Bool.and_eq_true, Bool.not_eq_true'] at h
    obtain ⟨cs, hcs, hlength⟩ := exists_buildAll members h.2
    have hne : cs.isEmpty = false := by
      cases cs with
      | nil => simp [List.length_eq_zero_iff.mp hlength.symm] at h
      | cons c cs => rfl
    exact ⟨_, by rw [build, hcs]; simp only [bind, Except.bind, Capability.Union.capability, hne]; rfl⟩
  | .numeric id inner, h => by
    obtain ⟨c, hc⟩ := exists_build inner h
    exact ⟨_, by rw [build, hc]; rfl⟩

theorem exists_buildAll : ∀ es : List (TypeExpr σ), allBuildable es = true →
    ∃ cs, buildAll es = .ok cs ∧ cs.length = es.length
  | [], _ => ⟨[], rfl, rfl⟩
  | e :: es, h => by
    simp only [allBuildable, Bool.and_eq_true] at h
    obtain ⟨c, hc⟩ := exists_build e h.1
    obtain ⟨cs, hcs, hlength⟩ := exists_buildAll es h.2
    exact ⟨c :: cs, by rw [buildAll, hc, hcs]; rfl, by simp [hlength]⟩

end

/-! ### What an expression was made from -/

section made

variable {id : Nat} {c : Capability σ}

theorem arrayOf_eq_ok {item : TypeExpr σ} (h : (arrayOf id item).build = .ok c) :
    ∃ d, item.build = .ok d ∧ c = .arrayOf id d := by
  rw [build] at h
  obtain ⟨d, hd, h⟩ := except_bind_ok h
  cases h
  exact ⟨d, hd, rfl⟩

theorem maybe_eq_ok {inner : TypeExpr σ} (h : (maybe id inner).build = .ok c) :
    ∃ d, inner.build = .ok d ∧ c = .maybe id d := by
  rw [build] at h
  obtain ⟨d, hd, h⟩ := except_bind_ok h
  cases h
  exact ⟨d, hd, rfl⟩

theorem numeric_eq_ok {inner : TypeExpr σ} (h : (numeric id inner).build = .ok c) :
    ∃ d, inner.build = .ok d ∧ c = Capability.Numeric.wrap id d := by
  rw [build] at h
  obtain ⟨d, hd, h⟩ := except_bind_ok h
  cases h
  exact ⟨d, hd, rfl⟩

theorem union_eq_ok {members : List (TypeExpr σ)} (h : (union id members).build = .ok c) :
    ∃ ds, buildAll members = .ok ds ∧ Capability.Union.capability id ds = .ok c := by
  rw [build] at h
  exact except_bind_ok h

theorem cons_eq_ok {e : TypeExpr σ} {es : List (TypeExpr σ)} {cs : List (Capability σ)}
    (h : buildAll (e :: es) = .ok cs) : ∃ d ds, e.build = .ok d ∧ buildAll es = .ok ds ∧ cs = d :: ds := by
  rw [buildAll] at h
  obtain ⟨d, hd, h⟩ := except_bind_ok h
  obtain ⟨ds, hds, h⟩ := except_bind_ok h
  cases h
  exact ⟨d, ds, hd, hds, rfl⟩

end made

/-! ## What an inline form that may be missing says -/

/-- No inline form where a leaf is generic only, else one that decides the capability. -/
def Agrees (generic : Bool) (c : Capability σ) : Prop :=
  if generic then c.inline? = none else ∃ f, c.inline? = some f ∧ Capability.Decides f c

/-- All members have an inline form that decides them, or some member has none. -/
def AllAgree (generic : Bool) (cs : List (Capability σ)) : Prop :=
  if generic then cs.mapM (·.inline?) = none
  else ∃ fs, cs.mapM (·.inline?) = some fs ∧ List.Forall₂ Capability.Decides fs cs

/-- A capability over one other has an inline form when that has one. -/
theorem agrees_map {generic : Bool} {c d : Capability σ} {φ : Fragment → Fragment} (h : Agrees generic c)
    (hd : d.inline? = c.inline?.map φ) (hφ : ∀ f, Capability.Decides f c → Capability.Decides (φ f) d) :
    Agrees generic d := by
  cases generic with
  | true =>
    have hc : c.inline? = none := h
    show d.inline? = none
    rw [hd, hc]
    rfl
  | false =>
    obtain ⟨f, hf, hdec⟩ := h
    exact ⟨φ f, by rw [hd, hf]; rfl, hφ f hdec⟩

theorem allAgree_cons {a b : Bool} {c : Capability σ} {cs : List (Capability σ)} (h : Agrees a c) (hs : AllAgree b cs) :
    AllAgree (a || b) (c :: cs) := by
  cases a with
  | true =>
    have hc : c.inline? = none := h
    show List.mapM _ _ = none
    simp [hc]
  | false =>
    obtain ⟨f, hf, hdec⟩ := h
    cases b with
    | true =>
      have hcs : cs.mapM (·.inline?) = none := hs
      show List.mapM _ _ = none
      simp [hf, hcs]
    | false =>
      obtain ⟨fs, hfs, hdecs⟩ := hs
      exact ⟨f :: fs, by simp [hf, hfs], .cons hdec hdecs⟩

theorem agrees_union {id : Nat} {generic : Bool} {cs : List (Capability σ)} {u : Capability σ}
    (h : AllAgree generic cs) (hu : Capability.Union.capability id cs = .ok u) : Agrees generic u := by
  have hne : cs ≠ [] := by
    rintro rfl
    cases hu
  have hinline : u.inline? = Capability.Union.fragment? cs := (Capability.Union.capability_eq hu).2.1
  cases generic with
  | true =>
    have hcs : cs.mapM (·.inline?) = none := h
    show u.inline? = none
    rw [hinline, Capability.Union.fragment?, hcs]
  | false =>
    obtain ⟨fs, hfs, hdecs⟩ := h
    cases hdecs with
    | nil => exact absurd rfl hne
    | cons hdec hdecs =>
      refine ⟨_, ?_, Capability.decides_union (.cons hdec hdecs) hu⟩
      rw [hinline, Capability.Union.fragment?, hfs]

/-! ## The theorem -/

mutual

theorem agrees_build : ∀ (e : TypeExpr σ) (c : Capability σ), e.build = .ok c → Agrees e.hasGenericLeaf c
  | .scalar id s, c, h => by
    cases h
    exact ⟨s.fragment, rfl, Capability.decides_scalar s id⟩
  | .enumOf id values name?, c, h => by
    simp only [build] at h
    obtain ⟨d, hd, hinline⟩ := Capability.enumeration_eq (σ := σ) id values name?
    rw [h] at hd
    cases hd
    cases hv : values.any (·.isNaN) with
    | true => simpa [hasGenericLeaf, Agrees, hv] using hinline
    | false =>
      simp only [hasGenericLeaf, Agrees, hv] at hinline ⊢
      exact ⟨_, hinline, Capability.decides_enumeration hv h⟩
  | .instanceOf id cls name, c, h => by
    cases h
    rfl
  | .predicate id name test reason?, c, h => by
    cases h
    rfl
  | .schema id compiler given name?, c, h => by
    obtain ⟨name, validate, _, rfl⟩ := Capability.ofSchema_eq_ok h
    rfl
  | .arrayOf id item, c, h => by
    obtain ⟨d, hd, rfl⟩ := arrayOf_eq_ok h
    exact agrees_map (agrees_build item d hd) rfl fun f hf => Capability.decides_arrayOf hf id
  | .maybe id inner, c, h => by
    obtain ⟨d, hd, rfl⟩ := maybe_eq_ok h
    exact agrees_map (agrees_build inner d hd) rfl fun f hf => Capability.decides_maybe hf id
  | .union id members, c, h => by
    obtain ⟨ds, hds, h⟩ := union_eq_ok h
    exact agrees_union (allAgree_build members ds hds) h
  | .numeric id inner, c, h => by
    obtain ⟨d, hd, rfl⟩ := numeric_eq_ok h
    refine agrees_map (φ := fun f => f) (agrees_build inner d hd) ?_ fun f hf => Capability.decides_numeric hf id
    simp [Capability.Numeric.wrap]

theorem allAgree_build :
    ∀ (es : List (TypeExpr σ)) (cs : List (Capability σ)), buildAll es = .ok cs → AllAgree (anyGenericLeaf es) cs
  | [], cs, h => by
    cases h
    exact ⟨[], rfl, .nil⟩
  | e :: es, cs, h => by
    obtain ⟨c, ds, hc, hds, rfl⟩ := cons_eq_ok h
    exact allAgree_cons (agrees_build e c hc) (allAgree_build es ds hds)

end

/-- A capability of the stock library has an inline form exactly when no leaf is generic only,
and the form holds exactly of what its check passes. -/
theorem inline_form_agrees (e : TypeExpr σ) {c : Capability σ} (h : e.build = .ok c) :
    (c.inline?.isSome = true ↔ e.hasGenericLeaf = false) ∧
    ∀ f, c.inline? = some f → f.wellFormed = true ∧
      ∀ v s, ∃ r, start (c.check v) s = (.ok r, s) ∧ f.holds v = .ok r.isPassed := by
  have hagrees := agrees_build e c h
  cases hg : e.hasGenericLeaf with
  | true =>
    rw [hg] at hagrees
    have hn : c.inline? = none := hagrees
    exact ⟨by simp [hn], fun f hf => by rw [hn] at hf; cases hf⟩
  | false =>
    rw [hg] at hagrees
    obtain ⟨f, hf, hdec⟩ := hagrees
    refine ⟨by simp [hf], fun g hgf => ?_⟩
    rw [hf] at hgf
    cases hgf
    refine ⟨hdec.1, fun v s => ?_⟩
    obtain ⟨r, hcheck, hholds⟩ := hdec.2 v
    exact ⟨r, by rw [hcheck]; rfl, hholds⟩

/-- Lists of one word, null or integers, as numbers or as text. -/
def tags : TypeExpr Unit :=
  .arrayOf 1 (.union 2 [.enumOf 3 [.text "all", .null] none, .numeric 4 (.scalar 5 .int)])

/-- The same or a text of at least two characters, which a schema says. -/
def labels : TypeExpr Unit :=
  .union 6 [tags, .schema 7 (Schema.compiler false) (.record [("type", .text "string"), ("minLength", .nat 2)]) none]

theorem inline_form_agrees_tags :
    (∃ c, tags.build = .ok c ∧ c.inline?.isSome = true ∧ ∀ f, c.inline? = some f → f.wellFormed = true ∧
      ∀ v s, ∃ r, start (c.check v) s = (.ok r, s) ∧ f.holds v = .ok r.isPassed) ∧
    ∃ c, labels.build = .ok c ∧ c.inline?.isSome = false := by
  obtain ⟨c, hc⟩ := exists_build tags rfl
  obtain ⟨d, hd⟩ := exists_build labels (by decide +kernel)
  refine ⟨⟨c, hc, (inline_form_agrees tags hc).1.mpr rfl, (inline_form_agrees tags hc).2⟩, d, hd, ?_⟩
  rw [Bool.eq_false_iff]
  exact fun hform => nomatch (inline_form_agrees labels hd).1.mp hform

end TypeExpr

end ArgGuard
